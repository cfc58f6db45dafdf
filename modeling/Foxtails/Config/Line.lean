/-
  The lines of a configuration file, as `config_get` and `routes_parse` read them.

  Model (read this before the theorems). Both loops look for the next newline of the mapped
  file, pass over a line that is empty or begins with `#`, and copy any other one with
  `pstrndup`; what follows the last newline is never looked at. The length of a line is an
  `int`: a line of 2^31 bytes or more is copied with what is left of its length, which counts
  as a `size_t` again where the `int` is negative. `readLine` is `outside` where the copy would
  be made of bytes behind the end of the file.

  A read that leaves the file goes on with the bytes behind it in memory. Where these matter, the
  file is a `Mapping`, and its lines are `memoryLines`.

  * `readLine_whole`, `readLine_cut`: the copy of a line whose length is not negative.
  * `readLine_negative`: without a NUL in the file there is none where it is.
  * `readLine_extend`: what is appended to the file does not change a line that is read in it.
-/
import Foxtails.Lib.Lines
import Foxtails.Lib.Object

namespace Foxtails.Config

open Foxtails.Lib.Scan Foxtails.Lib.Libc Foxtails.Lib.Lines Foxtails.Lib.Object

/-- `#`. -/
abbrev HASH : Byte := 35

/-- A mapped file. Its size is an `off_t`. -/
structure File where
  bytes : Bytes
  size_lt : bytes.length < 2 ^ 63

/-- A mapped file with the bytes behind it, which a read that leaves the file goes on with. -/
structure Mapping where
  file : File
  behind : Bytes
  size_lt : (file.bytes ++ behind).length < 2 ^ 63

/-- The lines of the file, each with all that follows it in memory. -/
def Mapping.memoryLines (m : Mapping) : List (Line Byte) :=
  (lines LF m.file.bytes).map fun l => l.extend m.behind

/-- Two NULs are to come, as in a page that the file does not fill. -/
def Padded (bs : Bytes) : Prop := 2 ≤ bs.count NUL

instance (bs : Bytes) : Decidable (Padded bs) := inferInstanceAs (Decidable (_ ≤ _))

/-- `line_len`. -/
def lineLen (l : Line Byte) : Int := castInt l.text.length

inductive Reading where
  /-- The loop goes on with the next line. -/
  | passed
  /-- The copy would be made of bytes outside the file. -/
  | outside
  | copy (str : Bytes)
  deriving DecidableEq

/-- The beginning of the loop, up to the copy of the line. The source tests the length first. -/
def readLine (l : Line Byte) : Reading :=
  if l.text.head? = some HASH ∨ lineLen l = 0 then .passed
  else
    match readStr (l.toEnd LF) (castSize (lineLen l)) with
    | none => .outside
    | some str => .copy str

variable {l : Line Byte}

/-- The lines of a file are in the file. -/
theorem length_lt_of_mem {f : File} (hl : l ∈ lines LF f.bytes) :
    (l.toEnd LF).length < 2 ^ 63 :=
  (mem_lines hl).2.length_le.trans_lt f.size_lt

theorem length_lt_of_mem_memoryLines {m : Mapping} (hl : l ∈ m.memoryLines) :
    (l.toEnd LF).length < 2 ^ 63 := by
  obtain ⟨l', hl', rfl⟩ := List.mem_map.mp hl
  have hle := (mem_lines hl').2.length_le
  have hlt := m.size_lt
  rw [List.length_append] at hlt
  rw [Line.toEnd_extend, List.length_append]
  omega

/-- Where nothing can be read behind the file, the lines are those of the file. -/
theorem memoryLines_nil {m : Mapping} (h : m.behind = []) :
    m.memoryLines = lines LF m.file.bytes := by
  unfold Mapping.memoryLines
  rw [h]
  refine (List.map_congr_left fun l _ => ?_).trans (List.map_id _)
  rw [Line.extend, List.append_nil]
  rfl

theorem padded_of_mem_memoryLines {m : Mapping} (h : Padded m.behind) (hl : l ∈ m.memoryLines) :
    Padded l.rest := by
  obtain ⟨l', -, rfl⟩ := List.mem_map.mp hl
  have hcount : (l'.rest ++ m.behind).count NUL = _ := List.count_append
  unfold Padded at h ⊢
  rw [Line.extend, hcount]
  omega

theorem readLine_passed (h : l.text.head? = some HASH ∨ lineLen l = 0) : readLine l = .passed := by
  unfold readLine
  rw [if_pos h]

theorem readLine_nil (h : l.text = []) : readLine l = .passed := by
  refine readLine_passed (.inr ?_)
  rw [lineLen, h, List.length_nil, castInt_of_lt (by decide), Nat.cast_zero]

theorem readLine_not_passed (h : ¬ (l.text.head? = some HASH ∨ lineLen l = 0)) :
    readLine l = match readStr (l.toEnd LF) (castSize (lineLen l)) with
      | none => .outside
      | some str => .copy str := by
  conv_lhs => rw [readLine]
  rw [if_neg h]

/-- A copy that is too long ends at a NUL. -/
theorem readLine_ne_outside (hnul : NUL ∈ l.toEnd LF) : readLine l ≠ .outside := by
  by_cases h : l.text.head? = some HASH ∨ lineLen l = 0
  · rw [readLine_passed h]
    exact Reading.noConfusion
  · rw [readLine_not_passed h, readStr_of_mem _ hnul]
    exact Reading.noConfusion

/-- A positive length is that of a part of the line. -/
theorem lineLen_cut (h : 0 < lineLen l) :
    ∃ n : Nat, lineLen l = n ∧ castSize (lineLen l) = n ∧ 0 < n ∧ n ≤ l.text.length := by
  have hle : lineLen l ≤ l.text.length := castInt_le h.le
  have hbound : lineLen l < 2 ^ 31 := (castInt_bounds _).2
  refine ⟨(lineLen l).toNat, ?_, castSize_of_nonneg h.le hbound, ?_, ?_⟩ <;> omega

/-- The copy is the part of the line that the length leaves, up to a NUL in it. -/
theorem readLine_cut {n : Nat} (hlen : lineLen l = n) (hpos : 0 < n) (hn : n ≤ l.text.length)
    (hcomment : l.text.head? ≠ some HASH) : readLine l = .copy (upto NUL (l.text.take n)) := by
  obtain ⟨n', hlen', hsize, -, -⟩ := lineLen_cut (l := l) (by omega)
  obtain rfl : n = n' := by omega
  have hobj : n ≤ (l.toEnd LF).length := by
    rw [Line.toEnd, List.length_append]
    omega
  rw [readLine_not_passed, hsize, readStr_of_le hobj]
  · show Reading.copy (upto NUL ((l.text ++ LF :: l.rest).take n)) = _
    rw [List.take_append_of_le_length hn]
  · rw [not_or]
    exact ⟨hcomment, by omega⟩

/-- A line that fits an `int` is copied whole. -/
theorem readLine_whole (hne : l.text ≠ []) (hlen : l.text.length < 2 ^ 31)
    (hcomment : l.text.head? ≠ some HASH) : readLine l = .copy (upto NUL l.text) := by
  have h := readLine_cut (castInt_of_lt hlen) (List.length_pos_of_ne_nil hne) le_rfl hcomment
  rwa [List.take_length] at h

/-- A negative length is a huge `size_t`: the copy goes on to the next NUL. -/
theorem readLine_negative (hsize : (l.toEnd LF).length < 2 ^ 63) (h : lineLen l < 0)
    (hcomment : l.text.head? ≠ some HASH) :
    readLine l = if NUL ∈ l.toEnd LF then .copy (upto NUL (l.toEnd LF)) else .outside := by
  have hhuge : 2 ^ 63 ≤ castSize (lineLen l) := castSize_of_neg h (castInt_bounds _).1
  rw [readLine_not_passed, readStr]
  · by_cases hnul : NUL ∈ l.toEnd LF
    · rw [if_pos (.inr hnul), if_pos hnul]
      show Reading.copy (upto NUL ((l.toEnd LF).take _)) = _
      rw [List.take_of_length_le (by omega)]
    · rw [if_neg (by rw [not_or]; exact ⟨by omega, hnul⟩), if_neg hnul]
  · rw [not_or]
    exact ⟨hcomment, by omega⟩

/-- A copy is a string that is read from the beginning of the line on. -/
theorem readLine_copy {str : Bytes} (h : readLine l = .copy str) :
    ∃ n, 0 < n ∧ readStr (l.toEnd LF) n = some str := by
  by_cases hpassed : l.text.head? = some HASH ∨ lineLen l = 0
  · rw [readLine_passed hpassed] at h
    cases h
  · rw [readLine_not_passed hpassed] at h
    refine ⟨castSize (lineLen l), ?_, ?_⟩
    · rcases lt_or_gt_of_ne (not_or.mp hpassed).2 with hneg | hpos
      · have hhuge : 2 ^ 63 ≤ castSize (lineLen l) := castSize_of_neg hneg (castInt_bounds _).1
        omega
      · obtain ⟨n, -, hn, hnpos, -⟩ := lineLen_cut hpos
        rwa [hn]
    · cases hread : readStr (l.toEnd LF) (castSize (lineLen l)) with
      | none =>
        rw [hread] at h
        cases h
      | some str' =>
        rw [hread] at h
        rw [Reading.copy.inj h]

theorem not_mem_of_readLine {str : Bytes} (h : readLine l = .copy str) : NUL ∉ str := by
  obtain ⟨n, -, hread⟩ := readLine_copy h
  exact not_mem_of_readStr hread

theorem isPrefix_toEnd_of_readLine {str : Bytes} (h : readLine l = .copy str) :
    str <+: l.toEnd LF := by
  obtain ⟨n, -, hread⟩ := readLine_copy h
  exact isPrefix_of_readStr hread

/-- It begins with the first byte of the line. -/
theorem head_of_readLine {str : Bytes} {b : Byte} (h : readLine l = .copy str)
    (hb : l.text.head? = some b) (hnul : b ≠ NUL) : str.head? = some b := by
  obtain ⟨n, hpos, hread⟩ := readLine_copy h
  obtain ⟨t, ht⟩ := List.head?_eq_some_iff.mp hb
  obtain ⟨n, rfl⟩ := Nat.exists_eq_succ_of_ne_zero hpos.ne'
  rw [readStr_eq_upto hread, Line.toEnd, ht, List.cons_append, List.take_succ_cons, upto,
    List.takeWhile_cons_of_pos (by simpa using hnul)]
  rfl

/-- Without a NUL, a copy is a part of the line. -/
theorem isPrefix_of_readLine {str : Bytes} (hsize : (l.toEnd LF).length < 2 ^ 63)
    (hnul : NUL ∉ l.toEnd LF) (h : readLine l = .copy str) : str <+: l.text := by
  by_cases hpassed : l.text.head? = some HASH ∨ lineLen l = 0
  · rw [readLine_passed hpassed] at h
    cases h
  · obtain ⟨hcomment, hzero⟩ := not_or.mp hpassed
    rcases lt_or_gt_of_ne hzero with hneg | hpos
    · rw [readLine_negative hsize hneg hcomment, if_neg hnul] at h
      cases h
    · obtain ⟨n, hn, -, hnpos, hle⟩ := lineLen_cut hpos
      rw [readLine_cut hn hnpos hle hcomment] at h
      obtain rfl := Reading.copy.inj h
      exact (upto_isPrefix NUL _).trans (List.take_prefix n _)

/-! ## A file that goes on -/

/-- A line that is read inside the file is read as before where the file goes on. -/
theorem readLine_extend (h : readLine l ≠ .outside) (ys : Bytes) :
    readLine (l.extend ys) = readLine l := by
  have hend : (l.extend ys).toEnd LF = l.toEnd LF ++ ys := l.toEnd_extend LF ys
  have hlen : lineLen (l.extend ys) = lineLen l := rfl
  have htext : (l.extend ys).text = l.text := rfl
  by_cases hpassed : l.text.head? = some HASH ∨ lineLen l = 0
  · rw [readLine_passed hpassed, readLine_passed (by rw [hlen, htext]; exact hpassed)]
  · rw [readLine_not_passed hpassed] at h ⊢
    rw [readLine_not_passed (by rw [hlen, htext]; exact hpassed), hend, hlen]
    cases hread : readStr (l.toEnd LF) (castSize (lineLen l)) with
    | none =>
      rw [hread] at h
      exact absurd rfl h
    | some str => rw [readStr_append hread ys]

end Foxtails.Config
