/-
  The string `config_get` returns is a part of its line.

  A line with the key has a value if, behind the key, a byte that is no white space is
  followed by another one: before the end of the copied line, or right behind it, as in a line
  that was cut. `key =`, `key =  ` and `key  ` are none: the loops over white space go on
  behind the copy or the line, and `value_len` wraps.

  * `configValue_eq`: the offsets, and how far the loop over white space goes.
  * `configValue_proper_iff`: nothing outside is read exactly where the line has a value.
  * `value_in_line_iff`: the same for every file without a NUL.
-/
import Foxtails.Config.Get

namespace Foxtails.Config

open Foxtails.Lib.Scan Foxtails.Lib.Libc Foxtails.Lib.Lines Foxtails.Lib.Object

variable {l : Line Byte} {str key sect : Bytes} {e : Nat} {found : Found}

/-! ## The offsets -/

theorem keyEnd_lt (h : keyEnd str = some e) : e < str.length := by
  obtain ⟨he, -⟩ := List.findIdx?_eq_some_iff_getElem.mp h
  exact he

/-- Only white space behind the key: the loop over it stops at the NUL, and what is behind the
    NUL is read. -/
theorem configValue_blank (he : e ≤ str.length) (hblank : ∀ b ∈ str.drop e, isSpace b = true) :
    configValue l str e = .outside := by
  have hskip : skip isSpace ((str ++ [NUL]).drop e) = some (str.length - e) := by
    rw [List.drop_append_of_le_length he, skip_append_of_forall _ hblank, List.length_drop]
    show some (0 + (str.length - e)) = _
    rw [Nat.zero_add]
  have hbehind : (str ++ [NUL]).drop (e + (str.length - e) + 1) = [] := by
    refine List.drop_of_length_le ?_
    rw [List.length_append, List.length_singleton]
    omega
  unfold configValue
  rw [hskip]
  dsimp only
  rw [hbehind]
  rfl

/-- `value` is what is left of the copy behind the byte that is taken for the `=`. -/
theorem configValue_eq {b : Byte} {value : Bytes} (hstr : NUL ∉ str) (he : e ≤ str.length)
    (hdrop : (str.drop e).dropWhile isSpace = b :: value) :
    configValue l str e =
      let off := str.length - value.length
      match skip isSpace ((l.toEnd LF).drop off) with
      | none => .outside
      | some skipped =>
        match readStr ((l.toEnd LF).drop (off + skipped)) (wrapSub value.length skipped) with
        | none => .outside
        | some s =>
          .value { line := l, keyEnd := e, off, len := value.length, skipped, str := s } := by
  have hsplit := List.takeWhile_append_dropWhile (p := isSpace) (l := str.drop e)
  rw [hdrop] at hsplit
  generalize hn : (str.drop e).takeWhile isSpace = blank at hsplit
  have hlen : str.length = e + blank.length + 1 + value.length := by
    have h := congrArg List.length hsplit
    rw [List.length_drop, List.length_append, List.length_cons] at h
    omega
  have hb : isSpace b = false := by
    have hne : (str.drop e).dropWhile isSpace ≠ [] := by
      rw [hdrop]
      exact List.cons_ne_nil _ _
    simpa [hdrop] using List.head_dropWhile_not isSpace hne
  have hmem : b ∈ str.drop e := by
    rw [← hsplit]
    exact List.mem_append_right _ List.mem_cons_self
  have hskip : skip isSpace ((str ++ [NUL]).drop e) = some blank.length := by
    rw [List.drop_append_of_le_length he, skip_append_of_exists _ ⟨b, hmem, hb⟩, ← hn]
    exact skip_eq_some_iff.mpr ⟨⟨b, hmem, hb⟩, rfl⟩
  have hvalue : str.drop (e + blank.length + 1) = value := by
    rw [Nat.add_assoc, ← List.drop_drop, ← hsplit, ← List.drop_drop, List.drop_left]
    rfl
  have hfind : find [NUL] ((str ++ [NUL]).drop (e + blank.length + 1)) = some value.length := by
    rw [List.drop_append_of_le_length (by omega), hvalue]
    refine find_singleton_append NUL value [] fun hmem => hstr ?_
    rw [← hvalue] at hmem
    exact List.mem_of_mem_drop hmem
  have hoff : str.length - value.length = e + blank.length + 1 := by omega
  unfold configValue
  rw [hskip]
  dsimp only
  rewrite [hfind, hoff]
  rfl

/-! ## Lines with a value -/

/-- The line has a value behind its key. -/
def HasValue (l : Line Byte) (str : Bytes) (e : Nat) : Prop :=
  ∃ b value, (str.drop e).dropWhile isSpace = b :: value ∧
    ((∃ x ∈ value, isSpace x = false) ∨
      ∃ x, (l.toEnd LF)[str.length]? = some x ∧ isSpace x = false)

/-- The string is a part of the line, behind the key and before the newline; `value_len` has
    not wrapped. -/
structure InLine (v : Value) : Prop where
  key : keyEnd v.line.text = some v.keyEnd
  after : v.keyEnd < v.off
  nowrap : v.skipped ≤ v.len
  before : v.off + v.len ≤ v.line.text.length
  part : v.str = (v.line.text.drop (v.off + v.skipped)).take (v.len - v.skipped)
  empty : v.line.text.drop v.off = [] → v.str = []

/-- The result is NULL, or a string in one of the lines; nothing outside was read. -/
def Proper (ls : List (Line Byte)) : Got → Prop
  | .null => True
  | .outside => False
  | .value v => v.line ∈ ls ∧ InLine v

/-- The key ends where it ends in a part of the line. -/
theorem keyEnd_of_prefix {text : Bytes} (h : str <+: text) (he : keyEnd str = some e) :
    keyEnd text = some e := by
  obtain ⟨t, rfl⟩ := h
  unfold keyEnd at he ⊢
  rw [List.findIdx?_append, he, Option.some_or]

/-- The offsets of a value, and the bytes from it on. -/
structure At (l : Line Byte) (str : Bytes) (e off : Nat) (value : Bytes) : Prop where
  off_eq : off = str.length - value.length
  after : e < off
  before : off + value.length = str.length
  drop : (l.toEnd LF).drop off = value ++ (l.toEnd LF).drop str.length

theorem at_of_drop {b : Byte} {value : Bytes} (hpart : str <+: l.toEnd LF) (he : e ≤ str.length)
    (hdrop : (str.drop e).dropWhile isSpace = b :: value) :
    At l str e (str.length - value.length) value := by
  have hsuffix : b :: value <:+ str.drop e := hdrop ▸ List.dropWhile_suffix _
  have hlen := hsuffix.length_le
  rw [List.length_cons, List.length_drop] at hlen
  have hvalue : str.drop (str.length - value.length) = value := by
    have h : value <:+ str :=
      ((List.suffix_cons b value).trans hsuffix).trans (List.drop_suffix e str)
    exact (List.suffix_iff_eq_drop.mp h).symm
  refine ⟨rfl, by omega, by omega, ?_⟩
  obtain ⟨t, ht⟩ := hpart
  rw [← ht, List.drop_append_of_le_length (by omega), hvalue, List.drop_left]

/-- Where the loop over white space ends in the value or right behind it, the string is a part
    of the line. -/
theorem inLine_of_skip {off skipped : Nat} {value : Bytes} (hnul : NUL ∉ l.toEnd LF)
    (hsize : (l.toEnd LF).length < 2 ^ 63) (hpart : str <+: l.text) (he : keyEnd str = some e)
    (hat : At l str e off value) (hle : skipped ≤ value.length) :
    ∃ s, readStr ((l.toEnd LF).drop (off + skipped)) (wrapSub value.length skipped) = some s ∧
      InLine { line := l, keyEnd := e, off, len := value.length, skipped, str := s } := by
  have hbefore := hat.before
  have hlen := hpart.length_le
  have htoEnd : (l.toEnd LF).length = l.text.length + (l.rest.length + 1) := by
    rw [Line.toEnd, List.length_append, List.length_cons]
  have hsub : wrapSub value.length skipped = value.length - skipped := by
    refine wrapSub_of_le hle ?_
    simp only [SIZE]
    omega
  have htext : ((l.toEnd LF).drop (off + skipped)).take (value.length - skipped) =
      (l.text.drop (off + skipped)).take (value.length - skipped) := by
    rw [Line.toEnd, List.drop_append_of_le_length (by omega),
      List.take_append_of_le_length (by rw [List.length_drop]; omega)]
  have hread : readStr ((l.toEnd LF).drop (off + skipped)) (wrapSub value.length skipped) =
      some ((l.text.drop (off + skipped)).take (value.length - skipped)) := by
    rw [hsub, readStr_of_le (by rw [List.length_drop]; omega), strndup, upto_of_not_mem, htext]
    exact fun h => hnul (List.mem_of_mem_drop (List.mem_of_mem_take h))
  refine ⟨_, hread, keyEnd_of_prefix hpart he, hat.after, hle, ?_, rfl, fun hempty => ?_⟩
  · show off + value.length ≤ l.text.length
    omega
  · have hdrop : l.text.drop (off + skipped) = [] := by
      rw [← List.drop_drop, hempty, List.drop_nil]
    show (l.text.drop (off + skipped)).take _ = []
    rw [hdrop, List.take_nil]

theorem hasValue_iff {b : Byte} {value : Bytes}
    (hdrop : (str.drop e).dropWhile isSpace = b :: value) :
    HasValue l str e ↔ (∃ x ∈ value, isSpace x = false) ∨
      ∃ x, (l.toEnd LF)[str.length]? = some x ∧ isSpace x = false := by
  constructor
  · rintro ⟨b', value', hcons, h⟩
    rw [hdrop] at hcons
    obtain ⟨-, rfl⟩ := List.cons.inj hcons
    exact h
  · intro h
    exact ⟨b, value, hdrop, h⟩

/-- Where the loop over white space goes on behind the copy, `value_len` wraps, and the string is
    read past the end of the line. -/
theorem readStr_past {off n : Nat} {value : Bytes} (hnul : NUL ∉ l.toEnd LF)
    (hsize : (l.toEnd LF).length < 2 ^ 63) (hat : At l str e off value)
    (hskip : skip isSpace ((l.toEnd LF).drop str.length) = some (n + 1)) :
    readStr ((l.toEnd LF).drop (off + (n + 1 + value.length)))
      (wrapSub value.length (n + 1 + value.length)) = none := by
  have hbefore := hat.before
  have hlt := skip_lt hskip
  rw [List.length_drop] at hlt
  have hwrap : 2 ^ 63 < wrapSub value.length (n + 1 + value.length) :=
    wrapSub_of_lt (by omega) (by omega)
  unfold readStr
  rw [if_neg]
  rw [not_or, List.length_drop]
  exact ⟨by omega, fun h => hnul (List.mem_of_mem_drop h)⟩

/-- In a file without a NUL, what is no value is read from outside. -/
theorem configValue_past (hnul : NUL ∉ l.toEnd LF) (hsize : (l.toEnd LF).length < 2 ^ 63)
    (hpart : str <+: l.toEnd LF) (he : e ≤ str.length) (hno : ¬ HasValue l str e) :
    configValue l str e = .outside := by
  have hstr : NUL ∉ str := fun h => hnul (hpart.subset h)
  cases hdrop : (str.drop e).dropWhile isSpace with
  | nil => exact configValue_blank he (List.dropWhile_eq_nil_iff.mp hdrop)
  | cons b value =>
    have hat := at_of_drop hpart he hdrop
    rw [hasValue_iff hdrop, not_or] at hno
    obtain ⟨hblank, hbehind⟩ := hno
    have hall : ∀ x ∈ value, isSpace x = true := all_of_not_exists hblank
    have hgoes : skip isSpace ((l.toEnd LF).drop str.length) ≠ some 0 := by
      rw [Ne, skip_eq_zero_iff, List.getElem?_drop, Nat.add_zero]
      exact hbehind
    rw [configValue_eq hstr he hdrop]
    dsimp only
    rw [hat.drop, skip_append_of_forall _ hall]
    cases hskip : skip isSpace ((l.toEnd LF).drop str.length) with
    | none => rfl
    | some n =>
      cases n with
      | zero => exact absurd hskip hgoes
      | succ n =>
        -- the loop goes on behind the copy, and `value_len` wraps
        rw [Option.map_some]
        dsimp only
        rw [readStr_past hnul hsize hat hskip]

/-- **A value is read inside the line if and only if there is one.** -/
theorem configValue_proper_iff {ls : List (Line Byte)} (hmem : l ∈ ls) (hnul : NUL ∉ l.toEnd LF)
    (hsize : (l.toEnd LF).length < 2 ^ 63) (hpart : str <+: l.text) (he : keyEnd str = some e) :
    Proper ls (configValue l str e) ↔ HasValue l str e := by
  have hle : e ≤ str.length := (keyEnd_lt he).le
  have hstr : NUL ∉ str := fun h => hnul (List.mem_append_left _ (hpart.subset h))
  have htoEnd : str <+: l.toEnd LF := hpart.trans (List.prefix_append _ _)
  by_cases hvalue : HasValue l str e
  · refine iff_of_true ?_ hvalue
    obtain ⟨b, value, hdrop, hstops⟩ := hvalue
    have hat := at_of_drop htoEnd hle hdrop
    have hin : ∀ skipped ≤ value.length, ∃ s,
        readStr ((l.toEnd LF).drop (str.length - value.length + skipped))
          (wrapSub value.length skipped) = some s ∧ InLine _ :=
      fun skipped hle => inLine_of_skip hnul hsize hpart he hat hle
    -- the loop over white space stops in the value, or right behind the copy
    obtain ⟨skipped, hskip, hskipped⟩ : ∃ skipped,
        skip isSpace (value ++ (l.toEnd LF).drop str.length) = some skipped ∧
          skipped ≤ value.length := by
      by_cases hin_value : ∃ x ∈ value, isSpace x = false
      · rw [skip_append_of_exists _ hin_value]
        exact ⟨_, skip_eq_some_iff.mpr ⟨hin_value, rfl⟩, List.takeWhile_prefix _ |>.length_le⟩
      · have hall : ∀ x ∈ value, isSpace x = true := all_of_not_exists hin_value
        have hbehind : skip isSpace ((l.toEnd LF).drop str.length) = some 0 := by
          rw [skip_eq_zero_iff, List.getElem?_drop, Nat.add_zero]
          exact hstops.resolve_left hin_value
        rw [skip_append_of_forall _ hall, hbehind]
        exact ⟨_, rfl, (Nat.zero_add _).le⟩
    obtain ⟨s, hread, hinLine⟩ := hin skipped hskipped
    rw [configValue_eq hstr hle hdrop]
    dsimp only
    rw [hat.drop, hskip]
    dsimp only
    rw [hread]
    exact ⟨hmem, hinLine⟩
  · rw [configValue_past hnul hsize htoEnd hle hvalue]
    exact iff_of_false id hvalue

/-! ## The lines that are reached -/

/-- What the loop may be left with in the section is decided by the value, NULL apart. -/
theorem entryLine_left_iff {P : Got → Prop} (hnull : P .null) :
    (∀ r, entryLine key found l str = .error r → P r.1) ↔
      (str.head? ≠ some OPEN → ∀ e, keyEnd str = some e → strncmpeq str key e = true →
        P (configValue l str e)) := by
  unfold entryLine
  by_cases hopen : str.head? = some OPEN
  · rw [if_pos hopen]
    refine iff_of_true (fun r hr => ?_) fun h => absurd hopen h
    obtain rfl := Except.error.inj hr
    exact hnull
  · rw [if_neg hopen]
    cases he : keyEnd str with
    | none =>
      refine iff_of_true (fun r hr => ?_) fun _ e h => (by cases h)
      obtain rfl := Except.error.inj hr
      exact hnull
    | some e =>
      dsimp only
      by_cases hkey : strncmpeq str key e = true
      · rw [if_pos hkey]
        constructor
        · intro h _ e' he' _
          obtain rfl := Option.some.inj he'
          exact h _ rfl
        · intro h r hr
          obtain rfl := Except.error.inj hr
          exact h hopen e rfl hkey
      · rw [if_neg hkey]
        refine iff_of_true (fun r hr => (by cases hr)) fun _ e' he' hkey' => ?_
        obtain rfl := Option.some.inj he'
        exact absurd hkey' hkey

/-- The same of a line that is read, ... -/
theorem configLine_left_iff {P : Got → Prop} (hnull : P .null) (hread : readLine l = .copy str) :
    (∀ r, configLine sect key found l = .error r → P r.1) ↔
      (found.isSome = true → str.head? ≠ some OPEN → ∀ e, keyEnd str = some e →
        strncmpeq str key e = true → P (configValue l str e)) := by
  cases found with
  | none =>
    refine iff_of_true (fun r hr => ?_) fun h => (by cases h)
    rw [configLine_search hread] at hr
    rw [searchLine_null hr]
    exact hnull
  | some name =>
    rw [configLine_entry hread, entryLine_left_iff hnull]
    exact ⟨fun h _ => h, fun h => h rfl⟩

/-- ... and of a call. -/
theorem configGet_left_iff {f : File} {P : Got → Prop} (hnull : P .null) :
    P (configGet f sect key).1 ↔
      ∀ r, configLines sect key none (lines LF f.bytes) = .error r → P r.1 := by
  unfold configGet
  cases configLines sect key none (lines LF f.bytes) with
  | ok found => exact iff_of_true hnull fun r hr => (by cases hr)
  | error r =>
    constructor
    · intro h r' hr
      obtain rfl := Except.error.inj hr
      exact h
    · intro h
      exact h r rfl

/-- The line can be read; and if it is in the section and has the key, it has a value. -/
def Orderly (key : Bytes) (found : Found) (l : Line Byte) : Prop :=
  match readLine l with
  | .passed => True
  | .outside => False
  | .copy str => found.isSome = true → str.head? ≠ some OPEN →
      ∀ e, keyEnd str = some e → strncmpeq str key e = true → HasValue l str e

theorem configLine_proper_iff {ls : List (Line Byte)} (hmem : l ∈ ls) (hnul : NUL ∉ l.toEnd LF)
    (hsize : (l.toEnd LF).length < 2 ^ 63) :
    (∀ r, configLine sect key found l = .error r → Proper ls r.1) ↔ Orderly key found l := by
  unfold Orderly
  cases hread : readLine l with
  | passed =>
    refine iff_of_true (fun r hr => ?_) trivial
    rw [configLine_passed hread] at hr
    cases hr
  | outside => exact iff_of_false (fun h => h _ (configLine_outside hread)) id
  | copy str =>
    have hpart : str <+: l.text := isPrefix_of_readLine hsize hnul hread
    have hvalue : ∀ e, keyEnd str = some e →
        (Proper ls (configValue l str e) ↔ HasValue l str e) :=
      fun e he => configValue_proper_iff hmem hnul hsize hpart he
    rw [configLine_left_iff trivial hread]
    exact imp_congr_right fun _ => imp_congr_right fun _ => forall_congr' fun e =>
      imp_congr_right fun he => imp_congr_right fun _ => hvalue e he

/-- **What is returned is a part of the line if and only if every line is orderly**, up to the
    one that the loop is left at. -/
theorem value_in_line_iff (f : File) (hnul : NUL ∉ f.bytes) (sect key : Bytes) :
    Proper (lines LF f.bytes) (configGet f sect key).1 ↔
      ∀ pre l post found, lines LF f.bytes = pre ++ l :: post →
        configLines sect key none pre = .ok found → Orderly key found l := by
  rw [configGet_left_iff (P := Proper (lines LF f.bytes)) trivial]
  unfold configLines
  rw [forall_left_iff]
  have hline : ∀ pre l post found, lines LF f.bytes = pre ++ l :: post →
      ((∀ r, configLine sect key found l = .error r → Proper (lines LF f.bytes) r.1) ↔
        Orderly key found l) := by
    intro pre l post found hls
    have hmem : l ∈ lines LF f.bytes := by
      rw [hls]
      exact List.mem_append_right pre List.mem_cons_self
    exact configLine_proper_iff hmem (fun h => hnul ((mem_lines hmem).2.subset h))
      (length_lt_of_mem hmem)
  constructor
  · intro h pre l post found hls hpre
    exact (hline pre l post found hls).mp (h pre l post found hls hpre)
  · intro h pre l post found hls hpre
    exact (hline pre l post found hls).mpr (h pre l post found hls hpre)

/-- A key with a value. -/
def portFile : File := ⟨ascii "[server]\nport = 8080\n", by decide⟩

/-- `value_in_line_iff` where there is a value. -/
theorem value_in_line_iff_port :
    (configGet portFile (ascii "server") (ascii "port")).1.returned = some (some (ascii "8080")) ∧
      (Proper (lines LF portFile.bytes) (configGet portFile (ascii "server") (ascii "port")).1 ↔
        ∀ pre l post found, lines LF portFile.bytes = pre ++ l :: post →
          configLines (ascii "server") (ascii "port") none pre = .ok found →
            Orderly (ascii "port") found l) :=
  ⟨by decide +kernel, value_in_line_iff portFile (by decide) _ _⟩

/-- Nothing behind the `=`, ... -/
def emptyValue : File := ⟨ascii "[server]\nport =\nlog-level = 0\n", by decide⟩

/-- ... spaces only, ... -/
def blankValue : File := ⟨ascii "[server]\nport =  \n", by decide⟩

/-- ... and no `=`. -/
def noEquals : File := ⟨ascii "[server]\nport  \n", by decide⟩

/-- Bytes outside are read for each of the three, which have no NUL. -/
theorem empty_value_read_outside :
    (NUL ∉ emptyValue.bytes ∧
      ¬ Proper (lines LF emptyValue.bytes)
        (configGet emptyValue (ascii "server") (ascii "port")).1) ∧
    (NUL ∉ blankValue.bytes ∧
      ¬ Proper (lines LF blankValue.bytes)
        (configGet blankValue (ascii "server") (ascii "port")).1) ∧
    NUL ∉ noEquals.bytes ∧
      ¬ Proper (lines LF noEquals.bytes)
        (configGet noEquals (ascii "server") (ascii "port")).1 := by
  have hempty : (configGet emptyValue (ascii "server") (ascii "port")).1 = .outside := by
    decide +kernel
  have hblank : (configGet blankValue (ascii "server") (ascii "port")).1 = .outside := by
    decide +kernel
  have hnone : (configGet noEquals (ascii "server") (ascii "port")).1 = .outside := by
    decide +kernel
  rw [hempty, hblank, hnone]
  exact ⟨⟨by decide, id⟩, ⟨by decide, id⟩, by decide, id⟩

end Foxtails.Config
