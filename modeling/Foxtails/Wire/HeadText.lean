/-
  Header sections written with CRLF line ends: `headText lines` is the lines, each ended by
  CRLF, and the empty line.

  * `headSplit_headText`: with at least one line, the parser cuts such a section off exactly,
    whatever follows it. There is no such theorem for zero lines: the search for the blank
    line starts after the start line's own LF, so its CRLF is not part of what is searched.
  * `blockLines_joined`: the `strtok` loop then sees the lines, every one but the last with
    its CR.
  * `prefix_of_mem_blockLines`: also with NULs in the lines, it sees prefixes of them.
-/
import Foxtails.Wire.Parse

namespace Foxtails.Wire

open Foxtails.Lib.Scan Foxtails.Lib.Libc

/-- A header section: the lines, each ended by CRLF, and the empty line. -/
def headText (lines : List Bytes) : Bytes := (lines.map (· ++ CRLF)).flatten ++ CRLF

/-- A line of a header section: not empty, and without the line end's LF. -/
def IsLine (line : Bytes) : Prop := line ≠ [] ∧ LF ∉ line

/-- The lines with CRLF between them. -/
def joined : List Bytes → Bytes
  | [] => []
  | [line] => line
  | line :: lines => line ++ CRLF ++ joined lines

theorem headText_nil : headText [] = CRLF := rfl

theorem headText_cons (line : Bytes) (lines : List Bytes) :
    headText (line :: lines) = line ++ CRLF ++ headText lines := by
  simp [headText]

/-- With at least one line the section is the joined lines and CRLFCRLF. -/
theorem headText_eq_joined (lines : List Bytes) (h : lines ≠ []) :
    headText lines = joined lines ++ CRLFCRLF := by
  induction lines with
  | nil => exact absurd rfl h
  | cons line lines ih =>
    rw [headText_cons]
    cases lines with
    | nil => simp [headText_nil, joined]
    | cons l ls => rw [ih (by simp)]; simp [joined]

theorem getElem?_of_prefix_drop {pat xs : Bytes} {j k : Nat} (h : pat <+: xs.drop j)
    (hk : k < pat.length) : xs[j + k]? = pat[k]? := by
  obtain ⟨t, ht⟩ := h
  rw [← List.getElem?_drop, ← ht, List.getElem?_append_left hk]

/-- The only LF of a line and its CRLF is the last byte. -/
theorem lf_pos {line text : Bytes} (hline : LF ∉ line) {p : Nat}
    (hp : (line ++ CRLF ++ text)[p]? = some LF) (hlt : p < line.length + 2) :
    p = line.length + 1 := by
  rw [List.append_assoc] at hp
  rcases Nat.lt_or_ge p line.length with h | h
  · rw [List.getElem?_append_left h] at hp
    exact absurd (List.mem_of_getElem? hp) hline
  · rw [List.getElem?_append_right h] at hp
    rcases (by omega : p - line.length = 0 ∨ p = line.length + 1) with h0 | h1
    · rw [h0] at hp
      exact absurd (Option.some.inj hp) (by decide)
    · exact h1

/-- The first LFLF is not in a line or its CRLF, unless an LF follows. -/
theorem find_lflf_line {line text : Bytes} (hline : LF ∉ line)
    (htext : ∀ b ∈ text.head?, b ≠ LF) :
    find LFLF (line ++ CRLF ++ text) = (find LFLF text).map (line.length + 2 + ·) := by
  rw [find_append (line ++ CRLF) text]
  · simp
  intro j hj hp
  rw [List.length_append] at hj
  have h0 := getElem?_of_prefix_drop (k := 0) hp (by simp)
  have h1 := getElem?_of_prefix_drop (k := 1) hp (by simp)
  have hj' := lf_pos hline h0 hj
  rw [List.append_assoc, List.getElem?_append_right (by omega),
    List.getElem?_append_right (by simp; omega)] at h1
  have e : j + 1 - line.length - CRLF.length = 0 := by simp; omega
  rw [e, ← List.head?_eq_getElem?] at h1
  exact htext LF (by rw [h1]; rfl) rfl

/-- The first CRLFCRLF is not in a line or its CRLF, unless CRLF follows. -/
theorem find_crlfcrlf_line {line text : Bytes} (hline : LF ∉ line) (htext : ¬ CRLF <+: text) :
    find CRLFCRLF (line ++ CRLF ++ text) = (find CRLFCRLF text).map (line.length + 2 + ·) := by
  rw [find_append (line ++ CRLF) text]
  · simp
  intro j hj hp
  rw [List.length_append] at hj
  have h0 := getElem?_of_prefix_drop (k := 0) hp (by simp)
  have h1 := getElem?_of_prefix_drop (k := 1) hp (by simp)
  rcases Nat.lt_or_ge (j + 1) (line.length + 2) with hlt | hge
  · -- the pattern starts with the line's CRLF
    have hj' : j = line.length := by have := lf_pos hline h1 hlt; omega
    subst hj'
    rw [List.append_assoc, List.drop_left] at hp
    exact htext (by simpa using hp)
  · -- its CR would be the line's LF
    have hj' : j = line.length + 1 := by simp at hj; omega
    subst hj'
    have : (line ++ CRLF ++ text)[line.length + 1 + 0]? = some LF := by simp
    rw [this] at h0
    exact absurd (Option.some.inj h0) (by decide)

/-- After a line that ends the section comes CRLFCRLF, at its end. -/
theorem find_crlfcrlf_last {line : Bytes} (tail : Bytes) (hline : LF ∉ line) :
    find CRLFCRLF (line ++ (CRLFCRLF ++ tail)) = some line.length := by
  rw [find_append line (CRLFCRLF ++ tail)]
  · have h0 : find CRLFCRLF (CRLFCRLF ++ tail) = some 0 :=
      find_cons_pos (List.prefix_append CRLFCRLF tail)
    rw [h0]
    rfl
  intro j hj hp
  have h1 := getElem?_of_prefix_drop (k := 1) hp (by simp)
  have h3 : (line ++ CRLF ++ (CRLF ++ tail))[j + 1]? = some LF := by simpa using h1
  have := lf_pos hline h3 (by omega)
  omega

/-- The text of a header section does not begin with an LF, nor, when it has lines, with
    CRLF. -/
theorem headText_head (lines : List Bytes) (h : ∀ l ∈ lines, IsLine l) (tail : Bytes) :
    (∀ b ∈ (headText lines ++ tail).head?, b ≠ LF) ∧
      (lines ≠ [] → ¬ CRLF <+: headText lines ++ tail) := by
  cases lines with
  | nil => exact ⟨by simp [headText_nil]; decide, fun hn => absurd rfl hn⟩
  | cons line lines =>
    obtain ⟨hne, hlf⟩ := h line List.mem_cons_self
    rw [headText_cons]
    cases line with
    | nil => exact absurd rfl hne
    | cons b bs =>
      refine ⟨?_, fun _ hp => ?_⟩
      · rw [List.mem_cons, not_or] at hlf
        simpa using fun he : b = LF => hlf.1 he.symm
      · -- the second byte is in the line, or is the CR of its end
        rw [List.append_assoc] at hp
        have h1 : ((b :: bs) ++ CRLF ++ (headText lines ++ tail))[0 + 1]? = some LF :=
          getElem?_of_prefix_drop (j := 0) hp (by simp)
        have := lf_pos hlf h1 (by simp)
        simp at this

/-- In a header section with lines the first blank line is the CRLFCRLF at its end. -/
theorem find_headText (lines : List Bytes) (h : ∀ l ∈ lines, IsLine l) (hne : lines ≠ [])
    (tail : Bytes) :
    find CRLFCRLF (headText lines ++ tail) = some (joined lines).length ∧
      ∀ l, find LFLF (headText lines ++ tail) = some l → (joined lines).length < l := by
  induction lines with
  | nil => exact absurd rfl hne
  | cons line lines ih =>
    have hline := (h line List.mem_cons_self).2
    have htail : ∀ l ∈ lines, IsLine l := fun l hl => h l (List.mem_cons_of_mem _ hl)
    obtain ⟨hlf, hcrlf⟩ := headText_head lines htail tail
    rw [headText_cons, List.append_assoc, find_lflf_line hline hlf]
    cases lines with
    | nil =>
      refine ⟨?_, fun l hl => ?_⟩
      · simpa [headText_nil, joined] using find_crlfcrlf_last tail hline
      · obtain ⟨i, -, rfl⟩ := Option.map_eq_some_iff.mp hl
        simp only [joined]
        omega
    | cons l ls =>
      obtain ⟨hc, hl⟩ := ih htail (by simp)
      rw [find_crlfcrlf_line hline (hcrlf (by simp)), hc]
      refine ⟨by simp [joined]; omega, fun i hi => ?_⟩
      obtain ⟨k, hk, rfl⟩ := Option.map_eq_some_iff.mp hi
      have := hl k hk
      simp only [joined, List.length_append, List.length_cons, List.length_nil] at this ⊢
      omega

/-- The parser cuts a header section with lines off exactly, whatever follows it. -/
theorem headSplit_headText (lines : List Bytes) (h : ∀ l ∈ lines, IsLine l) (hne : lines ≠ [])
    (tail : Bytes) : headSplit (headText lines ++ tail) = (joined lines, some tail) := by
  obtain ⟨hc, hl⟩ := find_headText lines h hne tail
  have htake : (headText lines ++ tail).take (joined lines).length = joined lines := by
    rw [headText_eq_joined lines hne, List.append_assoc, List.take_left]
  have hdrop : (headText lines ++ tail).drop ((joined lines).length + 4) = tail := by
    rw [headText_eq_joined lines hne]
    exact List.drop_left' (by simp)
  unfold headSplit
  rw [hc]
  cases hf : find LFLF (headText lines ++ tail) with
  | none => simp only [htake, hdrop]
  | some l => simp only [if_pos (Nat.le_of_lt (hl l hf)), htake, hdrop]

/-! ## The lines the parser sees -/

theorem joined_eq (lines : List Bytes) (last : Bytes) :
    joined (lines ++ [last]) = ((lines.map (· ++ [CR])).map (· ++ [LF])).flatten ++ last := by
  induction lines with
  | nil => simp [joined]
  | cons line lines ih =>
    cases lines with
    | nil => simp [joined]
    | cons l ls =>
      simp only [List.cons_append, joined] at ih ⊢
      rw [ih]
      simp

theorem split_joined (lines : List Bytes) (last : Bytes) (h : ∀ l ∈ lines, LF ∉ l)
    (hlast : LF ∉ last) :
    split LF (joined (lines ++ [last])) = lines.map (· ++ [CR]) ++ [last] := by
  rw [joined_eq, split_flatten _ _ _ _ hlast]
  intro l hl
  obtain ⟨l', hl', rfl⟩ := List.mem_map.mp hl
  have : LF ≠ CR := by decide
  simp [h l' hl', this]

/-- Without NULs the `strtok` loop sees every line, all but the last with its CR. -/
theorem blockLines_joined (lines : List Bytes) (last : Bytes)
    (h : ∀ l ∈ lines ++ [last], IsLine l) (hnul : ∀ l ∈ lines ++ [last], NUL ∉ l) :
    blockLines (joined (lines ++ [last])) = lines.map (· ++ [CR]) ++ [last] := by
  have hnul' : NUL ∉ joined (lines ++ [last]) := by
    rw [joined_eq, List.mem_append, not_or]
    refine ⟨?_, hnul last (by simp)⟩
    have h1 : NUL ≠ LF := by decide
    have h2 : NUL ≠ CR := by decide
    simp only [List.mem_flatten, List.mem_map, exists_exists_and_eq_and, List.mem_append,
      List.mem_singleton, h1, h2, or_false, not_exists, not_and]
    exact fun l hl => hnul l (by simp [hl])
  unfold blockLines strtok tokens
  rw [upto_of_not_mem hnul', split_joined _ _ (fun l hl => (h l (by simp [hl])).2)
    (h last (by simp)).2, List.filter_eq_self]
  intro l hl
  rcases List.mem_append.mp hl with hl | hl
  · obtain ⟨l', -, rfl⟩ := List.mem_map.mp hl
    simp
  · rw [List.mem_singleton] at hl
    subst hl
    simpa using (h l (by simp)).1

theorem trimCr_append_cr (line : Bytes) : trimCr (line ++ [CR]) = line := by
  simp [trimCr]

theorem trimCr_of_not_mem {line : Bytes} (h : CR ∉ line) : trimCr line = line := by
  unfold trimCr
  rw [if_neg fun hl => h (List.mem_of_getLast? hl)]

theorem trimCr_isPrefix (line : Bytes) : trimCr line <+: line := by
  unfold trimCr
  split_ifs
  · exact List.dropLast_prefix line
  · exact List.prefix_rfl

/-- With or without NULs, what the loop sees of a line is a prefix of it. -/
theorem prefix_of_mem_blockLines (lines : List Bytes) (h : ∀ l ∈ lines, IsLine l) {t : Bytes}
    (ht : t ∈ blockLines (joined lines)) : ∃ l ∈ lines, trimCr t <+: l := by
  rcases List.eq_nil_or_concat' lines with rfl | ⟨init, last, rfl⟩
  · simp [joined, blockLines, strtok, tokens, upto, split] at ht
  obtain ⟨p, hp, htp⟩ := exists_prefix_of_mem_split
    (upto_isPrefix NUL (joined (init ++ [last]))) (mem_tokens.mp ht).1
  rw [split_joined _ _ (fun l hl => (h l (by simp [hl])).2) (h last (by simp)).2] at hp
  rcases List.mem_append.mp hp with hp | hp
  · obtain ⟨l, hl, rfl⟩ := List.mem_map.mp hp
    refine ⟨l, by simp [hl], ?_⟩
    -- either all of the line with its CR, or a prefix of the line
    rcases List.prefix_concat_iff.mp htp with rfl | hpre
    · rw [trimCr_append_cr]
    · exact (trimCr_isPrefix t).trans hpre
  · rw [List.mem_singleton] at hp
    subst hp
    exact ⟨p, by simp, (trimCr_isPrefix t).trans htp⟩

end Foxtails.Wire
