/-
  Values where the file ends.

  `mmap` fills the last page with zeros. So a read that leaves the file finds the zero bytes that
  are behind it, if there are any, or it is killed. A value is compared here in two files: in one
  the zeros come at once, and in the other a newline comes before them.

  * `readValue_same_iff`: when the same is read in both.
  * `readValue_whole_same_iff`: the same where the copy has gone to the end of the file.
  * `configValue_same_iff`, `configValue_whole_same_iff`: the values of two such lines.
-/
import Foxtails.Config.Value

namespace Foxtails.Config

open Foxtails.Lib.Scan Foxtails.Lib.Libc Foxtails.Lib.Lines Foxtails.Lib.Object

/-! ## Reads inside the file -/

variable {l : Line Byte} {str : Bytes} {e : Nat}

/-- There is a value; or something behind the key that is no white space, and a NUL, at which
    both the loop over white space and the copy end. -/
def ReadInside (l : Line Byte) (str : Bytes) (e : Nat) : Prop :=
  HasValue l str e ∨ (∃ x ∈ str.drop e, isSpace x = false) ∧ NUL ∈ l.toEnd LF

theorem HasValue.byte (h : HasValue l str e) : ∃ x ∈ str.drop e, isSpace x = false := by
  obtain ⟨b, value, hdrop, -⟩ := h
  exact exists_of_dropWhile hdrop

/-- The loop over white space and the copy end at a NUL, if not before. -/
theorem configValue_of_nul (hstr : NUL ∉ str) (hpart : str <+: l.toEnd LF) (he : e ≤ str.length)
    (hbyte : ∃ x ∈ str.drop e, isSpace x = false) (hnul : NUL ∈ l.toEnd LF) :
    configValue l str e ≠ .outside := by
  cases hdrop : (str.drop e).dropWhile isSpace with
  | nil =>
    obtain ⟨x, hx, hspace⟩ := hbyte
    rw [List.dropWhile_eq_nil_iff.mp hdrop x hx] at hspace
    cases hspace
  | cons b value =>
    have hmem : NUL ∈ (l.toEnd LF).drop (str.length - value.length) := by
      obtain ⟨t, ht⟩ := hpart
      rw [← ht] at hnul ⊢
      rw [List.drop_append_of_le_length (Nat.sub_le _ _)]
      exact List.mem_append_right _ ((List.mem_append.mp hnul).resolve_left hstr)
    obtain ⟨n, hskip, hrest⟩ := skip_of_mem hmem (show isSpace NUL = false by decide)
    rw [List.drop_drop] at hrest
    rw [configValue_eq hstr he hdrop]
    dsimp only
    rw [hskip]
    dsimp only
    rw [readStr_of_mem _ hrest]
    exact Got.noConfusion

/-- **What is taken for the value is read from inside the file** exactly there. -/
theorem configValue_inside_iff (hsize : (l.toEnd LF).length < 2 ^ 63)
    (hread : readLine l = .copy str) (he : keyEnd str = some e) :
    configValue l str e ≠ .outside ↔ ReadInside l str e := by
  have hle : e ≤ str.length := (keyEnd_lt he).le
  have hpart : str <+: l.toEnd LF := isPrefix_toEnd_of_readLine hread
  have hof_nul : (∃ x ∈ str.drop e, isSpace x = false) → NUL ∈ l.toEnd LF →
      configValue l str e ≠ .outside := configValue_of_nul (not_mem_of_readLine hread) hpart hle
  constructor
  · intro hinside
    by_contra hno
    obtain ⟨hvalue, hno⟩ := not_or.mp hno
    by_cases hbyte : ∃ x ∈ str.drop e, isSpace x = false
    · exact hinside (configValue_past (fun hnul => hno ⟨hbyte, hnul⟩) hsize hpart hle hvalue)
    · exact hinside (configValue_blank hle (all_of_not_exists hbyte))
  · rintro (hvalue | ⟨hbyte, hnul⟩)
    · by_cases hnul : NUL ∈ l.toEnd LF
      · exact hof_nul hvalue.byte hnul
      · have hproper : Proper [l] (configValue l str e) :=
          (configValue_proper_iff (List.mem_singleton_self l) hnul hsize
            (isPrefix_of_readLine hsize hnul hread) he).mpr hvalue
        intro houtside
        rw [houtside] at hproper
        exact hproper
    · exact hof_nul hbyte hnul

/-! ## Zeros -/

/-- Zero bytes, any number of them. -/
def Zeros (bs : Bytes) : Prop := ∀ b ∈ bs, b = NUL

/-- White space only. -/
def Blank (bs : Bytes) : Prop := ∀ b ∈ bs, isSpace b = true

theorem upto_zeros {bs : Bytes} (h : Zeros bs) (n : Nat) : upto NUL (bs.take n) = [] := by
  cases htake : bs.take n with
  | nil => rfl
  | cons b rest =>
    have hb : b = NUL := h b (List.mem_of_mem_take (htake ▸ List.mem_cons_self))
    rw [hb, upto, List.takeWhile_cons_of_neg (by decide)]

theorem upto_append_of_not_mem {xs : Bytes} (ys : Bytes) (h : NUL ∉ xs) :
    upto NUL (xs ++ ys) = xs ++ upto NUL ys := by
  unfold upto
  refine List.takeWhile_append_of_pos fun b hb => ?_
  simpa using fun he : b = NUL => h (he ▸ hb)

theorem nul_mem_zeros {bs : Bytes} (h : Zeros bs) (hne : bs ≠ []) : NUL ∈ bs := by
  obtain ⟨b, rest, rfl⟩ := List.exists_cons_of_ne_nil hne
  rw [← h b List.mem_cons_self]
  exact List.mem_cons_self

theorem Blank.concat {bs : Bytes} (h : Blank bs) : Blank (bs ++ [LF]) := by
  intro b hb
  rcases List.mem_append.mp hb with hb | hb
  · exact h b hb
  · rw [List.mem_singleton.mp hb]
    rfl

/-! ## The string that is read -/

/-- `len` bytes of `tail`, behind white space, which counts; the difference may wrap. -/
def readValue (tail : Bytes) (len : Nat) : Option Bytes :=
  match skip isSpace tail with
  | none => none
  | some n => readStr (tail.drop n) (wrapSub len n)

variable {tail z z' s ys : Bytes} {len : Nat}

theorem readValue_append (h : readValue tail len = some s) (ys : Bytes) :
    readValue (tail ++ ys) len = some s := by
  unfold readValue at h ⊢
  cases hskip : skip isSpace tail with
  | none =>
    rw [hskip] at h
    cases h
  | some n =>
    rw [hskip] at h
    rw [skip_append hskip]
    dsimp only at h ⊢
    rw [List.drop_append_of_le_length (skip_lt hskip).le]
    exact readStr_append h ys

/-- Behind white space to the end of the file, the empty string is read from the zeros. -/
theorem readValue_blank (hblank : Blank tail) (hz : Zeros z) :
    readValue (tail ++ z) len = if z = [] then none else some [] := by
  unfold readValue
  rw [skip_append_of_forall _ hblank]
  cases z with
  | nil => rfl
  | cons b z =>
    have hb : b = NUL := hz b List.mem_cons_self
    have hskip : skip isSpace (b :: z) = some 0 := by
      rw [skip_eq_zero_iff, hb]
      exact ⟨NUL, rfl, by decide⟩
    rw [hskip, if_neg (List.cons_ne_nil b z), Option.map_some, Nat.zero_add]
    dsimp only
    rw [List.drop_left, readStr_of_mem _ (nul_mem_zeros hz (List.cons_ne_nil b z)), strndup,
      upto_zeros hz]

/-- What leaves the file behind a byte that is no white space is all that is left of the file,
    and something of what is behind it. -/
theorem readValue_past (h : readValue tail len = none) (hbyte : ∃ b ∈ tail, isSpace b = false)
    (hs : readValue (tail ++ ys) len = some s) :
    ∃ n, s = tail.dropWhile isSpace ++ upto NUL (ys.take (n + 1)) := by
  have hskip : skip isSpace tail = some (tail.takeWhile isSpace).length :=
    skip_eq_some_iff.mpr ⟨hbyte, rfl⟩
  have hdrop := drop_skip hskip
  unfold readValue at h hs
  rw [hskip] at h
  rw [skip_append hskip] at hs
  dsimp only at h hs
  rw [List.drop_append_of_le_length (skip_lt hskip).le, hdrop] at hs
  rw [hdrop] at h
  unfold readStr at h
  split_ifs at h with hin
  obtain ⟨hlong, hnul⟩ := not_or.mp hin
  refine ⟨wrapSub len (tail.takeWhile isSpace).length - (tail.dropWhile isSpace).length - 1, ?_⟩
  rw [readStr_eq_upto hs, List.take_append, List.take_of_length_le (by omega),
    upto_append_of_not_mem _ hnul, Nat.sub_add_cancel (by omega)]

/-- **Where one file goes on with zeros and the other with a newline and zeros**, the same is read
    of both exactly if it is read in the file, or if nothing but white space and at least one zero
    comes in both. -/
theorem readValue_same_iff (hz : Zeros z) (hz' : Zeros z') :
    (∃ s, readValue (tail ++ z) len = some s ∧ readValue (tail ++ LF :: z') len = some s) ↔
      readValue tail len ≠ none ∨ (Blank tail ∧ z ≠ [] ∧ z' ≠ []) := by
  cases h : readValue tail len with
  | some s =>
    exact iff_of_true ⟨s, readValue_append h z, readValue_append h _⟩
      (.inl (Option.some_ne_none s))
  | none =>
    rw [or_iff_right (not_not.mpr rfl)]
    by_cases hblank : Blank tail
    · have hsecond : readValue (tail ++ LF :: z') len = if z' = [] then none else some [] := by
        rw [List.append_cons]
        exact readValue_blank hblank.concat hz'
      rw [readValue_blank hblank hz, hsecond]
      by_cases hne : z = []
      · simp [hne]
      · by_cases hne' : z' = []
        · simp [hne']
        · simp [hne, hne', hblank]
    · refine iff_of_false ?_ fun hno => hblank hno.1
      rintro ⟨s, hfirst, hsecond⟩
      have hbyte : ∃ b ∈ tail, isSpace b = false := by
        by_contra hall
        exact hblank (all_of_not_exists hall)
      obtain ⟨n, hn⟩ := readValue_past h hbyte hfirst
      obtain ⟨n', hn'⟩ := readValue_past h hbyte hsecond
      rw [hn, upto_zeros hz, List.take_succ_cons, upto, List.takeWhile_cons_of_pos (by decide)]
        at hn'
      exact List.cons_ne_nil _ _ (List.append_cancel_left hn').symm

/-- As many bytes as there are, without a NUL. -/
theorem readValue_whole (hnul : NUL ∉ tail) (hsize : tail.length < 2 ^ 63)
    (hbyte : ∃ b ∈ tail, isSpace b = false) :
    readValue tail tail.length = some (tail.dropWhile isSpace) := by
  have hskip : skip isSpace tail = some (tail.takeWhile isSpace).length :=
    skip_eq_some_iff.mpr ⟨hbyte, rfl⟩
  have hdrop := drop_skip hskip
  have hlen : tail.length - (tail.takeWhile isSpace).length = (tail.dropWhile isSpace).length := by
    rw [← hdrop, List.length_drop]
  unfold readValue
  rw [hskip]
  dsimp only
  rw [wrapSub_of_le (skip_lt hskip).le (by simp only [SIZE]; omega), hlen, hdrop]
  exact readStr_of_isPrefix (List.prefix_refl _)
    fun h => hnul ((List.dropWhile_suffix _).subset h)

/-- Where the value is all that is left of the file, a newline is a part of it. -/
theorem readValue_whole_same_iff (hnul : NUL ∉ tail) (hsize : (tail ++ [LF]).length < 2 ^ 63)
    (hz : Zeros z) (hz' : Zeros z') (hne : z ≠ []) (hne' : z' ≠ []) :
    (∃ s, readValue (tail ++ z) tail.length = some s ∧
      readValue (tail ++ LF :: z') (tail.length + 1) = some s) ↔ Blank tail := by
  rw [List.append_cons]
  by_cases hblank : Blank tail
  · rw [readValue_blank hblank hz, readValue_blank hblank.concat hz', if_neg hne, if_neg hne']
    exact iff_of_true ⟨[], rfl, rfl⟩ hblank
  · refine iff_of_false ?_ hblank
    have hbyte : ∃ b ∈ tail, isSpace b = false := by
      by_contra hall
      exact hblank (all_of_not_exists hall)
    have hnul' : NUL ∉ tail ++ [LF] := by
      rw [List.mem_append, not_or]
      exact ⟨hnul, by decide⟩
    have hbyte' : ∃ b ∈ tail ++ [LF], isSpace b = false := by
      obtain ⟨b, hb, hspace⟩ := hbyte
      exact ⟨b, List.mem_append_left _ hb, hspace⟩
    have hfirst := readValue_append (readValue_whole hnul (by simp at hsize; omega) hbyte) z
    have hsecond := readValue_append (readValue_whole hnul' hsize hbyte') z'
    rw [List.length_append, List.length_singleton] at hsecond
    rw [hfirst, hsecond]
    rintro ⟨s, hs, hs'⟩
    have hlen := congrArg List.length ((Option.some.inj hs).trans (Option.some.inj hs').symm)
    rw [List.dropWhile_append, if_neg] at hlen
    · rw [List.length_append, List.length_singleton] at hlen
      omega
    · rw [List.isEmpty_iff, List.dropWhile_eq_nil_iff]
      exact hblank

/-! ## The value of a line -/

theorem returned_eq_none_iff {got : Got} : got.returned = none ↔ got = .outside := by
  cases got with
  | null => exact iff_of_false (fun h => by cases h) Got.noConfusion
  | outside => exact iff_of_true rfl rfl
  | value v => exact iff_of_false (fun h => by cases h) Got.noConfusion

theorem configValue_returned {b : Byte} {value : Bytes} (hstr : NUL ∉ str) (he : e ≤ str.length)
    (hdrop : (str.drop e).dropWhile isSpace = b :: value) :
    (configValue l str e).returned =
      (readValue ((l.toEnd LF).drop (str.length - value.length)) value.length).map some := by
  rw [configValue_eq hstr he hdrop]
  unfold readValue
  dsimp only
  cases skip isSpace ((l.toEnd LF).drop (str.length - value.length)) with
  | none => rfl
  | some n =>
    dsimp only
    rw [List.drop_drop]
    cases readStr _ _ <;> rfl

/-- Behind the byte that is taken for the `=`, there is only white space to the end of the file. -/
def BlankEnd (l : Line Byte) (str : Bytes) (e : Nat) : Prop :=
  ∃ b value, (str.drop e).dropWhile isSpace = b :: value ∧
    Blank ((l.toEnd LF).drop (str.length - value.length))

theorem blankEnd_iff {b : Byte} {value : Bytes}
    (hdrop : (str.drop e).dropWhile isSpace = b :: value) :
    BlankEnd l str e ↔ Blank ((l.toEnd LF).drop (str.length - value.length)) := by
  constructor
  · rintro ⟨b', value', hcons, h⟩
    rw [hdrop] at hcons
    obtain ⟨-, rfl⟩ := List.cons.inj hcons
    exact h
  · intro h
    exact ⟨b, value, hdrop, h⟩

theorem exists_map_some_iff {a b : Option Bytes} :
    (∃ v, a.map some = some v ∧ b.map some = some v) ↔ ∃ s, a = some s ∧ b = some s := by
  cases a <;> cases b <;> simp

/-- **The value of a copied line** is the same before zeros, and before a newline and zeros. -/
theorem configValue_same_iff (hstr : NUL ∉ str) (hpart : str <+: l.toEnd LF) (he : e ≤ str.length)
    (hz : Zeros z) (hz' : Zeros z') :
    (∃ v, (configValue (l.extend z) str e).returned = some v ∧
      (configValue (l.extend (LF :: z')) str e).returned = some v) ↔
      configValue l str e ≠ .outside ∨ (BlankEnd l str e ∧ z ≠ [] ∧ z' ≠ []) := by
  cases hdrop : (str.drop e).dropWhile isSpace with
  | nil =>
    have hblank := List.dropWhile_eq_nil_iff.mp hdrop
    rw [configValue_blank he hblank, configValue_blank he hblank, configValue_blank he hblank]
    refine iff_of_false ?_ ?_
    · rintro ⟨v, h, -⟩
      cases h
    · rintro (h | ⟨⟨b, value, hcons, -⟩, -⟩)
      · exact h rfl
      · rw [hdrop] at hcons
        cases hcons
  | cons b value =>
    have hle : str.length - value.length ≤ (l.toEnd LF).length :=
      (Nat.sub_le _ _).trans hpart.length_le
    have hinside : configValue l str e ≠ .outside ↔
        readValue ((l.toEnd LF).drop (str.length - value.length)) value.length ≠ none := by
      rw [Ne, ← returned_eq_none_iff, configValue_returned hstr he hdrop, Option.map_eq_none_iff]
    rw [configValue_returned hstr he hdrop, configValue_returned hstr he hdrop,
      exists_map_some_iff, Line.toEnd_extend, Line.toEnd_extend,
      List.drop_append_of_le_length hle, List.drop_append_of_le_length hle,
      readValue_same_iff hz hz', hinside, blankEnd_iff hdrop]

/-- **The value of a line that is copied to the end of the file**, the newline with it. -/
theorem configValue_whole_same_iff (hnul : NUL ∉ l.toEnd LF) (he : e ≤ (l.toEnd LF).length)
    (hsize : (l.toEnd LF ++ [LF]).length < 2 ^ 63) (hz : Zeros z) (hz' : Zeros z') (hne : z ≠ [])
    (hne' : z' ≠ []) :
    (∃ v, (configValue (l.extend z) (l.toEnd LF) e).returned = some v ∧
      (configValue (l.extend (LF :: z')) (l.toEnd LF ++ [LF]) e).returned = some v) ↔
      BlankEnd l (l.toEnd LF) e := by
  have hnul' : NUL ∉ l.toEnd LF ++ [LF] := by
    rw [List.mem_append, not_or]
    exact ⟨hnul, by decide⟩
  have he' : e ≤ (l.toEnd LF ++ [LF]).length := by
    rw [List.length_append]
    omega
  cases hdrop : ((l.toEnd LF).drop e).dropWhile isSpace with
  | nil =>
    rw [configValue_blank he (List.dropWhile_eq_nil_iff.mp hdrop)]
    refine iff_of_false ?_ ?_
    · rintro ⟨v, h, -⟩
      cases h
    · rintro ⟨b, value, hcons, -⟩
      rw [hdrop] at hcons
      cases hcons
  | cons b value =>
    have hdrop' : ((l.toEnd LF ++ [LF]).drop e).dropWhile isSpace = b :: (value ++ [LF]) := by
      rw [List.drop_append_of_le_length he, List.dropWhile_append, hdrop, if_neg (by simp)]
      rfl
    have hat := at_of_drop (List.prefix_refl (l.toEnd LF)) he hdrop
    have hvalue : (l.toEnd LF).drop ((l.toEnd LF).length - value.length) = value := by
      have h := hat.drop
      rwa [List.drop_length, List.append_nil] at h
    have hoff : (l.toEnd LF ++ [LF]).length - (value ++ [LF]).length =
        (l.toEnd LF).length - value.length := by
      simp only [List.length_append]
      omega
    have hle : (l.toEnd LF).length - value.length ≤ (l.toEnd LF).length := Nat.sub_le _ _
    have hbefore := hat.before
    rw [configValue_returned hnul he hdrop, configValue_returned hnul' he' hdrop', hoff,
      exists_map_some_iff, Line.toEnd_extend, Line.toEnd_extend,
      List.drop_append_of_le_length hle, List.drop_append_of_le_length hle, blankEnd_iff hdrop,
      hvalue, List.length_append, List.length_singleton]
    refine readValue_whole_same_iff (fun h => hnul ?_) ?_ hz hz' hne hne'
    · rw [← hvalue] at h
      exact List.mem_of_mem_drop h
    · rw [List.length_append, List.length_singleton] at hsize ⊢
      omega

end Foxtails.Config
