/-
  `strtok` with a set of delimiters, which cuts the string it is called on.

  `words p xs` are the longest parts of `xs` that have no delimiter. A `Cursor` is an object
  that holds a string and its NUL, with the place where the next call goes on; `call` is one
  call, which puts a NUL behind the word it returns.

  * `words_append_cons`, `words_word`: words are cut at a delimiter.
  * `words_append_word`: a word behind a list joins the last one, or is one more.
  * `call_cases`: a call returns the next word, and leaves what is behind it as it was.
  * `strAt_of_take`: a word that is cut stays cut.
-/
import Foxtails.Lib.Libc

namespace Foxtails.Lib.Strtok

open Foxtails.Lib.Scan Foxtails.Lib.Libc

/-! ## Words -/

section Words

variable {α : Type} {p : α → Bool}

/-- The longest parts without an element that satisfies `p`. -/
def words (p : α → Bool) (xs : List α) : List (List α) := (xs.splitOnP p).filter fun w => !w.isEmpty

theorem words_append_cons (xs ys : List α) {x : α} (hx : p x = true) :
    words p (xs ++ x :: ys) = words p xs ++ words p ys := by
  rw [words, List.splitOnP_append_cons xs ys hx, List.filter_append]
  rfl

theorem words_of_not {xs : List α} (h : ∀ x ∈ xs, p x = false) (hne : xs ≠ []) :
    words p xs = [xs] := by
  rw [words, List.splitOnP_eq_singleton h]
  simpa using hne

@[simp] theorem words_nil : words p [] = [] := rfl

theorem words_skip (xs : List α) {ds : List α} (h : ∀ x ∈ ds, p x = true) :
    words p (ds ++ xs) = words p xs := by
  induction ds with
  | nil => rfl
  | cons d ds ih =>
    have hd : p d = true := h d List.mem_cons_self
    show words p ([] ++ d :: (ds ++ xs)) = words p xs
    rw [words_append_cons [] _ hd, words_nil, List.nil_append]
    exact ih fun x hx => h x (List.mem_cons_of_mem d hx)

/-- A word, and the delimiter behind it. -/
theorem words_word {w : List α} (ys : List α) {x : α} (hw : ∀ x ∈ w, p x = false) (hne : w ≠ [])
    (hx : p x = true) : words p (w ++ x :: ys) = w :: words p ys := by
  rw [words_append_cons w ys hx, words_of_not hw hne]
  rfl

/-- Delimiters, a word, and what follows it; or delimiters only. -/
theorem words_cases (p : α → Bool) (xs : List α) :
    (∀ x ∈ xs, p x = true) ∨ ∃ ds w tail, xs = ds ++ (w ++ tail) ∧ (∀ x ∈ ds, p x = true) ∧
      (∀ x ∈ w, p x = false) ∧ w ≠ [] ∧ ∀ x ∈ tail.head?, p x = true := by
  by_cases hall : ∀ x ∈ xs, p x = true
  · exact .inl hall
  · refine .inr ⟨xs.takeWhile p, (xs.dropWhile p).takeWhile fun x => !p x,
      (xs.dropWhile p).dropWhile fun x => !p x, ?_, fun x hx => List.mem_takeWhile_imp hx,
      fun x hx => by simpa using List.mem_takeWhile_imp hx, ?_, fun x hx => ?_⟩
    · rw [List.takeWhile_append_dropWhile, List.takeWhile_append_dropWhile]
    · have hne : xs.dropWhile p ≠ [] := fun h => hall (List.dropWhile_eq_nil_iff.mp h)
      have hhead := List.head_dropWhile_not p hne
      obtain ⟨y, ys, hys⟩ := List.exists_cons_of_ne_nil hne
      simp only [hys, List.head_cons] at hhead
      rw [hys, List.takeWhile_cons_of_pos (by rw [hhead]; rfl)]
      exact List.cons_ne_nil _ _
    · have hne : (xs.dropWhile p).dropWhile (fun x => !p x) ≠ [] := by
        rintro h
        rw [h] at hx
        cases hx
      have hhead := List.head_dropWhile_not (fun x => !p x) hne
      rw [List.head?_eq_some_head hne] at hx
      obtain rfl := Option.some.inj hx
      simpa using hhead

/-- The first word, and those of what follows it. -/
theorem words_first {ds w tail : List α} (hds : ∀ x ∈ ds, p x = true) (hw : ∀ x ∈ w, p x = false)
    (hne : w ≠ []) (htail : ∀ x ∈ tail.head?, p x = true) :
    words p (ds ++ (w ++ tail)) = w :: words p tail := by
  rw [words_skip _ hds]
  cases tail with
  | nil => rw [List.append_nil, words_of_not hw hne, words_nil]
  | cons d tail =>
    have hd : p d = true := htail d rfl
    have hskip : words p ([d] ++ tail) = words p tail := words_skip tail (by simpa using hd)
    rw [words_word tail hw hne hd, ← hskip]
    rfl

/-- A list of delimiters has no words. -/
theorem words_eq_nil_iff {xs : List α} : words p xs = [] ↔ ∀ x ∈ xs, p x = true := by
  rcases words_cases p xs with hall | ⟨ds, w, tail, rfl, hds, hw, hne, htail⟩
  · have hskip := words_skip [] hall
    rw [List.append_nil, words_nil] at hskip
    exact iff_of_true hskip hall
  · rw [words_first hds hw hne htail]
    refine iff_of_false (List.cons_ne_nil _ _) fun hall => ?_
    obtain ⟨x, w, rfl⟩ := List.exists_cons_of_ne_nil hne
    have hx := hw x List.mem_cons_self
    rw [hall x (by simp)] at hx
    cases hx

/-- A word is a part of the list, without delimiters. -/
theorem of_mem_words {w xs : List α} (h : w ∈ words p xs) : w <:+: xs ∧ ∀ x ∈ w, p x = false := by
  induction hn : xs.length using Nat.strong_induction_on generalizing xs with
  | _ n ih =>
    rcases words_cases p xs with hall | ⟨ds, v, tail, rfl, hds, hv, hne, htail⟩
    · rw [words_eq_nil_iff.mpr hall] at h
      cases h
    · rw [words_first hds hv hne htail] at h
      rcases List.mem_cons.mp h with rfl | h
      · exact ⟨⟨ds, tail, List.append_assoc ds w tail⟩, hv⟩
      · have hlt : tail.length < n := by
          have hpos := List.length_pos_of_ne_nil hne
          rw [← hn, List.length_append, List.length_append]
          omega
        have htail' : tail <:+: ds ++ (v ++ tail) :=
          (List.suffix_append v tail).isInfix.trans (List.suffix_append ds _).isInfix
        obtain ⟨hpart, hnot⟩ := ih _ hlt h rfl
        exact ⟨hpart.trans htail', hnot⟩

theorem length_le_of_mem_words {w xs : List α} (h : w ∈ words p xs) : w.length ≤ xs.length :=
  (of_mem_words h).1.length_le

theorem words_ne_nil {xs : List α} {x : α} (hmem : x ∈ xs) (hx : p x = false) :
    words p xs ≠ [] := by
  intro h
  rw [words_eq_nil_iff.mp h x hmem] at hx
  cases hx

/-- The words of a first part are words of the whole, but for the last one, which may go on. -/
theorem words_of_isPrefix {xs ys : List α} (h : xs <+: ys) {ws : List (List α)} {w : List α}
    (hws : words p xs = ws ++ [w]) : ∃ w' more, words p ys = ws ++ w' :: more := by
  obtain ⟨zs, rfl⟩ := h
  -- word by word, on the length
  induction hn : xs.length using Nat.strongRecOn generalizing xs ws with
  | ind n ih =>
    subst hn
    rcases words_cases p xs with hall | ⟨ds, v, tail, rfl, hds, hv, hne, htail⟩
    · have hnil := words_skip [] hall
      rw [List.append_nil, hws, words_nil] at hnil
      simp at hnil
    · rw [words_first hds hv hne htail] at hws
      cases ws with
      | nil =>
        obtain ⟨x, v', rfl⟩ := List.exists_cons_of_ne_nil hne
        have hmem : x ∈ ds ++ (x :: v' ++ tail) ++ zs := by simp
        obtain ⟨w', more, hmore⟩ :=
          List.exists_cons_of_ne_nil (words_ne_nil hmem (hv x List.mem_cons_self))
        exact ⟨w', more, hmore⟩
      | cons u ws =>
        obtain ⟨rfl, htl⟩ := List.cons.inj hws
        have hlt : tail.length < (ds ++ (v ++ tail)).length := by
          have hpos := List.length_pos_of_ne_nil hne
          simp only [List.length_append]
          omega
        obtain ⟨w', more, hmore⟩ := ih _ hlt htl rfl
        have htail' : ∀ x ∈ (tail ++ zs).head?, p x = true := by
          cases tail with
          | nil => simp at htl
          | cons d tail => exact htail
        refine ⟨w', more, ?_⟩
        rw [List.append_assoc, List.append_assoc, words_first hds hv hne htail', hmore]
        rfl

/-- A word behind a list is one of its own, or it is the rest of the last word. -/
theorem words_append_word (p : α → Bool) (xs : List α) :
    (∀ v, v ≠ [] → (∀ x ∈ v, p x = false) → words p (xs ++ v) = words p xs ++ [v]) ∨
      ∃ ws w, words p xs = ws ++ [w] ∧
        ∀ v, v ≠ [] → (∀ x ∈ v, p x = false) → words p (xs ++ v) = ws ++ [w ++ v] := by
  induction xs using List.reverseRecOn with
  | nil => exact .inl fun v hne hv => words_of_not hv hne
  | append_singleton xs y ih =>
    have hcons : ∀ v, xs ++ [y] ++ v = xs ++ y :: v := fun v => List.append_cons xs y v ▸ rfl
    by_cases hy : p y = true
    · refine .inl fun v hne hv => ?_
      have hxs : words p (xs ++ [y]) = words p xs ++ words p [] := words_append_cons xs [] hy
      rw [hcons, words_append_cons xs v hy, words_of_not hv hne, hxs, words_nil, List.append_nil]
    · rw [Bool.not_eq_true] at hy
      have hyv : ∀ v : List α, (∀ x ∈ v, p x = false) → ∀ x ∈ y :: v, p x = false :=
        fun v hv => List.forall_mem_cons.mpr ⟨hy, hv⟩
      have hnone : ∀ x ∈ ([] : List α), p x = false := fun x hx => by cases hx
      right
      rcases ih with ih | ⟨ws, w, -, ih⟩
      · refine ⟨words p xs, [y], ih [y] (List.cons_ne_nil _ _) (hyv [] hnone), fun v _ hv => ?_⟩
        rw [hcons]
        exact ih (y :: v) (List.cons_ne_nil _ _) (hyv v hv)
      · refine ⟨ws, w ++ [y], ih [y] (List.cons_ne_nil _ _) (hyv [] hnone), fun v _ hv => ?_⟩
        rw [hcons, List.append_assoc]
        exact ih (y :: v) (List.cons_ne_nil _ _) (hyv v hv)

end Words

/-! ## The calls -/

/-- An object that is being cut, and where the next call goes on. -/
structure Cursor where
  obj : Bytes
  pos : Nat
  deriving DecidableEq

/-- Before the first call. -/
def Cursor.start (s : Bytes) : Cursor := ⟨s ++ [NUL], 0⟩

/-- The string at an offset. -/
def strAt (obj : Bytes) (off : Nat) : Bytes := upto NUL (obj.drop off)

/-- `strtok`, with the bytes that satisfy `p` as delimiters: where the word begins, or NULL. -/
def Cursor.call (p : Byte → Bool) (c : Cursor) : Option Nat × Cursor :=
  let start := c.pos + ((c.obj.drop c.pos).takeWhile p).length
  let len := ((c.obj.drop start).takeWhile fun b => b != NUL && !p b).length
  if len = 0 then (none, { c with pos := start })
  else if (c.obj.drop (start + len)).head? = some NUL then
    (some start, { c with pos := start + len })
  else (some start, { obj := c.obj.set (start + len) NUL, pos := start + len + 1 })

/-- A call writes inside of the object. -/
theorem call_length (p : Byte → Bool) (c : Cursor) : (c.call p).2.obj.length = c.obj.length := by
  unfold Cursor.call
  dsimp only
  split_ifs
  · rfl
  · rfl
  · exact List.length_set

/-- What is left of `s` is still in the object. -/
structure Cursor.At (s : Bytes) (c : Cursor) : Prop where
  le : c.pos ≤ s.length
  left : c.obj.drop c.pos = s.drop c.pos ++ [NUL]

theorem at_start (s : Bytes) : (Cursor.start s).At s := ⟨Nat.zero_le _, rfl⟩

/-- What a call does that returns the word `w`, which begins at `off`. -/
structure Cut (p : Byte → Bool) (s : Bytes) (c : Cursor) (off : Nat) (w : Bytes) (c' : Cursor) :
    Prop where
  words_eq : words p (s.drop c.pos) = w :: words p (s.drop c'.pos)
  next : c'.At s
  str : strAt c'.obj off = w
  part : (s.drop off).take w.length = w
  word : w ≠ [] ∧ ∀ b ∈ w, p b = false
  start : c.pos ≤ off
  progress : c.pos < c'.pos
  /-- The byte behind the word is a NUL from now on, unless the string ends there. -/
  closed : words p (s.drop c'.pos) ≠ [] → off + w.length < c'.pos
  before : c'.obj.take c.pos = c.obj.take c.pos
  length : c'.obj.length = c.obj.length

theorem takeWhile_append_stop {α : Type} {p : α → Bool} {xs ys : List α} (hxs : ∀ x ∈ xs, p x = true)
    (hys : ∀ y ∈ ys.head?, p y = false) : (xs ++ ys).takeWhile p = xs := by
  rw [List.takeWhile_append_of_pos hxs]
  cases ys with
  | nil => rw [List.takeWhile_nil, List.append_nil]
  | cons y ys =>
    have hy : p y = false := hys y rfl
    rw [List.takeWhile_cons_of_neg (by rw [hy]; exact Bool.false_ne_true), List.append_nil]

theorem upto_append_cons {w : Bytes} (hw : NUL ∉ w) (ys : Bytes) : upto NUL (w ++ NUL :: ys) = w := by
  refine takeWhile_append_stop (fun b hb => ?_) fun b hb => ?_
  · simpa using fun he : b = NUL => hw (he ▸ hb)
  · obtain rfl := Option.some.inj hb
    simp

variable {p : Byte → Bool} {s : Bytes} {c : Cursor}

/-- Where only delimiters are left. -/
theorem call_blank (hp : p NUL = false) (h : c.At s) (hall : ∀ b ∈ s.drop c.pos, p b = true) :
    c.call p = (none, { c with pos := c.pos + (s.drop c.pos).length }) := by
  have hskip : ((c.obj.drop c.pos).takeWhile p).length = (s.drop c.pos).length := by
    rw [h.left, takeWhile_append_stop hall fun b hb => by rw [← Option.some.inj hb, hp]]
  have hrest : c.obj.drop (c.pos + (s.drop c.pos).length) = [NUL] := by
    rw [← List.drop_drop, h.left, List.drop_left]
  unfold Cursor.call
  simp only [hskip, hrest]
  rfl

/-- What is left of `s`: delimiters, a word, and what follows it. -/
structure Ahead (p : Byte → Bool) (s : Bytes) (c : Cursor) (ds w tail : Bytes) : Prop where
  split : s.drop c.pos = ds ++ (w ++ tail)
  skipped : ∀ b ∈ ds, p b = true
  word : ∀ b ∈ w, p b = false
  ne_nil : w ≠ []
  behind : ∀ b ∈ tail.head?, p b = true

namespace Ahead

variable {ds w tail : Bytes}

theorem nul (ha : Ahead p s c ds w tail) (hs : NUL ∉ s) : NUL ∉ w := by
  intro hb
  have hmem : NUL ∈ s.drop c.pos := by
    rw [ha.split]
    exact List.mem_append_right ds (List.mem_append_left tail hb)
  exact hs (List.mem_of_mem_drop hmem)

theorem length (ha : Ahead p s c ds w tail) :
    ds.length + (w.length + tail.length) = s.length - c.pos := by
  have hlen := congrArg List.length ha.split
  simp only [List.length_drop, List.length_append] at hlen
  omega

theorem part (ha : Ahead p s c ds w tail) : (s.drop (c.pos + ds.length)).take w.length = w := by
  rw [← List.drop_drop, ha.split, List.drop_left, List.take_left]

theorem drop_start (ha : Ahead p s c ds w tail) (h : c.At s) :
    c.obj.drop (c.pos + ds.length) = w ++ (tail ++ [NUL]) := by
  rw [← List.drop_drop, h.left, ha.split, List.append_assoc, List.append_assoc, List.drop_left]

theorem drop_end (ha : Ahead p s c ds w tail) (h : c.At s) :
    c.obj.drop (c.pos + ds.length + w.length) = tail ++ [NUL] := by
  rw [← List.drop_drop, ha.drop_start h, List.drop_left]

theorem skip_length (ha : Ahead p s c ds w tail) (h : c.At s) :
    ((c.obj.drop c.pos).takeWhile p).length = ds.length := by
  rw [h.left, ha.split, List.append_assoc, List.append_assoc, takeWhile_append_stop ha.skipped]
  obtain ⟨b, w', rfl⟩ := List.exists_cons_of_ne_nil ha.ne_nil
  intro y hy
  rw [← Option.some.inj hy]
  exact ha.word b List.mem_cons_self

theorem word_length (ha : Ahead p s c ds w tail) (h : c.At s) (hs : NUL ∉ s) :
    ((c.obj.drop (c.pos + ds.length)).takeWhile fun b => b != NUL && !p b).length = w.length := by
  rw [ha.drop_start h, takeWhile_append_stop]
  · intro b hb
    have hbnul : b ≠ NUL := fun he => ha.nul hs (he ▸ hb)
    simp [hbnul, ha.word b hb]
  · intro b hb
    cases tail with
    | nil =>
      rw [← Option.some.inj hb]
      rfl
    | cons d tail =>
      rw [← Option.some.inj hb, ha.behind d rfl]
      exact Bool.and_false _

theorem call_eq (ha : Ahead p s c ds w tail) (h : c.At s) (hs : NUL ∉ s) :
    c.call p =
      if (tail ++ [NUL]).head? = some NUL then
        (some (c.pos + ds.length), { c with pos := c.pos + ds.length + w.length })
      else (some (c.pos + ds.length),
        { obj := c.obj.set (c.pos + ds.length + w.length) NUL
          pos := c.pos + ds.length + w.length + 1 }) := by
  have hwlen : w.length ≠ 0 := (List.length_pos_of_ne_nil ha.ne_nil).ne'
  unfold Cursor.call
  simp only [ha.skip_length h, ha.word_length h hs, ha.drop_end h, if_neg hwlen]

/-- The word is the last one, and the NUL behind it is that of the string. -/
theorem cut_last (ha : Ahead p s c ds w []) (h : c.At s) (hs : NUL ∉ s) :
    ∃ c', c.call p = (some (c.pos + ds.length), c') ∧ Cut p s c (c.pos + ds.length) w c' := by
  have hle := h.le
  have hlen := ha.length
  have hwlen := List.length_pos_of_ne_nil ha.ne_nil
  rw [List.length_nil] at hlen
  have hdrop : s.drop (c.pos + ds.length + w.length) = [] := List.drop_of_length_le (by omega)
  refine ⟨{ c with pos := c.pos + ds.length + w.length }, by rw [ha.call_eq h hs]; rfl,
    ⟨?_, ⟨?_, ?_⟩, ?_, ha.part, ⟨ha.ne_nil, ha.word⟩, ?_, ?_, ?_, rfl, rfl⟩⟩
  · show words p _ = w :: words p (s.drop (c.pos + ds.length + w.length))
    rw [ha.split, words_first ha.skipped ha.word ha.ne_nil ha.behind, hdrop]
  · show c.pos + ds.length + w.length ≤ s.length
    omega
  · show c.obj.drop (c.pos + ds.length + w.length) = _
    rw [ha.drop_end h, hdrop]
  · rw [strAt, ha.drop_start h]
    exact upto_append_cons (ha.nul hs) []
  · exact Nat.le_add_right _ _
  · show c.pos < c.pos + ds.length + w.length
    omega
  · intro hmore
    refine absurd ?_ hmore
    show words p (s.drop (c.pos + ds.length + w.length)) = []
    rw [hdrop, words_nil]

/-- A delimiter follows, in whose place the call puts a NUL. -/
theorem cut_word {d : Byte} (ha : Ahead p s c ds w (d :: tail)) (hp : p NUL = false) (h : c.At s)
    (hs : NUL ∉ s) :
    ∃ c', c.call p = (some (c.pos + ds.length), c') ∧ Cut p s c (c.pos + ds.length) w c' := by
  have hle := h.le
  have hlen := ha.length
  rw [List.length_cons] at hlen
  have hd : p d = true := ha.behind d rfl
  have hdnul : d ≠ NUL := by
    rintro rfl
    rw [hp] at hd
    cases hd
  have hdrop : s.drop (c.pos + ds.length + w.length + 1) = tail := by
    have hsplit : s.drop (c.pos + (ds.length + w.length)) = d :: tail := by
      rw [← List.drop_drop, ha.split, ← List.append_assoc]
      exact List.drop_left' (by rw [List.length_append])
    rw [← List.drop_drop, Nat.add_assoc, hsplit]
    rfl
  have hif : ¬ (d :: tail ++ [NUL]).head? = some NUL := by simpa using hdnul
  refine ⟨_, by rw [ha.call_eq h hs, if_neg hif],
    ⟨?_, ⟨?_, ?_⟩, ?_, ha.part, ⟨ha.ne_nil, ha.word⟩, ?_, ?_, ?_, ?_, ?_⟩⟩
  · show words p _ = w :: words p (s.drop (c.pos + ds.length + w.length + 1))
    rw [ha.split, words_skip _ ha.skipped, words_word tail ha.word ha.ne_nil hd, hdrop]
  · show c.pos + ds.length + w.length + 1 ≤ s.length
    omega
  · show (c.obj.set _ NUL).drop (c.pos + ds.length + w.length + 1) = _
    rw [List.drop_set_of_lt (by omega), hdrop, ← List.drop_drop, ha.drop_end h]
    rfl
  · rw [strAt, List.drop_set, if_neg (by omega), ha.drop_start h, Nat.add_sub_cancel_left,
      List.set_append_right _ _ le_rfl, Nat.sub_self]
    exact upto_append_cons (ha.nul hs) _
  · exact Nat.le_add_right _ _
  · show c.pos < c.pos + ds.length + w.length + 1
    omega
  · intro _
    show c.pos + ds.length + w.length < c.pos + ds.length + w.length + 1
    omega
  · exact List.take_set_of_le (by omega)
  · exact List.length_set

end Ahead

/-- **A call returns the next word, or NULL where there is none.** -/
theorem call_cases (hp : p NUL = false) (hs : NUL ∉ s) (h : c.At s) :
    (words p (s.drop c.pos) = [] ∧ ∃ c', c.call p = (none, c') ∧ c'.obj = c.obj) ∨
      ∃ off w c', c.call p = (some off, c') ∧ Cut p s c off w c' := by
  rcases words_cases p (s.drop c.pos) with hall | ⟨ds, w, tail, ht, hds, hw, hne, htail⟩
  · exact .inl ⟨words_eq_nil_iff.mpr hall, _, call_blank hp h hall, rfl⟩
  · right
    have ha : Ahead p s c ds w tail := ⟨ht, hds, hw, hne, htail⟩
    refine ⟨c.pos + ds.length, w, ?_⟩
    cases tail with
    | nil => exact ha.cut_last h hs
    | cons d tail => exact ha.cut_word hp h hs

/-- A string that ends among the first bytes is one of them only. -/
theorem upto_take {xs : Bytes} {n : Nat} (h : (upto NUL xs).length < n) :
    upto NUL (xs.take n) = upto NUL xs := by
  by_cases hlen : xs.length ≤ n
  · rw [List.take_of_length_le hlen]
  · have hsplit : upto NUL (xs.take n ++ xs.drop n) = upto NUL xs := by rw [List.take_append_drop]
    unfold upto at hsplit h ⊢
    rw [List.takeWhile_append] at hsplit
    split_ifs at hsplit with hall
    · rw [← hsplit, List.length_append, List.length_take] at h
      omega
    · exact hsplit

theorem upto_of_take {xs : Bytes} {n : Nat} (h : (upto NUL (xs.take n)).length < n) :
    upto NUL (xs.take n) = upto NUL xs := by
  by_cases hlen : xs.length ≤ n
  · rw [List.take_of_length_le hlen]
  · have hsplit : upto NUL (xs.take n ++ xs.drop n) = upto NUL xs := by rw [List.take_append_drop]
    unfold upto at hsplit h ⊢
    rw [List.takeWhile_append] at hsplit
    split_ifs at hsplit with hall
    · rw [hall, List.length_take] at h
      omega
    · exact hsplit

/-- A word that has its NUL is not changed by what happens behind it. -/
theorem strAt_of_take {obj obj' : Bytes} {off n : Nat} {w : Bytes} (hw : strAt obj off = w)
    (hlt : off + w.length < n) (htake : obj'.take n = obj.take n) : strAt obj' off = w := by
  have hdrop : (obj'.drop off).take (n - off) = (obj.drop off).take (n - off) := by
    rw [← List.drop_take, ← List.drop_take, htake]
  have hobj : upto NUL ((obj.drop off).take (n - off)) = w := by
    rw [← hw]
    refine upto_take ?_
    rw [show upto NUL (obj.drop off) = w from hw]
    omega
  rw [← hdrop] at hobj
  rw [strAt, ← upto_of_take (by rw [hobj]; omega), hobj]

theorem Cut.keeps {off o : Nat} {w v : Bytes} {c' : Cursor} (h : Cut p s c off w c')
    (hv : strAt c.obj o = v) (hlt : o + v.length < c.pos) : strAt c'.obj o = v :=
  strAt_of_take hv hlt h.before

end Foxtails.Lib.Strtok
