/-
  The lines of a list, and loops over them that can be left.

  `lines d xs` are the parts of `xs` that end at a `d`, each with all that follows its `d`; what
  lies behind the last `d` (`unended d xs`) is in none. A loop over a list that a step can leave
  is `List.foldlM` in `Except`: `.ok` goes on, `.error` leaves with a result.

  * `lines_cut`, `lines_unended`, `linesRec`: the first line, no line, and the induction on lines.
  * `lines_ended`, `lines_concat`: the lines of ended lines, and of a text with a `d` at the end.
  * `filterMap_eq_append_iff`: the same comes of all lines only if it does of each.
  * `foldlM_left_iff`, `forall_left_iff`: a loop is left at an element it reaches.
-/
import Foxtails.Lib.Scan

namespace Foxtails.Lib.Lines

open Foxtails.Lib.Scan

variable {α : Type} [DecidableEq α]

/-- A line without its end, and what follows. -/
structure Line (α : Type) where
  text : List α
  rest : List α
  deriving DecidableEq

/-- The same line where the list goes on with `ys`. -/
def Line.extend (l : Line α) (ys : List α) : Line α := ⟨l.text, l.rest ++ ys⟩

/-- The list from the start of the line on. -/
def Line.toEnd (d : α) (l : Line α) : List α := l.text ++ d :: l.rest

omit [DecidableEq α] in
theorem Line.toEnd_extend (d : α) (l : Line α) (ys : List α) :
    (l.extend ys).toEnd d = l.toEnd d ++ ys := by
  rw [Line.toEnd, Line.toEnd, Line.extend, List.append_assoc]
  rfl

/-- The lines of a list. -/
def lines (d : α) : List α → List (Line α)
  | [] => []
  | x :: xs =>
    if x = d then ⟨[], xs⟩ :: lines d xs
    else (lines d xs).modifyHead fun l => ⟨x :: l.text, l.rest⟩

/-- What lies behind the last `d`. -/
def unended (d : α) : List α → List α
  | [] => []
  | x :: xs => if d ∈ xs then unended d xs else if x = d then xs else x :: xs

theorem lines_unended {d : α} {xs : List α} (h : d ∉ xs) : lines d xs = [] := by
  induction xs with
  | nil => rfl
  | cons x xs ih =>
    rw [List.mem_cons, not_or] at h
    rw [lines, if_neg (fun hx => h.1 hx.symm), ih h.2]
    rfl

theorem lines_cut {d : α} {l : List α} (rest : List α) (h : d ∉ l) :
    lines d (l ++ d :: rest) = ⟨l, rest⟩ :: lines d rest := by
  induction l with
  | nil => simp [lines]
  | cons x l ih =>
    rw [List.mem_cons, not_or] at h
    rw [List.cons_append, lines, if_neg (fun hx => h.1 hx.symm), ih h.2]
    rfl

theorem unended_of_not_mem {d : α} {xs : List α} (h : d ∉ xs) : unended d xs = xs := by
  cases xs with
  | nil => rfl
  | cons x xs =>
    rw [List.mem_cons, not_or] at h
    rw [unended, if_neg h.2, if_neg fun hx => h.1 hx.symm]

theorem unended_cut {d : α} (l rest : List α) : unended d (l ++ d :: rest) = unended d rest := by
  induction l with
  | nil =>
    rw [List.nil_append, unended]
    by_cases h : d ∈ rest
    · rw [if_pos h]
    · rw [if_neg h, if_pos rfl, unended_of_not_mem h]
  | cons x l ih =>
    rw [List.cons_append, unended, if_pos (List.mem_append_right _ List.mem_cons_self)]
    exact ih

/-- The induction on lines. -/
theorem linesRec {d : α} {P : List α → Prop} (last : ∀ xs, d ∉ xs → P xs)
    (cut : ∀ l rest, d ∉ l → P rest → P (l ++ d :: rest)) (xs : List α) : P xs := by
  -- on the length: a line and its end are cut off the front
  induction hn : xs.length using Nat.strongRecOn generalizing xs with
  | ind n ih =>
    subst hn
    cases hfind : find [d] xs with
    | none => exact last xs (find_singleton_eq_none.mp hfind)
    | some i =>
      obtain ⟨hno, heq, hlt⟩ := find_singleton_eq_some hfind
      rw [heq]
      refine cut _ _ hno (ih _ ?_ _ rfl)
      rw [List.length_drop]
      omega

/-- Lines with their ends, one behind the other. -/
def ended (d : α) (ts : List (List α)) : List α := (ts.map fun t => t ++ [d]).flatten

omit [DecidableEq α] in
theorem ended_cons (d : α) (t : List α) (ts : List (List α)) :
    ended d (t :: ts) = t ++ d :: ended d ts := by
  simp [ended]

/-- The same lines, each with what follows it. -/
def endedLines (d : α) : List (List α) → List (Line α)
  | [] => []
  | t :: ts => ⟨t, ended d ts⟩ :: endedLines d ts

theorem lines_ended {d : α} {ts : List (List α)} (h : ∀ t ∈ ts, d ∉ t) :
    lines d (ended d ts) = endedLines d ts := by
  induction ts with
  | nil => rfl
  | cons t ts ih =>
    rw [ended_cons, lines_cut _ (h t List.mem_cons_self),
      ih fun u hu => h u (List.mem_cons_of_mem t hu)]
    rfl

/-- Every line is a part of the list, and has no end in it. -/
theorem mem_lines {d : α} {xs : List α} {l : Line α} (h : l ∈ lines d xs) :
    d ∉ l.text ∧ l.toEnd d <:+ xs := by
  induction xs using linesRec with
  | last xs hno =>
    rw [lines_unended hno] at h
    cases h
  | cut t rest hno ih =>
    rw [lines_cut rest hno] at h
    rcases List.mem_cons.mp h with rfl | h
    · exact ⟨hno, List.suffix_refl _⟩
    · obtain ⟨htext, hsuffix⟩ := ih h
      refine ⟨htext, hsuffix.trans ?_⟩
      exact (List.suffix_cons d rest).trans (List.suffix_append _ _)

/-- An end behind the list ends the line that had none. -/
theorem lines_concat (d : α) (xs : List α) :
    lines d (xs ++ [d]) = (lines d xs).map (·.extend [d]) ++ [⟨unended d xs, []⟩] := by
  induction xs using linesRec with
  | last xs hno =>
    rw [lines_unended hno, unended_of_not_mem hno, lines_cut [] hno]
    rfl
  | cut t rest hno ih =>
    rw [List.append_assoc, List.cons_append, lines_cut _ hno, lines_cut _ hno, ih, unended_cut]
    rfl

/-! ## What comes of each line -/

section Picked

variable {β γ : Type} {xs : List β} {f g : β → Option γ}

omit [DecidableEq α]

theorem length_filterMap_le (h : ∀ x ∈ xs, (f x).isSome → (g x).isSome) :
    (xs.filterMap f).length ≤ (xs.filterMap g).length := by
  rw [List.length_filterMap_eq_countP, List.length_filterMap_eq_countP]
  exact List.countP_mono_left h

/-- Where `g` gives something of all of which `f` does, and they give the same, with `ys` behind
    one of them, they give the same of each, and `ys` is nothing. -/
theorem filterMap_eq_append_iff (h : ∀ x ∈ xs, (f x).isSome → (g x).isSome) {ys : List γ} :
    xs.filterMap f = xs.filterMap g ++ ys ↔ (∀ x ∈ xs, f x = g x) ∧ ys = [] := by
  constructor
  · intro heq
    induction xs with
    | nil =>
      refine ⟨fun x hx => ?_, heq.symm⟩
      cases hx
    | cons x xs ih =>
      obtain ⟨hx, hxs⟩ := List.forall_mem_cons.mp h
      rw [List.forall_mem_cons]
      cases hf : f x with
      | none =>
        rw [List.filterMap_cons_none hf] at heq
        cases hg : g x with
        | none =>
          rw [List.filterMap_cons_none hg] at heq
          obtain ⟨hall, hys⟩ := ih hxs heq
          exact ⟨⟨rfl, hall⟩, hys⟩
        | some b =>
          -- more than `f` gives of all that is left
          rw [List.filterMap_cons_some hg] at heq
          have hle := length_filterMap_le hxs
          have hlen := congrArg List.length heq
          rw [List.length_append, List.length_cons] at hlen
          omega
      | some a =>
        rw [hf] at hx
        obtain ⟨b, hg⟩ := Option.isSome_iff_exists.mp (hx rfl)
        rw [List.filterMap_cons_some hf, List.filterMap_cons_some hg] at heq
        obtain ⟨rfl, htail⟩ := List.cons.inj heq
        obtain ⟨hall, hys⟩ := ih hxs htail
        exact ⟨⟨hg.symm, hall⟩, hys⟩
  · rintro ⟨hfg, rfl⟩
    rw [List.append_nil]
    exact List.filterMap_congr hfg

end Picked

/-! ## Loops that can be left -/

section Loop

variable {σ ρ β : Type} {f : σ → β → Except ρ σ}

omit [DecidableEq α]

theorem foldlM_cons_ok {s s' : σ} {x : β} {xs : List β} (h : f s x = .ok s') :
    (x :: xs).foldlM f s = xs.foldlM f s' := by
  rw [List.foldlM_cons, h]
  rfl

theorem foldlM_cons_error {s : σ} {r : ρ} {x : β} {xs : List β} (h : f s x = .error r) :
    (x :: xs).foldlM f s = .error r := by
  rw [List.foldlM_cons, h]
  rfl

/-- A loop is left at an element that it reaches. -/
theorem foldlM_left_iff {s : σ} {xs : List β} {r : ρ} :
    xs.foldlM f s = .error r ↔ ∃ pre x post s', xs = pre ++ x :: post ∧
      pre.foldlM f s = .ok s' ∧ f s' x = .error r := by
  constructor
  · intro h
    induction xs generalizing s with
    | nil => cases h
    | cons x xs ih =>
      cases hx : f s x with
      | error r' =>
        rw [foldlM_cons_error hx] at h
        cases h
        exact ⟨[], x, xs, s, rfl, rfl, hx⟩
      | ok s' =>
        rw [foldlM_cons_ok hx] at h
        obtain ⟨pre, y, post, t, rfl, hpre, hy⟩ := ih h
        exact ⟨x :: pre, y, post, t, rfl, by rw [foldlM_cons_ok hx, hpre], hy⟩
  · rintro ⟨pre, x, post, s', rfl, hpre, hx⟩
    rw [List.foldlM_append, hpre]
    exact foldlM_cons_error hx

/-- What holds of the result a loop is left with holds of every step at which it could be. -/
theorem forall_left_iff {s : σ} {xs : List β} {P : ρ → Prop} :
    (∀ r, xs.foldlM f s = .error r → P r) ↔ ∀ pre x post s', xs = pre ++ x :: post →
      pre.foldlM f s = .ok s' → ∀ r, f s' x = .error r → P r := by
  constructor
  · intro h pre x post s' hxs hpre r hr
    exact h r (foldlM_left_iff.mpr ⟨pre, x, post, s', hxs, hpre, hr⟩)
  · intro h r hr
    obtain ⟨pre, x, post, s', hxs, hpre, hx⟩ := foldlM_left_iff.mp hr
    exact h pre x post s' hxs hpre r hx

end Loop

end Foxtails.Lib.Lines
