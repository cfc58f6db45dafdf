/-
  Absolute paths, as lists of components and as text.

  `absolute sep cs` writes the separator before each component; the empty list is the root
  directory, which is written as the separator alone.

  * `Beneath`: the test on texts: a prefix that ends at a separator or at the end.
  * `prefix_of_beneath`: a text that passes the test has the other's components as a prefix.
  * `beneath_iff`: for a root other than the root directory the test decides exactly that.
  * `beneath_absolute_iff`: for the root directory, whose text ends in a separator, nothing but
    itself passes.
-/
import Foxtails.Lib.Scan
import Mathlib.Tactic

namespace Foxtails.Lib.Path

open Foxtails.Lib.Scan

variable {α : Type}

/-! ## Texts -/

/-- Each component behind a separator. -/
def steps (sep : α) (cs : List (List α)) : List α := cs.flatMap (sep :: ·)

/-- The text of an absolute path. -/
def absolute (sep : α) (cs : List (List α)) : List α :=
  if cs = [] then [sep] else steps sep cs

@[simp] theorem steps_nil (sep : α) : steps sep [] = [] := rfl

@[simp] theorem steps_cons (sep : α) (c : List α) (cs : List (List α)) :
    steps sep (c :: cs) = sep :: (c ++ steps sep cs) := by simp [steps]

@[simp] theorem absolute_nil (sep : α) : absolute sep [] = [sep] := rfl

@[simp] theorem absolute_cons (sep : α) (c : List α) (cs : List (List α)) :
    absolute sep (c :: cs) = steps sep (c :: cs) := rfl

/-- A component of a canonical path: not empty, and without the separator. -/
def IsComponent (sep : α) (c : List α) : Prop := c ≠ [] ∧ sep ∉ c

/-- A text that is over, or goes on with a separator. -/
def AtStep (sep : α) (rest : List α) : Prop := ∀ b ∈ rest.head?, b = sep

theorem atStep_steps (sep : α) (cs : List (List α)) : AtStep sep (steps sep cs) := by
  cases cs with
  | nil => simp [AtStep]
  | cons c cs => simp [AtStep]

theorem upto_append_atStep [DecidableEq α] {sep : α} {c rest : List α} (hc : sep ∉ c)
    (hrest : AtStep sep rest) :
    upto sep (c ++ rest) = c := by
  unfold upto
  have hall : ∀ b ∈ c, decide (b ≠ sep) = true := fun b hb =>
    decide_eq_true fun heq => hc (heq ▸ hb)
  rw [List.takeWhile_append_of_pos hall]
  cases rest with
  | nil => simp
  | cons b rest =>
    have hb : b = sep := hrest b rfl
    simp [hb]

/-- Text cut at its first separator: a component, and what follows it. -/
theorem component_inj {sep : α} {c d rest rest' : List α} (hc : sep ∉ c) (hd : sep ∉ d)
    (hrest : AtStep sep rest) (hrest' : AtStep sep rest') (h : c ++ rest = d ++ rest') :
    c = d ∧ rest = rest' := by
  classical
  have hcd : c = d := by
    rw [← upto_append_atStep hc hrest, h, upto_append_atStep hd hrest']
  subst hcd
  exact ⟨rfl, List.append_cancel_left h⟩

/-! ## From texts to components -/

theorem prefix_of_steps {sep : α} {cs ds : List (List α)} {rest : List α}
    (hcs : ∀ c ∈ cs, sep ∉ c) (hds : ∀ d ∈ ds, sep ∉ d) (hrest : AtStep sep rest)
    (h : steps sep cs ++ rest = steps sep ds) : cs <+: ds := by
  induction cs generalizing ds with
  | nil => exact List.nil_prefix
  | cons c cs ih =>
    cases ds with
    | nil => simp at h
    | cons d ds =>
      rw [steps_cons, steps_cons, List.cons_append, List.append_assoc] at h
      have hstep : AtStep sep (steps sep cs ++ rest) := by
        cases cs with
        | nil => exact hrest
        | cons c' cs => simp [AtStep]
      obtain ⟨hcd, htail⟩ := component_inj (hcs c List.mem_cons_self) (hds d List.mem_cons_self)
        hstep (atStep_steps sep ds) (List.cons.inj h).2
      rw [hcd, List.prefix_cons_inj]
      exact ih (fun c' h' => hcs c' (List.mem_cons_of_mem c h'))
        (fun d' h' => hds d' (List.mem_cons_of_mem d h')) htail

/-- `root` is a prefix of `full`, which ends there or goes on with a separator. -/
def Beneath (sep : α) (root full : List α) : Prop :=
  root <+: full ∧ AtStep sep (full.drop root.length)

/-- **A text beneath another has its components as a prefix.** -/
theorem prefix_of_beneath {sep : α} {root full : List (List α)}
    (hroot : ∀ c ∈ root, IsComponent sep c) (hfull : ∀ c ∈ full, IsComponent sep c)
    (h : Beneath sep (absolute sep root) (absolute sep full)) : root <+: full := by
  obtain ⟨⟨rest, hrest⟩, hstep⟩ := h
  rw [← hrest, List.drop_left] at hstep
  cases root with
  | nil => exact List.nil_prefix
  | cons c root =>
    cases full with
    | nil =>
      -- A separator alone holds no component.
      rw [absolute_cons, steps_cons, absolute_nil, List.cons_append] at hrest
      have hnil : c ++ steps sep root ++ rest = [] := (List.cons.inj hrest).2
      exact absurd (List.append_eq_nil_iff.mp (List.append_eq_nil_iff.mp hnil).1).1
        (hroot c List.mem_cons_self).1
    | cons d full =>
      exact prefix_of_steps (fun c' h' => (hroot c' h').2) (fun d' h' => (hfull d' h').2)
        hstep hrest

theorem beneath_of_prefix (sep : α) {root full : List (List α)} (hne : root ≠ [])
    (h : root <+: full) : Beneath sep (absolute sep root) (absolute sep full) := by
  obtain ⟨rest, rfl⟩ := h
  have hroot : absolute sep root = steps sep root := if_neg hne
  have hfull : absolute sep (root ++ rest) = steps sep root ++ steps sep rest := by
    rw [absolute, if_neg (List.append_ne_nil_of_left_ne_nil hne rest), steps, List.flatMap_append]
    rfl
  rw [hroot, hfull]
  refine ⟨List.prefix_append _ _, ?_⟩
  rw [List.drop_left]
  exact atStep_steps sep rest

theorem beneath_iff {sep : α} {root full : List (List α)} (hne : root ≠ [])
    (hroot : ∀ c ∈ root, IsComponent sep c) (hfull : ∀ c ∈ full, IsComponent sep c) :
    Beneath sep (absolute sep root) (absolute sep full) ↔ root <+: full :=
  ⟨prefix_of_beneath hroot hfull, beneath_of_prefix sep hne⟩

/-- Behind the separator of the root directory a component begins. -/
theorem beneath_root_iff {sep : α} {full : List (List α)} (hfull : ∀ c ∈ full, IsComponent sep c) :
    Beneath sep (absolute sep []) (absolute sep full) ↔ full = [] := by
  constructor
  · rintro ⟨-, hstep⟩
    cases full with
    | nil => rfl
    | cons c full =>
      obtain ⟨hne, hsep⟩ := hfull c List.mem_cons_self
      obtain ⟨b, c, rfl⟩ := List.exists_cons_of_ne_nil hne
      rw [absolute_cons, steps_cons, absolute_nil, List.length_singleton, List.drop_one] at hstep
      have hb : b = sep := hstep b rfl
      exact absurd (hb ▸ List.mem_cons_self) hsep
  · rintro rfl
    exact ⟨List.prefix_rfl, fun b hb => by cases hb⟩

/-- **The test on texts**: it decides which components are a prefix, except that nothing but the
    root directory is beneath the root directory. -/
theorem beneath_absolute_iff {sep : α} {root full : List (List α)}
    (hroot : ∀ c ∈ root, IsComponent sep c) (hfull : ∀ c ∈ full, IsComponent sep c) :
    Beneath sep (absolute sep root) (absolute sep full) ↔
      root <+: full ∧ (root ≠ [] ∨ full = []) := by
  by_cases hnil : root = []
  · subst hnil
    rw [beneath_root_iff hfull]
    simp
  · rw [beneath_iff hnil hroot hfull]
    simp [hnil]

end Foxtails.Lib.Path
