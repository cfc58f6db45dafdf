/-
  Runs of a partial step function.

  `step s a` is the state after action `a`, or `none` where `a` cannot happen. `Reach step ok s₀`
  are the states of the runs from `s₀` whose every step satisfies the guard `ok`.

  * `Reach.invariant`: what every guarded step preserves holds in every state reached.
  * `Reach.of_exec`, `Reach.of_exec_map`: a list of actions that can be executed within the
    guard is a run.
  * `exec_observed`: the invariant rule for a list of actions and what is observed of its steps.
  * `exec_budget`: what the steps of a list of actions cost, all together.
  * `exists_exec`: where there is always a step that gets nearer, the goal is reached.
-/
import Mathlib.Tactic

namespace Foxtails.Lib.Run

variable {σ α : Type}

/-- The states reached from `s₀` by steps that satisfy `ok`. -/
inductive Reach (step : σ → α → Option σ) (ok : σ → α → Prop) (s₀ : σ) : σ → Prop where
  | start : Reach step ok s₀ s₀
  | next {s s' : σ} {a : α} (h : Reach step ok s₀ s) (hok : ok s a) (hstep : step s a = some s') :
      Reach step ok s₀ s'

/-- The step function that refuses what the guard refuses. -/
def guarded (step : σ → α → Option σ) (ok : σ → α → Prop) [∀ s a, Decidable (ok s a)] (s : σ)
    (a : α) : Option σ := if ok s a then step s a else none

/-- The state after a list of actions. -/
def exec (step : σ → α → Option σ) (s : σ) : List α → Option σ
  | [] => some s
  | a :: as => (step s a).bind fun s' => exec step s' as

/-- What is observed of the steps of a list of actions, in order. -/
def observed {β : Type} (step : σ → α → Option σ) (obs : σ → α → List β) (s : σ) : List α → List β
  | [] => []
  | a :: as => obs s a ++ (step s a).elim [] fun s' => observed step obs s' as

variable {step : σ → α → Option σ} {ok : σ → α → Prop} {s₀ : σ}

/-- **The invariant rule.** -/
theorem Reach.invariant (Inv : σ → Prop) (h0 : Inv s₀)
    (hstep : ∀ s a s', Inv s → ok s a → step s a = some s' → Inv s') {s : σ}
    (h : Reach step ok s₀ s) : Inv s := by
  induction h with
  | start => exact h0
  | next _ hok hs ih => exact hstep _ _ _ ih hok hs

theorem Reach.trans {s s' : σ} (h : Reach step ok s₀ s) (h' : Reach step ok s s') :
    Reach step ok s₀ s' := by
  induction h' with
  | start => exact h
  | next _ hok hs ih => exact .next ih hok hs

/-- A run within a guard is a run within a weaker one. -/
theorem Reach.weaken {ok' : σ → α → Prop} (hok : ∀ s a, ok s a → ok' s a) {s : σ}
    (h : Reach step ok s₀ s) : Reach step ok' s₀ s :=
  h.invariant (Reach step ok' s₀) .start fun _ _ _ hs ha hstep => .next hs (hok _ _ ha) hstep

/-- A list of actions that can be executed within the guard is a run. -/
theorem Reach.of_exec [∀ s a, Decidable (ok s a)] {s : σ} (as : List α)
    (h : exec (guarded step ok) s₀ as = some s) : Reach step ok s₀ s := by
  induction as generalizing s₀ with
  | nil =>
    obtain rfl := Option.some.inj h
    exact .start
  | cons a as ih =>
    rw [exec, Option.bind_eq_some_iff] at h
    obtain ⟨s', hs', hrest⟩ := h
    unfold guarded at hs'
    split_ifs at hs' with hok
    exact (Reach.next .start hok hs').trans (ih hrest)

/-- The same, with what is known of the last state. -/
theorem Reach.of_exec_map [∀ s a, Decidable (ok s a)] {β : Type} {f : σ → β} {b : β} {as : List α}
    (h : (exec (guarded step ok) s₀ as).map f = some b) : ∃ s, Reach step ok s₀ s ∧ f s = b := by
  obtain ⟨s, hs, hf⟩ := Option.map_eq_some_iff.mp h
  exact ⟨s, .of_exec as hs, hf⟩

/-- The invariant rule with a history: every step adds to it what is observed of it. -/
theorem exec_observed {β : Type} {obs : σ → α → List β} {ok : α → Prop} (Inv : List β → σ → Prop)
    (hstep : ∀ hist s a s', Inv hist s → ok a → step s a = some s' → Inv (hist ++ obs s a) s')
    {hist : List β} {s s' : σ} {as : List α} (h : Inv hist s) (hok : ∀ a ∈ as, ok a)
    (hexec : exec step s as = some s') : Inv (hist ++ observed step obs s as) s' := by
  induction as generalizing hist s with
  | nil =>
    obtain rfl := Option.some.inj hexec
    rwa [observed, List.append_nil]
  | cons a as ih =>
    rw [exec, Option.bind_eq_some_iff] at hexec
    obtain ⟨s₁, hs₁, hrest⟩ := hexec
    have hnext := hstep hist s a s₁ h (hok a List.mem_cons_self) hs₁
    rw [observed, hs₁, Option.elim_some, ← List.append_assoc]
    exact ih hnext (fun b hb => hok b (List.mem_cons_of_mem a hb)) hrest

/-- **The budget rule.** Every action costs something and earns something; what it costs is there
    before the step or earned by it. -/
theorem exec_budget (cost gain : α → Nat) (Inv : σ → Prop) (μ : σ → Nat)
    (hstep : ∀ s a s', Inv s → step s a = some s' → Inv s' ∧ μ s' + cost a ≤ μ s + gain a)
    {s s' : σ} {as : List α} (h : Inv s) (hexec : exec step s as = some s') :
    Inv s' ∧ μ s' + (as.map cost).sum ≤ μ s + (as.map gain).sum := by
  induction as generalizing s with
  | nil =>
    obtain rfl := Option.some.inj hexec
    exact ⟨h, le_refl _⟩
  | cons a as ih =>
    rw [exec, Option.bind_eq_some_iff] at hexec
    obtain ⟨s₁, hs₁, hrest⟩ := hexec
    obtain ⟨h₁, hle⟩ := hstep s a s₁ h hs₁
    obtain ⟨h', hle'⟩ := ih h₁ hrest
    refine ⟨h', ?_⟩
    rw [List.map_cons, List.map_cons, List.sum_cons, List.sum_cons]
    omega

/-- **The progress rule.** -/
theorem exists_exec (allowed : α → Prop) (Inv Done : σ → Prop) (μ : σ → Nat)
    (hstep : ∀ s, Inv s → ¬ Done s →
      ∃ a s', allowed a ∧ step s a = some s' ∧ Inv s' ∧ μ s' < μ s) {s : σ} (h : Inv s) :
    ∃ as s', exec step s as = some s' ∧ (∀ a ∈ as, allowed a) ∧ as.length ≤ μ s ∧ Done s' := by
  induction hμ : μ s using Nat.strong_induction_on generalizing s with
  | _ k ih =>
    by_cases hdone : Done s
    · exact ⟨[], s, rfl, fun _ ha => absurd ha List.not_mem_nil, Nat.zero_le k, hdone⟩
    · obtain ⟨a, s₁, ha, hs₁, h₁, hlt⟩ := hstep s h hdone
      obtain ⟨as, s', hexec, hall, hlength, hdone'⟩ := ih (μ s₁) (hμ ▸ hlt) h₁ rfl
      refine ⟨a :: as, s', ?_, List.forall_mem_cons.mpr ⟨ha, hall⟩, ?_, hdone'⟩
      · rw [exec, hs₁]
        exact hexec
      · rw [List.length_cons]
        omega

end Foxtails.Lib.Run
