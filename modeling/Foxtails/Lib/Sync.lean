/-
  A mutex with one condition variable.

  `Monitor τ` says of every thread where it is: outside, inside (it holds the mutex), waiting on
  the condition, woken (still in `wait`, after the wake-up and without the mutex), or about to
  signal (it has released the mutex). The operations are partial: `none` where the thread
  cannot take the step. `crew` are the threads that may wait.

  * A signal wakes one waiting thread if there is one, and is not counted; a broadcast wakes
    all; `wake` on its own is a spurious wake-up.
  * `Exclusive`: the owner is the one thread inside. Every operation keeps it.
  * `Covered`: a thread of the crew is not waiting, or a signal is to come. Every operation
    keeps it but `wait`. `Quiet`: nobody waits; again only `wait` ends it.
-/
import Mathlib.Logic.Function.Basic
import Mathlib.Tactic

namespace Foxtails.Lib.Sync

/-- Where a thread is. -/
inductive Place where
  | outside
  | inside
  | waiting
  | woken
  | signalling
  deriving DecidableEq, Repr

structure Monitor (τ : Type) where
  owner : Option τ
  place : τ → Place

namespace Monitor

/-- Nobody has come yet. -/
def init (τ : Type) : Monitor τ := { owner := none, place := fun _ => .outside }

variable {τ : Type}

/-- The owner is the one thread inside. -/
def Exclusive (m : Monitor τ) : Prop := ∀ t, m.owner = some t ↔ m.place t = .inside

theorem exclusive_init : Exclusive (init τ) := fun _ => ⟨fun h => (by cases h), fun h => (by cases h)⟩

theorem Exclusive.eq {m : Monitor τ} (h : Exclusive m) {t u : τ} (ht : m.place t = .inside)
    (hu : m.place u = .inside) : t = u :=
  Option.some.inj (((h t).mpr ht).symm.trans ((h u).mpr hu))

variable [DecidableEq τ] (m : Monitor τ)

/-! ## Operations -/

/-- The thread goes to a place. -/
def put (owner : Option τ) (t : τ) (p : Place) : Monitor τ :=
  { owner := owner, place := Function.update m.place t p }

/-- Taking the mutex: at `lock`, or on the way out of `wait`. -/
def enter (t : τ) : Option (Monitor τ) :=
  if m.owner = none ∧ (m.place t = .outside ∨ m.place t = .woken) then
    some (m.put (some t) t .inside)
  else none

/-- Releasing the mutex, for good or with a signal still to give. -/
def leave (t : τ) (next : Place) : Option (Monitor τ) :=
  if m.place t = .inside ∧ (next = .outside ∨ next = .signalling) then some (m.put none t next)
  else none

/-- `wait`: releasing the mutex and waiting, at once. -/
def wait (t : τ) : Option (Monitor τ) :=
  if m.place t = .inside then some (m.put none t .waiting) else none

/-- A wake-up. -/
def wake (t : τ) : Option (Monitor τ) :=
  if m.place t = .waiting then some (m.put m.owner t .woken) else none

/-- `signal`, waking the thread `target`, or nobody where nobody waits. -/
def signal (crew : List τ) (t : τ) (target : Option τ) : Option (Monitor τ) :=
  if m.place t = .signalling then
    match target with
    | some u => if u ∈ crew then (m.put m.owner t .outside).wake u else none
    | none =>
      if ∀ u ∈ crew, m.place u ≠ .waiting then some (m.put m.owner t .outside) else none
  else none

/-- `broadcast`. -/
def broadcast (t : τ) : Option (Monitor τ) :=
  if m.place t = .signalling then
    some
      { owner := m.owner
        place := fun u =>
          if u = t then .outside else if m.place u = .waiting then .woken else m.place u }
  else none

variable {m} {m' : Monitor τ} {t u : τ} {crew : List τ}

@[simp] theorem put_owner (owner : Option τ) (p : Place) : (m.put owner t p).owner = owner := rfl

@[simp] theorem put_self (owner : Option τ) (p : Place) : (m.put owner t p).place t = p :=
  Function.update_self ..

theorem put_of_ne (h : u ≠ t) (owner : Option τ) (p : Place) :
    (m.put owner t p).place u = m.place u := Function.update_of_ne h ..

/-- A thread that is inside stays there when another one moves. -/
theorem inside_put (hu : m.place u = .inside) (ht : m.place t ≠ .inside) (owner : Option τ)
    (p : Place) : (m.put owner t p).place u = .inside := by
  have hut : u ≠ t := by
    rintro rfl
    exact ht hu
  rw [put_of_ne hut, hu]

/-! ## What each operation does -/

theorem enter_eq (h : m.enter t = some m') :
    m.owner = none ∧ (m.place t = .outside ∨ m.place t = .woken) ∧
      m' = m.put (some t) t .inside := by
  unfold enter at h
  split_ifs at h with hcan
  exact ⟨hcan.1, hcan.2, (Option.some.inj h).symm⟩

theorem leave_eq {next : Place} (h : m.leave t next = some m') :
    m.place t = .inside ∧ (next = .outside ∨ next = .signalling) ∧ m' = m.put none t next := by
  unfold leave at h
  split_ifs at h with hcan
  exact ⟨hcan.1, hcan.2, (Option.some.inj h).symm⟩

theorem wait_eq (h : m.wait t = some m') :
    m.place t = .inside ∧ m' = m.put none t .waiting := by
  unfold wait at h
  split_ifs at h with hcan
  exact ⟨hcan, (Option.some.inj h).symm⟩

theorem wake_eq (h : m.wake t = some m') :
    m.place t = .waiting ∧ m' = m.put m.owner t .woken := by
  unfold wake at h
  split_ifs at h with hcan
  exact ⟨hcan, (Option.some.inj h).symm⟩

theorem signal_eq {target : Option τ} (h : m.signal crew t target = some m') :
    m.place t = .signalling ∧
      ((∃ u ∈ crew, (m.put m.owner t .outside).wake u = some m') ∨
        ((∀ u ∈ crew, m.place u ≠ .waiting) ∧ m' = m.put m.owner t .outside)) := by
  cases target with
  | some u =>
    simp only [signal] at h
    split_ifs at h with hcan hu
    exact ⟨hcan, .inl ⟨u, hu, h⟩⟩
  | none =>
    simp only [signal] at h
    split_ifs at h with hcan hnobody
    exact ⟨hcan, .inr ⟨hnobody, (Option.some.inj h).symm⟩⟩

theorem broadcast_eq (h : m.broadcast t = some m') :
    m.place t = .signalling ∧ m'.owner = m.owner ∧ m'.place t = .outside ∧
      ∀ u ≠ t, m'.place u = if m.place u = .waiting then .woken else m.place u := by
  unfold broadcast at h
  split_ifs at h with hcan
  obtain rfl := Option.some.inj h
  exact ⟨hcan, rfl, if_pos rfl, fun u hu => if_neg hu⟩

/-- After a broadcast nobody waits. -/
theorem broadcast_not_waiting (h : m.broadcast t = some m') (u : τ) : m'.place u ≠ .waiting := by
  obtain ⟨-, -, hself, hother⟩ := broadcast_eq h
  by_cases hu : u = t
  · rw [hu, hself]
    decide
  · rw [hother u hu]
    split_ifs with hwait
    · decide
    · exact hwait

/-! ## Mutual exclusion -/

/-- Moving a thread that is not inside to a place that is not inside. -/
theorem Exclusive.put (h : Exclusive m) (ht : m.place t ≠ .inside) {p : Place}
    (hp : p ≠ .inside) : Exclusive (m.put m.owner t p) := by
  intro u
  by_cases hu : u = t
  · subst hu
    rw [put_self, put_owner, h u]
    simp [ht, hp]
  · rw [put_of_ne hu, put_owner, h u]

/-- The thread inside releases the mutex. -/
theorem Exclusive.release (h : Exclusive m) (ht : m.place t = .inside) {p : Place}
    (hp : p ≠ .inside) : Exclusive (m.put none t p) := by
  intro u
  by_cases hu : u = t
  · subst hu
    simp [hp]
  · rw [put_of_ne hu, put_owner]
    simp only [reduceCtorEq, false_iff]
    exact fun hin => hu (h.eq hin ht)

theorem Exclusive.enter (h : Exclusive m) (hstep : m.enter t = some m') : Exclusive m' := by
  obtain ⟨hfree, -, rfl⟩ := enter_eq hstep
  intro u
  by_cases hu : u = t
  · subst hu
    simp
  · rw [put_of_ne hu, put_owner, ← h u, hfree]
    simp [Ne.symm hu]

theorem Exclusive.leave (h : Exclusive m) {next : Place} (hstep : m.leave t next = some m') :
    Exclusive m' := by
  obtain ⟨ht, hnext, rfl⟩ := leave_eq hstep
  refine h.release ht ?_
  rcases hnext with rfl | rfl <;> decide

theorem Exclusive.wait (h : Exclusive m) (hstep : m.wait t = some m') : Exclusive m' := by
  obtain ⟨ht, rfl⟩ := wait_eq hstep
  exact h.release ht (by decide)

theorem Exclusive.wake (h : Exclusive m) (hstep : m.wake t = some m') : Exclusive m' := by
  obtain ⟨ht, rfl⟩ := wake_eq hstep
  exact h.put (by rw [ht]; decide) (by decide)

theorem Exclusive.signal (h : Exclusive m) {target : Option τ}
    (hstep : m.signal crew t target = some m') : Exclusive m' := by
  obtain ⟨ht, hcases⟩ := signal_eq hstep
  have hput : Exclusive (m.put m.owner t .outside) := h.put (by rw [ht]; decide) (by decide)
  rcases hcases with ⟨u, -, hwake⟩ | ⟨-, rfl⟩
  · exact hput.wake hwake
  · exact hput

theorem Exclusive.broadcast (h : Exclusive m) (hstep : m.broadcast t = some m') : Exclusive m' := by
  obtain ⟨ht, howner, hself, hother⟩ := broadcast_eq hstep
  intro u
  rw [howner, h u]
  by_cases hu : u = t
  · rw [hu, hself, ht]
    simp
  · rw [hother u hu]
    split_ifs with hwait
    · rw [hwait]
      simp
    · rfl

/-- Whoever is inside stays there while others enter, wake, signal and broadcast. -/
theorem inside_enter (hu : m.place u = .inside) (hstep : m.enter t = some m') :
    m'.place u = .inside := by
  obtain ⟨-, hplace, rfl⟩ := enter_eq hstep
  refine inside_put hu ?_ _ _
  rcases hplace with hplace | hplace <;> rw [hplace] <;> decide

theorem inside_wake (hu : m.place u = .inside) (hstep : m.wake t = some m') :
    m'.place u = .inside := by
  obtain ⟨hplace, rfl⟩ := wake_eq hstep
  exact inside_put hu (by rw [hplace]; decide) _ _

theorem inside_signal (hu : m.place u = .inside) {target : Option τ}
    (hstep : m.signal crew t target = some m') : m'.place u = .inside := by
  obtain ⟨hplace, hcases⟩ := signal_eq hstep
  have hput : (m.put m.owner t .outside).place u = .inside :=
    inside_put hu (by rw [hplace]; decide) _ _
  rcases hcases with ⟨w, -, hwake⟩ | ⟨-, rfl⟩
  · exact inside_wake hput hwake
  · exact hput

theorem inside_broadcast (hu : m.place u = .inside) (hstep : m.broadcast t = some m') :
    m'.place u = .inside := by
  obtain ⟨hplace, -, -, hother⟩ := broadcast_eq hstep
  have hut : u ≠ t := fun heq => by
    rw [heq, hplace] at hu
    cases hu
  rw [hother u hut, hu]
  decide

/-- While a thread is inside nobody enters. -/
theorem Exclusive.enter_eq_none (h : Exclusive m) (hu : m.place u = .inside) (t : τ) :
    m.enter t = none := by
  unfold Monitor.enter
  rw [if_neg fun hcan => ?_]
  rw [(h u).mpr hu] at hcan
  cases hcan.1

/-! ## Wake-ups -/

/-- A thread of the crew is not waiting, or one of the signallers has its signal to give. -/
def Covered (crew : List τ) (signaller : τ → Prop) (m : Monitor τ) : Prop :=
  (∃ t ∈ crew, m.place t ≠ .waiting) ∨ ∃ t, signaller t ∧ m.place t = .signalling

variable {signaller : τ → Prop}

/-- A thread that goes anywhere but into `wait`, and keeps its signal. -/
theorem Covered.put (h : Covered crew signaller m) {owner : Option τ} {p : Place}
    (hp : p ≠ .waiting) (ht : m.place t ≠ .signalling) :
    Covered crew signaller (m.put owner t p) := by
  rcases h with ⟨u, hu, hplace⟩ | ⟨u, hu, hplace⟩
  · refine .inl ⟨u, hu, ?_⟩
    by_cases hut : u = t
    · rw [hut, put_self]
      exact hp
    · rwa [put_of_ne hut]
  · have hut : u ≠ t := fun heq => ht (heq ▸ hplace)
    exact .inr ⟨u, hu, by rwa [put_of_ne hut]⟩

theorem Covered.enter (h : Covered crew signaller m) (hstep : m.enter t = some m') :
    Covered crew signaller m' := by
  obtain ⟨-, hplace, rfl⟩ := enter_eq hstep
  refine h.put (by decide) ?_
  rcases hplace with hplace | hplace <;> rw [hplace] <;> decide

theorem Covered.leave (h : Covered crew signaller m) {next : Place}
    (hstep : m.leave t next = some m') : Covered crew signaller m' := by
  obtain ⟨hplace, hnext, rfl⟩ := leave_eq hstep
  refine h.put ?_ (by rw [hplace]; decide)
  rcases hnext with rfl | rfl <;> decide

/-- Whoever leaves with a signal to give covers everything. -/
theorem covered_of_leave (ht : signaller t) (hstep : m.leave t .signalling = some m') :
    Covered crew signaller m' := by
  obtain ⟨-, -, rfl⟩ := leave_eq hstep
  exact .inr ⟨t, ht, put_self ..⟩

theorem Covered.wake (h : Covered crew signaller m) (hstep : m.wake t = some m') :
    Covered crew signaller m' := by
  obtain ⟨hplace, rfl⟩ := wake_eq hstep
  exact h.put (by decide) (by rw [hplace]; decide)

/-- A signal wakes a thread of the crew, or no thread of the crew waits. -/
theorem covered_of_signal (hcrew : crew ≠ []) {target : Option τ}
    (hstep : m.signal crew t target = some m') : Covered crew signaller m' := by
  obtain ⟨ht, ⟨u, hu, hwake⟩ | ⟨hnobody, rfl⟩⟩ := signal_eq hstep
  · obtain ⟨-, rfl⟩ := wake_eq hwake
    exact .inl ⟨u, hu, by rw [put_self]; decide⟩
  · obtain ⟨u, hu⟩ := List.exists_mem_of_ne_nil crew hcrew
    refine .inl ⟨u, hu, ?_⟩
    by_cases hut : u = t
    · rw [hut, put_self]
      decide
    · rw [put_of_ne hut]
      exact hnobody u hu

/-- Nobody waits. -/
def Quiet (m : Monitor τ) : Prop := ∀ t, m.place t ≠ .waiting

theorem Quiet.put (h : Quiet m) {owner : Option τ} {p : Place} (hp : p ≠ .waiting) :
    Quiet (m.put owner t p) := by
  intro u
  by_cases hu : u = t
  · rw [hu, put_self]
    exact hp
  · rw [put_of_ne hu]
    exact h u

theorem Quiet.enter (h : Quiet m) (hstep : m.enter t = some m') : Quiet m' := by
  obtain ⟨-, -, rfl⟩ := enter_eq hstep
  exact h.put (by decide)

theorem Quiet.leave (h : Quiet m) {next : Place} (hstep : m.leave t next = some m') :
    Quiet m' := by
  obtain ⟨-, hnext, rfl⟩ := leave_eq hstep
  refine h.put ?_
  rcases hnext with rfl | rfl <;> decide

theorem Quiet.wake (h : Quiet m) (hstep : m.wake t = some m') : Quiet m' :=
  absurd (wake_eq hstep).1 (h t)

theorem Quiet.signal (h : Quiet m) {target : Option τ} (hstep : m.signal crew t target = some m') :
    Quiet m' := by
  obtain ⟨-, ⟨u, -, hwake⟩ | ⟨-, rfl⟩⟩ := signal_eq hstep
  · exact (h.put (by decide)).wake hwake
  · exact h.put (by decide)

end Monitor

end Foxtails.Lib.Sync
