/-
  The pool gets on with its work, and comes to an end.

  Model (read this before the theorems). A callback returns: `finish` can always be taken. What a
  worker has still to do before it waits, or before it is gone, is its rank: 1 inside the lock,
  2 in front of it, 3 in a callback, and 0 once it has exited. A waiting worker has rank 0 while
  the pool works, and rank 3 in a shutdown, where it has to be woken first.

  * `placed_step`: where the threads can be; every step keeps `Placed`.
  * `budget_step`: a worker's step costs 1. A stored action earns 3, a wake-up 2, and a
    broadcast 2 for each worker.
  * `pool_drains`: so the workers never spin, and an action that has been stored is taken.
  * `shutdown_budget`, `shutdown_enabled`: behind the flag every step of a worker gets nearer to
    the end, and there is always one to take.
  * `shutdown_completes`: so `worker_pool_delete` joins all workers.
-/
import Foxtails.Pool.Callback
import Foxtails.Pool.Wakeup
import Mathlib.Algebra.BigOperators.Group.Finset.Basic

namespace Foxtails.Pool.Threads

open Foxtails.Lib.Libc Foxtails.Lib.Run Foxtails.Lib.Sync Foxtails.Lib.Sync.Monitor

/-! ## Where the threads are -/

/-- The place of the thread that calls `worker_pool_delete`. -/
def DeletePc.place : DeletePc → Place
  | .locked => .inside
  | .flagged => .signalling
  | .before | .joining | .joined => .outside

structure Placed (n : Nat) (s : State) : Prop where
  crew : ∀ i, s.monitor.place (.worker i) ≠ .outside → i < n
  worker : ∀ i, s.monitor.place (.worker i) ≠ .signalling
  exited : ∀ i ∈ s.exited, s.monitor.place (.worker i) = .outside
  calls : ∀ d, s.monitor.place (.dispatcher d) = .inside → s.calls d ≠ none
  deleter : s.monitor.place .deleter = s.delete.place

variable {n : Nat} {s s' : State}

theorem placed_start : Placed n start :=
  ⟨fun _ h => absurd rfl h, fun _ => Place.noConfusion, fun _ h => absurd h List.not_mem_nil,
    fun _ h => (by cases h), rfl⟩

theorem place_put (m : Monitor Thread) (owner : Option Thread) (t : Thread) (p : Place)
    (u : Thread) : (m.put owner t p).place u = if u = t then p else m.place u :=
  Function.update_apply ..

namespace Placed

variable (h : Placed n s)

include h

/-- A worker moves; it may have exited. -/
theorem put_worker {i : Nat} {p : Place} {owner : Option Thread} {exited : List Nat}
    (hi : i < n) (hp : p ≠ .signalling) (hexited : ∀ j ∈ exited, j ∈ s.exited ∨ j = i)
    (hgone : i ∈ exited → p = .outside) (hmonitor : s'.monitor = s.monitor.put owner (.worker i) p)
    (hexit : s'.exited = exited) (hcalls : s'.calls = s.calls) (hdelete : s'.delete = s.delete) :
    Placed n s' := by
  refine ⟨fun j hj => ?_, fun j => ?_, fun j hj => ?_, fun d hd => ?_, ?_⟩
  · rw [hmonitor, place_put] at hj
    split_ifs at hj with heq
    · rwa [Thread.worker.inj heq]
    · exact h.crew j hj
  · rw [hmonitor, place_put]
    split_ifs
    · exact hp
    · exact h.worker j
  · rw [hmonitor, place_put]
    rw [hexit] at hj
    split_ifs with heq
    · exact hgone (Thread.worker.inj heq ▸ hj)
    · rcases hexited j hj with hold | rfl
      · exact h.exited j hold
      · exact absurd rfl heq
  · rw [hmonitor, place_put, if_neg Thread.noConfusion] at hd
    rw [hcalls]
    exact h.calls d hd
  · rw [hmonitor, place_put, if_neg Thread.noConfusion, hdelete]
    exact h.deleter

theorem put_dispatcher {d : Nat} {p : Place} {owner : Option Thread}
    (hcall : p = .inside → s'.calls d ≠ none) (hothers : ∀ e, e ≠ d → s'.calls e = s.calls e)
    (hmonitor : s'.monitor = s.monitor.put owner (.dispatcher d) p)
    (hexited : s'.exited = s.exited) (hdelete : s'.delete = s.delete) : Placed n s' := by
  refine ⟨fun j hj => ?_, fun j => ?_, fun j hj => ?_, fun e he => ?_, ?_⟩
  · rw [hmonitor, place_put, if_neg Thread.noConfusion] at hj
    exact h.crew j hj
  · rw [hmonitor, place_put, if_neg Thread.noConfusion]
    exact h.worker j
  · rw [hmonitor, place_put, if_neg Thread.noConfusion]
    rw [hexited] at hj
    exact h.exited j hj
  · rw [hmonitor, place_put] at he
    split_ifs at he with heq
    · rw [Thread.dispatcher.inj heq]
      exact hcall he
    · rw [hothers e fun hed => heq (congrArg _ hed)]
      exact h.calls e he
  · rw [hmonitor, place_put, if_neg Thread.noConfusion, hdelete]
    exact h.deleter

theorem put_deleter {p : Place} {owner : Option Thread}
    (hmonitor : s'.monitor = s.monitor.put owner .deleter p) (hplace : p = s'.delete.place)
    (hexited : s'.exited = s.exited) (hcalls : s'.calls = s.calls) : Placed n s' := by
  refine ⟨fun j hj => ?_, fun j => ?_, fun j hj => ?_, fun d hd => ?_, ?_⟩
  · rw [hmonitor, place_put, if_neg Thread.noConfusion] at hj
    exact h.crew j hj
  · rw [hmonitor, place_put, if_neg Thread.noConfusion]
    exact h.worker j
  · rw [hmonitor, place_put, if_neg Thread.noConfusion]
    rw [hexited] at hj
    exact h.exited j hj
  · rw [hmonitor, place_put, if_neg Thread.noConfusion] at hd
    rw [hcalls]
    exact h.calls d hd
  · rw [hmonitor, place_put, if_pos rfl]
    exact hplace

theorem not_exited {i : Nat} (hplace : s.monitor.place (.worker i) ≠ .outside) : i ∉ s.exited :=
  fun hmem => hplace (h.exited i hmem)

end Placed

/-- A wake-up moves a worker of the crew. -/
theorem placed_wake {i : Nat} (h : Placed n s) {m : Monitor Thread}
    (hwake : s.monitor.wake (.worker i) = some m) : Placed n { s with monitor := m } := by
  obtain ⟨hplace, rfl⟩ := wake_eq hwake
  refine h.put_worker (h.crew i (by rw [hplace]; decide)) (by decide) (fun _ hj => .inl hj)
    (fun hgone => ?_) rfl rfl rfl rfl
  exact absurd hgone (h.not_exited (by rw [hplace]; decide))

theorem placed_signal {d : Nat} {target : Option Nat} (h : Placed n s)
    (hstep : step n s (.signal d target) = some s') : Placed n s' := by
  obtain ⟨m, hsignal, rfl⟩ := step_signal hstep
  obtain ⟨hplace, hcases⟩ := signal_eq hsignal
  have hput : Placed n { s with monitor := s.monitor.put s.monitor.owner (.dispatcher d) .outside } :=
    h.put_dispatcher (fun hin => (by cases hin)) (fun _ _ => rfl) rfl rfl rfl
  rcases hcases with ⟨u, hu, hwake⟩ | ⟨-, rfl⟩
  · obtain ⟨i, -, rfl⟩ := List.mem_map.mp hu
    exact placed_wake hput hwake
  · exact hput

theorem placed_broadcast (h : Placed n s) (hstep : step n s .broadcast = some s') :
    Placed n s' := by
  obtain ⟨hpc, m, hbroadcast, rfl⟩ := step_broadcast hstep
  obtain ⟨-, -, hself, hother⟩ := broadcast_eq hbroadcast
  refine ⟨fun i hi => h.crew i fun hout => ?_, fun i => ?_, fun i hi => ?_, fun d hd => ?_, hself⟩
  · refine hi ?_
    dsimp only
    rw [hother _ Thread.noConfusion, hout]
    decide
  · dsimp only
    rw [hother _ Thread.noConfusion]
    split_ifs
    · decide
    · exact h.worker i
  · dsimp only
    rw [hother _ Thread.noConfusion, h.exited i hi]
    decide
  · dsimp only at hd
    rw [hother _ Thread.noConfusion] at hd
    split_ifs at hd
    exact h.calls d hd

/-- **Every step keeps the places.** -/
theorem placed_step {a : Action} (h : Placed n s) (hstep : step n s a = some s') :
    Placed n s' := by
  cases a with
  | lock i =>
    have hcan := hstep
    unfold step at hcan
    obtain ⟨⟨hi, hexited⟩, -⟩ := Option.ite_none_right_eq_some.mp hcan
    obtain ⟨-, m, henter, rfl⟩ := step_lock hstep
    obtain ⟨-, -, rfl⟩ := enter_eq henter
    exact h.put_worker hi (by decide) (fun _ hj => .inl hj) (fun hgone => absurd hgone hexited)
      rfl rfl rfl rfl
  | test i =>
    obtain ⟨hplace, -, hcases⟩ := step_test hstep
    have hi : i < n := h.crew i (by rw [hplace]; decide)
    have hexited := h.not_exited (i := i) (by rw [hplace]; decide)
    rcases hcases with ⟨-, -, m, hwait, rfl⟩ | ⟨-, m, hleave, rfl⟩ | ⟨-, -, rfl⟩
    · obtain ⟨-, rfl⟩ := wait_eq hwait
      exact h.put_worker hi (by decide) (fun _ hj => .inl hj) (fun hgone => absurd hgone hexited)
        rfl rfl rfl rfl
    · obtain ⟨-, -, rfl⟩ := leave_eq hleave
      exact h.put_worker hi (by decide) (fun j hj => (List.mem_cons.mp hj).symm) (fun _ => rfl)
        rfl rfl rfl rfl
    · exact { h with }
  | spurious i =>
    obtain ⟨m, hwake, rfl⟩ := step_spurious hstep
    exact placed_wake h hwake
  | finish i =>
    obtain ⟨r, m, -, hleave, rfl⟩ := step_finish hstep
    obtain ⟨hplace, -, rfl⟩ := leave_eq hleave
    exact h.put_worker (h.crew i (by rw [hplace]; decide)) (by decide) (fun _ hj => .inl hj)
      (fun _ => rfl) rfl rfl rfl rfl
  | dispatch d type payload =>
    obtain ⟨m, henter, rfl⟩ := step_dispatch hstep
    obtain ⟨-, -, rfl⟩ := enter_eq henter
    refine h.put_dispatcher (fun _ => ?_) (fun e he => Function.update_of_ne he ..) rfl rfl rfl
    dsimp only
    rw [Function.update_self]
    exact Option.some_ne_none _
  | store d allocated =>
    obtain ⟨_, _, queue, stored, m, -, -, hleave, rfl⟩ := step_store hstep
    obtain ⟨-, -, rfl⟩ := leave_eq hleave
    refine h.put_dispatcher (fun hin => ?_) (fun e he => Function.update_of_ne he ..) rfl rfl rfl
    cases stored <;> cases hin
  | signal d target => exact placed_signal h hstep
  | delete =>
    obtain ⟨-, m, henter, rfl⟩ := step_delete hstep
    obtain ⟨-, -, rfl⟩ := enter_eq henter
    exact h.put_deleter rfl rfl rfl rfl
  | flag =>
    obtain ⟨-, m, hleave, rfl⟩ := step_flag hstep
    obtain ⟨-, -, rfl⟩ := leave_eq hleave
    exact h.put_deleter rfl rfl rfl rfl
  | broadcast => exact placed_broadcast h hstep
  | join =>
    obtain ⟨hpc, rfl⟩ := step_join hstep
    have hdeleter := h.deleter
    rw [hpc] at hdeleter
    exact { h with deleter := hdeleter }

/-! ## Ranks -/

/-- What worker `i` has still to do; `waiting` is the rank of a worker that waits. -/
def rank (waiting : Nat) (s : State) (i : Nat) : Nat :=
  if i ∈ s.exited then 0
  else
    match s.monitor.place (.worker i) with
    | .inside => if (s.running i).isSome then 3 else 1
    | .waiting => waiting
    | .outside | .woken | .signalling => 2

/-- What all workers have still to do. -/
def workLeft (waiting n : Nat) (s : State) : Nat := ∑ i ∈ Finset.range n, rank waiting s i

variable {w : Nat}

theorem rank_congr {j : Nat} (hplace : s'.monitor.place (.worker j) = s.monitor.place (.worker j))
    (hexited : j ∈ s'.exited ↔ j ∈ s.exited) (hrunning : s'.running j = s.running j) :
    rank w s' j = rank w s j := by
  unfold rank
  rw [hplace, hrunning]
  simp only [hexited]

/-- Only worker `i` has moved. -/
theorem workLeft_move {i : Nat} (hi : i < n) (hothers : ∀ j, j ≠ i → rank w s' j = rank w s j) :
    workLeft w n s' + rank w s i = workLeft w n s + rank w s' i := by
  unfold workLeft
  have hmem := Finset.mem_range.mpr hi
  rw [← Finset.add_sum_erase _ _ hmem, ← Finset.add_sum_erase _ (rank w s) hmem]
  have hsame : ∑ j ∈ (Finset.range n).erase i, rank w s' j =
      ∑ j ∈ (Finset.range n).erase i, rank w s j :=
    Finset.sum_congr rfl fun j hj => hothers j (Finset.ne_of_mem_erase hj)
  omega

theorem workLeft_congr (hall : ∀ j, rank w s' j = rank w s j) :
    workLeft w n s' = workLeft w n s := Finset.sum_congr rfl fun j _ => hall j

section

variable {i : Nat}

theorem rank_exited (h : i ∈ s.exited) : rank w s i = 0 := if_pos h

theorem rank_idle (hexited : i ∉ s.exited) (hplace : s.monitor.place (.worker i) = .inside)
    (hrunning : s.running i = none) : rank w s i = 1 := by
  rw [rank, if_neg hexited, hplace, hrunning]
  rfl

theorem rank_busy (hexited : i ∉ s.exited) (hplace : s.monitor.place (.worker i) = .inside)
    (hrunning : s.running i ≠ none) : rank w s i = 3 := by
  rw [rank, if_neg hexited, hplace]
  exact if_pos (Option.isSome_iff_ne_none.mpr hrunning)

theorem rank_waiting (hexited : i ∉ s.exited) (hplace : s.monitor.place (.worker i) = .waiting) :
    rank w s i = w := by
  rw [rank, if_neg hexited, hplace]

theorem rank_before (hexited : i ∉ s.exited)
    (hplace : s.monitor.place (.worker i) = .outside ∨ s.monitor.place (.worker i) = .woken) :
    rank w s i = 2 := by
  rw [rank, if_neg hexited]
  rcases hplace with hplace | hplace <;> rw [hplace]

end

/-- One worker moves. -/
theorem workLeft_put {i before after : Nat} (hi : i < n) (s' : State)
    (hbefore : rank w s i = before) (hafter : rank w s' i = after) {owner : Option Thread} {p : Place}
    (hmonitor : s'.monitor = s.monitor.put owner (.worker i) p)
    (hexited : ∀ j, j ≠ i → (j ∈ s'.exited ↔ j ∈ s.exited))
    (hrunning : ∀ j, j ≠ i → s'.running j = s.running j) :
    workLeft w n s' + before = workLeft w n s + after := by
  rw [← hbefore, ← hafter]
  refine workLeft_move hi fun j hj => rank_congr ?_ (hexited j hj) (hrunning j hj)
  rw [hmonitor, place_put, if_neg fun heq => hj (Thread.worker.inj heq)]

/-! ## What each step does to the ranks -/

theorem left_lock {i : Nat} (hlock : LockInv s) (h : Placed n s)
    (hstep : step n s (.lock i) = some s') : workLeft w n s' + 1 = workLeft w n s := by
  have h' := placed_step h hstep
  obtain ⟨hexited, m, henter, rfl⟩ := step_lock hstep
  obtain ⟨-, hplace, rfl⟩ := enter_eq henter
  have hrunning : s.running i = none := by
    cases hrun : s.running i with
    | none => rfl
    | some r =>
      rw [hlock.inside i r hrun] at hplace
      rcases hplace with hplace | hplace <;> cases hplace
  have hi : i < n := h'.crew i (by rw [put_self]; decide)
  have hmove := workLeft_put (w := w) (s := s) hi
    { s with monitor := s.monitor.put (some (.worker i)) (.worker i) .inside }
    (rank_before hexited hplace) (rank_idle hexited (put_self ..) hrunning) rfl
    (fun _ _ => Iff.rfl) fun _ _ => rfl
  omega

/-- The worker waits, exits, or takes an action. -/
theorem left_test {i : Nat} (h : Placed n s) (hstep : step n s (.test i) = some s') :
    (s.queue.shuttingDown = false ∧ s.queue.count = 0 ∧ s'.queue = s.queue ∧
        workLeft w n s' + 1 = workLeft w n s + w) ∨
      (s.queue.shuttingDown = true ∧ s'.queue = s.queue ∧
        workLeft w n s' + 1 = workLeft w n s) ∨
      (s.queue.shuttingDown = false ∧ s.queue.count ≠ 0 ∧ s'.queue = (workerTake s.queue).2 ∧
        workLeft w n s' = workLeft w n s + 2) := by
  obtain ⟨hplace, hrunning, hcases⟩ := step_test hstep
  have hi : i < n := h.crew i (by rw [hplace]; decide)
  have hexited := h.not_exited (i := i) (by rw [hplace]; decide)
  have hbefore := rank_idle (w := w) hexited hplace hrunning
  rcases hcases with ⟨hzero, hup, m, hwait, rfl⟩ | ⟨hdown, m, hleave, rfl⟩ | ⟨hcount, hup, rfl⟩
  · obtain ⟨-, rfl⟩ := wait_eq hwait
    have hmove := workLeft_put (w := w) (s := s) hi
      { s with monitor := s.monitor.put none (.worker i) .waiting } hbefore
      (rank_waiting hexited (put_self ..)) rfl (fun _ _ => Iff.rfl) fun _ _ => rfl
    exact .inl ⟨hup, hzero, rfl, hmove⟩
  · obtain ⟨-, -, rfl⟩ := leave_eq hleave
    have hmove := workLeft_put (w := w) (s := s) hi
      { s with monitor := s.monitor.put none (.worker i) .outside, exited := i :: s.exited }
      hbefore (rank_exited List.mem_cons_self) rfl
      (fun j hj => List.mem_cons.trans (or_iff_right hj)) fun _ _ => rfl
    exact .inr (.inl ⟨hdown, rfl, hmove⟩)
  · refine .inr (.inr ⟨hup, hcount, rfl, ?_⟩)
    generalize hrun : ({ array := s.array, idx := s.queue.head, type := (workerTake s.queue).1.1,
                         payload := (workerTake s.queue).1.2 } : Running) = r
    have hothers : ∀ j, j ≠ i → rank w { s with
        queue := (workerTake s.queue).2
        running := Function.update s.running i (some r) } j = rank w s j :=
      fun j hj => rank_congr rfl Iff.rfl (Function.update_of_ne hj ..)
    have hmove := workLeft_move hi hothers
    have hsome : Function.update s.running i (some r) i ≠ none := by
      rw [Function.update_self]
      exact Option.some_ne_none r
    have hafter : rank w { s with
        queue := (workerTake s.queue).2
        running := Function.update s.running i (some r) } i = 3 := rank_busy hexited hplace hsome
    omega

theorem left_wake {i : Nat} (h : Placed n s) {m : Monitor Thread}
    (hwake : s.monitor.wake (.worker i) = some m) :
    workLeft w n { s with monitor := m } + w = workLeft w n s + 2 := by
  obtain ⟨hplace, rfl⟩ := wake_eq hwake
  have hi : i < n := h.crew i (by rw [hplace]; decide)
  have hexited := h.not_exited (i := i) (by rw [hplace]; decide)
  have hmove := workLeft_put (w := w) (s := s) hi
    { s with monitor := s.monitor.put s.monitor.owner (.worker i) .woken }
    (rank_waiting hexited hplace) (rank_before hexited (.inr (put_self ..))) rfl
    (fun _ _ => Iff.rfl) fun _ _ => rfl
  exact hmove

theorem left_finish {i : Nat} (h : Placed n s) (hstep : step n s (.finish i) = some s') :
    workLeft w n s' + 1 = workLeft w n s := by
  obtain ⟨r, m, hrunning, hleave, rfl⟩ := step_finish hstep
  obtain ⟨hplace, -, rfl⟩ := leave_eq hleave
  have hi : i < n := h.crew i (by rw [hplace]; decide)
  have hexited := h.not_exited (i := i) (by rw [hplace]; decide)
  have hmove := workLeft_put (w := w) (s := s) hi
    { s with
      monitor := s.monitor.put none (.worker i) .outside
      queue := workerFinish s.queue r.idx
      running := Function.update s.running i none }
    (rank_busy hexited hplace (by rw [hrunning]; exact Option.some_ne_none r))
    (rank_before hexited (.inl (put_self ..))) rfl (fun _ _ => Iff.rfl)
    fun _ hj => Function.update_of_ne hj ..
  omega

theorem left_signal {d : Nat} {target : Option Nat} (h : Placed n s)
    (hstep : step n s (.signal d target) = some s') :
    workLeft w n s' + w = workLeft w n s + 2 ∨ workLeft w n s' = workLeft w n s := by
  obtain ⟨m, hsignal, rfl⟩ := step_signal hstep
  obtain ⟨hplace, hcases⟩ := signal_eq hsignal
  have hput : Placed n { s with monitor := s.monitor.put s.monitor.owner (.dispatcher d) .outside } :=
    h.put_dispatcher (fun hin => (by cases hin)) (fun _ _ => rfl) rfl rfl rfl
  have hsame : workLeft w n
      { s with monitor := s.monitor.put s.monitor.owner (.dispatcher d) .outside } =
      workLeft w n s := by
    refine workLeft_congr fun j => rank_congr ?_ Iff.rfl rfl
    exact (place_put ..).trans (if_neg Thread.noConfusion)
  rcases hcases with ⟨u, hu, hwake⟩ | ⟨-, rfl⟩
  · obtain ⟨i, -, rfl⟩ := List.mem_map.mp hu
    have hleft := left_wake (w := w) hput hwake
    rw [hsame] at hleft
    exact .inl hleft
  · exact .inr hsame

/-- A broadcast wakes those that wait. -/
theorem rank_broadcast (h : Placed n s) (hstep : step n s .broadcast = some s') (i : Nat) :
    rank w s' i = if s.monitor.place (.worker i) = .waiting then 2 else rank w s i := by
  obtain ⟨-, m, hbroadcast, rfl⟩ := step_broadcast hstep
  obtain ⟨-, -, -, hother⟩ := broadcast_eq hbroadcast
  have hplace := hother (.worker i) Thread.noConfusion
  split_ifs with hwaiting
  · rw [if_pos hwaiting] at hplace
    exact rank_before (h.not_exited (by rw [hwaiting]; decide)) (.inr hplace)
  · rw [if_neg hwaiting] at hplace
    exact rank_congr hplace Iff.rfl rfl

/-- What the other actions do is not seen in the ranks. -/
theorem left_others {a : Action} (hstep : step n s a = some s')
    (ha : (∃ d type payload, a = .dispatch d type payload) ∨ (∃ d allocated, a = .store d allocated) ∨
      a = .delete ∨ a = .flag ∨ a = .join) : workLeft w n s' = workLeft w n s := by
  apply workLeft_congr
  intro j
  rcases ha with ⟨d, type, payload, rfl⟩ | ⟨d, allocated, rfl⟩ | rfl | rfl | rfl
  · obtain ⟨m, henter, rfl⟩ := step_dispatch hstep
    obtain ⟨-, -, rfl⟩ := enter_eq henter
    exact rank_congr ((place_put ..).trans (if_neg Thread.noConfusion)) Iff.rfl rfl
  · obtain ⟨_, _, queue, stored, m, -, -, hleave, rfl⟩ := step_store hstep
    obtain ⟨-, -, rfl⟩ := leave_eq hleave
    exact rank_congr ((place_put ..).trans (if_neg Thread.noConfusion)) Iff.rfl rfl
  · obtain ⟨-, m, henter, rfl⟩ := step_delete hstep
    obtain ⟨-, -, rfl⟩ := enter_eq henter
    exact rank_congr ((place_put ..).trans (if_neg Thread.noConfusion)) Iff.rfl rfl
  · obtain ⟨-, m, hleave, rfl⟩ := step_flag hstep
    obtain ⟨-, -, rfl⟩ := leave_eq hleave
    exact rank_congr ((place_put ..).trans (if_neg Thread.noConfusion)) Iff.rfl rfl
  · obtain ⟨-, rfl⟩ := step_join hstep
    rfl

/-! ## What can be done next -/

theorem enabled_test {i : Nat} (hplace : s.monitor.place (.worker i) = .inside)
    (hrunning : s.running i = none) : ∃ s', step n s (.test i) = some s' := by
  unfold step
  dsimp only
  rw [if_pos ⟨hplace, hrunning⟩]
  split_ifs
  · rw [Monitor.wait, if_pos hplace]
    exact ⟨_, rfl⟩
  · rw [Monitor.leave, if_pos ⟨hplace, .inl rfl⟩]
    exact ⟨_, rfl⟩
  · exact ⟨_, rfl⟩

theorem enabled_finish {i : Nat} {r : Running} (hplace : s.monitor.place (.worker i) = .inside)
    (hrunning : s.running i = some r) : ∃ s', step n s (.finish i) = some s' := by
  unfold step
  dsimp only
  rw [hrunning, Monitor.leave, if_pos ⟨hplace, .inl rfl⟩]
  exact ⟨_, rfl⟩

theorem enabled_lock {i : Nat} (hi : i < n) (hexited : i ∉ s.exited)
    (howner : s.monitor.owner = none)
    (hplace : s.monitor.place (.worker i) = .outside ∨ s.monitor.place (.worker i) = .woken) :
    ∃ s', step n s (.lock i) = some s' := by
  unfold step
  dsimp only
  rw [if_pos ⟨hi, hexited⟩, Monitor.enter, if_pos ⟨howner, hplace⟩]
  exact ⟨_, rfl⟩

theorem enabled_store {d : Nat} (hplace : s.monitor.place (.dispatcher d) = .inside)
    (hcall : s.calls d ≠ none) : ∃ s', step n s (.store d true) = some s' := by
  obtain ⟨⟨type, payload⟩, hcall⟩ := Option.ne_none_iff_exists'.mp hcall
  have hnext : ∀ stored : Bool, (if stored then Place.signalling else .outside) = .outside ∨
      (if stored then Place.signalling else .outside) = .signalling := by decide
  unfold step
  dsimp only
  rw [hcall]
  exact ⟨_, congrArg (Option.map _) (if_pos ⟨hplace, hnext _⟩)⟩

/-- Whoever holds the lock gets on: a worker, or a dispatcher with its store. -/
theorem enabled_owner (hlock : LockInv s) (h : Placed n s) (hdelete : s.delete ≠ .locked)
    {t : Thread} (howner : s.monitor.owner = some t) :
    (∃ i, t = .worker i ∧ s.running i = none ∧ ∃ s', step n s (.test i) = some s') ∨
      (∃ i, t = .worker i ∧ s.running i ≠ none ∧ ∃ s', step n s (.finish i) = some s') ∨
      ∃ d, t = .dispatcher d ∧ ∃ s', step n s (.store d true) = some s' := by
  have hplace := (hlock.exclusive t).mp howner
  cases t with
  | worker i =>
    cases hrunning : s.running i with
    | none => exact .inl ⟨i, rfl, hrunning, enabled_test hplace hrunning⟩
    | some r =>
      have hbusy : s.running i ≠ none := by rw [hrunning]; exact Option.some_ne_none r
      exact .inr (.inl ⟨i, rfl, hbusy, enabled_finish hplace hrunning⟩)
  | dispatcher d => exact .inr (.inr ⟨d, rfl, enabled_store hplace (h.calls d hplace)⟩)
  | deleter =>
    rw [h.deleter] at hplace
    cases hpc : s.delete with
    | locked => exact absurd hpc hdelete
    | before | flagged | joining | joined =>
      rw [hpc] at hplace
      cases hplace

/-! ## The shutdown -/

/-- The flag is set. -/
def DeletePc.Down (pc : DeletePc) : Prop := pc = .flagged ∨ pc.Broadcasted

/-- A step of a worker, or of `worker_pool_delete`. -/
def ofPool : Action → Bool
  | .lock _ | .test _ | .finish _ | .spurious _ | .broadcast | .join => true
  | _ => false

/-- What `worker_pool_delete` has still to do behind the flag. -/
def DeletePc.left : DeletePc → Nat
  | .flagged => 2
  | .joining => 1
  | _ => 0

def shutdownLeft (n : Nat) (s : State) : Nat := workLeft 3 n s + s.delete.left

theorem down_step {a : Action} (h : s.delete.Down) (hstep : step n s a = some s') :
    s'.delete.Down := by
  rcases h with hflagged | hb
  · cases a with
    | lock i => obtain ⟨-, m, -, rfl⟩ := step_lock hstep; exact .inl hflagged
    | test i =>
      obtain ⟨-, -, ⟨-, -, m, -, rfl⟩ | ⟨-, m, -, rfl⟩ | ⟨-, -, rfl⟩⟩ := step_test hstep <;>
        exact .inl hflagged
    | spurious i => obtain ⟨m, -, rfl⟩ := step_spurious hstep; exact .inl hflagged
    | finish i => obtain ⟨r, m, -, -, rfl⟩ := step_finish hstep; exact .inl hflagged
    | dispatch d type payload => obtain ⟨m, -, rfl⟩ := step_dispatch hstep; exact .inl hflagged
    | store d allocated =>
      obtain ⟨_, _, _, _, m, -, -, -, rfl⟩ := step_store hstep
      exact .inl hflagged
    | signal d target => obtain ⟨m, -, rfl⟩ := step_signal hstep; exact .inl hflagged
    | delete =>
      obtain ⟨hpc, -⟩ := step_delete hstep
      rw [hflagged] at hpc
      cases hpc
    | flag =>
      obtain ⟨hpc, -⟩ := step_flag hstep
      rw [hflagged] at hpc
      cases hpc
    | broadcast => obtain ⟨-, m, -, rfl⟩ := step_broadcast hstep; exact .inr trivial
    | join => obtain ⟨-, rfl⟩ := step_join hstep; exact .inr trivial
  · exact .inr (broadcasted_step hb hstep)

/-- What is known of every state. -/
structure PoolInv (n : Nat) (s : State) : Prop where
  lock : LockInv s
  placed : Placed n s
  wake : 0 < n → WakeInv n s

theorem pool_step {a : Action} (h : PoolInv n s) (hstep : step n s a = some s') : PoolInv n s' :=
  ⟨lock_step h.lock hstep, placed_step h.placed hstep, fun hn => wake_step hn (h.wake hn) hstep⟩

theorem pool_reach (h : Reach (step n) Any start s) : PoolInv n s :=
  h.invariant (PoolInv n) ⟨lockInv_start, placed_start, fun _ => wakeInv_start⟩
    fun _ _ _ hs _ hstep => pool_step hs hstep

/-- Behind the flag no worker takes an action. -/
theorem PoolInv.down (h : PoolInv n s) (hdown : s.delete.Down) {i : Nat}
    (hplace : s.monitor.place (.worker i) = .inside) : s.queue.shuttingDown = true := by
  have hi : i < n := h.placed.crew i (by rw [hplace]; decide)
  exact (h.wake (Nat.zero_lt_of_lt hi)).down hdown

/-- **Every step of a worker or of `worker_pool_delete` gets nearer to the end.** -/
theorem shutdown_budget {a : Action} (h : PoolInv n s) (hdown : s.delete.Down)
    (hstep : step n s a = some s') :
    shutdownLeft n s' + (if ofPool a then 1 else 0) ≤ shutdownLeft n s := by
  unfold shutdownLeft
  cases a with
  | lock i =>
    have hleft := left_lock (w := 3) h.lock h.placed hstep
    obtain ⟨-, m, -, rfl⟩ := step_lock hstep
    simp only [ofPool, if_true]
    omega
  | test i =>
    have hplace := (step_test hstep).1
    have htrue := h.down hdown hplace
    have hdelete : s'.delete = s.delete := by
      obtain ⟨-, -, ⟨-, -, m, -, rfl⟩ | ⟨-, m, -, rfl⟩ | ⟨-, -, rfl⟩⟩ := step_test hstep <;> rfl
    rw [hdelete]
    rcases left_test (w := 3) h.placed hstep with ⟨hup, -⟩ | ⟨-, -, hleft⟩ | ⟨hup, -⟩
    · rw [htrue] at hup
      cases hup
    · simp only [ofPool, if_true]
      omega
    · rw [htrue] at hup
      cases hup
  | spurious i =>
    obtain ⟨m, hwake, rfl⟩ := step_spurious hstep
    have hleft := left_wake (w := 3) h.placed hwake
    simp only [ofPool, if_true]
    omega
  | finish i =>
    have hleft := left_finish (w := 3) h.placed hstep
    obtain ⟨r, m, -, -, rfl⟩ := step_finish hstep
    simp only [ofPool, if_true]
    omega
  | signal d target =>
    have hleft := left_signal (w := 3) h.placed hstep
    obtain ⟨m, -, rfl⟩ := step_signal hstep
    simp only [ofPool, Bool.false_eq_true, if_false]
    omega
  | broadcast =>
    have hranks : workLeft 3 n s' ≤ workLeft 3 n s := by
      refine Finset.sum_le_sum fun i _ => ?_
      rw [rank_broadcast h.placed hstep i]
      split_ifs with hwaiting
      · rw [rank_waiting (h.placed.not_exited (by rw [hwaiting]; decide)) hwaiting]
        decide
      · exact le_refl _
    obtain ⟨hpc, m, -, rfl⟩ := step_broadcast hstep
    rw [hpc]
    simp only [ofPool, DeletePc.left, if_true]
    omega
  | join =>
    have hleft := left_others (w := 3) hstep (by simp)
    obtain ⟨hpc, rfl⟩ := step_join hstep
    rw [hpc]
    simp only [ofPool, DeletePc.left, if_true]
    omega
  | dispatch d type payload =>
    have hleft := left_others (w := 3) hstep (by simp)
    obtain ⟨m, -, rfl⟩ := step_dispatch hstep
    simp only [ofPool, Bool.false_eq_true, if_false]
    omega
  | store d allocated =>
    have hleft := left_others (w := 3) hstep (by simp)
    obtain ⟨_, _, _, _, m, -, -, -, rfl⟩ := step_store hstep
    simp only [ofPool, Bool.false_eq_true, if_false]
    omega
  | delete =>
    obtain ⟨hpc, -⟩ := step_delete hstep
    rw [hpc] at hdown
    rcases hdown with hdown | hdown
    · cases hdown
    · exact hdown.elim
  | flag =>
    obtain ⟨hpc, -⟩ := step_flag hstep
    rw [hpc] at hdown
    rcases hdown with hdown | hdown
    · cases hdown
    · exact hdown.elim

/-- What a shutdown needs: steps of the pool, and the store of a dispatcher that has the lock. -/
def Closes (a : Action) : Prop := ofPool a ∨ ∃ d, a = .store d true

/-- A dispatcher has the lock. -/
def dispatching (s : State) : Nat :=
  match s.monitor.owner with
  | some (.dispatcher _) => 1
  | _ => 0

theorem dispatching_worker {i : Nat} (h : s.monitor.owner = some (.worker i)) :
    dispatching s = 0 := by
  rw [dispatching, h]

theorem dispatching_none (h : s.monitor.owner = none) : dispatching s = 0 := by
  rw [dispatching, h]

theorem dispatching_le (s : State) : dispatching s ≤ 1 := by
  unfold dispatching
  split <;> decide

/-- The store takes the dispatcher out of the lock. -/
theorem dispatching_store {d : Nat} {allocated : Bool} (hlock : LockInv s)
    (hstep : step n s (.store d allocated) = some s') : dispatching s' + 1 = dispatching s := by
  obtain ⟨_, _, queue, stored, m, -, -, hleave, rfl⟩ := step_store hstep
  obtain ⟨hplace, -, rfl⟩ := leave_eq hleave
  rw [dispatching_none rfl, dispatching, (hlock.exclusive _).mpr hplace]

/-- **There is a step to take** until all workers are joined. -/
theorem shutdown_enabled (h : PoolInv n s) (hdown : s.delete.Down) (hopen : s.delete ≠ .joined) :
    ∃ a s', Closes a ∧ step n s a = some s' ∧
      2 * shutdownLeft n s' + dispatching s' < 2 * shutdownLeft n s + dispatching s := by
  have hpool : ∀ a s', ofPool a = true → step n s a = some s' →
      ∃ a s', Closes a ∧ step n s a = some s' ∧
        2 * shutdownLeft n s' + dispatching s' < 2 * shutdownLeft n s + dispatching s := by
    intro a s' ha hstep
    have hle := shutdown_budget h hdown hstep
    rw [ha, if_pos rfl] at hle
    have hdispatching := dispatching_le s'
    exact ⟨a, s', .inl ha, hstep, by omega⟩
  have hlocked : s.delete ≠ .locked := by
    rcases hdown with hpc | hb
    · rw [hpc]
      decide
    · intro hpc
      rw [hpc] at hb
      exact hb
  cases howner : s.monitor.owner with
  | some t =>
    rcases enabled_owner h.lock h.placed hlocked howner with
      ⟨i, -, -, s', hstep⟩ | ⟨i, -, -, s', hstep⟩ | ⟨d, -, s', hstep⟩
    · exact hpool _ s' rfl hstep
    · exact hpool _ s' rfl hstep
    · have hle := shutdown_budget h hdown hstep
      have hdispatching := dispatching_store h.lock hstep
      exact ⟨_, s', .inr ⟨d, rfl⟩, hstep, by omega⟩
  | none =>
    rcases hdown with hflagged | hb
    · -- the broadcast is to come
      have hplace : s.monitor.place .deleter = .signalling :=
        h.placed.deleter.trans (by rw [hflagged]; rfl)
      have hstep : ∃ s', step n s .broadcast = some s' := by
        unfold step
        dsimp only
        rw [if_pos hflagged, Monitor.broadcast, if_pos hplace]
        exact ⟨_, rfl⟩
      obtain ⟨s', hstep⟩ := hstep
      exact hpool _ s' rfl hstep
    · have hjoining : s.delete = .joining := by
        cases hpc : s.delete with
        | joining => rfl
        | joined => exact absurd hpc hopen
        | before | locked | flagged =>
          rw [hpc] at hb
          exact hb.elim
      by_cases hall : ∀ i < n, i ∈ s.exited
      · exact hpool .join _ rfl (if_pos ⟨hjoining, hall⟩)
      · simp only [not_forall] at hall
        obtain ⟨i, hi, hexited⟩ := hall
        -- nobody waits, so the worker can take the lock
        have hquiet := (h.wake (Nat.zero_lt_of_lt hi)).quiet hb (.worker i)
        have hplace : s.monitor.place (.worker i) = .outside ∨
            s.monitor.place (.worker i) = .woken := by
          cases hcase : s.monitor.place (.worker i) with
          | outside => exact .inl rfl
          | woken => exact .inr rfl
          | waiting => exact absurd hcase hquiet
          | signalling => exact absurd hcase (h.placed.worker i)
          | inside =>
            rw [(h.lock.exclusive _).mpr hcase] at howner
            cases howner
        obtain ⟨s', hstep⟩ := enabled_lock hi hexited howner hplace
        exact hpool _ s' rfl hstep

/-- Behind the flag no callback starts. -/
theorem down_running {a : Action} (h : PoolInv n s) (hdown : s.delete.Down)
    (hstep : step n s a = some s') {i : Nat} {r : Running} (hr : s'.running i = some r) :
    s.running i = some r := by
  cases a with
  | lock j => obtain ⟨-, m, -, rfl⟩ := step_lock hstep; exact hr
  | test j =>
    have htrue := h.down hdown (step_test hstep).1
    obtain ⟨-, -, ⟨-, -, m, -, rfl⟩ | ⟨-, m, -, rfl⟩ | ⟨-, hup, rfl⟩⟩ := step_test hstep
    · exact hr
    · exact hr
    · rw [htrue] at hup
      cases hup
  | spurious j => obtain ⟨m, -, rfl⟩ := step_spurious hstep; exact hr
  | finish j =>
    obtain ⟨r', m, -, -, rfl⟩ := step_finish hstep
    dsimp only at hr
    rw [Function.update_apply] at hr
    split_ifs at hr
    exact hr
  | dispatch d type payload => obtain ⟨m, -, rfl⟩ := step_dispatch hstep; exact hr
  | store d allocated => obtain ⟨_, _, _, _, m, -, -, -, rfl⟩ := step_store hstep; exact hr
  | signal d target => obtain ⟨m, -, rfl⟩ := step_signal hstep; exact hr
  | delete => obtain ⟨-, m, -, rfl⟩ := step_delete hstep; exact hr
  | flag => obtain ⟨-, m, -, rfl⟩ := step_flag hstep; exact hr
  | broadcast => obtain ⟨-, m, -, rfl⟩ := step_broadcast hstep; exact hr
  | join => obtain ⟨-, rfl⟩ := step_join hstep; exact hr

theorem rank_le (w : Nat) (s : State) (i : Nat) : rank w s i ≤ max w 3 := by
  by_cases hexited : i ∈ s.exited
  · rw [rank_exited hexited]
    exact Nat.zero_le _
  · rw [rank, if_neg hexited]
    cases s.monitor.place (.worker i) with
    | waiting => exact Nat.le_max_left ..
    | inside =>
      dsimp only
      split_ifs <;> omega
    | outside | woken | signalling =>
      dsimp only
      omega

theorem workLeft_le (w n : Nat) (s : State) : workLeft w n s ≤ n * max w 3 := by
  have hle := Finset.sum_le_card_nsmul (Finset.range n) (rank w s) (max w 3)
    fun i _ => rank_le w s i
  rwa [Finset.card_range, smul_eq_mul] at hle

theorem shutdownLeft_le (n : Nat) (s : State) : shutdownLeft n s ≤ 3 * n + 2 := by
  have hwork := workLeft_le 3 n s
  rw [max_self] at hwork
  have hdelete : s.delete.left ≤ 2 := by cases s.delete <;> decide
  unfold shutdownLeft
  omega

/-- **A shutdown comes to its end**: in every run behind the flag of `worker_pool_delete`, the
    workers and `worker_pool_delete` take at most `3 * n + 2` steps, whatever is dispatched
    meanwhile, and no callback starts; and from every state behind the flag these steps, with
    the store of a dispatcher that has the lock, lead to the end of `worker_pool_delete`. -/
theorem shutdown_completes (n : Nat) (s : State) (h : Reach (step n) Any start s)
    (hdown : s.delete.Down) :
    (∀ as s', exec (step n) s as = some s' → (as.map fun a => if ofPool a then 1 else 0).sum ≤
        3 * n + 2 ∧ ∀ i r, s'.running i = some r → s.running i = some r) ∧
      ∃ as s', exec (step n) s as = some s' ∧ (∀ a ∈ as, Closes a) ∧ s'.delete = .joined := by
  have hinv := pool_reach h
  constructor
  · intro as s' hexec
    have hbudget := exec_budget (fun a => if ofPool a then 1 else 0) (fun _ => 0)
      (fun t => PoolInv n t ∧ t.delete.Down ∧ ∀ i r, t.running i = some r → s.running i = some r)
      (shutdownLeft n)
      (fun t a t' ⟨ht, hd, hrunning⟩ hstep =>
        ⟨⟨pool_step ht hstep, down_step hd hstep,
          fun i r hr => hrunning i r (down_running ht hd hstep hr)⟩, shutdown_budget ht hd hstep⟩)
      ⟨hinv, hdown, fun _ _ hr => hr⟩ hexec
    obtain ⟨⟨-, -, hrunning⟩, hsum⟩ := hbudget
    have hle := shutdownLeft_le n s
    rw [List.map_const', List.sum_replicate, smul_zero] at hsum
    exact ⟨by omega, hrunning⟩
  · obtain ⟨as, s', hexec, hall, -, hdone⟩ := exists_exec Closes
      (fun t => PoolInv n t ∧ t.delete.Down) (fun t => t.delete = .joined)
      (fun t => 2 * shutdownLeft n t + dispatching t)
      (fun t ⟨ht, hd⟩ hopen => by
        obtain ⟨a, t', ha, hstep, hlt⟩ := shutdown_enabled ht hd hopen
        exact ⟨a, t', ha, hstep, ⟨pool_step ht hstep, down_step hd hstep⟩, hlt⟩)
      ⟨hinv, hdown⟩
    exact ⟨as, s', hexec, hall, hdone⟩

/-- Worker 0 waits, an action is in the queue, and the flag is set. -/
def flaggedRun : List Action :=
  [.lock 0, .test 0, .dispatch 0 1 nullPayload, .store 0 true, .delete, .flag]

theorem shutdown_completes_flagged :
    ∃ s : State, s.delete = .flagged ∧
      ∃ as s', exec (step 2) s as = some s' ∧ (∀ a ∈ as, Closes a) ∧ s'.delete = .joined := by
  obtain ⟨s, hs, hflagged⟩ := Reach.of_exec_map
    (show (exec (guarded (step 2) Any) start flaggedRun).map (fun s => s.delete) = some .flagged by
      decide +kernel)
  exact ⟨s, hflagged, (shutdown_completes 2 s hs (.inl hflagged)).2⟩

/-! ## The working pool -/

/-- A step a worker takes of its own. -/
def ofWorker : Action → Bool
  | .lock _ | .test _ | .finish _ => true
  | _ => false

/-- What the others give the workers to do. -/
def given (n : Nat) : Action → Nat
  | .store _ _ => 3
  | .signal _ _ | .spurious _ => 2
  | .broadcast => 2 * n
  | _ => 0

/-- What the workers have still to do: three steps for an action in the queue. -/
def toDo (n : Nat) (s : State) : Nat := 3 * s.queue.count + workLeft 0 n s

theorem dispatchCommand_count (allocated : Bool) (q : WorkerQueue) (type : Int) (payload : Payload) :
    (dispatchCommand allocated q type payload).1.count ≤ q.count + 1 := by
  have hmod : (q.count + 1) % UINT ≤ q.count + 1 := Nat.mod_le _ _
  unfold dispatchCommand
  split_ifs
  · exact hmod
  · exact Nat.le_succ _
  · exact hmod

/-- **Every step of a worker is one of those it was given to do.** -/
theorem budget_step {a : Action} (h : PoolInv n s) (hstep : step n s a = some s') :
    toDo n s' + (if ofWorker a then 1 else 0) ≤ toDo n s + given n a := by
  unfold toDo
  cases a with
  | lock i =>
    have hleft := left_lock (w := 0) h.lock h.placed hstep
    obtain ⟨-, m, -, rfl⟩ := step_lock hstep
    simp only [ofWorker, given, if_true]
    omega
  | test i =>
    simp only [ofWorker, given, if_true]
    rcases left_test (w := 0) h.placed hstep with
      ⟨-, -, hqueue, hleft⟩ | ⟨-, hqueue, hleft⟩ | ⟨-, hcount, hqueue, hleft⟩
    · rw [hqueue]
      omega
    · rw [hqueue]
      omega
    · rw [hqueue]
      have htake : (workerTake s.queue).2.count = s.queue.count - 1 := rfl
      omega
  | finish i =>
    have hleft := left_finish (w := 0) h.placed hstep
    obtain ⟨r, m, -, -, rfl⟩ := step_finish hstep
    have hqueue : (workerFinish s.queue r.idx).count = s.queue.count := rfl
    simp only [ofWorker, given, if_true]
    omega
  | spurious i =>
    obtain ⟨m, hwake, rfl⟩ := step_spurious hstep
    have hleft := left_wake (w := 0) h.placed hwake
    simp only [ofWorker, given, Bool.false_eq_true, if_false]
    omega
  | signal d target =>
    have hleft := left_signal (w := 0) h.placed hstep
    obtain ⟨m, -, rfl⟩ := step_signal hstep
    simp only [ofWorker, given, Bool.false_eq_true, if_false]
    omega
  | broadcast =>
    have hranks : workLeft 0 n s' ≤ workLeft 0 n s + 2 * n := by
      have hle : ∀ i ∈ Finset.range n, rank 0 s' i ≤ rank 0 s i + 2 := by
        intro i _
        rw [rank_broadcast h.placed hstep i]
        split_ifs
        · exact Nat.le_add_left 2 _
        · exact Nat.le_add_right _ 2
      have hsum := Finset.sum_le_sum hle
      rw [Finset.sum_add_distrib, Finset.sum_const, Finset.card_range, smul_eq_mul] at hsum
      unfold workLeft
      omega
    obtain ⟨-, m, -, rfl⟩ := step_broadcast hstep
    simp only [ofWorker, given, Bool.false_eq_true, if_false]
    omega
  | store d allocated =>
    have hleft := left_others (w := 0) hstep (by simp)
    obtain ⟨type, payload, queue, stored, m, -, hqueue, -, rfl⟩ := step_store hstep
    have hcount := dispatchCommand_count allocated s.queue type payload
    rw [hqueue] at hcount
    simp only [ofWorker, given, Bool.false_eq_true, if_false]
    dsimp only at hcount
    omega
  | dispatch d type payload =>
    have hleft := left_others (w := 0) hstep (by simp)
    obtain ⟨m, -, rfl⟩ := step_dispatch hstep
    simp only [ofWorker, given, Bool.false_eq_true, if_false]
    omega
  | delete =>
    have hleft := left_others (w := 0) hstep (by simp)
    obtain ⟨-, m, -, rfl⟩ := step_delete hstep
    simp only [ofWorker, given, Bool.false_eq_true, if_false]
    omega
  | flag =>
    have hleft := left_others (w := 0) hstep (by simp)
    have hcount : s'.queue.count = s.queue.count := by
      obtain ⟨-, m, -, rfl⟩ := step_flag hstep
      rfl
    simp only [ofWorker, given, Bool.false_eq_true, if_false]
    omega
  | join =>
    have hleft := left_others (w := 0) hstep (by simp)
    obtain ⟨-, rfl⟩ := step_join hstep
    simp only [ofWorker, given, Bool.false_eq_true, if_false]
    omega

/-- Before the flag is set nobody has exited. -/
def Opened (s : State) : Prop :=
  s.delete = .before ∨ s.delete = .locked → s.queue.shuttingDown = false ∧ s.exited = []

theorem opened_start : Opened start := fun _ => ⟨rfl, rfl⟩

theorem opened_step {a : Action} (h : Opened s) (hstep : step n s a = some s') : Opened s' := by
  cases a with
  | lock i => obtain ⟨-, m, -, rfl⟩ := step_lock hstep; exact h
  | test i =>
    obtain ⟨-, -, ⟨-, -, m, -, rfl⟩ | ⟨hdown, m, -, rfl⟩ | ⟨-, -, rfl⟩⟩ := step_test hstep
    · exact h
    · intro hpc
      rw [(h hpc).1] at hdown
      cases hdown
    · exact h
  | spurious i => obtain ⟨m, -, rfl⟩ := step_spurious hstep; exact h
  | finish i => obtain ⟨r, m, -, -, rfl⟩ := step_finish hstep; exact h
  | dispatch d type payload => obtain ⟨m, -, rfl⟩ := step_dispatch hstep; exact h
  | store d allocated =>
    obtain ⟨_, _, _, _, m, -, hqueue, -, rfl⟩ := step_store hstep
    exact fun hpc => ⟨(dispatchCommand_shuttingDown hqueue).trans (h hpc).1, (h hpc).2⟩
  | signal d target => obtain ⟨m, -, rfl⟩ := step_signal hstep; exact h
  | delete => obtain ⟨hpc, m, -, rfl⟩ := step_delete hstep; exact fun _ => h (.inl hpc)
  | flag =>
    obtain ⟨-, m, -, rfl⟩ := step_flag hstep
    exact fun hpc => (by rcases hpc with hpc | hpc <;> cases hpc)
  | broadcast =>
    obtain ⟨-, m, -, rfl⟩ := step_broadcast hstep
    exact fun hpc => (by rcases hpc with hpc | hpc <;> cases hpc)
  | join =>
    obtain ⟨-, rfl⟩ := step_join hstep
    exact fun hpc => (by rcases hpc with hpc | hpc <;> cases hpc)

/-- What brings the queue to its end: steps of workers, and what the dispatchers have begun. -/
def Drains (a : Action) : Prop :=
  ofWorker a ∨ (∃ d, a = .store d true) ∨ ∃ d target, a = .signal d target

/-- All workers wait. -/
def asleep (n : Nat) (s : State) : Nat :=
  if ∀ i < n, s.monitor.place (.worker i) = .waiting then 3 else 0

theorem asleep_eq_zero {i : Nat} (hi : i < n) (hplace : s.monitor.place (.worker i) ≠ .waiting) :
    asleep n s = 0 := if_neg fun hall => hplace (hall i hi)

/-- What is left of the queue's work, with a wake-up and a store that are to come. -/
def drainLeft (n : Nat) (s : State) : Nat := toDo n s + 5 * dispatching s + asleep n s

/-- Nothing is queued, and nothing runs. -/
def Drained (s : State) : Prop := s.queue.count = 0 ∧ ∀ i, s.running i = none

/-- A worker's step that leaves a worker awake. -/
theorem drainLeft_lt {a : Action} {i : Nat} (h : PoolInv n s) (hstep : step n s a = some s')
    (ha : ofWorker a = true) (hi : i < n) (hplace : s'.monitor.place (.worker i) ≠ .waiting)
    (hdispatching : dispatching s' = 0) : drainLeft n s' < drainLeft n s := by
  have hbudget := budget_step h hstep
  have hgiven : given n a = 0 := by
    cases a <;> first | rfl | cases ha
  rw [ha, if_pos rfl, hgiven] at hbudget
  unfold drainLeft
  rw [asleep_eq_zero hi hplace, hdispatching]
  omega

theorem drain_test {i : Nat} (h : PoolInv n s) (hup : s.queue.shuttingDown = false)
    (hleft : ¬ Drained s) (hstep : step n s (.test i) = some s') :
    drainLeft n s' < drainLeft n s ∧ s'.delete = s.delete := by
  have hwhole := hstep
  obtain ⟨hplace, hrunning, ⟨hzero, -⟩ | ⟨hdown, -⟩ | ⟨-, -, rfl⟩⟩ := step_test hstep
  · refine absurd ⟨hzero, h.lock.idle hplace fun j hj => ?_⟩ hleft
    rw [← Thread.worker.inj hj, hrunning]
  · rw [hup] at hdown
    cases hdown
  · have hi : i < n := h.placed.crew i (by rw [hplace]; decide)
    refine ⟨drainLeft_lt h hwhole rfl hi ?_ ?_, rfl⟩
    · dsimp only
      rw [hplace]
      decide
    · exact dispatching_worker ((h.lock.exclusive _).mpr hplace)

theorem drain_finish {i : Nat} (h : PoolInv n s) (hstep : step n s (.finish i) = some s') :
    drainLeft n s' < drainLeft n s ∧ s'.delete = s.delete := by
  have hwhole := hstep
  obtain ⟨r, m, -, hleave, rfl⟩ := step_finish hstep
  obtain ⟨hplace, -, rfl⟩ := leave_eq hleave
  have hi : i < n := h.placed.crew i (by rw [hplace]; decide)
  refine ⟨drainLeft_lt h hwhole rfl hi ?_ (dispatching_none rfl), rfl⟩
  dsimp only
  rw [put_self]
  decide

theorem drain_lock {i : Nat} (h : PoolInv n s) (hi : i < n)
    (hstep : step n s (.lock i) = some s') :
    drainLeft n s' < drainLeft n s ∧ s'.delete = s.delete := by
  have hwhole := hstep
  obtain ⟨-, m, henter, rfl⟩ := step_lock hstep
  obtain ⟨-, -, rfl⟩ := enter_eq henter
  refine ⟨drainLeft_lt h hwhole rfl hi ?_ (dispatching_worker rfl), rfl⟩
  dsimp only
  rw [put_self]
  decide

theorem drain_store {d : Nat} (h : PoolInv n s) (hstep : step n s (.store d true) = some s') :
    drainLeft n s' < drainLeft n s ∧ s'.delete = s.delete := by
  have hbudget := budget_step h hstep
  have hdispatching := dispatching_store h.lock hstep
  have hsame : asleep n s' = asleep n s := by
    obtain ⟨_, _, queue, stored, m, -, -, hleave, rfl⟩ := step_store hstep
    obtain ⟨-, -, rfl⟩ := leave_eq hleave
    unfold asleep
    simp only [place_put, reduceCtorEq, if_false]
  simp only [ofWorker, given, Bool.false_eq_true, if_false] at hbudget
  unfold drainLeft
  obtain ⟨_, _, queue, stored, m, -, -, -, rfl⟩ := step_store hstep
  exact ⟨by omega, rfl⟩

/-- All workers wait, so the signal that is to come wakes one. -/
theorem drain_signal {d : Nat} (h : PoolInv n s) (hn : 0 < n) (howner : s.monitor.owner = none)
    (hplace : s.monitor.place (.dispatcher d) = .signalling)
    (hall : ∀ i < n, s.monitor.place (.worker i) = .waiting) :
    ∃ s', step n s (.signal d (some 0)) = some s' ∧ drainLeft n s' < drainLeft n s ∧
      s'.delete = s.delete := by
  have hcrew : Thread.worker 0 ∈ crew n := List.mem_map.mpr ⟨0, List.mem_range.mpr hn, rfl⟩
  have hwaiting : (s.monitor.put s.monitor.owner (.dispatcher d) .outside).place (.worker 0) =
      .waiting := by
    rw [put_of_ne Thread.noConfusion]
    exact hall 0 hn
  have hstep : step n s (.signal d (some 0)) = some { s with
      monitor := (s.monitor.put s.monitor.owner (.dispatcher d) .outside).put s.monitor.owner
        (.worker 0) .woken } := by
    unfold step
    simp only [Option.map_some, Monitor.signal, if_pos hplace, if_pos hcrew, Monitor.wake,
      if_pos hwaiting, put_owner]
  have hbudget := budget_step h hstep
  simp only [ofWorker, given, Bool.false_eq_true, if_false] at hbudget
  refine ⟨_, hstep, ?_, rfl⟩
  have hawake : asleep n { s with
      monitor := (s.monitor.put s.monitor.owner (.dispatcher d) .outside).put s.monitor.owner
        (.worker 0) .woken } = 0 := asleep_eq_zero hn (by
          dsimp only
          rw [put_self]
          decide)
  have hasleep : asleep n s = 3 := if_pos hall
  unfold drainLeft
  rw [hawake, hasleep, dispatching_none howner, dispatching_none (by exact howner)]
  omega

/-- **There is a step to take** until the queue is empty and nothing runs. -/
theorem drain_enabled (h : PoolInv n s) (hopened : Opened s) (hbefore : s.delete = .before)
    (hn : 0 < n) (hleft : ¬ Drained s) :
    ∃ a s', Drains a ∧ step n s a = some s' ∧ drainLeft n s' < drainLeft n s ∧
      s'.delete = .before := by
  obtain ⟨hup, hexited⟩ := hopened (.inl hbefore)
  rw [← hbefore]
  cases howner : s.monitor.owner with
  | some t =>
    rcases enabled_owner h.lock h.placed (by rw [hbefore]; decide) howner with
      ⟨i, -, -, s', hstep⟩ | ⟨i, -, -, s', hstep⟩ | ⟨d, -, s', hstep⟩
    · exact ⟨_, s', .inl rfl, hstep, drain_test h hup hleft hstep⟩
    · exact ⟨_, s', .inl rfl, hstep, drain_finish h hstep⟩
    · exact ⟨_, s', .inr (.inl ⟨d, rfl⟩), hstep, drain_store h hstep⟩
  | none =>
    have hidle := h.lock.idle_of_free howner
    have hcount : s.queue.count ≠ 0 := fun hzero => hleft ⟨hzero, hidle⟩
    by_cases hall : ∀ i < n, s.monitor.place (.worker i) = .waiting
    · -- a dispatcher has its signal to give
      rcases (h.wake hn).covered hcount hup with ⟨t, ht, hplace⟩ | ⟨t, ⟨d, rfl⟩, hplace⟩
      · obtain ⟨i, hi, rfl⟩ := List.mem_map.mp ht
        exact absurd (hall i (List.mem_range.mp hi)) hplace
      · obtain ⟨s', hstep, hlt⟩ := drain_signal h hn howner hplace hall
        exact ⟨_, s', .inr (.inr ⟨d, _, rfl⟩), hstep, hlt⟩
    · simp only [not_forall] at hall
      obtain ⟨i, hi, hplace⟩ := hall
      have hout : s.monitor.place (.worker i) = .outside ∨
          s.monitor.place (.worker i) = .woken := by
        cases hcase : s.monitor.place (.worker i) with
        | outside => exact .inl rfl
        | woken => exact .inr rfl
        | waiting => exact absurd hcase hplace
        | signalling => exact absurd hcase (h.placed.worker i)
        | inside =>
          rw [(h.lock.exclusive _).mpr hcase] at howner
          cases howner
      obtain ⟨s', hstep⟩ := enabled_lock hi (by rw [hexited]; exact List.not_mem_nil) howner hout
      exact ⟨_, s', .inl rfl, hstep, drain_lock h hi hstep⟩

/-- **The pool drains, and the workers never spin**: in every run, the steps the workers take are
    at most three for each action that was in the queue or is stored, two for each wake-up, and
    three for each worker, whatever the order; and before `worker_pool_delete`, with at least one
    worker, steps of workers and of the dispatchers that are under way lead from every state
    to one with nothing in the queue and no callback running. -/
theorem pool_drains (n : Nat) (s : State) (h : Reach (step n) Any start s) :
    (∀ as s', exec (step n) s as = some s' →
      (as.map fun a => if ofWorker a then 1 else 0).sum ≤
        3 * s.queue.count + 3 * n + (as.map (given n)).sum) ∧
    (0 < n → s.delete = .before →
      ∃ as s', exec (step n) s as = some s' ∧ (∀ a ∈ as, Drains a) ∧ Drained s') := by
  have hinv := pool_reach h
  have hopened : Opened s :=
    h.invariant Opened opened_start fun _ _ _ hs _ hstep => opened_step hs hstep
  constructor
  · intro as s' hexec
    obtain ⟨-, hsum⟩ := exec_budget (fun a => if ofWorker a then 1 else 0) (given n)
      (PoolInv n) (toDo n) (fun _ _ _ ht hstep => ⟨pool_step ht hstep, budget_step ht hstep⟩)
      hinv hexec
    have hwork := workLeft_le 0 n s
    rw [Nat.zero_max] at hwork
    unfold toDo at hsum
    omega
  · intro hn hbefore
    obtain ⟨as, s', hexec, hall, -, hdone⟩ := exists_exec Drains
      (fun t => PoolInv n t ∧ Opened t ∧ t.delete = .before) Drained (drainLeft n)
      (fun t ⟨ht, ho, hb⟩ hleft => by
        obtain ⟨a, t', ha, hstep, hlt, hb'⟩ := drain_enabled ht ho hb hn hleft
        exact ⟨a, t', ha, hstep, ⟨pool_step ht hstep, opened_step ho hstep, hb'⟩, hlt⟩)
      ⟨hinv, hopened, hbefore⟩
    exact ⟨as, s', hexec, hall, hdone⟩

/-- `pool_drains` where both workers wait and two dispatches are under way. -/
theorem pool_drains_two :
    ∃ s : State, s.queue.count = 2 ∧
      ∃ as s', exec (step 2) s as = some s' ∧ (∀ a ∈ as, Drains a) ∧ Drained s' := by
  obtain ⟨s, hs, hstate⟩ := Reach.of_exec_map
    (show (exec (guarded (step 2) Any) start (twoDispatches.take 8)).map
      (fun s => (s.queue.count, s.delete)) = some (2, .before) by decide +kernel)
  obtain ⟨hcount, hbefore⟩ := Prod.mk.inj hstate
  exact ⟨s, hcount, (pool_drains 2 s hs).2 (by decide) hbefore⟩

end Foxtails.Pool.Threads
