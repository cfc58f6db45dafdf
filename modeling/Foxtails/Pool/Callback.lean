/-
  `worker_callback` and the queue's lock.

  `worker_loop` unlocks `queue->lock` behind the callback. So nothing touches the queue while a
  callback runs, and its payload pointer stays good; and for the same reason no other worker
  takes an action meanwhile, and no dispatch begins.

  * `lock_step`: every step keeps `LockInv`: a running callback is inside the monitor, and its
    slot in the current array still holds its action.
  * `busy_blocks`: while a callback runs nobody else gets the lock.
  * `independent_iff`: callbacks run without the lock in exactly the states in which none runs;
    the payload pointer is good in all.
-/
import Foxtails.Pool.Threads

namespace Foxtails.Pool.Threads

open Foxtails.Lib.Libc Foxtails.Lib.Run Foxtails.Lib.Sync Foxtails.Lib.Sync.Monitor

/-! ## The invariant -/

/-- What the pointer of a callback points to is the action it was called with. -/
def Running.Good (s : State) (r : Running) : Prop :=
  r.array = s.array ∧ (s.queue.data.getD r.idx .zero).type = r.type ∧
    (s.queue.data.getD r.idx .zero).payload = r.payload

structure LockInv (s : State) : Prop where
  exclusive : Exclusive s.monitor
  inside : ∀ i r, s.running i = some r → s.monitor.place (.worker i) = .inside
  good : ∀ i r, s.running i = some r → r.Good s

variable {n : Nat} {s s' : State}

theorem lockInv_start : LockInv start :=
  ⟨exclusive_init, fun _ _ h => (by cases h), fun _ _ h => (by cases h)⟩

/-- Another thread inside: no callback runs. -/
theorem LockInv.idle (h : LockInv s) {t : Thread} (ht : s.monitor.place t = .inside)
    (hnot : ∀ i, t = .worker i → s.running i = none) (i : Nat) : s.running i = none := by
  cases hrun : s.running i with
  | none => rfl
  | some r =>
    have heq := h.exclusive.eq ht (h.inside i r hrun)
    rw [hnot i heq] at hrun
    cases hrun

/-- A step of the monitor alone: threads that are inside stay there. -/
theorem LockInv.monitor (h : LockInv s) {m : Monitor Thread} (hexclusive : Exclusive m)
    (hinside : ∀ t, s.monitor.place t = .inside → m.place t = .inside) :
    LockInv { s with monitor := m } :=
  ⟨hexclusive, fun i r hr => hinside _ (h.inside i r hr), h.good⟩

/-- A step in which no callback runs. -/
theorem lockInv_of_idle (hexclusive : Exclusive s.monitor) (hidle : ∀ i, s.running i = none) :
    LockInv s :=
  ⟨hexclusive, fun i r hr => (by rw [hidle i] at hr; cases hr),
    fun i r hr => (by rw [hidle i] at hr; cases hr)⟩

/-! ## Steps -/

theorem lock_test {i : Nat} (h : LockInv s) (hstep : step n s (.test i) = some s') :
    LockInv s' := by
  obtain ⟨hplace, hrun, hcases⟩ := step_test hstep
  have hidle : ∀ j, s.running j = none :=
    h.idle hplace fun j hj => by rw [← Thread.worker.inj hj, hrun]
  rcases hcases with ⟨-, -, m, hwait, rfl⟩ | ⟨-, m, hleave, rfl⟩ | ⟨-, -, rfl⟩
  · exact lockInv_of_idle (h.exclusive.wait hwait) hidle
  · exact lockInv_of_idle (h.exclusive.leave hleave) hidle
  · -- the worker is the only one that runs a callback
    have hsome : ∀ j r, Function.update s.running i
        (some { array := s.array, idx := s.queue.head, type := (workerTake s.queue).1.1,
                payload := (workerTake s.queue).1.2 }) j = some r →
        j = i ∧ r = { array := s.array, idx := s.queue.head, type := (workerTake s.queue).1.1,
                      payload := (workerTake s.queue).1.2 } := by
      intro j r hj
      by_cases hji : j = i
      · subst hji
        rw [Function.update_self] at hj
        exact ⟨rfl, (Option.some.inj hj).symm⟩
      · rw [Function.update_of_ne hji, hidle j] at hj
        cases hj
    refine ⟨h.exclusive, fun j r hj => ?_, fun j r hj => ?_⟩
    · obtain ⟨rfl, -⟩ := hsome j r hj
      exact hplace
    · obtain ⟨-, rfl⟩ := hsome j r hj
      have hslot := workerTake_slot s.queue
      exact ⟨rfl, congrArg Prod.fst hslot, congrArg Prod.snd hslot⟩

theorem lock_finish {i : Nat} (h : LockInv s) (hstep : step n s (.finish i) = some s') :
    LockInv s' := by
  obtain ⟨r, m, hrun, hleave, rfl⟩ := step_finish hstep
  refine lockInv_of_idle (h.exclusive.leave hleave) fun j => ?_
  by_cases hji : j = i
  · exact hji ▸ Function.update_self ..
  · show Function.update s.running i none j = none
    rw [Function.update_of_ne hji]
    cases hj : s.running j with
    | none => rfl
    | some r' =>
      have heq := h.exclusive.eq (h.inside j r' hj) (h.inside i r hrun)
      exact absurd (Thread.worker.inj heq) hji

theorem lock_step {a : Action} (h : LockInv s) (hstep : step n s a = some s') : LockInv s' := by
  cases a with
  | lock i =>
    obtain ⟨-, m, henter, rfl⟩ := step_lock hstep
    exact h.monitor (h.exclusive.enter henter) fun t ht => inside_enter ht henter
  | test i => exact lock_test h hstep
  | spurious i =>
    obtain ⟨m, hwake, rfl⟩ := step_spurious hstep
    exact h.monitor (h.exclusive.wake hwake) fun t ht => inside_wake ht hwake
  | finish i => exact lock_finish h hstep
  | dispatch d type payload =>
    obtain ⟨m, henter, rfl⟩ := step_dispatch hstep
    exact ⟨h.exclusive.enter henter, fun i r hr => inside_enter (h.inside i r hr) henter, h.good⟩
  | store d allocated =>
    obtain ⟨_, _, queue, _, m, -, -, hleave, rfl⟩ := step_store hstep
    exact lockInv_of_idle (h.exclusive.leave hleave)
      (h.idle (leave_eq hleave).1 fun _ heq => (by cases heq))
  | signal d target =>
    obtain ⟨m, hsignal, rfl⟩ := step_signal hstep
    exact h.monitor (h.exclusive.signal hsignal) fun t ht => inside_signal ht hsignal
  | delete =>
    obtain ⟨-, m, henter, rfl⟩ := step_delete hstep
    exact ⟨h.exclusive.enter henter, fun i r hr => inside_enter (h.inside i r hr) henter, h.good⟩
  | flag =>
    obtain ⟨-, m, hleave, rfl⟩ := step_flag hstep
    exact lockInv_of_idle (h.exclusive.leave hleave)
      (h.idle (leave_eq hleave).1 fun _ heq => (by cases heq))
  | broadcast =>
    obtain ⟨-, m, hbroadcast, rfl⟩ := step_broadcast hstep
    exact ⟨h.exclusive.broadcast hbroadcast,
      fun i r hr => inside_broadcast (h.inside i r hr) hbroadcast, h.good⟩
  | join =>
    obtain ⟨-, rfl⟩ := step_join hstep
    exact ⟨h.exclusive, h.inside, h.good⟩

theorem lock_reach (h : Reach (step n) Any start s) : LockInv s :=
  h.invariant LockInv lockInv_start fun _ _ _ hs _ hstep => lock_step hs hstep

/-! ## Callbacks and the lock -/

/-- While a callback runs nobody else gets the lock: no worker takes an action, no dispatch and
    no shutdown begins. -/
theorem busy_blocks (h : LockInv s) {i : Nat} (hbusy : s.running i ≠ none) :
    (∀ j, step n s (.lock j) = none) ∧
      (∀ d type payload, step n s (.dispatch d type payload) = none) ∧
      step n s .delete = none := by
  obtain ⟨r, hr⟩ := Option.ne_none_iff_exists'.mp hbusy
  have henter := h.exclusive.enter_eq_none (h.inside i r hr)
  unfold step
  dsimp only
  simp [henter]

/-- A worker inside its callback does not hold the lock, and keeps no idle worker and no
    dispatch from getting it; the payload pointer it was given is good. -/
structure Independent (n : Nat) (s : State) : Prop where
  unlocked : ∀ i, s.running i ≠ none → s.monitor.owner ≠ some (.worker i)
  takes : ∀ i j, s.running i ≠ none → s.monitor.owner = none ∨ s.monitor.owner = some (.worker i) →
    j < n → j ∉ s.exited → s.monitor.place (.worker j) = .outside → step n s (.lock j) ≠ none
  dispatches : ∀ i d type payload, s.running i ≠ none →
    s.monitor.owner = none ∨ s.monitor.owner = some (.worker i) →
    s.monitor.place (.dispatcher d) = .outside → step n s (.dispatch d type payload) ≠ none
  payload : ∀ i r, s.running i = some r → r.Good s

/-- **Workers are independent in exactly the states in which no callback runs**: a running
    callback always holds the queue's lock. The payload pointer is good in every state. -/
theorem independent_iff (n : Nat) (s : State) (h : Reach (step n) Any start s) :
    (Independent n s ↔ ∀ i, s.running i = none) ∧ ∀ i r, s.running i = some r → r.Good s := by
  have hinv := lock_reach h
  refine ⟨⟨fun hind i => ?_, fun hidle => ?_⟩, hinv.good⟩
  · cases hrun : s.running i with
    | none => rfl
    | some r =>
      have howner := (hinv.exclusive _).mpr (hinv.inside i r hrun)
      exact absurd howner (hind.unlocked i (by rw [hrun]; simp))
  · exact ⟨fun i hi => absurd (hidle i) hi, fun i _ hi => absurd (hidle i) hi,
      fun i _ _ _ hi => absurd (hidle i) hi, hinv.good⟩

def clientPayload : Payload :=
  ⟨some (ascii "client"), fun _ h => by obtain rfl := Option.some.inj h; decide⟩

/-- Two workers; an action is dispatched, and worker 0 takes it. -/
def oneTaken : List Action :=
  [.dispatch 0 1 clientPayload, .store 0 true, .signal 0 none, .lock 0, .test 0]

/-- Nobody holds the lock: no callback runs. -/
theorem LockInv.idle_of_free (h : LockInv s) (howner : s.monitor.owner = none) (i : Nat) :
    s.running i = none := by
  cases hrun : s.running i with
  | none => rfl
  | some r =>
    have hheld := (h.exclusive _).mpr (h.inside i r hrun)
    rw [howner] at hheld
    cases hheld

/-- `independent_iff` before the action is taken, and in its callback. -/
theorem independent_iff_taken :
    (∃ s : State, s.queue.count = 1 ∧ Independent 2 s) ∧
    ∃ (s : State) (r : Running), s.running 0 = some r ∧ r.type = 1 ∧
      r.payload.take 6 = ascii "client" ∧ r.Good s ∧ ¬ Independent 2 s := by
  constructor
  · obtain ⟨s, hreach, hstate⟩ := Reach.of_exec_map
      (show (exec (guarded (step 2) Any) start (oneTaken.take 3)).map
        (fun s => (s.queue.count, s.monitor.owner)) = some (1, none) by decide +kernel)
    obtain ⟨hcount, howner⟩ := Prod.mk.inj hstate
    exact ⟨s, hcount, (independent_iff 2 s hreach).1.mpr ((lock_reach hreach).idle_of_free howner)⟩
  · obtain ⟨s, hreach, hstate⟩ := Reach.of_exec_map
      (show (exec (guarded (step 2) Any) start oneTaken).map
        (fun s => (s.running 0).map fun r => (r.type, r.payload.take 6)) =
          some (some (1, ascii "client")) by decide +kernel)
    obtain ⟨r, hr, hcall⟩ := Option.map_eq_some_iff.mp hstate
    obtain ⟨htype, hpayload⟩ := Prod.mk.inj hcall
    obtain ⟨hiff, hgood⟩ := independent_iff 2 s hreach
    refine ⟨s, r, hr, htype, hpayload, hgood 0 r hr, fun hind => ?_⟩
    rw [hiff.mp hind 0] at hr
    cases hr

/-- Worker 0 is in its callback and holds the lock; worker 1 cannot take the lock. -/
theorem callback_holds_lock :
    ∃ s : State, Reach (step 2) Any start s ∧ ¬ Independent 2 s := by
  obtain ⟨s, hs, howner⟩ := Reach.of_exec_map
    (show (exec (guarded (step 2) Any) start oneTaken).map
      (fun s => (s.monitor.owner, (s.running 0).isSome)) = some (some (.worker 0), true) by
        decide +kernel)
  obtain ⟨howner, hrun⟩ := Prod.mk.inj howner
  refine ⟨s, hs, fun hind => hind.unlocked 0 ?_ howner⟩
  exact Option.isSome_iff_ne_none.mp hrun

end Foxtails.Pool.Threads
