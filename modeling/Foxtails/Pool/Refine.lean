/-
  The threads implement the queue.

  Model (read this before the theorems). `Pool.Fifo` runs the queue alone: a dispatch is one step,
  and so is taking an action with its callback. Here the queue is used by threads, in any
  interleaving. A dispatch takes effect where it stores, and an action is taken where the
  worker's test finds it; its callback runs for a while behind that.

  * `Sim`: the queue of the threads is that of `Pool.Fifo`, but for the flag of a shutdown and
    the mark on the slot whose callback still runs.
  * `sim_step`: every step of a thread is a step of `Pool.Fifo`, or none.
  * `threads_refine_queue`: so what is called is what was stored, in order, each once, though any
    number of workers call it.
-/
import Foxtails.Pool.Callback
import Foxtails.Pool.Fifo

namespace Foxtails.Pool.Threads

open Foxtails.Lib.Libc Foxtails.Lib.Run Foxtails.Lib.Sync Foxtails.Lib.Sync.Monitor

/-! ## What is seen of a run -/

inductive Event where
  /-- `dispatch_command` has stored this action. -/
  | stored (type : Int) (payload : Bytes)
  /-- `worker_callback` is called with this action. -/
  | called (i : Nat) (type : Int) (payload : Bytes)

def events (s : State) : Action → List Event
  | .store d allocated =>
    match s.calls d with
    | some (type, payload) =>
      if (dispatchCommand allocated s.queue type payload).2 then [.stored type payload.front]
      else []
    | none => []
  | .test i =>
    if s.queue.count = 0 ∨ s.queue.shuttingDown then []
    else [.called i (workerTake s.queue).1.1 (workerTake s.queue).1.2]
  | _ => []

/-- The actions stored, in order. -/
def storedOf (hist : List Event) : List (Int × Bytes) := hist.filterMap fun
  | .stored type payload => some (type, payload)
  | .called .. => none

/-- The actions called, in order. -/
def calledOf (hist : List Event) : List (Int × Bytes) := hist.filterMap fun
  | .stored .. => none
  | .called _ type payload => some (type, payload)

/-- Dispatches are made while the capacity is below `2^31`. -/
def Roomy (s : State) : Action → Prop
  | .store .. => s.queue.capacity < 2 ^ 31
  | _ => True

instance (s : State) (a : Action) : Decidable (Roomy s a) := by
  unfold Roomy
  split <;> infer_instance

/-! ## The simulation -/

/-- The queue once the callback that runs has returned, and without the flag. -/
structure Settled (s : State) (q : WorkerQueue) : Prop where
  idle : (∀ i, s.running i = none) → q = { s.queue with shuttingDown := false }
  busy : ∀ i r, s.running i = some r →
    q = { workerFinish s.queue r.idx with shuttingDown := false }

/-- A run of the threads so far, and the run of the queue alone. -/
structure Sim (hist : List Event) (s : State) : Prop where
  lock : LockInv s
  queue : ∃ f, Reach Pool.step Pool.Bounded Pool.start f ∧ f.dispatched = storedOf hist ∧
    f.delivered = calledOf hist ∧ Settled s f.queue

variable {n : Nat} {s s' : State} {hist : List Event}

/-- `dispatch_command` does not look at the flag. -/
theorem dispatchCommand_flag (allocated : Bool) (q : WorkerQueue) (type : Int) (payload : Payload)
    (flag : Bool) :
    dispatchCommand allocated { q with shuttingDown := flag } type payload =
      ({ (dispatchCommand allocated q type payload).1 with shuttingDown := flag },
        (dispatchCommand allocated q type payload).2) := by
  unfold dispatchCommand
  split_ifs <;> rfl

/-- A step that does nothing to the queue and the callbacks. -/
theorem Sim.stutter (h : Sim hist s) (hlock : LockInv s')
    (hqueue : { s'.queue with shuttingDown := false } = { s.queue with shuttingDown := false })
    (hrunning : s'.running = s.running) : Sim hist s' := by
  obtain ⟨-, f, hreach, hstored, hcalled, hidle, hbusy⟩ := h
  refine ⟨hlock, f, hreach, hstored, hcalled, fun hnone => ?_, fun i r hr => ?_⟩
  · rw [hqueue]
    exact hidle fun i => hrunning ▸ hnone i
  · rw [hbusy i r (hrunning ▸ hr)]
    show workerFinish { s.queue with shuttingDown := false } r.idx =
      workerFinish { s'.queue with shuttingDown := false } r.idx
    rw [hqueue]

/-- A dispatch takes effect where it stores. -/
theorem sim_store {d : Nat} {allocated : Bool} (h : Sim hist s) (hroomy : s.queue.capacity < 2 ^ 31)
    (hstep : step n s (.store d allocated) = some s') :
    Sim (hist ++ events s (.store d allocated)) s' := by
  have hlock' := lock_step h.lock hstep
  obtain ⟨hlock, f, hreach, hstored, hcalled, hidle, -⟩ := h
  obtain ⟨type, payload, queue, stored, m, hcall, hqueue, hleave, rfl⟩ := step_store hstep
  have hnone : ∀ i, s.running i = none :=
    hlock.idle (leave_eq hleave).1 fun i heq => (by cases heq)
  have hf := hidle hnone
  have hbounded : Pool.Bounded f (.dispatch allocated type payload) := by
    show f.queue.capacity < 2 ^ 31
    rw [hf]
    exact hroomy
  have hdispatch : dispatchCommand allocated f.queue type payload =
      ({ queue with shuttingDown := false }, stored) := by
    rw [hf, dispatchCommand_flag, hqueue]
  have hnext : Pool.step f (.dispatch allocated type payload) = some
      { f with
        queue := { queue with shuttingDown := false }
        dispatched := if stored then f.dispatched ++ [(type, payload.front)]
                      else f.dispatched } := by
    simp only [Pool.step, hdispatch]
  have hevents : events s (.store d allocated) =
      if stored then [.stored type payload.front] else [] := by
    simp only [events, hcall, hqueue]
  refine ⟨hlock', _, .next hreach hbounded hnext, ?_, ?_, fun _ => rfl, fun i r hr => ?_⟩
  · rw [hevents]
    cases stored with
    | true => simp [storedOf, hstored]
    | false => simp [hstored]
  · rw [hevents]
    cases stored with
    | true => simp [calledOf, hcalled]
    | false => simp [hcalled]
  · rw [hnone i] at hr
    cases hr

/-- An action is taken where the test finds it. -/
theorem sim_test {i : Nat} (h : Sim hist s) (hstep : step n s (.test i) = some s') :
    Sim (hist ++ events s (.test i)) s' := by
  have hlock' := lock_step h.lock hstep
  obtain ⟨hplace, hrunning, hcases⟩ := step_test hstep
  have hquiet : s.queue.count = 0 ∨ s.queue.shuttingDown = true →
      hist ++ events s (.test i) = hist := by
    intro hnothing
    rw [events, if_pos hnothing, List.append_nil]
  rcases hcases with ⟨hzero, -, m, hwait, rfl⟩ | ⟨hdown, m, hleave, rfl⟩ | ⟨hcount, hup, rfl⟩
  · rw [hquiet (.inl hzero)]
    exact h.stutter hlock' rfl rfl
  · rw [hquiet (.inr hdown)]
    exact h.stutter hlock' rfl rfl
  · obtain ⟨hlock, f, hreach, hstored, hcalled, hidle, -⟩ := h
    have hnone : ∀ j, s.running j = none :=
      hlock.idle hplace fun j hj => by rw [← Thread.worker.inj hj, hrunning]
    have hf : f.queue = s.queue := by
      rw [hidle hnone]
      have hflag : (false : Bool) = s.queue.shuttingDown := hup.symm
      rw [hflag]
    have hqueue : QueueInv s.queue := by
      rw [← hf]
      exact (hreach.invariant FifoInv fifo_inv_start
        fun _ _ _ hi hok hs => fifo_inv_step hi hok hs).queue
    have hhead : s.queue.head < s.queue.data.length := by
      rw [hqueue.length]
      exact hqueue.head_lt
    have hnothing : ¬ (s.queue.shuttingDown = true ∨ s.queue.count = 0) := by
      rw [hup]
      simpa using hcount
    have hnext : Pool.step f .dequeue = some
        { f with
          queue := workerFinish (workerTake s.queue).2 s.queue.head
          delivered := f.delivered ++ [(workerTake s.queue).1] } := by
      simp only [Pool.step, hf, workerDequeue_eq s.queue hhead, if_neg hnothing, Option.map_some]
    have hevents : events s (.test i) =
        [.called i (workerTake s.queue).1.1 (workerTake s.queue).1.2] := by
      rw [events, if_neg fun hor => hnothing hor.symm]
    refine ⟨hlock', _, .next (a := .dequeue) hreach trivial hnext, ?_, ?_, fun hidle' => ?_,
      fun j r hr => ?_⟩
    · rw [hevents]
      simp [storedOf, hstored]
    · rw [hevents]
      simp [calledOf, hcalled]
    · have hi := hidle' i
      dsimp only at hi
      rw [Function.update_self] at hi
      cases hi
    · dsimp only at hr
      rw [Function.update_apply] at hr
      split_ifs at hr
      · obtain rfl := Option.some.inj hr
        show workerFinish (workerTake s.queue).2 s.queue.head =
          { workerFinish (workerTake s.queue).2 s.queue.head with shuttingDown := false }
        have hflag : (workerFinish (workerTake s.queue).2 s.queue.head).shuttingDown = false := hup
        rw [← hflag]
      · rw [hnone j] at hr
        cases hr

/-- The callback returns. -/
theorem sim_finish {i : Nat} (h : Sim hist s) (hstep : step n s (.finish i) = some s') :
    Sim hist s' := by
  have hlock' := lock_step h.lock hstep
  obtain ⟨hlock, f, hreach, hstored, hcalled, -, hbusy⟩ := h
  obtain ⟨r, m, hrunning, hleave, rfl⟩ := step_finish hstep
  refine ⟨hlock', f, hreach, hstored, hcalled, fun _ => hbusy i r hrunning, fun j r' hr => ?_⟩
  dsimp only at hr
  rw [Function.update_apply] at hr
  split_ifs at hr with hji
  exact absurd (Thread.worker.inj (hlock.exclusive.eq (hlock.inside j r' hr)
    (hlock.inside i r hrunning))) hji

/-- Nothing is seen of the step. -/
theorem Sim.silent {a : Action} (hevents : events s a = []) (h : Sim hist s') :
    Sim (hist ++ events s a) s' := by
  rw [hevents, List.append_nil]
  exact h

/-- **Every step of a thread is a step of the queue alone, or none.** -/
theorem sim_step {a : Action} (h : Sim hist s) (hroomy : Roomy s a)
    (hstep : step n s a = some s') : Sim (hist ++ events s a) s' := by
  have hlock' := lock_step h.lock hstep
  cases a with
  | store d allocated => exact sim_store h hroomy hstep
  | test i => exact sim_test h hstep
  | finish i => exact (sim_finish h hstep).silent rfl
  | lock i =>
    obtain ⟨-, m, -, rfl⟩ := step_lock hstep
    exact (h.stutter hlock' rfl rfl).silent rfl
  | spurious i =>
    obtain ⟨m, -, rfl⟩ := step_spurious hstep
    exact (h.stutter hlock' rfl rfl).silent rfl
  | dispatch d type payload =>
    obtain ⟨m, -, rfl⟩ := step_dispatch hstep
    exact (h.stutter hlock' rfl rfl).silent rfl
  | signal d target =>
    obtain ⟨m, -, rfl⟩ := step_signal hstep
    exact (h.stutter hlock' rfl rfl).silent rfl
  | delete =>
    obtain ⟨-, m, -, rfl⟩ := step_delete hstep
    exact (h.stutter hlock' rfl rfl).silent rfl
  | flag =>
    obtain ⟨-, m, -, rfl⟩ := step_flag hstep
    exact (h.stutter hlock' rfl rfl).silent rfl
  | broadcast =>
    obtain ⟨-, m, -, rfl⟩ := step_broadcast hstep
    exact (h.stutter hlock' rfl rfl).silent rfl
  | join =>
    obtain ⟨-, rfl⟩ := step_join hstep
    exact (h.stutter hlock' rfl rfl).silent rfl

theorem sim_start : Sim [] start := by
  refine ⟨lockInv_start, Pool.start, .start, rfl, rfl, fun _ => rfl, fun i r hr => ?_⟩
  cases hr

/-! ## Runs -/

/-- What is seen of a run. -/
abbrev history (n : Nat) (as : List Action) : List Event :=
  observed (guarded (step n) Roomy) events start as

theorem sim_exec {as : List Action} (hexec : exec (guarded (step n) Roomy) start as = some s) :
    Sim (history n as) s := by
  have hstep : ∀ hist t a t', Sim hist t → True → guarded (step n) Roomy t a = some t' →
      Sim (hist ++ events t a) t' := fun hist t a t' ht _ hstep => by
    obtain ⟨hroomy, hstep⟩ := Option.ite_none_right_eq_some.mp hstep
    exact sim_step ht hroomy hstep
  exact exec_observed Sim hstep sim_start (fun _ _ => trivial) hexec

/-- At most one callback runs. -/
theorem LockInv.one (h : LockInv s) {i j : Nat} (hi : s.running i ≠ none)
    (hj : s.running j ≠ none) : i = j := by
  obtain ⟨r, hr⟩ := Option.ne_none_iff_exists'.mp hi
  obtain ⟨r', hr'⟩ := Option.ne_none_iff_exists'.mp hj
  exact Thread.worker.inj (h.exclusive.eq (h.inside i r hr) (h.inside j r' hr'))

/-- **The threads implement the queue**: for every run of any number of threads there is a run of
    the queue alone that stores the same actions and delivers those that the callbacks are called
    with, and both have the same queue once the callback that runs has returned. So, whichever
    workers call them, the actions called are the first of those stored, in order, each once,
    with its type and its payload; all others are still queued; and one callback runs at a
    time. -/
theorem threads_refine_queue (n : Nat) (as : List Action) (s : State)
    (h : exec (guarded (step n) Roomy) start as = some s) :
    (∃ f, Reach Pool.step Pool.Bounded Pool.start f ∧ f.dispatched = storedOf (history n as) ∧
      f.delivered = calledOf (history n as) ∧ Settled s f.queue) ∧
    (∃ done, done <+: storedOf (history n as) ∧
      List.Forall₂ Delivers done (calledOf (history n as))) ∧
    (storedOf (history n as)).length = (calledOf (history n as)).length + s.queue.count ∧
    ∀ i j, s.running i ≠ none → s.running j ≠ none → i = j := by
  obtain ⟨hlock, f, hreach, hstored, hcalled, hsettled⟩ := sim_exec h
  have hfifo := hreach.invariant FifoInv fifo_inv_start
    fun _ _ _ hi hok hs => fifo_inv_step hi hok hs
  obtain ⟨done, pending, hdispatched, hdone, hpending⟩ := hfifo.fifo
  have hcount : f.queue.count = s.queue.count := by
    by_cases hidle : ∀ i, s.running i = none
    · rw [hsettled.idle hidle]
    · simp only [not_forall] at hidle
      obtain ⟨i, hbusy⟩ := hidle
      obtain ⟨r, hr⟩ := Option.ne_none_iff_exists'.mp hbusy
      rw [hsettled.busy i r hr]
      rfl
  refine ⟨⟨f, hreach, hstored, hcalled, hsettled⟩, ⟨done, ⟨pending, ?_⟩, ?_⟩, ?_,
    fun i j hi hj => hlock.one hi hj⟩
  · rw [← hstored, hdispatched]
  · rw [← hcalled]
    exact hdone
  · have hlength := hpending.length_eq
    unfold WorkerQueue.actions at hlength
    rw [Lib.Ring.contents_length] at hlength
    rw [← hstored, ← hcalled, hdispatched, List.length_append, hdone.length_eq, hlength, hcount]

/-- Two workers, two actions; worker 1 calls the first, and the second is queued. -/
def overtaken : List Action :=
  [.lock 0, .test 0, .dispatch 0 1 nullPayload, .store 0 true, .lock 1, .test 1, .signal 0 (some 0),
   .finish 1, .dispatch 1 2 nullPayload, .store 1 true]

/-- `threads_refine_queue` behind these steps. -/
theorem threads_refine_queue_overtaken :
    ∃ s : State, s.queue.count = 1 ∧ (storedOf (history 2 overtaken)).length =
      (calledOf (history 2 overtaken)).length + s.queue.count := by
  obtain ⟨s, hexec, hcount⟩ := Option.map_eq_some_iff.mp
    (show (exec (guarded (step 2) Roomy) start overtaken).map (fun s => s.queue.count) = some 1 by
      decide +kernel)
  exact ⟨s, hcount, (threads_refine_queue 2 overtaken s hexec).2.2.1⟩

end Foxtails.Pool.Threads
