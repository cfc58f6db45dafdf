/-
  `worker_loop` of `utils/workers.c`, one statement after the other, with the worker's own pool.

  Model (read this before the theorems). The state is that of one worker: where it is, its pool,
  and the queue. All other threads are the action `others`: they do to the queue whatever they
  like, but not while the worker holds `queue->lock`. A wait ends for any reason or none. The
  callback takes memory from the pool, writes to memory, and calls `config_get`, as often as it
  likes and with any arguments; nothing else that it calls saves or restores. A failed assertion
  of `cpool_save` or `cpool_restore` ends in `aborted`.

  * `loop_step`: every step keeps `LoopInv`: there is no snapshot at the start of an iteration
    and one inside it, and `continue` is never reached.
  * `loop_view`: every worker of `Pool.Threads` runs this loop.
  * `snapshots_balanced`: snapshots are balanced in `config_get`, `routes_parse` and here.
-/
import Foxtails.Config.Memory
import Foxtails.Pool.Callback
import Foxtails.Routing.Memory

namespace Foxtails.Pool.WorkerLoop

open Foxtails.Lib.Libc Foxtails.Lib.Malloc Foxtails.Lib.Run Foxtails.Lib.Sync Foxtails.Cpool
  Foxtails.Config Foxtails.Routing Foxtails.Pool.Threads

/-! ## The loop -/

/-- What the worker does next. -/
inductive Pc where
  /-- `cpool_save`: an iteration starts. -/
  | save
  | lock
  /-- The test of the inner loop. -/
  | whileTest
  | waiting
  | shutdownTest
  /-- The unlock in front of `break`. -/
  | breaking
  | countTest
  /-- The unlock in front of `continue`. -/
  | continuing
  | take
  /-- `worker_callback`; at its end the slot and the lock are released. -/
  | callback
  | restore
  /-- The loop has been left. -/
  | left
  | aborted
  | killed
  deriving DecidableEq

/-- The worker holds `queue->lock`. -/
def Pc.locked : Pc → Bool
  | .whileTest | .shutdownTest | .breaking | .countTest | .continuing | .take | .callback => true
  | _ => false

structure State where
  pc : Pc
  queue : WorkerQueue
  idx : Nat
  heap : Heap

/-- What the callback does to the pool and the memory. -/
inductive Call where
  | palloc (size : Nat)
  | pcalloc (num size : Nat)
  | write (bytes : Nat → Byte)
  | configGet (beyond : Option Nat) (m : Mapping) (sect key : Bytes)

inductive Action where
  /-- The next statement of the worker. -/
  | next
  | call (c : Call)
  | others (queue : WorkerQueue)

/-- The thread starts with the pool of `cpool_init`. -/
def start (queue : WorkerQueue) (heap : Heap) : State := { pc := .save, queue, idx := 0, heap }

/-- The next state, with the pool behind a call of `cpool_save` or `cpool_restore`. -/
def State.goTo (s : State) (pc : Pc) : Option Heap → State
  | some heap => { s with pc, heap }
  | none => { s with pc := .aborted }

def next (A : Allocator) (s : State) : Option State :=
  match s.pc with
  | .save => some (s.goTo .lock (s.heap.save A))
  | .lock => some { s with pc := .whileTest }
  | .whileTest =>
    if s.queue.count = 0 ∧ s.queue.shuttingDown = false then some { s with pc := .waiting }
    else some { s with pc := .shutdownTest }
  | .waiting => some { s with pc := .whileTest }
  | .shutdownTest =>
    if s.queue.shuttingDown then some { s with pc := .breaking }
    else some { s with pc := .countTest }
  | .breaking => some { s with pc := .left }
  | .countTest =>
    if s.queue.count = 0 then some { s with pc := .continuing } else some { s with pc := .take }
  | .continuing => some { s with pc := .save }
  | .take =>
    some { s with pc := .callback, idx := s.queue.head, queue := (workerTake s.queue).2 }
  | .callback => some { s with pc := .restore, queue := workerFinish s.queue s.idx }
  | .restore => some (s.goTo .save (s.heap.restore A))
  | .left | .aborted | .killed => none

/-- The pool behind a call, or `none` where the pool cannot be called so. -/
def Call.run (A : Allocator) (h : Heap) : Call → Option (Except Stop Heap)
  | .palloc size => (h.act A (.palloc size)).map .ok
  | .pcalloc num size => (h.act A (.pcalloc num size)).map .ok
  | .write bytes => some (.ok { h with bytes })
  | .configGet beyond m sect key => some ((configGetIn A beyond h m sect key).map Prod.fst)

/-- The worker behind a call. -/
def State.called (s : State) : Except Stop Heap → State
  | .ok heap => { s with heap }
  | .error .aborted => { s with pc := .aborted }
  | .error .killed => { s with pc := .killed }

def step (A : Allocator) (s : State) : Action → Option State
  | .next => next A s
  | .call c => if s.pc = .callback then (c.run A s.heap).map s.called else none
  | .others queue => if s.pc.locked then none else some { s with queue }

/-- Any run. -/
def Any (_ : State) (_ : Action) : Prop := True

instance (s : State) (a : Action) : Decidable (Any s a) := isTrue trivial

/-! ## The snapshots -/

/-- How many snapshots there are: the one of the iteration, from its save to its restore. -/
def Pc.depth : Pc → Nat
  | .save => 0
  | _ => 1

structure LoopInv (s : State) : Prop where
  sound : Sound s.heap s.pc.depth
  /-- The lock is held between the tests, so what the first has found still holds. -/
  shutdown : s.pc = .shutdownTest → s.queue.count = 0 → s.queue.shuttingDown = true
  count : s.pc = .countTest → s.queue.count ≠ 0
  continuing : s.pc ≠ .continuing
  aborted : s.pc ≠ .aborted

variable {A : Allocator} {s s' : State}

/-- A state in which no test holds anything. -/
theorem loopInv_of_sound {pc : Pc} {queue : WorkerQueue} {idx : Nat} {heap : Heap}
    (hsound : Sound heap pc.depth)
    (hpc : pc ≠ .shutdownTest ∧ pc ≠ .countTest ∧ pc ≠ .continuing ∧ pc ≠ .aborted) :
    LoopInv ⟨pc, queue, idx, heap⟩ := by
  obtain ⟨hshutdown, hcount, hcontinuing, haborted⟩ := hpc
  exact ⟨hsound, fun h => absurd h hshutdown, fun h => absurd h hcount, hcontinuing, haborted⟩

theorem loop_next (h : LoopInv s) (hstep : next A s = some s') : LoopInv s' := by
  obtain ⟨hsound, hshutdown, hcount, hcontinuing, haborted⟩ := h
  unfold next at hstep
  cases hpc : s.pc with
  | save =>
    rw [hpc] at hsound hstep
    obtain ⟨heap, hsave, hsound', -⟩ := hsound.save (A := A) (show 0 < maxSaveDepth by decide)
    dsimp only at hstep
    rw [hsave] at hstep
    obtain rfl := Option.some.inj hstep
    exact loopInv_of_sound hsound' (by decide)
  | whileTest =>
    rw [hpc] at hsound hstep
    dsimp only at hstep
    split_ifs at hstep with hempty
    · obtain rfl := Option.some.inj hstep
      exact loopInv_of_sound hsound (by decide)
    · obtain rfl := Option.some.inj hstep
      refine ⟨hsound, fun _ hzero => ?_, ?_, ?_, ?_⟩
      · rw [not_and, Bool.not_eq_false] at hempty
        exact hempty hzero
      · exact Pc.noConfusion
      · exact Pc.noConfusion
      · exact Pc.noConfusion
  | shutdownTest =>
    rw [hpc] at hsound hstep
    dsimp only at hstep
    split_ifs at hstep with hdown
    · obtain rfl := Option.some.inj hstep
      exact loopInv_of_sound hsound (by decide)
    · obtain rfl := Option.some.inj hstep
      refine ⟨hsound, ?_, fun _ hzero => hdown (hshutdown hpc hzero), ?_, ?_⟩
      · exact Pc.noConfusion
      · exact Pc.noConfusion
      · exact Pc.noConfusion
  | countTest =>
    rw [hpc] at hsound hstep
    dsimp only at hstep
    -- `continue` would need an empty queue
    rw [if_neg (hcount hpc)] at hstep
    obtain rfl := Option.some.inj hstep
    exact loopInv_of_sound hsound (by decide)
  | continuing => exact absurd hpc hcontinuing
  | restore =>
    rw [hpc] at hsound hstep
    obtain ⟨heap, hrestore, hsound', -⟩ := hsound.restore (A := A)
    dsimp only at hstep
    rw [hrestore] at hstep
    obtain rfl := Option.some.inj hstep
    exact loopInv_of_sound hsound' (by decide)
  | lock | waiting | breaking | take | callback =>
    rw [hpc] at hsound hstep
    obtain rfl := Option.some.inj hstep
    exact loopInv_of_sound hsound (by decide)
  | left | aborted | killed =>
    rw [hpc] at hstep
    cases hstep

/-- A call of the callback is made and returns behind one snapshot. -/
theorem loop_call (h : LoopInv s) {c : Call} (hstep : step A s (.call c) = some s') :
    LoopInv s' := by
  have hsound := h.sound
  obtain ⟨hpc, hcall⟩ := Option.ite_none_right_eq_some.mp hstep
  obtain ⟨result, hrun, rfl⟩ := Option.map_eq_some_iff.mp hcall
  rw [hpc] at hsound
  have hreturn : ∀ heap, Sound heap 1 → LoopInv (s.called (.ok heap)) := by
    intro heap hsound'
    unfold State.called
    rw [hpc]
    exact loopInv_of_sound hsound' (by decide)
  cases c with
  | palloc size =>
    obtain ⟨heap, hact, rfl⟩ := Option.map_eq_some_iff.mp hrun
    exact hreturn heap (hsound.palloc hact)
  | pcalloc num size =>
    obtain ⟨heap, hact, rfl⟩ := Option.map_eq_some_iff.mp hrun
    exact hreturn heap (hsound.pcalloc hact)
  | write bytes =>
    obtain rfl := Option.some.inj hrun
    exact hreturn _ ⟨hsound.inv, hsound.depth⟩
  | configGet beyond m sect key =>
    have hget : Balanced A 1 s.heap _ _ (configGetIn A beyond s.heap m sect key) :=
      configGetIn_balanced hsound (by decide) m
    obtain rfl := Option.some.inj hrun
    cases hresult : configGetIn A beyond s.heap m sect key with
    | error stop =>
      rw [hresult] at hget
      obtain ⟨rfl, -⟩ := hget
      exact loopInv_of_sound hsound (by decide)
    | ok result =>
      rw [hresult] at hget
      exact hreturn result.1 hget.sound

/-- What the other threads do to the queue leaves the worker's tests alone. -/
theorem loop_others (h : LoopInv s) {queue : WorkerQueue}
    (hstep : step A s (.others queue) = some s') : LoopInv s' := by
  unfold step at hstep
  dsimp only at hstep
  split_ifs at hstep with hlocked
  obtain rfl := Option.some.inj hstep
  refine ⟨h.sound, fun hpc => ?_, fun hpc => ?_, h.continuing, h.aborted⟩
  · exact absurd (congrArg Pc.locked hpc) hlocked
  · exact absurd (congrArg Pc.locked hpc) hlocked

theorem loop_step {a : Action} (h : LoopInv s) (hstep : step A s a = some s') : LoopInv s' := by
  cases a with
  | next => exact loop_next h hstep
  | call c => exact loop_call h hstep
  | others queue => exact loop_others h hstep

theorem loop_reach {queue : WorkerQueue} {heap : Heap} (hsound : Sound heap 0)
    (h : Reach (step A) Any (start queue heap) s) : LoopInv s :=
  h.invariant LoopInv (loopInv_of_sound hsound (by decide))
    fun _ _ _ hs _ hstep => loop_step hs hstep

/-! ## The workers of the pool -/

/-- Where worker `i` is in the loop. -/
def workerPc (t : Threads.State) (i : Nat) : Pc :=
  match t.monitor.place (.worker i) with
  | .outside => if i ∈ t.exited then .left else .save
  | .inside => if (t.running i).isSome then .callback else .whileTest
  | .waiting => .waiting
  | .woken => .waiting
  | .signalling => .left

/-- `w` is the loop of worker `i`. -/
structure View (i : Nat) (t : Threads.State) (w : State) : Prop where
  pc : w.pc = workerPc t i
  queue : w.queue = t.queue
  idx : ∀ r, t.running i = some r → w.idx = r.idx
  exited : i ∈ t.exited → t.monitor.place (.worker i) = .outside

variable {n i : Nat} {t t' : Threads.State} {w : State} {a : Threads.Action}

theorem workerPc_inside (hplace : t.monitor.place (.worker i) = .inside) :
    workerPc t i = if (t.running i).isSome then .callback else .whileTest := by
  rw [workerPc, hplace]

theorem workerPc_outside (hplace : t.monitor.place (.worker i) = .outside) :
    workerPc t i = if i ∈ t.exited then .left else .save := by
  rw [workerPc, hplace]

theorem workerPc_waiting (hplace : t.monitor.place (.worker i) = .waiting) :
    workerPc t i = .waiting := by
  rw [workerPc, hplace]

theorem workerPc_woken (hplace : t.monitor.place (.worker i) = .woken) :
    workerPc t i = .waiting := by
  rw [workerPc, hplace]

/-- A worker that is not inside runs no callback. -/
theorem running_eq_none (hlock : LockInv t) (hplace : t.monitor.place (.worker i) ≠ .inside) :
    t.running i = none := by
  cases hrun : t.running i with
  | none => rfl
  | some r => exact absurd (hlock.inside i r hrun) hplace

/-- What becomes of the place of a worker where others take the step. -/
def Untouched (i : Nat) (m m' : Monitor Thread) : Prop :=
  m'.place (.worker i) = m.place (.worker i) ∨
    m.place (.worker i) = .waiting ∧ m'.place (.worker i) = .woken

theorem untouched_put {m : Monitor Thread} {u : Thread} (hu : .worker i ≠ u)
    (owner : Option Thread) (p : Place) : Untouched i m (m.put owner u p) :=
  .inl (Monitor.put_of_ne hu owner p)

/-- A step of others: the worker's loop sees at most another queue. -/
theorem View.others (hview : View i t w) (huntouched : Untouched i t.monitor t'.monitor)
    (hrunning : t'.running i = t.running i) (hexited : i ∈ t'.exited ↔ i ∈ t.exited)
    (hqueue : t'.queue = t.queue ∨ t.monitor.place (.worker i) ≠ .inside) :
    ∃ w', Reach (step A) Any w w' ∧ View i t' w' := by
  have hview' : ∀ queue, queue = t'.queue → View i t' { w with queue } := by
    intro queue hqueue'
    refine ⟨?_, hqueue', fun r hr => hview.idx r (hrunning ▸ hr), fun hgone => ?_⟩
    · show w.pc = _
      rw [hview.pc]
      unfold workerPc
      rcases huntouched with hplace | ⟨hwaiting, hwoken⟩
      · rw [hplace, hrunning]
        simp only [hexited]
      · rw [hwaiting, hwoken]
    · have hplace := hview.exited (hexited.mp hgone)
      rcases huntouched with hsame | ⟨hwaiting, -⟩
      · rw [hsame, hplace]
      · rw [hplace] at hwaiting
        cases hwaiting
  rcases hqueue with hqueue | hplace
  · exact ⟨w, .start, hview' w.queue (hview.queue.trans hqueue.symm)⟩
  · have hlocked : ¬ w.pc.locked := by
      rw [hview.pc]
      unfold workerPc
      cases hcase : t.monitor.place (.worker i) with
      | inside => exact absurd hcase hplace
      | outside => split_ifs <;> decide
      | waiting | woken | signalling => exact Bool.false_ne_true
    exact ⟨_, .next (a := .others t'.queue) .start trivial (if_neg hlocked), hview' _ rfl⟩

/-- Steps of the worker, one after the other. -/
theorem reach_next {w₁ w₂ : State} (h₁ : next A w = some w₁) (h₂ : Reach (step A) Any w₁ w₂) :
    Reach (step A) Any w w₂ := (Reach.next (a := .next) .start trivial h₁).trans h₂

/-- The worker takes the lock: at the start of an iteration, or on its way out of a wait. -/
theorem View.lock (hview : View i t w) (hlock : LockInv t) (hloop : LoopInv w)
    (hstep : Threads.step n t (.lock i) = some t') :
    ∃ w', Reach (step A) Any w w' ∧ View i t' w' := by
  obtain ⟨hexited, m, henter, rfl⟩ := step_lock hstep
  obtain ⟨-, hplace, rfl⟩ := Monitor.enter_eq henter
  have hrunning : t.running i = none := by
    refine running_eq_none hlock ?_
    rcases hplace with hplace | hplace <;> rw [hplace] <;> decide
  obtain ⟨hpc, hqueue, hidx, -⟩ := hview
  obtain ⟨pc, queue, idx, heap⟩ := w
  dsimp only at hpc
  have hview' : ∀ heap, View i
      { t with monitor := t.monitor.put (some (.worker i)) (.worker i) .inside }
      ⟨.whileTest, queue, idx, heap⟩ := by
    intro heap
    refine ⟨?_, hqueue, hidx, fun hgone => absurd hgone hexited⟩
    rw [workerPc_inside (Monitor.put_self ..), hrunning]
    rfl
  rcases hplace with hplace | hplace
  · rw [workerPc_outside hplace, if_neg hexited] at hpc
    subst hpc
    obtain ⟨heap', hsave, -⟩ := hloop.sound.save (A := A) (show 0 < maxSaveDepth by decide)
    have hnext : next A ⟨.save, queue, idx, heap⟩ = some ⟨.lock, queue, idx, heap'⟩ := by
      show some (State.goTo _ _ (heap.save A)) = _
      rw [hsave]
      rfl
    have hnext' : next A ⟨.lock, queue, idx, heap'⟩ = some ⟨.whileTest, queue, idx, heap'⟩ := rfl
    exact ⟨_, reach_next hnext (reach_next hnext' .start), hview' heap'⟩
  · rw [workerPc_woken hplace] at hpc
    subst hpc
    exact ⟨_, reach_next rfl .start, hview' heap⟩

/-- The worker waits, leaves the loop, or calls the callback. -/
theorem View.test (hview : View i t w) (hstep : Threads.step n t (.test i) = some t') :
    ∃ w', Reach (step A) Any w w' ∧ View i t' w' := by
  obtain ⟨hplace, hrunning, hcases⟩ := step_test hstep
  obtain ⟨hpc, hqueue, hidx, hgone⟩ := hview
  have hexited : i ∉ t.exited := by
    intro hmem
    rw [hgone hmem] at hplace
    cases hplace
  obtain ⟨pc, queue, idx, heap⟩ := w
  dsimp only at hpc hqueue
  subst hqueue
  rw [workerPc_inside hplace, hrunning] at hpc
  obtain rfl : pc = .whileTest := hpc
  rcases hcases with ⟨hzero, hup, m, hwait, rfl⟩ | ⟨hdown, m, hleave, rfl⟩ | ⟨hcount, hup, rfl⟩
  · obtain ⟨-, rfl⟩ := Monitor.wait_eq hwait
    have hwhile : next A ⟨.whileTest, t.queue, idx, heap⟩ = some ⟨.waiting, t.queue, idx, heap⟩ :=
      if_pos ⟨hzero, hup⟩
    exact ⟨_, reach_next hwhile .start, (workerPc_waiting (Monitor.put_self ..)).symm, rfl, hidx,
      fun hmem => absurd hmem hexited⟩
  · obtain ⟨-, -, rfl⟩ := Monitor.leave_eq hleave
    have hwhile : next A ⟨.whileTest, t.queue, idx, heap⟩ =
        some ⟨.shutdownTest, t.queue, idx, heap⟩ :=
      if_neg fun hempty => by rw [hdown] at hempty; cases hempty.2
    have hshutdown : next A ⟨.shutdownTest, t.queue, idx, heap⟩ =
        some ⟨.breaking, t.queue, idx, heap⟩ := if_pos hdown
    have hbreak : next A ⟨.breaking, t.queue, idx, heap⟩ = some ⟨.left, t.queue, idx, heap⟩ := rfl
    refine ⟨_, reach_next hwhile (reach_next hshutdown (reach_next hbreak .start)), ?_, rfl, hidx,
      fun _ => Monitor.put_self ..⟩
    rw [workerPc_outside (Monitor.put_self ..)]
    exact (if_pos List.mem_cons_self).symm
  · have hwhile : next A ⟨.whileTest, t.queue, idx, heap⟩ =
        some ⟨.shutdownTest, t.queue, idx, heap⟩ := if_neg fun hempty => hcount hempty.1
    have hshutdown : next A ⟨.shutdownTest, t.queue, idx, heap⟩ =
        some ⟨.countTest, t.queue, idx, heap⟩ := if_neg (by rw [hup]; decide)
    have hcounted : next A ⟨.countTest, t.queue, idx, heap⟩ = some ⟨.take, t.queue, idx, heap⟩ :=
      if_neg hcount
    have htake : next A ⟨.take, t.queue, idx, heap⟩ =
        some ⟨.callback, (workerTake t.queue).2, t.queue.head, heap⟩ := rfl
    have hself : ∀ r : Running, Function.update t.running i (some r) i = some r :=
      fun r => Function.update_self ..
    refine ⟨_, reach_next hwhile (reach_next hshutdown (reach_next hcounted
      (reach_next htake .start))), ?_, rfl, fun r hr => ?_, hgone⟩
    · refine ((workerPc_inside ?_).trans (if_pos ?_)).symm
      · exact hplace
      · exact congrArg Option.isSome (hself _)
    · obtain rfl := Option.some.inj ((hself _).symm.trans hr)
      rfl

/-- The callback returns, and the iteration ends. -/
theorem View.finish (hview : View i t w) (hloop : LoopInv w)
    (hstep : Threads.step n t (.finish i) = some t') :
    ∃ w', Reach (step A) Any w w' ∧ View i t' w' := by
  obtain ⟨r, m, hrun, hleave, rfl⟩ := step_finish hstep
  obtain ⟨hplace, -, rfl⟩ := Monitor.leave_eq hleave
  obtain ⟨hpc, hqueue, hidx, hgone⟩ := hview
  have hexited : i ∉ t.exited := by
    intro hmem
    rw [hgone hmem] at hplace
    cases hplace
  obtain ⟨pc, queue, idx, heap⟩ := w
  dsimp only at hpc hqueue
  subst hqueue
  obtain rfl : idx = r.idx := hidx r hrun
  rw [workerPc_inside hplace, hrun] at hpc
  obtain rfl : pc = .callback := hpc
  obtain ⟨heap', hrestore, -⟩ := hloop.sound.restore (A := A)
  have hreturn : next A ⟨.callback, t.queue, r.idx, heap⟩ =
      some ⟨.restore, workerFinish t.queue r.idx, r.idx, heap⟩ := rfl
  have hnext : next A ⟨.restore, workerFinish t.queue r.idx, r.idx, heap⟩ =
      some ⟨.save, workerFinish t.queue r.idx, r.idx, heap'⟩ := by
    show some (State.goTo _ _ (heap.restore A)) = _
    rw [hrestore]
    rfl
  have hself : Function.update t.running i none i = none := Function.update_self ..
  refine ⟨_, reach_next hreturn (reach_next hnext .start), ?_, rfl, fun r' hr' => ?_,
    fun hmem => absurd hmem hexited⟩
  · rw [workerPc_outside (Monitor.put_self ..)]
    exact (if_neg hexited).symm
  · cases hself.symm.trans hr'

/-- No other thread is inside with a worker. -/
theorem not_inside (hlock : LockInv t) {u : Thread} (hu : t.monitor.place u = .inside)
    (hne : .worker i ≠ u) : t.monitor.place (.worker i) ≠ .inside :=
  fun hinside => hne (hlock.exclusive.eq hinside hu)

/-- **A step of the pool** is some steps of the loop of each worker. -/
theorem view_step (hview : View i t w) (hlock : LockInv t) (hloop : LoopInv w)
    (hstep : Threads.step n t a = some t') : ∃ w', Reach (step A) Any w w' ∧ View i t' w' := by
  have hworker : ∀ {j}, j ≠ i → Thread.worker i ≠ .worker j :=
    fun hji heq => hji (Thread.worker.inj heq).symm
  cases a with
  | lock j =>
    by_cases hji : j = i
    · subst hji
      exact hview.lock hlock hloop hstep
    · obtain ⟨-, m, henter, rfl⟩ := step_lock hstep
      obtain ⟨-, -, rfl⟩ := Monitor.enter_eq henter
      exact hview.others (untouched_put (hworker hji) ..) rfl Iff.rfl (.inl rfl)
  | test j =>
    by_cases hji : j = i
    · subst hji
      exact hview.test hstep
    · obtain ⟨hplace, -, hcases⟩ := step_test hstep
      have hout := not_inside hlock hplace (hworker hji)
      rcases hcases with ⟨-, -, m, hwait, rfl⟩ | ⟨-, m, hleave, rfl⟩ | ⟨-, -, rfl⟩
      · obtain ⟨-, rfl⟩ := Monitor.wait_eq hwait
        exact hview.others (untouched_put (hworker hji) ..) rfl Iff.rfl (.inl rfl)
      · obtain ⟨-, -, rfl⟩ := Monitor.leave_eq hleave
        refine hview.others (untouched_put (hworker hji) ..) rfl ?_ (.inl rfl)
        rw [List.mem_cons, or_iff_right (Ne.symm hji)]
      · exact hview.others (.inl rfl) (Function.update_of_ne (Ne.symm hji) ..) Iff.rfl (.inr hout)
  | spurious j =>
    obtain ⟨m, hwake, rfl⟩ := step_spurious hstep
    obtain ⟨hplace, rfl⟩ := Monitor.wake_eq hwake
    refine hview.others ?_ rfl Iff.rfl (.inl rfl)
    by_cases hji : j = i
    · subst hji
      exact .inr ⟨hplace, Monitor.put_self ..⟩
    · exact untouched_put (hworker hji) ..
  | finish j =>
    by_cases hji : j = i
    · subst hji
      exact hview.finish hloop hstep
    · obtain ⟨r, m, -, hleave, rfl⟩ := step_finish hstep
      obtain ⟨hplace, -, rfl⟩ := Monitor.leave_eq hleave
      exact hview.others (untouched_put (hworker hji) ..) (Function.update_of_ne (Ne.symm hji) ..)
        Iff.rfl (.inr (not_inside hlock hplace (hworker hji)))
  | dispatch d type payload =>
    obtain ⟨m, henter, rfl⟩ := step_dispatch hstep
    obtain ⟨-, -, rfl⟩ := Monitor.enter_eq henter
    exact hview.others (untouched_put Thread.noConfusion ..) rfl Iff.rfl (.inl rfl)
  | store d allocated =>
    obtain ⟨_, _, queue, _, m, -, -, hleave, rfl⟩ := step_store hstep
    obtain ⟨hplace, -, rfl⟩ := Monitor.leave_eq hleave
    exact hview.others (untouched_put Thread.noConfusion ..) rfl Iff.rfl
      (.inr (not_inside hlock hplace Thread.noConfusion))
  | signal d target =>
    obtain ⟨m, hsignal, rfl⟩ := step_signal hstep
    obtain ⟨-, hcases⟩ := Monitor.signal_eq hsignal
    refine hview.others ?_ rfl Iff.rfl (.inl rfl)
    have hput : ∀ owner p, (t.monitor.put owner (.dispatcher d) p).place (.worker i) =
        t.monitor.place (.worker i) := fun owner p => Monitor.put_of_ne Thread.noConfusion ..
    rcases hcases with ⟨u, -, hwake⟩ | ⟨-, rfl⟩
    · obtain ⟨hplace, rfl⟩ := Monitor.wake_eq hwake
      by_cases hu : .worker i = u
      · subst hu
        rw [hput] at hplace
        exact .inr ⟨hplace, Monitor.put_self ..⟩
      · exact .inl ((Monitor.put_of_ne hu ..).trans (hput ..))
    · exact .inl (hput ..)
  | delete =>
    obtain ⟨-, m, henter, rfl⟩ := step_delete hstep
    obtain ⟨-, -, rfl⟩ := Monitor.enter_eq henter
    exact hview.others (untouched_put Thread.noConfusion ..) rfl Iff.rfl (.inl rfl)
  | flag =>
    obtain ⟨-, m, hleave, rfl⟩ := step_flag hstep
    obtain ⟨hplace, -, rfl⟩ := Monitor.leave_eq hleave
    exact hview.others (untouched_put Thread.noConfusion ..) rfl Iff.rfl
      (.inr (not_inside hlock hplace Thread.noConfusion))
  | broadcast =>
    obtain ⟨-, m, hbroadcast, rfl⟩ := step_broadcast hstep
    obtain ⟨-, -, -, hother⟩ := Monitor.broadcast_eq hbroadcast
    refine hview.others ?_ rfl Iff.rfl (.inl rfl)
    have hplace := hother (.worker i) Thread.noConfusion
    by_cases hwaiting : t.monitor.place (.worker i) = .waiting
    · rw [if_pos hwaiting] at hplace
      exact .inr ⟨hwaiting, hplace⟩
    · rw [if_neg hwaiting] at hplace
      exact .inl hplace
  | join =>
    obtain ⟨-, rfl⟩ := step_join hstep
    exact hview.others (.inl rfl) rfl Iff.rfl (.inl rfl)

/-- **Every worker of the pool runs this loop**, from the queue of `init_queue` on. -/
theorem loop_view {heap : Heap} (hsound : Sound heap 0) (i : Nat)
    (h : Reach (Threads.step n) Threads.Any Threads.start t) :
    ∃ w, Reach (step A) Any (start initQueue heap) w ∧ View i t w := by
  have hview : View i Threads.start (start initQueue heap) :=
    ⟨rfl, rfl, fun _ hr => (by cases hr), fun hgone => (by cases hgone)⟩
  have hall : LockInv t ∧ ∃ w, Reach (step A) Any (start initQueue heap) w ∧ View i t w := by
    refine h.invariant
      (fun t => LockInv t ∧ ∃ w, Reach (step A) Any (start initQueue heap) w ∧ View i t w)
      ⟨lockInv_start, _, .start, hview⟩ ?_
    rintro t a t' ⟨hlock, w, hreach, hview⟩ - hstep
    obtain ⟨w', hreach', hview'⟩ := view_step hview hlock (loop_reach hsound hreach) hstep
    exact ⟨lock_step hlock hstep, w', hreach.trans hreach', hview'⟩
  exact hall.2

/-! ## Balanced snapshots -/

/-- The block size of a worker's pool. -/
abbrev workerBlockSize : Nat := 1024

/-- **Snapshots are balanced**, in any pool `h` that has room for one more: `config_get` and
    `routes_parse` return at the depth they were entered with, and every iteration of a worker
    starts at the same one. They do return where `malloc` refuses nothing and the bytes behind
    the file end what is read there. -/
theorem snapshots_balanced (A : Allocator) :
    (∀ h : Heap, h.Reached A → h.depth < maxSaveDepth → ∀ m : Mapping,
      (∀ beyond sect key, Balanced A h.depth h (gotOf (configLines sect key none m.memoryLines))
        (A.Answers ∧ Padded m.behind) (configGetIn A beyond h m sect key)) ∧
      RefinesOr (¬ A.Answers) h.depth (routesParseMapped A h m)
        (m.memoryLines.foldlM routesLine []) ∧
      (A.Answers → Padded m.behind → (mappedRoutes m).length < 2 ^ 32 →
        ∃ s, routesParseMapped A h m = some s ∧ Table h.depth s (mappedRoutes m))) ∧
    ∀ p, cpoolInit A workerBlockSize = some p → ∀ queue bytes s,
      Reach (step A) Any (start queue ⟨Cpool.start p, bytes⟩) s →
        (s.pc = .save → s.heap.depth = 0) ∧ s.heap.depth ≤ maxSaveDepth ∧ s.pc ≠ .aborted := by
  refine ⟨fun h hreached hd m => ⟨fun beyond sect key => ?_, ?_, fun hA => ?_⟩, ?_⟩
  · exact configGetIn_balanced (sound_of_reached hreached) hd m
  · exact routesParseMapped_refines A hd (sound_of_reached hreached) m
  · exact routesParseMapped_some hA hd (sound_of_reached hreached)
  · intro p hinit queue bytes s hrun
    have hinv := loop_reach (sound_start (by decide) hinit bytes) hrun
    have hdepth : s.heap.depth = s.pc.depth := hinv.sound.depth
    refine ⟨fun hpc => ?_, ?_, hinv.aborted⟩
    · rw [hdepth, hpc]
      rfl
    · rw [hdepth]
      cases s.pc <;> decide

/-- A file with the key `root`, ... -/
def appFile : Mapping where
  file := ⟨ascii "[app]\nroot = www\n", by decide⟩
  behind := [NUL, NUL]
  size_lt := by decide

/-- ... and one with a route. -/
def aliasFile : Mapping where
  file := ⟨ascii "GET /a alias /b\n", by decide⟩
  behind := [NUL, NUL]
  size_lt := by decide

/-- A worker waits, takes an action that another thread has stored, and comes back to the start. -/
def oneAction : List Action :=
  [.next, .next, .next, .others (initQueue.enqueue 1 nullPayload), .next, .next, .next, .next, .next,
    .call (.configGet none appFile (ascii "app") (ascii "root")), .next, .next]

/-- `snapshots_balanced` for these. -/
theorem snapshots_balanced_bump : ∃ p, cpoolInit bump workerBlockSize = some p ∧
    (∃ h addr, configGetIn bump none ⟨Cpool.start p, fun _ => 0⟩ appFile (ascii "app")
      (ascii "root") = .ok (h, some addr) ∧ Holds 0 h addr (ascii "www")) ∧
    (∃ s, routesParseMapped bump ⟨Cpool.start p, fun _ => 0⟩ aliasFile = some s ∧
      s.2.length = 1 ∧ Table 0 s (mappedRoutes aliasFile)) ∧
    ∃ s, Reach (step bump) Any (start initQueue ⟨Cpool.start p, fun _ => 0⟩) s ∧ s.idx = 0 ∧
      s.queue.head = 1 ∧ s.pc = .save ∧ s.heap.depth = 0 := by
  obtain ⟨p, hinit, hrun⟩ := Option.bind_eq_some_iff.mp
    (show ((cpoolInit bump workerBlockSize).bind fun p =>
      (exec (guarded (step bump) Any) (start initQueue ⟨Cpool.start p, fun _ => 0⟩) oneAction).map
        fun s => (s.idx, s.queue.head, s.pc)) = some (0, 1, .save) by decide +kernel)
  obtain ⟨s, hreach, hstate⟩ := Reach.of_exec_map hrun
  obtain ⟨hidx, hrest⟩ := Prod.mk.inj hstate
  obtain ⟨hhead, hpc⟩ := Prod.mk.inj hrest
  obtain ⟨hcalls, hloop⟩ := snapshots_balanced bump
  have hreached : Heap.Reached bump ⟨Cpool.start p, fun _ => 0⟩ :=
    ⟨workerBlockSize, p, by decide, hinit, .start⟩
  have hdepth : Heap.depth ⟨Cpool.start p, fun _ => 0⟩ = 0 :=
    (sound_start (by decide) hinit fun _ => 0).depth
  have hcalls' := hcalls _ hreached (by rw [hdepth]; decide)
  rw [hdepth] at hcalls'
  have hgot : (gotOf (configLines (ascii "app") (ascii "root") none appFile.memoryLines)).returned =
      some (some (ascii "www")) := by decide +kernel
  refine ⟨p, hinit, ?_, ?_, s, hreach, hidx, hhead, hpc, ?_⟩
  · have hget := (hcalls' appFile).1 none (ascii "app") (ascii "root")
    cases hcase : gotOf (configLines (ascii "app") (ascii "root") none appFile.memoryLines) with
    | null =>
      rw [hcase] at hgot
      cases Option.some.inj hgot
    | outside =>
      rw [hcase] at hgot
      cases hgot
    | value v =>
      rw [hcase] at hget hgot
      obtain ⟨h, addr, hresult, -, hholds⟩ := hget.value answers_bump
      rw [show v.str = ascii "www" from Option.some.inj (Option.some.inj hgot)] at hholds
      exact ⟨h, addr, hresult, hholds⟩
  · have hparse := (hcalls' aliasFile).2.2 answers_bump
    have hlength : (mappedRoutes aliasFile).length = 1 := by decide +kernel
    obtain ⟨s, hs, htable⟩ := hparse (by decide) (by rw [hlength]; decide)
    exact ⟨s, hs, htable.stored.length_eq.trans hlength, htable⟩
  · exact (hloop p hinit _ _ s hreach).1 hpc

end Foxtails.Pool.WorkerLoop
