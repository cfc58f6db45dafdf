/-
  The threads of the worker pool: `worker_loop`, `dispatch_command`, `worker_pool_delete`.

  Model (read this before the theorems). Any number of threads call `dispatch_command`, `n`
  workers run `worker_loop`, and one thread calls `worker_pool_delete`. A step ends where a
  thread takes or releases `queue->lock`, signals `not_empty`, or enters or leaves
  `worker_callback`; `Lib.Sync` says what the mutex and the condition allow.

  * A worker's step `test` is the `while` test and what follows it up to the next wait or the
    call of the callback. The callback is called, and returns, with the lock held.
  * The payload pointer of a callback is an array and an index: `array` counts how often a
    resize has replaced `queue->data`.

  * `workerDequeue_eq`: taking an action and finishing it is the one step of `Pool.Queue`.
  * `step_lock`, `step_test`, …: what each action can do. Everything later uses these.
-/
import Foxtails.Lib.Run
import Foxtails.Lib.Sync
import Foxtails.Pool.Queue

namespace Foxtails.Pool.Threads

open Foxtails.Lib.Libc Foxtails.Lib.Run Foxtails.Lib.Sync

/-! ## Taking an action and finishing it -/

/-- The part of `worker_loop` before the callback: the action at `head` is taken. -/
def workerTake (q : WorkerQueue) : (Int × Bytes) × WorkerQueue :=
  let idx := q.head
  let slot := { q.data.getD idx .zero with lock := true, exists_ := false }
  ((slot.type, slot.payload),
    { q with data := q.data.set idx slot, head := (q.head + 1) % UINT % q.capacity,
             count := q.count - 1 })

/-- The part behind it: `queue->data[idx].lock = false`. -/
def workerFinish (q : WorkerQueue) (idx : Nat) : WorkerQueue :=
  { q with data := q.data.set idx { q.data.getD idx .zero with lock := false } }

/-- With nothing in between the two are one step. -/
theorem workerDequeue_eq (q : WorkerQueue) (hhead : q.head < q.data.length) :
    workerDequeue q =
      if q.shuttingDown ∨ q.count = 0 then none
      else some ((workerTake q).1, workerFinish (workerTake q).2 q.head) := by
  unfold workerDequeue workerFinish workerTake
  simp [List.getD_eq_getElem?_getD, hhead]

/-- A taken action is still in its slot. -/
theorem workerTake_slot (q : WorkerQueue) :
    (((workerTake q).2.data.getD q.head .zero).type,
      ((workerTake q).2.data.getD q.head .zero).payload) = (workerTake q).1 := by
  unfold workerTake
  by_cases hhead : q.head < q.data.length
  · simp [List.getD_eq_getElem?_getD, hhead]
  · simp [List.getD_eq_getElem?_getD, hhead]

/-! ## Threads -/

inductive Thread where
  | worker (i : Nat)
  | dispatcher (d : Nat)
  | deleter
  deriving DecidableEq

/-- What `worker_callback` was called with: the slot its pointer points into, and the action
    that was in the slot. -/
structure Running where
  array : Nat
  idx : Nat
  type : Int
  payload : Bytes

/-- Where `worker_pool_delete` is. -/
inductive DeletePc where
  | before
  | locked
  /-- The flag is set and the lock released; the broadcast is to come. -/
  | flagged
  | joining
  | joined
  deriving DecidableEq

structure State where
  monitor : Monitor Thread
  queue : WorkerQueue
  array : Nat
  running : Nat → Option Running
  exited : List Nat
  /-- The arguments of the calls of `dispatch_command` that hold the lock. -/
  calls : Nat → Option (Int × Payload)
  delete : DeletePc

inductive Action where
  | lock (i : Nat)
  | test (i : Nat)
  /-- A spurious wake-up. -/
  | spurious (i : Nat)
  | finish (i : Nat)
  | dispatch (d : Nat) (type : Int) (payload : Payload)
  | store (d : Nat) (allocated : Bool)
  | signal (d : Nat) (target : Option Nat)
  | delete
  | flag
  | broadcast
  | join
  deriving DecidableEq

/-- The state after `worker_pool_init`. -/
def start : State :=
  { monitor := .init Thread, queue := initQueue, array := 0, running := fun _ => none,
    exited := [], calls := fun _ => none, delete := .before }

/-- The threads that may wait on `not_empty`. -/
def crew (n : Nat) : List Thread := (List.range n).map .worker

/-- `dispatch_command` replaces `queue->data`. -/
def resizes (allocated : Bool) (q : WorkerQueue) : Bool :=
  decide ((q.count + 1) % UINT ≥ q.capacity) && allocated

def step (n : Nat) (s : State) : Action → Option State
  | .lock i =>
    if i < n ∧ i ∉ s.exited then
      (s.monitor.enter (.worker i)).map fun m => { s with monitor := m }
    else none
  | .test i =>
    if s.monitor.place (.worker i) = .inside ∧ s.running i = none then
      if s.queue.count = 0 ∧ s.queue.shuttingDown = false then
        (s.monitor.wait (.worker i)).map fun m => { s with monitor := m }
      else if s.queue.shuttingDown then
        (s.monitor.leave (.worker i) .outside).map fun m =>
          { s with monitor := m, exited := i :: s.exited }
      else
        let (action, queue) := workerTake s.queue
        some { s with
          queue := queue
          running := Function.update s.running i
            (some { array := s.array, idx := s.queue.head, type := action.1,
                    payload := action.2 }) }
    else none
  | .spurious i => (s.monitor.wake (.worker i)).map fun m => { s with monitor := m }
  | .finish i =>
    match s.running i with
    | some r =>
      (s.monitor.leave (.worker i) .outside).map fun m =>
        { s with monitor := m, queue := workerFinish s.queue r.idx
                 running := Function.update s.running i none }
    | none => none
  | .dispatch d type payload =>
    (s.monitor.enter (.dispatcher d)).map fun m =>
      { s with monitor := m, calls := Function.update s.calls d (some (type, payload)) }
  | .store d allocated =>
    match s.calls d with
    | some (type, payload) =>
      let (queue, stored) := dispatchCommand allocated s.queue type payload
      (s.monitor.leave (.dispatcher d) (if stored then .signalling else .outside)).map fun m =>
        { s with monitor := m, queue := queue
                 array := if resizes allocated s.queue then s.array + 1 else s.array
                 calls := Function.update s.calls d none }
    | none => none
  | .signal d target =>
    (s.monitor.signal (crew n) (.dispatcher d) (target.map .worker)).map fun m =>
      { s with monitor := m }
  | .delete =>
    if s.delete = .before then
      (s.monitor.enter .deleter).map fun m => { s with monitor := m, delete := .locked }
    else none
  | .flag =>
    if s.delete = .locked then
      (s.monitor.leave .deleter .signalling).map fun m =>
        { s with monitor := m, queue := { s.queue with shuttingDown := true }
                 delete := .flagged }
    else none
  | .broadcast =>
    if s.delete = .flagged then
      (s.monitor.broadcast .deleter).map fun m => { s with monitor := m, delete := .joining }
    else none
  | .join =>
    if s.delete = .joining ∧ ∀ i < n, i ∈ s.exited then some { s with delete := .joined }
    else none

theorem null_size (b : Bytes) (h : none = some b) : b.length ≤ payloadSize := by cases h

/-- `dispatch_command` is given a null pointer. -/
def nullPayload : Payload := ⟨none, null_size⟩

/-- Any interleaving. -/
def Any (_ : State) (_ : Action) : Prop := True

instance (s : State) (a : Action) : Decidable (Any s a) := isTrue trivial

/-! ## What each action does -/

variable {n : Nat} {s s' : State}

theorem step_lock {i : Nat} (h : step n s (.lock i) = some s') :
    i ∉ s.exited ∧ ∃ m, s.monitor.enter (.worker i) = some m ∧ s' = { s with monitor := m } := by
  unfold step at h
  dsimp only at h
  split_ifs at h with hcan
  obtain ⟨m, hm, rfl⟩ := Option.map_eq_some_iff.mp h
  exact ⟨hcan.2, m, hm, rfl⟩

/-- The worker waits, exits, or takes an action. -/
theorem step_test {i : Nat} (h : step n s (.test i) = some s') :
    s.monitor.place (.worker i) = .inside ∧ s.running i = none ∧
      ((s.queue.count = 0 ∧ s.queue.shuttingDown = false ∧
          ∃ m, s.monitor.wait (.worker i) = some m ∧ s' = { s with monitor := m }) ∨
       (s.queue.shuttingDown = true ∧
          ∃ m, s.monitor.leave (.worker i) .outside = some m ∧
            s' = { s with monitor := m, exited := i :: s.exited }) ∨
       (s.queue.count ≠ 0 ∧ s.queue.shuttingDown = false ∧
          s' = { s with
            queue := (workerTake s.queue).2
            running := Function.update s.running i
              (some { array := s.array, idx := s.queue.head, type := (workerTake s.queue).1.1,
                      payload := (workerTake s.queue).1.2 }) })) := by
  unfold step at h
  dsimp only at h
  split_ifs at h with hcan hempty hdown
  · obtain ⟨m, hm, rfl⟩ := Option.map_eq_some_iff.mp h
    exact ⟨hcan.1, hcan.2, .inl ⟨hempty.1, hempty.2, m, hm, rfl⟩⟩
  · obtain ⟨m, hm, rfl⟩ := Option.map_eq_some_iff.mp h
    exact ⟨hcan.1, hcan.2, .inr (.inl ⟨hdown, m, hm, rfl⟩)⟩
  · rw [Bool.not_eq_true] at hdown
    exact ⟨hcan.1, hcan.2, .inr (.inr ⟨fun hzero => hempty ⟨hzero, hdown⟩, hdown,
      (Option.some.inj h).symm⟩)⟩

theorem step_spurious {i : Nat} (h : step n s (.spurious i) = some s') :
    ∃ m, s.monitor.wake (.worker i) = some m ∧ s' = { s with monitor := m } := by
  unfold step at h
  obtain ⟨m, hm, rfl⟩ := Option.map_eq_some_iff.mp h
  exact ⟨m, hm, rfl⟩

theorem step_finish {i : Nat} (h : step n s (.finish i) = some s') :
    ∃ r m, s.running i = some r ∧ s.monitor.leave (.worker i) .outside = some m ∧
      s' = { s with monitor := m, queue := workerFinish s.queue r.idx
                    running := Function.update s.running i none } := by
  unfold step at h
  dsimp only at h
  split at h
  · obtain ⟨m, hm, rfl⟩ := Option.map_eq_some_iff.mp h
    exact ⟨_, m, ‹_›, hm, rfl⟩
  · cases h

theorem step_dispatch {d : Nat} {type : Int} {payload : Payload}
    (h : step n s (.dispatch d type payload) = some s') :
    ∃ m, s.monitor.enter (.dispatcher d) = some m ∧
      s' = { s with monitor := m, calls := Function.update s.calls d (some (type, payload)) } := by
  unfold step at h
  obtain ⟨m, hm, rfl⟩ := Option.map_eq_some_iff.mp h
  exact ⟨m, hm, rfl⟩

theorem step_store {d : Nat} {allocated : Bool} (h : step n s (.store d allocated) = some s') :
    ∃ type payload queue stored m, s.calls d = some (type, payload) ∧
      dispatchCommand allocated s.queue type payload = (queue, stored) ∧
      s.monitor.leave (.dispatcher d) (if stored then .signalling else .outside) = some m ∧
      s' = { s with monitor := m, queue := queue
                    array := if resizes allocated s.queue then s.array + 1 else s.array
                    calls := Function.update s.calls d none } := by
  unfold step at h
  dsimp only at h
  split at h
  · obtain ⟨m, hm, rfl⟩ := Option.map_eq_some_iff.mp h
    exact ⟨_, _, _, _, m, ‹_›, rfl, hm, rfl⟩
  · cases h

theorem step_signal {d : Nat} {target : Option Nat} (h : step n s (.signal d target) = some s') :
    ∃ m, s.monitor.signal (crew n) (.dispatcher d) (target.map .worker) = some m ∧
      s' = { s with monitor := m } := by
  unfold step at h
  obtain ⟨m, hm, rfl⟩ := Option.map_eq_some_iff.mp h
  exact ⟨m, hm, rfl⟩

theorem step_delete (h : step n s .delete = some s') :
    s.delete = .before ∧ ∃ m, s.monitor.enter .deleter = some m ∧
      s' = { s with monitor := m, delete := .locked } := by
  unfold step at h
  dsimp only at h
  split_ifs at h with hpc
  obtain ⟨m, hm, rfl⟩ := Option.map_eq_some_iff.mp h
  exact ⟨hpc, m, hm, rfl⟩

theorem step_flag (h : step n s .flag = some s') :
    s.delete = .locked ∧ ∃ m, s.monitor.leave .deleter .signalling = some m ∧
      s' = { s with monitor := m, queue := { s.queue with shuttingDown := true }
                    delete := .flagged } := by
  unfold step at h
  dsimp only at h
  split_ifs at h with hpc
  obtain ⟨m, hm, rfl⟩ := Option.map_eq_some_iff.mp h
  exact ⟨hpc, m, hm, rfl⟩

theorem step_broadcast (h : step n s .broadcast = some s') :
    s.delete = .flagged ∧ ∃ m, s.monitor.broadcast .deleter = some m ∧
      s' = { s with monitor := m, delete := .joining } := by
  unfold step at h
  dsimp only at h
  split_ifs at h with hpc
  obtain ⟨m, hm, rfl⟩ := Option.map_eq_some_iff.mp h
  exact ⟨hpc, m, hm, rfl⟩

theorem step_join (h : step n s .join = some s') :
    s.delete = .joining ∧ s' = { s with delete := .joined } := by
  unfold step at h
  dsimp only at h
  split_ifs at h with hpc
  exact ⟨hpc.1, (Option.some.inj h).symm⟩

/-! ## What the queue's flag and the array depend on -/

theorem dispatchCommand_shuttingDown {allocated stored : Bool} {q q' : WorkerQueue} {type : Int}
    {payload : Payload} (h : dispatchCommand allocated q type payload = (q', stored)) :
    q'.shuttingDown = q.shuttingDown := by
  unfold dispatchCommand at h
  split_ifs at h <;> obtain ⟨rfl, rfl⟩ := Prod.mk.inj h <;> rfl

/-- A dispatch that stores nothing changes nothing. -/
theorem dispatchCommand_refused {allocated : Bool} {q q' : WorkerQueue} {type : Int}
    {payload : Payload} (h : dispatchCommand allocated q type payload = (q', false)) : q' = q := by
  unfold dispatchCommand at h
  split_ifs at h
  · cases (Prod.mk.inj h).2
  · exact (Prod.mk.inj h).1.symm
  · cases (Prod.mk.inj h).2

end Foxtails.Pool.Threads
