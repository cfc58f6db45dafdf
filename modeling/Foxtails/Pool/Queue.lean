/-
  The worker queue of `utils/workers.c`: `init_queue`, `dispatch_command` and the part of
  `worker_loop` that takes an action.

  Each is one section under the queue's lock. The callback runs inside the worker's section,
  so taking an action, running it and clearing `lock` is one step of the queue. `unsigned int`
  arithmetic is modulo `2^32`; the allocator's answer is an argument.

  * `resize_data`: the copying loop unrolls the ring to the start of the new array.
-/
import Foxtails.Lib.Libc
import Foxtails.Lib.Ring

namespace Foxtails.Pool

open Foxtails.Lib.Libc Foxtails.Lib

/-- One more than the largest `unsigned int`. -/
abbrev UINT : Nat := 2 ^ 32

/-- `WORKER_ACTION_PAYLOAD_SIZE`. -/
def payloadSize : Nat := 128

/-- `worker_action_t`. -/
structure WorkerAction where
  lock : Bool
  exists_ : Bool
  type : Int
  payload : Bytes
  payload_length : payload.length = payloadSize
  deriving DecidableEq

/-- A zeroed slot. -/
def WorkerAction.zero : WorkerAction :=
  ⟨false, false, 0, List.replicate payloadSize 0, List.length_replicate⟩

/-- What `dispatch_command` is given: a pointer to at most `payloadSize` bytes, or NULL. -/
structure Payload where
  bytes : Option Bytes
  size_le : ∀ b, bytes = some b → b.length ≤ payloadSize
  deriving DecidableEq

/-- The bytes at the pointer. -/
def Payload.front (p : Payload) : Bytes := p.bytes.getD []

theorem Payload.front_length (p : Payload) : p.front.length ≤ payloadSize := by
  unfold Payload.front
  cases h : p.bytes with
  | none => exact Nat.zero_le _
  | some b => exact p.size_le b h

/-- `struct worker_queue`, without the mutex and the condition variable. -/
structure WorkerQueue where
  data : List WorkerAction
  head : Nat
  count : Nat
  capacity : Nat
  shuttingDown : Bool
  deriving DecidableEq

/-- `init_queue`. -/
def initQueue : WorkerQueue :=
  { data := List.replicate 8 .zero, head := 0, count := 0, capacity := 8, shuttingDown := false }

/-- `memcpy` of the payload over what the slot holds. -/
def WorkerAction.copyPayload (slot : WorkerAction) (p : Payload) : WorkerAction :=
  { slot with
    payload := p.front ++ slot.payload.drop p.front.length
    payload_length := by
      have := p.front_length
      rw [List.length_append, List.length_drop, slot.payload_length]
      omega }

/-- The resize of `dispatch_command`: the loop copies the actions in order into zeroed slots. -/
def WorkerQueue.resize (q : WorkerQueue) : WorkerQueue :=
  let newCapacity := q.capacity * 2 % UINT
  let newData := (List.range q.count).foldl
    (fun data i => data.set i (q.data.getD ((q.head + i) % UINT % q.capacity) .zero))
    (List.replicate newCapacity .zero)
  { q with data := newData, head := 0, capacity := newCapacity }

/-- The end of `dispatch_command`, with room in the queue. -/
def WorkerQueue.enqueue (q : WorkerQueue) (action : Int) (payload : Payload) : WorkerQueue :=
  let tail := (q.head + q.count) % UINT % q.capacity
  let slot := { q.data.getD tail .zero with exists_ := true, lock := false, type := action }
  { q with data := q.data.set tail (slot.copyPayload payload), count := (q.count + 1) % UINT }

/-- `dispatch_command`, and whether the action was stored. `allocated` is whether the
    allocation of a resize succeeds. -/
def dispatchCommand (allocated : Bool) (q : WorkerQueue) (action : Int) (payload : Payload) :
    WorkerQueue × Bool :=
  if (q.count + 1) % UINT ≥ q.capacity then
    if allocated then (q.resize.enqueue action payload, true) else (q, false)
  else (q.enqueue action payload, true)

/-- The section of `worker_loop` that takes an action: the type and payload given to
    `worker_callback`, and the queue afterwards. `none` while there is nothing to take. -/
def workerDequeue (q : WorkerQueue) : Option ((Int × Bytes) × WorkerQueue) :=
  if q.shuttingDown ∨ q.count = 0 then none
  else
    let idx := q.head
    let slot := { q.data.getD idx .zero with lock := true, exists_ := false }
    some ((slot.type, slot.payload),
      { q with
        data := q.data.set idx { slot with lock := false }
        head := (q.head + 1) % UINT % q.capacity
        count := q.count - 1 })

/-! ## The copying loop -/

theorem foldl_set_range (f : Nat → WorkerAction) (n m : Nat) (h : n ≤ m) :
    (List.range n).foldl (fun data i => data.set i (f i))
        (List.replicate m WorkerAction.zero) =
      (List.range n).map f ++ List.replicate (m - n) WorkerAction.zero := by
  induction n with
  | zero => simp
  | succ n ih =>
    rw [List.range_succ, List.foldl_append, ih (by omega), List.map_append, List.append_assoc]
    have hrep : List.replicate (m - n) WorkerAction.zero =
        .zero :: List.replicate (m - (n + 1)) .zero := by
      rw [← List.replicate_succ]
      congr 1
      omega
    rw [hrep]
    simp only [List.foldl_cons, List.foldl_nil, List.map_cons, List.map_nil]
    rw [List.set_append_right _ _ (by simp)]
    simp

/-- The new array is the sequence of actions and zeroed slots. -/
theorem resize_data {q : WorkerQueue} (hlen : q.data.length = q.capacity)
    (hcap : q.capacity * 2 < UINT) (hcount : q.count ≤ q.capacity) (hhead : q.head < q.capacity) :
    q.resize.data = Ring.contents .zero q.data q.head q.count ++
        List.replicate (q.capacity * 2 - q.count) .zero ∧
      q.resize.capacity = q.capacity * 2 := by
  have hnew : q.capacity * 2 % UINT = q.capacity * 2 := Nat.mod_eq_of_lt hcap
  refine ⟨?_, hnew⟩
  show (List.range q.count).foldl _ (List.replicate (q.capacity * 2 % UINT) WorkerAction.zero) = _
  rw [hnew, foldl_set_range _ _ _ (by omega)]
  congr 1
  unfold Ring.contents Ring.pos
  refine List.map_congr_left fun i hi => ?_
  have := List.mem_range.mp hi
  rw [Nat.mod_eq_of_lt (by omega : q.head + i < UINT), hlen]

end Foxtails.Pool
