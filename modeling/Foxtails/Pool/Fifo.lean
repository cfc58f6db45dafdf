/-
  The worker queue is a FIFO.

  A run is any sequence of `dispatch_command` calls and dequeues from `init_queue` on, with
  the allocator free to fail; two ghost lists record what was stored and what was delivered.

  * `enqueue_spec`, `resize_spec`, `dequeue_spec`: each operation keeps `QueueInv` (the
    indices are in range, and the slots with `exists` set are the ring positions), and does to
    the sequence in the ring what the FIFO does.
  * `fifo_inv_step`: so one step keeps stored = delivered ++ still in the ring.
  * `queue_is_fifo`: what follows for every run.
-/
import Foxtails.Lib.Run
import Foxtails.Pool.Queue

namespace Foxtails.Pool

open Foxtails.Lib.Libc Foxtails.Lib Foxtails.Lib.Run

/-! ## The invariant of the ring -/

/-- The actions in the queue, in order. -/
def WorkerQueue.actions (q : WorkerQueue) : List WorkerAction :=
  Ring.contents .zero q.data q.head q.count

structure QueueInv (q : WorkerQueue) : Prop where
  length : q.data.length = q.capacity
  count_lt : q.count < q.capacity
  head_lt : q.head < q.capacity
  capacity_lt : q.capacity < UINT
  flags : ∀ j < q.capacity,
    (q.data.getD j .zero).exists_ = true ↔ ∃ i < q.count, j = Ring.pos q.capacity q.head i

theorem getD_set {data : List WorkerAction} {t j : Nat} {x : WorkerAction}
    (ht : t < data.length) :
    (data.set t x).getD j .zero = if j = t then x else data.getD j .zero := by
  rw [List.getD_eq_getElem?_getD, List.getD_eq_getElem?_getD, List.getElem?_set]
  by_cases h : t = j
  · subst h
    simp [ht]
  · rw [if_neg h, if_neg (Ne.symm h)]

theorem initQueue_inv : QueueInv initQueue where
  length := rfl
  count_lt := by decide
  head_lt := by decide
  capacity_lt := by decide
  flags := by
    intro j hj
    have : initQueue.data.getD j .zero = .zero := by
      unfold initQueue
      rw [List.getD_eq_getElem?_getD, List.getElem?_replicate]
      split_ifs <;> rfl
    rw [this]
    constructor
    · exact fun h => by cases h
    · rintro ⟨i, hi, -⟩
      exact absurd hi (Nat.not_lt_zero i)

/-- With room, the action goes behind the others. -/
theorem enqueue_spec {q : WorkerQueue} (h : QueueInv q) (hroom : q.count + 1 < q.capacity)
    (hwrap : q.head + q.count < UINT) (action : Int) (payload : Payload) :
    QueueInv (q.enqueue action payload) ∧
      ∃ a, (q.enqueue action payload).actions = q.actions ++ [a] ∧
        a.type = action ∧ payload.front <+: a.payload := by
  obtain ⟨hlen, hcount, hhead, hcap, hflags⟩ := h
  have htail : (q.head + q.count) % UINT % q.capacity = Ring.pos q.data.length q.head q.count := by
    rw [Nat.mod_eq_of_lt hwrap, hlen]
    rfl
  have hcount' : (q.count + 1) % UINT = q.count + 1 := Nat.mod_eq_of_lt (by omega)
  set slot := ({ q.data.getD ((q.head + q.count) % UINT % q.capacity) .zero with
    exists_ := true, lock := false, type := action } : WorkerAction).copyPayload payload with hslot
  have hq : q.enqueue action payload =
      { q with data := q.data.set (Ring.pos q.data.length q.head q.count) slot,
               count := q.count + 1 } := by
    unfold WorkerQueue.enqueue
    simp only [hcount', ← htail, hslot]
  have hpos : Ring.pos q.data.length q.head q.count < q.data.length :=
    Ring.pos_lt (by omega) _ _
  rw [hq]
  refine ⟨⟨?_, hroom, hhead, hcap, fun j hj => ?_⟩, slot, ?_, rfl, List.prefix_append _ _⟩
  · rw [List.length_set, hlen]
  · show ((q.data.set _ slot).getD j .zero).exists_ = true ↔ _
    rw [getD_set hpos, hlen]
    split_ifs with hjt
    · exact ⟨fun _ => ⟨q.count, Nat.lt_succ_self _, hjt⟩, fun _ => rfl⟩
    · rw [hflags j hj]
      constructor
      · rintro ⟨i, hi, hij⟩
        exact ⟨i, Nat.lt_succ_of_lt hi, hij⟩
      · rintro ⟨i, hi, hij⟩
        rcases Nat.lt_succ_iff_lt_or_eq.mp hi with hi | rfl
        · exact ⟨i, hi, hij⟩
        · exact absurd hij hjt
  · exact Ring.contents_push .zero q.data q.head q.count slot (by omega)

/-- A resize moves the ring to the start of a larger array and keeps what is in it. -/
theorem resize_spec {q : WorkerQueue} (h : QueueInv q) (hcap : q.capacity * 2 < UINT) :
    QueueInv q.resize ∧ q.resize.actions = q.actions ∧ q.resize.head = 0 ∧
      q.resize.count = q.count ∧ q.count + 1 < q.resize.capacity := by
  obtain ⟨hlen, hcount, hhead, -, hflags⟩ := h
  obtain ⟨hdata, hcapacity⟩ := resize_data hlen hcap (Nat.le_of_lt hcount) hhead
  have hcl : (Ring.contents WorkerAction.zero q.data q.head q.count).length = q.count :=
    Ring.contents_length _ _ _ _
  have hactions : q.resize.actions = q.actions := by
    show Ring.contents .zero q.resize.data 0 q.count = q.actions
    rw [hdata]
    have := Ring.contents_unroll WorkerAction.zero
      (Ring.contents .zero q.data q.head q.count)
      (List.replicate (q.capacity * 2 - q.count) .zero)
    rwa [hcl] at this
  refine ⟨⟨?_, ?_, ?_, ?_, fun j hj => ?_⟩, hactions, rfl, rfl, by omega⟩
  · rw [hdata, hcapacity, List.length_append, hcl, List.length_replicate]
    omega
  · show q.count < q.resize.capacity
    omega
  · show 0 < q.resize.capacity
    omega
  · omega
  · have hpos : ∀ i < q.count, Ring.pos q.resize.capacity q.resize.head i = i := by
      intro i hi
      show (0 + i) % q.resize.capacity = i
      rw [Nat.zero_add, Nat.mod_eq_of_lt (by omega)]
    have hright : (∃ i < q.resize.count, j = Ring.pos q.resize.capacity q.resize.head i) ↔
        j < q.count := by
      constructor
      · rintro ⟨i, hi, hij⟩
        have hi : i < q.count := hi
        rw [hpos i hi] at hij
        omega
      · exact fun hj => ⟨j, hj, (hpos j hj).symm⟩
    rw [hright, hdata]
    rcases Nat.lt_or_ge j q.count with hlt | hge
    · -- a copied action: it was in the ring, so its flag was set
      have hflag := (hflags (Ring.pos q.capacity q.head j) (Ring.pos_lt (by omega) _ _)).mpr
        ⟨j, hlt, rfl⟩
      rw [List.getD_append _ _ _ _ (by omega), List.getD_eq_getElem _ _ (by omega),
        Ring.getElem_contents, hlen]
      exact ⟨fun _ => hlt, fun _ => hflag⟩
    · have hzero : (Ring.contents WorkerAction.zero q.data q.head q.count ++
          List.replicate (q.capacity * 2 - q.count) WorkerAction.zero).getD j .zero = .zero := by
        rw [List.getD_append_right _ _ _ _ (by omega), List.getD_eq_getElem?_getD,
          List.getElem?_replicate]
        split_ifs <;> rfl
      rw [hzero]
      exact ⟨fun hf => (by cases hf), fun hlt => by omega⟩

/-- A dispatch stores the action, after a resize if the queue is full, or changes nothing. -/
theorem dispatch_cases {q : WorkerQueue} (h : QueueInv q) (hcap : q.capacity < 2 ^ 31)
    (allocated : Bool) (action : Int) (payload : Payload) :
    dispatchCommand allocated q action payload = (q, false) ∨
      ∃ q₁ : WorkerQueue,
        dispatchCommand allocated q action payload = (q₁.enqueue action payload, true) ∧
        QueueInv q₁ ∧ q₁.actions = q.actions ∧ q₁.count + 1 < q₁.capacity ∧
        q₁.head + q₁.count < UINT := by
  have huint : UINT = 4294967296 := rfl
  have hcount := h.count_lt
  have hhead := h.head_lt
  unfold dispatchCommand
  rw [Nat.mod_eq_of_lt (by omega : q.count + 1 < UINT)]
  by_cases hfull : q.count + 1 ≥ q.capacity
  · rw [if_pos hfull]
    cases allocated with
    | false => exact .inl rfl
    | true =>
      obtain ⟨hinv, hsame, hhead0, hcount', hroom⟩ := resize_spec h (by omega)
      exact .inr ⟨q.resize, rfl, hinv, hsame, by omega, by omega⟩
  · rw [if_neg hfull]
    exact .inr ⟨q, rfl, h, rfl, by omega, by omega⟩

/-- A dequeue delivers the first action and leaves the others. -/
theorem dequeue_spec {q q' : WorkerQueue} {x : Int × Bytes} (h : QueueInv q)
    (hdeq : workerDequeue q = some (x, q')) :
    QueueInv q' ∧ ∃ a, q.actions = a :: q'.actions ∧ x = (a.type, a.payload) := by
  obtain ⟨hlen, hcount, hhead, hcap, hflags⟩ := h
  unfold workerDequeue at hdeq
  split_ifs at hdeq with hnone
  simp only [Option.some.injEq, Prod.mk.injEq] at hdeq
  obtain ⟨rfl, rfl⟩ := hdeq
  have hpos : 0 < q.count := by
    rcases Nat.eq_zero_or_pos q.count with h0 | h0
    · exact absurd (.inr h0) hnone
    · exact h0
  have hhead' : (q.head + 1) % UINT % q.capacity = (q.head + 1) % q.capacity := by
    rw [Nat.mod_eq_of_lt (by omega : q.head + 1 < UINT)]
  have hhead0 : Ring.pos q.capacity q.head 0 = q.head := by
    unfold Ring.pos
    rw [Nat.add_zero, Nat.mod_eq_of_lt hhead]
  -- The freed position is none of those that stay.
  have hother : ∀ i < q.count - 1,
      Ring.pos q.capacity ((q.head + 1) % q.capacity) i ≠ q.head := by
    intro i hi heq
    rw [Ring.pos_succ] at heq
    have := Ring.pos_inj (i := i + 1) (j := 0) (by omega) (by omega) (heq.trans hhead0.symm)
    omega
  refine ⟨⟨?_, ?_, ?_, hcap, fun j hj => ?_⟩, q.data.getD q.head .zero, ?_, rfl⟩
  · rw [List.length_set, hlen]
  · show q.count - 1 < q.capacity
    omega
  · rw [hhead']
    exact Nat.mod_lt _ (by omega)
  · show ((q.data.set q.head _).getD j .zero).exists_ = true ↔ _
    rw [getD_set (by omega), hhead']
    split_ifs with hjh
    · refine ⟨fun hf => (by cases hf), ?_⟩
      rintro ⟨i, hi, hij⟩
      exact absurd (hij.symm.trans hjh) (hother i hi)
    · rw [hflags j hj]
      constructor
      · rintro ⟨i, hi, hij⟩
        cases i with
        | zero => exact absurd (hij.trans hhead0) hjh
        | succ i =>
          refine ⟨i, by show i < q.count - 1; omega, ?_⟩
          rw [hij]
          exact (Ring.pos_succ _ _ _).symm
      · rintro ⟨i, hi, hij⟩
        have hi : i < q.count - 1 := hi
        exact ⟨i + 1, by omega, hij.trans (Ring.pos_succ _ _ _)⟩
  · have hpop := Ring.contents_pop WorkerAction.zero q.data q.head (q.count - 1)
    rw [Nat.sub_add_cancel hpos, hlen, hhead0] at hpop
    show Ring.contents .zero q.data q.head q.count = _ :: Ring.contents .zero (q.data.set q.head _)
      ((q.head + 1) % UINT % q.capacity) (q.count - 1)
    rw [hpop, hhead', Ring.contents_set]
    intro i hi
    rw [hlen]
    exact hother i hi

/-! ## Runs -/

/-- The queue, what dispatches stored and what dequeues delivered. -/
structure State where
  queue : WorkerQueue
  dispatched : List (Int × Bytes)
  delivered : List (Int × Bytes)

inductive Op where
  | dispatch (allocated : Bool) (action : Int) (payload : Payload)
  | dequeue

def step (s : State) : Op → Option State
  | .dispatch allocated action payload =>
    let (queue, stored) := dispatchCommand allocated s.queue action payload
    some { s with
      queue := queue
      dispatched := if stored then s.dispatched ++ [(action, payload.front)] else s.dispatched }
  | .dequeue => (workerDequeue s.queue).map fun (x, queue) =>
    { s with queue := queue, delivered := s.delivered ++ [x] }

def start : State := { queue := initQueue, dispatched := [], delivered := [] }

/-- Dispatches are made while the capacity is below `2^31`. -/
def Bounded (s : State) : Op → Prop
  | .dispatch .. => s.queue.capacity < 2 ^ 31
  | .dequeue => True

instance (s : State) : DecidablePred (Bounded s)
  | .dispatch .. => inferInstanceAs (Decidable (s.queue.capacity < 2 ^ 31))
  | .dequeue => isTrue trivial

/-- The delivered type and payload are those dispatched: the same type, and the payload's
    first bytes. -/
def Delivers (d x : Int × Bytes) : Prop := x.1 = d.1 ∧ d.2 <+: x.2

/-- What was stored is what was delivered and what is in the ring. -/
structure FifoInv (s : State) : Prop where
  queue : QueueInv s.queue
  fifo : ∃ done pending, s.dispatched = done ++ pending ∧ List.Forall₂ Delivers done s.delivered ∧
    List.Forall₂ (fun d a => Delivers d (a.type, a.payload)) pending s.queue.actions

theorem fifoInv_enqueue {s : State} {q : WorkerQueue} (h : FifoInv s) (hq : QueueInv q)
    (hsame : q.actions = s.queue.actions) (hroom : q.count + 1 < q.capacity)
    (hwrap : q.head + q.count < UINT) (action : Int) (payload : Payload) :
    FifoInv { s with queue := q.enqueue action payload,
                     dispatched := s.dispatched ++ [(action, payload.front)] } := by
  obtain ⟨hinv, a, hactions, htype, hpayload⟩ := enqueue_spec hq hroom hwrap action payload
  obtain ⟨-, done, pending, hdisp, hdone, hpending⟩ := h
  refine ⟨hinv, done, pending ++ [(action, payload.front)], ?_, hdone, ?_⟩
  · rw [hdisp, List.append_assoc]
  · rw [hactions, hsame]
    exact List.rel_append hpending (.cons ⟨htype, hpayload⟩ .nil)

theorem fifo_inv_step {s s' : State} {op : Op} (h : FifoInv s) (hok : Bounded s op)
    (hstep : step s op = some s') : FifoInv s' := by
  cases op with
  | dispatch allocated action payload =>
    rcases dispatch_cases h.queue hok allocated action payload with
      heq | ⟨q₁, heq, hq₁, hsame, hroom, hwrap⟩
    · simp only [step, heq] at hstep
      obtain rfl := Option.some.inj hstep
      exact h
    · simp only [step, heq] at hstep
      obtain rfl := Option.some.inj hstep
      exact fifoInv_enqueue h hq₁ hsame hroom hwrap action payload
  | dequeue =>
    obtain ⟨⟨x, q⟩, hdeq, rfl⟩ := Option.map_eq_some_iff.mp hstep
    obtain ⟨hinv, a, hactions, rfl⟩ := dequeue_spec h.queue hdeq
    obtain ⟨-, done, pending, hdisp, hdone, hpending⟩ := h
    rw [hactions, List.forall₂_cons_right_iff] at hpending
    obtain ⟨d, pending', hd, hrest, rfl⟩ := hpending
    refine ⟨hinv, done ++ [d], pending', ?_, List.rel_append hdone (.cons hd .nil), hrest⟩
    rw [hdisp, List.append_assoc]
    rfl

theorem fifo_inv_start : FifoInv start :=
  ⟨initQueue_inv, [], [], rfl, .nil, .nil⟩

/-- **The queue is a FIFO**: in every state of every run, the delivered actions are a prefix
    of the stored ones, in order, and the others are still in the queue; the indices are in
    range; the slots with `exists` set are the ring positions from `head` on; and a dispatch
    whose resize allocation fails changes nothing. -/
theorem queue_is_fifo (s : State) (h : Reach step Bounded start s) :
    (∃ done, done <+: s.dispatched ∧ List.Forall₂ Delivers done s.delivered) ∧
    s.dispatched.length = s.delivered.length + s.queue.count ∧
    s.queue.count < s.queue.capacity ∧ s.queue.head < s.queue.capacity ∧
    (∀ j < s.queue.capacity, (s.queue.data.getD j .zero).exists_ = true ↔
      ∃ i < s.queue.count, j = (s.queue.head + i) % s.queue.capacity) ∧
    ∀ action payload, s.queue.count + 1 ≥ s.queue.capacity →
      dispatchCommand false s.queue action payload = (s.queue, false) := by
  have hinv := h.invariant FifoInv fifo_inv_start fun _ _ _ hi hok hs => fifo_inv_step hi hok hs
  obtain ⟨done, pending, hdisp, hdone, hpending⟩ := hinv.fifo
  refine ⟨⟨done, ⟨pending, hdisp.symm⟩, hdone⟩, ?_, hinv.queue.count_lt, hinv.queue.head_lt,
    hinv.queue.flags, fun action payload hfull => ?_⟩
  · have hlen := hpending.length_eq
    unfold WorkerQueue.actions at hlen
    rw [Ring.contents_length] at hlen
    rw [hdisp, List.length_append, hdone.length_eq, hlen]
  · have := hinv.queue.count_lt
    have := hinv.queue.capacity_lt
    unfold dispatchCommand
    rw [Nat.mod_eq_of_lt (by omega : s.queue.count + 1 < UINT), if_pos hfull]
    rfl

/-- A payload of one byte. -/
def oneByte (b : Byte) : Payload :=
  ⟨some [b], fun _ h => by obtain rfl := Option.some.inj h; simp [payloadSize]⟩

/-- Five actions, three of them taken; then five more, which wrap around; one for which no larger
    array is given, and one for which it is; and two more are taken. -/
def wrapAndGrow : List Op :=
  [.dispatch true 1 (oneByte 1), .dispatch true 2 (oneByte 2), .dispatch true 3 (oneByte 3),
   .dispatch true 4 (oneByte 4), .dispatch true 5 (oneByte 5), .dequeue, .dequeue, .dequeue,
   .dispatch true 6 (oneByte 6), .dispatch true 7 (oneByte 7), .dispatch true 8 (oneByte 8),
   .dispatch true 9 (oneByte 9), .dispatch true 10 (oneByte 10), .dispatch false 11 (oneByte 11),
   .dispatch true 12 (oneByte 12), .dequeue, .dequeue]

/-- `queue_is_fifo` for that run: six actions are in an array of sixteen slots. -/
theorem queue_is_fifo_grown :
    ∃ s : State, s.queue.capacity = 16 ∧ s.queue.head = 2 ∧ s.queue.count = 6 ∧
      s.dispatched.map Prod.fst = [1, 2, 3, 4, 5, 6, 7, 8, 9, 10, 12] ∧
      s.delivered.map Prod.fst = [1, 2, 3, 4, 5] ∧
      (∃ done, done <+: s.dispatched ∧ List.Forall₂ Delivers done s.delivered) ∧
      ∀ j < 16, (s.queue.data.getD j .zero).exists_ = true ↔ ∃ i < 6, j = (2 + i) % 16 := by
  obtain ⟨s, hs, hstate⟩ := Reach.of_exec_map
    (show (exec (guarded step Bounded) start wrapAndGrow).map
      (fun s => ((s.queue.capacity, s.queue.head, s.queue.count), s.dispatched.map Prod.fst,
        s.delivered.map Prod.fst)) =
      some ((16, 2, 6), [1, 2, 3, 4, 5, 6, 7, 8, 9, 10, 12], [1, 2, 3, 4, 5]) by decide +kernel)
  simp only [Prod.mk.injEq] at hstate
  obtain ⟨⟨hcapacity, hhead, hcount⟩, hdispatched, hdelivered⟩ := hstate
  obtain ⟨hfifo, -, -, -, hflags, -⟩ := queue_is_fifo s hs
  rw [hcapacity, hhead, hcount] at hflags
  exact ⟨s, hcapacity, hhead, hcount, hdispatched, hdelivered, hfifo, hflags⟩

end Foxtails.Pool
