/-
  The server with its queue as the ring it is.

  Model (read this before the theorems). `Step` keeps the queue as a list and lets the allocator
  refuse any dispatch. Here the queue is the `struct worker_queue` of `Pool.Queue` beside it: a
  dispatch is `dispatch_command` on the ring, whose allocation of a resize succeeds or not; a
  worker takes what `worker_loop` takes from the ring. `copy` is the `client_t` as bytes.
  `slots` counts the slots of all arrays allocated for the queue; `cpool` frees none of them.

  * `dispatch_grows`: `dispatch_command` for every capacity an `unsigned int` can hold.
  * `ringInv_step`: one action for each live slot is all the ring ever has to hold.
  * `server_ring`: over every run the ring holds the list, is never larger than it must be, and
    no `unsigned int` in it wraps, for every `max_connections`.
-/
import Foxtails.Pool.Fifo
import Foxtails.Server.Account

namespace Foxtails.Server

open Foxtails.Lib.Libc Foxtails.Lib.Run
open Foxtails.Pool (WorkerQueue WorkerAction Payload QueueInv dispatchCommand workerDequeue
  initQueue initQueue_inv enqueue_spec resize_spec resize_data dequeue_spec UINT oneByte)

/-- `WORKER_ACTION_NEW_CLIENT`. -/
def newClient : Int := 1

structure RingState where
  server : State
  ring : WorkerQueue
  slots : Nat

namespace RingState

def start (cfg : Config) : RingState :=
  { server := Server.start cfg, ring := initQueue, slots := 8 }

def step (cfg : Config) (copy : Client → Payload) (r : RingState) (a : Action) : Option RingState :=
  match a with
  | .dispatch allocated =>
    match r.server.main with
    | .dispatch i _ =>
      let (ring, stored) :=
        dispatchCommand allocated r.ring newClient (copy (r.server.table.clients i))
      (Server.step cfg r.server (.dispatch stored)).map fun server =>
        { server := server, ring := ring,
          slots := if ring.capacity = r.ring.capacity then r.slots else r.slots + ring.capacity }
    | _ => none
  | .take worker =>
    match workerDequeue r.ring with
    | some (_, ring) =>
      (Server.step cfg r.server (.take worker)).map fun server => { r with server := server, ring := ring }
    | none => none
  | a => (Server.step cfg r.server a).map fun server => { r with server := server }

def SweepsUnused (cfg : Config) (r : RingState) : Action → Prop := Server.SweepsUnused cfg r.server

end RingState

instance RingState.decidableSweepsUnused (cfg : Config) (r : RingState) :
    DecidablePred (RingState.SweepsUnused cfg r) := fun a =>
  inferInstanceAs (Decidable (Server.SweepsUnused cfg r.server a))

/-! ## The ring -/

/-- A dispatch stores the action, in the ring or in one of twice its size, or changes nothing. -/
theorem dispatch_grows {q : WorkerQueue} (h : QueueInv q) (hcap : q.capacity ≤ 2 ^ 31)
    (hfull : q.capacity ≤ q.count + 1 → q.capacity < 2 ^ 31) (allocated : Bool) (action : Int)
    (payload : Payload) :
    dispatchCommand allocated q action payload = (q, false) ∨
      ∃ q₁ : WorkerQueue,
        dispatchCommand allocated q action payload = (q₁.enqueue action payload, true) ∧
        QueueInv q₁ ∧ q₁.actions = q.actions ∧ q₁.count + 1 < q₁.capacity ∧
        q₁.head + q₁.count < UINT ∧ q₁.shuttingDown = q.shuttingDown ∧
        (q₁.capacity = q.capacity ∨
          q.capacity ≤ q.count + 1 ∧ q₁.capacity = q.capacity * 2) := by
  have huint : UINT = 4294967296 := rfl
  have hcount := h.count_lt
  have hhead := h.head_lt
  unfold dispatchCommand
  rw [Nat.mod_eq_of_lt (by omega : q.count + 1 < UINT)]
  by_cases hgrow : q.count + 1 ≥ q.capacity
  · rw [if_pos hgrow]
    cases allocated with
    | false => exact .inl rfl
    | true =>
      have hroom : q.capacity * 2 < UINT := by
        have := hfull hgrow
        omega
      obtain ⟨hinv, hsame, hhead0, hcount', hlt⟩ := resize_spec h hroom
      have hdouble := (resize_data h.length hroom (Nat.le_of_lt hcount) hhead).2
      exact .inr ⟨q.resize, rfl, hinv, hsame, by omega, by omega, rfl, .inr ⟨hgrow, hdouble⟩⟩
  · rw [if_neg hgrow]
    exact .inr ⟨q, rfl, h, rfl, by omega, by omega, rfl, .inl rfl⟩

/-- A power of two that is an `unsigned int`. -/
theorem doubled_le {capacity : Nat} (hlt : capacity < UINT) (h : ∃ k, capacity = 8 * 2 ^ k) :
    capacity ≤ 2 ^ 31 := by
  obtain ⟨k, rfl⟩ := h
  have hpow : 8 * 2 ^ k = 2 ^ (3 + k) := by rw [Nat.pow_add]
  rw [hpow] at hlt ⊢
  have hk : 3 + k < 32 := (Nat.pow_lt_pow_iff_right (by omega)).mp hlt
  exact Nat.pow_le_pow_right (by omega) (by omega)

/-- The action in the ring is that of the client. -/
def Holds (copy : Client → Payload) (c : Client) (a : WorkerAction) : Prop :=
  a.type = newClient ∧ (copy c).front <+: a.payload

structure RingInv (cfg : Config) (copy : Client → Payload) (r : RingState) : Prop where
  queue : QueueInv r.ring
  holds : List.Forall₂ (Holds copy) r.server.queue r.ring.actions
  doubled : ∃ k, r.ring.capacity = 8 * 2 ^ k
  capacity_le : r.ring.capacity ≤ max 8 (2 * cfg.maxConnections)
  slots : r.slots + 8 = 2 * r.ring.capacity
  serving : r.ring.shuttingDown = false

variable {cfg : Config} {copy : Client → Payload} {r r' : RingState}

theorem ringInv_start (cfg : Config) (copy : Client → Payload) :
    RingInv cfg copy (.start cfg) :=
  ⟨initQueue_inv, .nil, ⟨0, rfl⟩, Nat.le_max_left .., rfl, rfl⟩

theorem RingInv.count (h : RingInv cfg copy r) : r.ring.count = r.server.queue.length := by
  rw [h.holds.length_eq, WorkerQueue.actions, Foxtails.Lib.Ring.contents_length]

/-- Where the ring is full, all but one of the live slots wait in it. -/
theorem dispatch_room (hsafe : Safe cfg r.server) (hbooks : Accounted cfg r.server)
    (h : RingInv cfg copy r) {i : Nat} {rest : List (Option Nat)}
    (hmain : r.server.main = .dispatch i rest) : r.ring.count + 1 ≤ cfg.maxConnections := by
  have hnamed := length_le_live hbooks.partitioned hsafe.tracked.1
    fun j hj => (hsafe.tracked.2 j hj).1
  have hlive := live_add_free hbooks.partitioned
  have hqueue : r.server.queue.length ≤ r.server.actions.length := by
    rw [State.actions, List.length_append]
    exact Nat.le_add_left ..
  rw [State.named, hmain, List.length_append, List.length_map, MainPc.named, List.length_cons]
    at hnamed
  rw [h.count]
  omega

theorem ringInv_dispatch {allocated : Bool} (hlimit : cfg.maxConnections < 2 ^ 31)
    (hsafe : Safe cfg r.server) (hbooks : Accounted cfg r.server) (h : RingInv cfg copy r)
    (hstep : r.step cfg copy (.dispatch allocated) = some r') : RingInv cfg copy r' := by
  unfold RingState.step at hstep
  dsimp only at hstep
  split at hstep
  · rename_i i rest hmain
    have hroom := dispatch_room hsafe hbooks h hmain
    have hcap := doubled_le h.queue.capacity_lt h.doubled
    have hslots := h.slots
    rcases dispatch_grows h.queue hcap (fun hfull => by omega) allocated newClient
        (copy (r.server.table.clients i)) with
      heq | ⟨q₁, heq, hq₁, hsame, hlt, hwrap, hserving, hgrow⟩ <;> rw [heq] at hstep <;>
      obtain ⟨s', hs', rfl⟩ := Option.map_eq_some_iff.mp hstep <;>
      obtain ⟨j, rest', hmain', -, rfl⟩ := step_dispatch hs'
    · refine ⟨h.queue, h.holds, h.doubled, h.capacity_le, ?_, h.serving⟩
      show (if r.ring.capacity = r.ring.capacity then r.slots else _) + 8 = _
      rw [if_pos rfl, hslots]
    · obtain ⟨rfl, -⟩ := MainPc.dispatch.inj (hmain.symm.trans hmain')
      obtain ⟨hinv, a, hactions, htype, hpayload⟩ := enqueue_spec hq₁ hlt hwrap newClient
        (copy (r.server.table.clients i))
      refine ⟨hinv, ?_, ?_, ?_, ?_, hserving.trans h.serving⟩
      · show List.Forall₂ (Holds copy) (r.server.queue ++ [r.server.table.clients i]) _
        rw [hactions, hsame]
        exact List.rel_append h.holds (.cons ⟨htype, hpayload⟩ .nil)
      · show ∃ k, q₁.capacity = _
        rcases hgrow with hkeep | ⟨-, hdouble⟩
        · rw [hkeep]
          exact h.doubled
        · obtain ⟨k, hk⟩ := h.doubled
          exact ⟨k + 1, by rw [hdouble, hk, Nat.pow_succ, Nat.mul_assoc]⟩
      · show q₁.capacity ≤ _
        rcases hgrow with hkeep | ⟨hfull, hdouble⟩
        · rw [hkeep]
          exact h.capacity_le
        · refine le_trans ?_ (Nat.le_max_right ..)
          omega
      · show (if q₁.capacity = r.ring.capacity then r.slots else r.slots + q₁.capacity) + 8 =
          2 * q₁.capacity
        have hpos := h.queue.count_lt
        rcases hgrow with hkeep | ⟨-, hdouble⟩
        · rw [if_pos hkeep, hkeep, hslots]
        · rw [if_neg (by omega)]
          omega
  · cases hstep

/-- What a worker takes from the ring is what it takes from the list. -/
theorem ring_take {x : Int × Bytes} {ring : WorkerQueue} (h : RingInv cfg copy r)
    (hdeq : workerDequeue r.ring = some (x, ring)) :
    ∃ c rest, r.server.queue = c :: rest ∧ x.1 = newClient ∧ (copy c).front <+: x.2 ∧
      QueueInv ring ∧ List.Forall₂ (Holds copy) rest ring.actions := by
  obtain ⟨hinv, a, hactions, rfl⟩ := dequeue_spec h.queue hdeq
  have hholds := h.holds
  rw [hactions, List.forall₂_cons_right_iff] at hholds
  obtain ⟨c, rest, ⟨htype, hpayload⟩, hrest, hqueue⟩ := hholds
  exact ⟨c, rest, hqueue, htype, hpayload, hinv, hrest⟩

theorem ringInv_take {worker : Nat} (h : RingInv cfg copy r)
    (hstep : r.step cfg copy (.take worker) = some r') : RingInv cfg copy r' := by
  unfold RingState.step at hstep
  dsimp only at hstep
  split at hstep
  · rename_i x ring hdeq
    obtain ⟨s', hs', rfl⟩ := Option.map_eq_some_iff.mp hstep
    obtain ⟨c, queue, -, hqueue, -, rfl⟩ := step_take hs'
    obtain ⟨c', rest, hqueue', -, -, hinv, hrest⟩ := ring_take h hdeq
    obtain ⟨-, rfl⟩ := List.cons.inj (hqueue.symm.trans hqueue')
    have hsame : ring.capacity = r.ring.capacity ∧ ring.shuttingDown = r.ring.shuttingDown := by
      unfold workerDequeue at hdeq
      split_ifs at hdeq
      obtain ⟨-, rfl⟩ := Prod.mk.inj (Option.some.inj hdeq)
      exact ⟨rfl, rfl⟩
    refine ⟨hinv, hrest, ?_, ?_, ?_, hsame.2.trans h.serving⟩
    · rw [hsame.1]
      exact h.doubled
    · rw [hsame.1]
      exact h.capacity_le
    · rw [hsame.1]
      exact h.slots
  · cases hstep

/-- The other actions leave the queue alone. -/
theorem queue_step {s s' : State} {a : Action} (hdispatch : ∀ stored, a ≠ .dispatch stored)
    (htake : ∀ worker, a ≠ .take worker) (hstep : step cfg s a = some s') : s'.queue = s.queue := by
  cases a with
  | poll ready now =>
    obtain ⟨-, events, table, -, rfl⟩ := step_poll hstep
    rfl
  | sweep now =>
    obtain ⟨events, i, -, ⟨oldest, rfl⟩ | ⟨-, rfl⟩ | rfl⟩ := step_sweep hstep <;> rfl
  | sweepRemove =>
    obtain ⟨events, i, c, -, rfl⟩ := step_sweepRemove hstep
    rfl
  | next =>
    rcases step_next hstep with ⟨-, rfl⟩ | ⟨i, rest, -, rfl⟩ | ⟨rest, pc, -, -, rfl⟩ <;> rfl
  | dispatch stored => exact absurd rfl (hdispatch stored)
  | accept result =>
    obtain ⟨rest, -, rfl | ⟨fd, -, rfl⟩⟩ := step_accept hstep <;> rfl
  | append added now =>
    obtain ⟨sock, rest, rejects, -, rfl⟩ := step_append hstep
    rfl
  | stop =>
    obtain ⟨-, rfl⟩ := step_stop hstep
    rfl
  | take worker => exact absurd rfl (htake worker)
  | receive outcome =>
    obtain ⟨worker, c, -, rfl⟩ := step_receive hstep
    rfl
  | send =>
    obtain ⟨worker, c, keepAlive, -, rfl⟩ := step_send hstep
    rfl
  | rearm ok =>
    obtain ⟨worker, c, -, ⟨-, -, rfl⟩ | ⟨-, rfl⟩⟩ := step_rearm hstep <;> rfl
  | remove =>
    obtain ⟨worker, c, -, rfl⟩ := step_remove hstep
    rfl
  | clear now =>
    obtain ⟨worker, c, kept, -, rfl⟩ := step_clear hstep
    rfl
  | unlock =>
    obtain ⟨worker, -, rfl⟩ := step_unlock hstep
    rfl
  | exit worker =>
    obtain rfl := step_exit hstep
    rfl
  | delete =>
    rcases step_delete hstep with ⟨i, -, -, -, rfl⟩ | ⟨i, -, -, -, rfl⟩ | ⟨i, -, -, rfl⟩ |
      ⟨i, -, rfl⟩ | ⟨i, -, rfl⟩ | ⟨-, rfl⟩ | ⟨-, rfl⟩ <;> rfl

/-! ## Every run -/

/-- The server of the next state is a next state of the server. -/
theorem server_step {a : Action} (hok : RingState.SweepsUnused cfg r a)
    (hstep : r.step cfg copy a = some r') :
    ∃ b, Server.SweepsUnused cfg r.server b ∧ step cfg r.server b = some r'.server := by
  unfold RingState.step at hstep
  split at hstep
  · split at hstep
    · obtain ⟨s', hs', rfl⟩ := Option.map_eq_some_iff.mp hstep
      refine ⟨_, ?_, hs'⟩
      exact trivial
    · cases hstep
  · split at hstep
    · obtain ⟨s', hs', rfl⟩ := Option.map_eq_some_iff.mp hstep
      refine ⟨_, ?_, hs'⟩
      exact trivial
    · cases hstep
  · obtain ⟨s', hs', rfl⟩ := Option.map_eq_some_iff.mp hstep
    exact ⟨_, hok, hs'⟩

theorem ringInv_step {a : Action} (hlimit : cfg.maxConnections < 2 ^ 31)
    (hsafe : Safe cfg r.server) (hbooks : Accounted cfg r.server) (h : RingInv cfg copy r)
    (hstep : r.step cfg copy a = some r') : RingInv cfg copy r' := by
  by_cases hdispatch : ∃ allocated, a = .dispatch allocated
  · obtain ⟨allocated, rfl⟩ := hdispatch
    exact ringInv_dispatch hlimit hsafe hbooks h hstep
  by_cases htake : ∃ worker, a = .take worker
  · obtain ⟨worker, rfl⟩ := htake
    exact ringInv_take h hstep
  unfold RingState.step at hstep
  split at hstep
  · exact absurd ⟨_, rfl⟩ hdispatch
  · exact absurd ⟨_, rfl⟩ htake
  · obtain ⟨s', hs', rfl⟩ := Option.map_eq_some_iff.mp hstep
    have hqueue := queue_step (fun _ e => hdispatch ⟨_, e⟩) (fun _ e => htake ⟨_, e⟩) hs'
    refine ⟨h.queue, ?_, h.doubled, h.capacity_le, h.slots, h.serving⟩
    show List.Forall₂ (Holds copy) s'.queue r.ring.actions
    rw [hqueue]
    exact h.holds

theorem ring_reach (hlimit : cfg.maxConnections < 2 ^ 31)
    (h : Reach (RingState.step cfg copy) (RingState.SweepsUnused cfg) (.start cfg) r) :
    Reach (step cfg) (SweepsUnused cfg) (start cfg) r.server ∧ RingInv cfg copy r := by
  apply h.invariant fun r =>
    Reach (step cfg) (SweepsUnused cfg) (start cfg) r.server ∧ RingInv cfg copy r
  · exact ⟨.start, ringInv_start cfg copy⟩
  · intro r a r' ⟨hreach, hinv⟩ hok hstep
    obtain ⟨b, hb, hserver⟩ := server_step hok hstep
    obtain ⟨hsafe, hbooks⟩ := accounted_reach hreach
    exact ⟨hreach.next hb hserver, ringInv_step hlimit hsafe hbooks hinv hstep⟩

/-- **The ring is the server's queue**: for every `max_connections` an `int` can be, whatever the
    allocator answers, in every run in which the sweep only closes slots that nothing names, the
    server is in a state it can be in with the list, the ring holds exactly that list, and a
    worker takes its first client, or nothing where it is empty; the capacity is a power of two,
    at most twice the number of slots, and the arrays ever allocated have at most four times as
    many slots as the server has. -/
theorem server_ring (cfg : Config) (hlimit : cfg.maxConnections < 2 ^ 31) (copy : Client → Payload)
    (r : RingState)
    (h : Reach (RingState.step cfg copy) (RingState.SweepsUnused cfg) (.start cfg) r) :
    Reach (step cfg) (SweepsUnused cfg) (start cfg) r.server ∧
    List.Forall₂ (Holds copy) r.server.queue r.ring.actions ∧
    (workerDequeue r.ring = none ↔ r.server.queue = []) ∧
    (∀ x ring, workerDequeue r.ring = some (x, ring) → ∃ c rest,
      r.server.queue = c :: rest ∧ x.1 = newClient ∧ (copy c).front <+: x.2) ∧
    r.ring.count < r.ring.capacity ∧ r.ring.head < r.ring.capacity ∧
    (∃ k, r.ring.capacity = 8 * 2 ^ k) ∧ r.ring.capacity ≤ max 8 (2 * cfg.maxConnections) ∧
    r.slots ≤ max 8 (4 * cfg.maxConnections) := by
  obtain ⟨hreach, hinv⟩ := ring_reach hlimit h
  have hcapacity := hinv.capacity_le
  have hslots := hinv.slots
  refine ⟨hreach, hinv.holds, ?_, fun x ring hdeq => ?_, hinv.queue.count_lt, hinv.queue.head_lt,
    hinv.doubled, hcapacity, by omega⟩
  · rw [← List.length_eq_zero_iff, ← hinv.count]
    unfold workerDequeue
    rw [hinv.serving]
    by_cases hzero : r.ring.count = 0 <;> simp [hzero]
  · obtain ⟨c, rest, hqueue, htype, hpayload, -⟩ := ring_take hinv hdeq
    exact ⟨c, rest, hqueue, htype, hpayload⟩

def nineSlots : Config := { maxConnections := 9, keepAliveTimeout := 75, numWorkers := 1 }

/-- The payload begins with the slot. -/
def slotByte (c : Client) : Payload := oneByte (UInt8.ofNat c.idx)

/-- Nine clients connect, ... -/
def nineClients : List Action :=
  .poll [none] 0 :: List.replicate 10 (.sweep 0) ++ .next ::
    (List.range 9).flatMap (fun i => [.accept (some (5 + i)), .append true 0]) ++
    [.accept none, .next]

/-- ... all of them send a request, and the worker takes the first. -/
def nineRequests : List Action :=
  .poll ((List.range 9).map fun i => some (5 + i)) 1 :: List.replicate 10 (.sweep 1) ++
    (List.replicate 9 [.next, .dispatch true]).flatten ++ [.take 0]

/-- `server_ring` where eight clients wait in a ring that has grown and one was taken. -/
theorem server_ring_waiting :
    ∃ r : RingState, r.server.queue.map Client.idx = [1, 2, 3, 4, 5, 6, 7, 8] ∧
      r.ring.capacity = 16 ∧ r.ring.head = 1 ∧ r.slots = 24 ∧
      List.Forall₂ (Holds slotByte) r.server.queue r.ring.actions ∧
      ∀ x ring, workerDequeue r.ring = some (x, ring) → ∃ c rest,
        r.server.queue = c :: rest ∧ x.1 = newClient ∧ (slotByte c).front <+: x.2 := by
  obtain ⟨r, hr, hstate⟩ := Reach.of_exec_map
    (show (exec (guarded (RingState.step nineSlots slotByte) (RingState.SweepsUnused nineSlots))
      (.start nineSlots) (nineClients ++ nineRequests)).map
        (fun r => (r.server.queue.map Client.idx, r.ring.capacity, r.ring.head, r.slots)) =
      some ([1, 2, 3, 4, 5, 6, 7, 8], 16, 1, 24) by decide +kernel)
  simp only [Prod.mk.injEq] at hstate
  obtain ⟨hqueue, hcapacity, hhead, hslots⟩ := hstate
  obtain ⟨-, hholds, -, htake, -⟩ := server_ring nineSlots (by decide) slotByte r hr
  exact ⟨r, hqueue, hcapacity, hhead, hslots, hholds, htake⟩

end Foxtails.Server
