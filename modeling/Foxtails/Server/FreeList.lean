/-
  The slot table with its free list as the array it is.

  `Table` keeps the free slots as a list. Here the free list is `int_stack_t`: an array whose
  first `head` entries count. `SlotTable` is the part of `server_t` that
  `server_append_client` and `server_remove_client` work on.

  * `entries_push`, `entries_pop`: push and pop on the entries that count.
  * `toTable_appendClient`, `toTable_removeClient`: the table with the array refines `Table`.
  * `partitioned_step`: every call keeps the entries equal to the dead slots.
  * `slots_partitioned`: so it is over any sequence of calls, and no push is refused.
-/
import Foxtails.Lib.Run
import Foxtails.Server.Table
import Mathlib.Data.List.Nodup

namespace Foxtails.Server

open Foxtails.Lib.Run

/-! ## The stack -/

/-- `int_stack_t`. -/
structure IntStack where
  data : Nat → Nat
  head : Nat
  capacity : Nat
  /-- How many pushes were refused. -/
  overflows : Nat

namespace IntStack

variable (s : IntStack)

/-- `int_stack_push`. -/
def push (value : Nat) : IntStack :=
  if s.head ≥ s.capacity then { s with overflows := s.overflows + 1 }
  else { s with data := Function.update s.data s.head value, head := s.head + 1 }

/-- `int_stack_pop`; the `-1` of an empty stack is `none`. -/
def pop : Option Nat × IntStack :=
  if s.head = 0 then (none, s) else (some (s.data (s.head - 1)), { s with head := s.head - 1 })

/-- The zeroed stack of `server_init_common`, and its loop of pushes. -/
def init (maxConnections : Nat) : IntStack :=
  (List.range maxConnections).reverse.foldl push
    { data := fun _ => 0, head := 0, capacity := maxConnections, overflows := 0 }

/-- `data[0 .. head)`. -/
def entries : List Nat := (List.range s.head).map s.data

@[simp] theorem entries_length : s.entries.length = s.head := by simp [entries]

@[simp] theorem push_capacity (value : Nat) : (s.push value).capacity = s.capacity := by
  unfold push
  split_ifs <;> rfl

@[simp] theorem pop_capacity : s.pop.2.capacity = s.capacity := by
  unfold pop
  split_ifs <;> rfl

theorem entries_push {s : IntStack} (value : Nat) (h : s.head < s.capacity) :
    (s.push value).entries = s.entries ++ [value] ∧ (s.push value).overflows = s.overflows := by
  unfold push entries
  rw [if_neg (not_le.mpr h)]
  refine ⟨?_, rfl⟩
  show (List.range (s.head + 1)).map (Function.update s.data s.head value) = _
  rw [List.range_succ, List.map_append, List.map_singleton, Function.update_self]
  congr 1
  refine List.map_congr_left fun i hi => Function.update_of_ne ?_ ..
  exact (List.mem_range.mp hi).ne

/-- Nothing is popped from an empty stack; otherwise the last entry is. -/
theorem entries_pop (s : IntStack) :
    (s.entries = [] ∧ s.pop = (none, s)) ∨
      ∃ value, s.entries = s.pop.2.entries ++ [value] ∧ s.pop.1 = some value ∧
        s.pop.2.overflows = s.overflows := by
  rcases Nat.eq_zero_or_pos s.head with h0 | hpos
  · left
    unfold entries pop
    rw [if_pos h0, h0]
    exact ⟨rfl, rfl⟩
  · right
    unfold entries pop
    rw [if_neg (by omega)]
    refine ⟨s.data (s.head - 1), ?_, rfl, rfl⟩
    have hhead : s.head = s.head - 1 + 1 := by omega
    conv_lhs => rw [hhead, List.range_succ, List.map_append, List.map_singleton]

/-- The loop of pushes, while there is room. -/
theorem entries_foldl_push {s : IntStack} (values : List Nat)
    (h : s.head + values.length ≤ s.capacity) :
    (values.foldl push s).entries = s.entries ++ values ∧
      (values.foldl push s).overflows = s.overflows ∧
      (values.foldl push s).capacity = s.capacity := by
  induction values generalizing s with
  | nil => exact ⟨(List.append_nil _).symm, rfl, rfl⟩
  | cons value values ih =>
    rw [List.length_cons] at h
    have hroom : s.head < s.capacity := by omega
    obtain ⟨hentries, hoverflows⟩ := entries_push value hroom
    have hhead : (s.push value).head = s.head + 1 := by
      rw [← entries_length, hentries, List.length_append, entries_length]
      rfl
    obtain ⟨hall, hnone, hcap⟩ := ih (s := s.push value) (by rw [hhead, push_capacity]; omega)
    rw [List.foldl_cons]
    refine ⟨?_, hnone.trans hoverflows, hcap.trans (push_capacity ..)⟩
    rw [hall, hentries, List.append_assoc]
    rfl

theorem entries_init (maxConnections : Nat) :
    (init maxConnections).entries = (List.range maxConnections).reverse ∧
      (init maxConnections).overflows = 0 ∧ (init maxConnections).capacity = maxConnections := by
  have h := entries_foldl_push (s := ⟨fun _ => 0, 0, maxConnections, 0⟩)
    (List.range maxConnections).reverse (by simp)
  exact h

end IntStack

/-! ## The table -/

/-- What `server_append_client` and `server_remove_client` work on. -/
structure SlotTable where
  clients : Nat → Client
  freeList : IntStack
  fds : Nat → Option Nat
  epoll : Nat → Option Registration
  accepted : Nat
  closes : List Nat
  frees : List Nat

namespace SlotTable

variable (s : SlotTable)

/-- The table whose free list is a list, top first. -/
def toTable : Table :=
  { clients := s.clients, freeList := s.freeList.entries.reverse, fds := s.fds, epoll := s.epoll,
    accepted := s.accepted, closes := s.closes, frees := s.frees }

def Alive (i : Nat) : Prop := (s.clients i).isAlive = true

instance (i : Nat) : Decidable (s.Alive i) := inferInstanceAs (Decidable (_ = _))

/-- `server_init_common`. -/
def init (maxConnections : Nat) : SlotTable :=
  { clients := fun _ => .zero, freeList := .init maxConnections, fds := fun _ => none,
    epoll := fun _ => none, accepted := 0, closes := [], frees := [] }

/-- `close`. -/
def close (sock : Socket) : SlotTable :=
  { s with
    fds := Function.update s.fds sock.fd none
    epoll := Function.update s.epoll sock.fd none
    closes := sock.address :: s.closes }

/-- `free(sock.address)`. -/
def free (sock : Socket) : SlotTable := { s with frees := sock.address :: s.frees }

/-- `int_stack_push(&server->free_list, i)`. -/
def push (i : Nat) : SlotTable := { s with freeList := s.freeList.push i }

/-- `server_append_client`. -/
def appendClient (sock : Socket) (now : Int) (added : Bool) : SlotTable :=
  match s.freeList.pop with
  | (none, freeList) => ({ s with freeList }.close sock).free sock
  | (some freeIdx, freeList) =>
    let client : Client :=
      { socket := sock, lastRecv := now, idx := freeIdx, isAlive := false, inFlight := false }
    let s := { s with freeList, clients := Function.update s.clients freeIdx client }
    if added then
      { s with
        epoll := Function.update s.epoll sock.fd (some ⟨freeIdx, true⟩)
        clients := Function.update s.clients freeIdx { s.clients freeIdx with isAlive := true } }
    else ((s.close sock).free sock).push freeIdx

/-- `server_remove_client`. -/
def removeClient (client : Client) : SlotTable :=
  let s := { s with epoll := Function.update s.epoll client.socket.fd none }
  let s := ((s.push client.idx).close client.socket).free client.socket
  { s with
    clients := Function.update s.clients client.idx { s.clients client.idx with isAlive := false } }

/-! ## Refinement -/

/-- The connection is refused, placed in the slot on top and armed, or given up again. -/
theorem appendClient_cases (sock : Socket) (now : Int) (added : Bool) :
    (s.freeList.entries = [] ∧ s.appendClient sock now added = (s.close sock).free sock) ∨
    ∃ i, s.freeList.entries = s.freeList.pop.2.entries ++ [i] ∧
      s.freeList.pop.2.overflows = s.freeList.overflows ∧
      ((added = true ∧ s.appendClient sock now added =
          { s with freeList := s.freeList.pop.2,
                   clients := Function.update s.clients i ⟨sock, now, i, true, false⟩,
                   epoll := Function.update s.epoll sock.fd (some ⟨i, true⟩) }) ∨
       (added = false ∧ s.appendClient sock now added =
          { s with freeList := s.freeList.pop.2.push i,
                   clients := Function.update s.clients i ⟨sock, now, i, false, false⟩,
                   fds := Function.update s.fds sock.fd none,
                   epoll := Function.update s.epoll sock.fd none,
                   closes := sock.address :: s.closes,
                   frees := sock.address :: s.frees })) := by
  rcases s.freeList.entries_pop with ⟨hnil, hpop⟩ | ⟨i, hentries, hpop, hoverflows⟩
  · exact .inl ⟨hnil, by simp [appendClient, hpop]⟩
  · refine .inr ⟨i, hentries, hoverflows, ?_⟩
    have heq : s.freeList.pop = (some i, s.freeList.pop.2) := Prod.ext hpop rfl
    unfold appendClient
    rw [heq]
    cases added with
    | true => exact .inl ⟨rfl, by simp⟩
    | false => exact .inr ⟨rfl, rfl⟩

/-- Pushing on the array is pushing on the list. -/
theorem reverse_entries_push (stack : IntStack) (i : Nat) :
    (stack.push i).entries.reverse =
      if stack.entries.reverse.length ≥ stack.capacity then stack.entries.reverse
      else i :: stack.entries.reverse := by
  rw [List.length_reverse, IntStack.entries_length]
  split_ifs with hfull
  · unfold IntStack.push
    rw [if_pos hfull]
    rfl
  · rw [(IntStack.entries_push i (not_le.mp hfull)).1, List.reverse_append]
    rfl

theorem toTable_init (maxConnections : Nat) :
    (init maxConnections).toTable = .init maxConnections := by
  simp only [toTable, init, Table.init, (IntStack.entries_init maxConnections).1,
    List.reverse_reverse]

theorem toTable_appendClient (sock : Socket) (now : Int) (added : Bool) :
    (s.appendClient sock now added).toTable =
      s.toTable.appendClient s.freeList.capacity sock now added := by
  rcases s.appendClient_cases sock now added with
    ⟨hnil, heq⟩ | ⟨i, hentries, -, ⟨rfl, heq⟩ | ⟨rfl, heq⟩⟩ <;> rw [heq]
  · simp [Table.appendClient, toTable, hnil, close, free, Table.close, Table.free]
  all_goals
    have hfree : s.toTable.freeList = i :: s.freeList.pop.2.entries.reverse := by
      simp [toTable, hentries]
    unfold Table.appendClient
    rw [hfree]
  · simp [toTable, Table.arm]
  · simp [toTable, reverse_entries_push, Table.push, Table.close, Table.free]

theorem toTable_removeClient (c : Client) :
    (s.removeClient c).toTable = s.toTable.removeClient s.freeList.capacity c := by
  rw [Table.removeClient_eq]
  simp [toTable, removeClient, push, close, free, reverse_entries_push]

end SlotTable

/-! ## Free and live slots -/

/-- The free slots are the dead ones, each once. -/
structure Partitioned (n : Nat) (t : Table) : Prop where
  nodup : t.freeList.Nodup
  free : ∀ i, i ∈ t.freeList ↔ i < n ∧ ¬ t.Alive i
  live : ∀ i, t.Alive i → i < n

namespace Partitioned

variable {n : Nat} {t : Table}

theorem init (n : Nat) : Partitioned n (.init n) := by
  have hdead : ∀ i, ¬ (Table.init n).Alive i := fun i h => by cases h
  refine ⟨List.nodup_range, fun i => ?_, fun i h => absurd h (hdead i)⟩
  rw [and_iff_left (hdead i)]
  exact List.mem_range

/-- With a live slot the free list is not full. -/
theorem length_lt (h : Partitioned n t) {i : Nat} (hi : t.Alive i) : t.freeList.length < n := by
  have hnot : i ∉ t.freeList := fun hm => ((h.free i).mp hm).2 hi
  have hnodup : (i :: t.freeList).Nodup := List.nodup_cons.mpr ⟨hnot, h.nodup⟩
  have hsub : i :: t.freeList ⊆ List.range n := fun j hj => by
    rw [List.mem_range]
    rcases List.mem_cons.mp hj with rfl | hj
    · exact h.live j hi
    · exact ((h.free j).mp hj).1
  have hlen := (List.subperm_of_subset hnodup hsub).length_le
  rwa [List.length_range, List.length_cons] at hlen

/-- Nor is it after a slot was taken off it. -/
theorem length_lt_of_cons (h : Partitioned n t) {i : Nat} {rest : List Nat}
    (hfree : t.freeList = i :: rest) : rest.length < n := by
  have hsub : t.freeList ⊆ List.range n := fun j hj => List.mem_range.mpr ((h.free j).mp hj).1
  have hlen := (List.subperm_of_subset h.nodup hsub).length_le
  rwa [List.length_range, hfree, List.length_cons] at hlen

theorem appendClient (h : Partitioned n t) (sock : Socket) (now : Int) (added : Bool) :
    Partitioned n (t.appendClient n sock now added) := by
  rcases t.appendClient_cases n sock now added with
    ⟨-, heq⟩ | ⟨i, rest, hfree, ⟨-, heq⟩ | ⟨-, heq⟩⟩ <;> rw [heq]
  · exact ⟨h.nodup, h.free, h.live⟩
  all_goals
    have hnodup := h.nodup
    rw [hfree] at hnodup
    obtain ⟨hnot, hrest⟩ := List.nodup_cons.mp hnodup
    obtain ⟨hlt, hdead⟩ := (h.free i).mp (by rw [hfree]; exact List.mem_cons_self)
  · -- the slot on top becomes live
    refine ⟨hrest, fun j => ?_, fun j hj => ?_⟩
    · by_cases hji : j = i
      · subst hji
        simp [Table.Alive, hnot]
      · have hmem : j ∈ t.freeList ↔ j ∈ rest := by rw [hfree, List.mem_cons, or_iff_right hji]
        simpa [Table.Alive, hji, hmem] using h.free j
    · by_cases hji : j = i
      · rwa [hji]
      · exact h.live j (by simpa [Table.Alive, hji] using hj)
  · -- the slot on top is pushed back, still dead
    rw [if_neg (not_le.mpr (h.length_lt_of_cons hfree)), ← hfree]
    have halive : ∀ j, (Function.update t.clients i ⟨sock, now, i, false, false⟩ j).isAlive = true ↔
        t.Alive j := fun j => by
      by_cases hji : j = i
      · subst hji
        simp [hdead]
      · simp [Table.Alive, hji]
    refine ⟨h.nodup, fun j => ?_, fun j hj => h.live j ((halive j).mp hj)⟩
    rw [h.free j]
    exact and_congr_right fun _ => not_congr (halive j).symm

theorem removeClient (h : Partitioned n t) {c : Client} (halive : t.Alive c.idx) :
    Partitioned n (t.removeClient n c) := by
  have hnot : c.idx ∉ t.freeList := fun hm => ((h.free _).mp hm).2 halive
  have hfree : (t.removeClient n c).freeList = c.idx :: t.freeList := by
    rw [Table.removeClient_eq]
    exact if_neg (not_le.mpr (h.length_lt halive))
  refine ⟨?_, fun i => ?_, fun i hi => ?_⟩
  · rw [hfree]
    exact List.nodup_cons.mpr ⟨hnot, h.nodup⟩
  · rw [hfree, List.mem_cons, h.free, Table.alive_removeClient, not_and_or, not_not]
    by_cases hi : i = c.idx
    · subst hi
      simp [h.live _ halive]
    · simp [hi]
  · rw [Table.alive_removeClient] at hi
    exact h.live i hi.2

end Partitioned

/-! ## Runs -/

inductive Call where
  | append (sock : Socket) (now : Int) (added : Bool)
  | remove (client : Client)

def SlotTable.step (s : SlotTable) : Call → Option SlotTable
  | .append sock now added => some (s.appendClient sock now added)
  | .remove client => some (s.removeClient client)

/-- A removal names a slot that is alive. -/
def NamesLive (s : SlotTable) : Call → Prop
  | .append .. => True
  | .remove client => s.Alive client.idx

instance (s : SlotTable) : DecidablePred (NamesLive s)
  | .append .. => isTrue trivial
  | .remove client => inferInstanceAs (Decidable (s.Alive client.idx))

/-- No push was refused, and the free slots are the dead ones. -/
structure FreeDead (n : Nat) (s : SlotTable) : Prop where
  capacity : s.freeList.capacity = n
  overflows : s.freeList.overflows = 0
  partitioned : Partitioned n s.toTable

variable {n : Nat} {s s' : SlotTable}

theorem FreeDead.head_lt (h : FreeDead n s) {i : Nat} (hi : s.Alive i) :
    s.freeList.head < s.freeList.capacity := by
  have hlt := h.partitioned.length_lt (i := i) hi
  rwa [SlotTable.toTable, List.length_reverse, IntStack.entries_length, ← h.capacity] at hlt

/-- A slot that was popped can be pushed back. -/
theorem FreeDead.pop_head_lt (h : FreeDead n s) {i : Nat}
    (hentries : s.freeList.entries = s.freeList.pop.2.entries ++ [i]) :
    s.freeList.pop.2.head < s.freeList.pop.2.capacity := by
  have hfree : s.toTable.freeList = i :: s.freeList.pop.2.entries.reverse := by
    simp [SlotTable.toTable, hentries]
  have hlt := h.partitioned.length_lt_of_cons hfree
  rwa [List.length_reverse, IntStack.entries_length, ← h.capacity, ← IntStack.pop_capacity] at hlt

theorem FreeDead.appendClient (h : FreeDead n s) (sock : Socket) (now : Int) (added : Bool) :
    FreeDead n (s.appendClient sock now added) := by
  have hpartitioned : Partitioned n (s.appendClient sock now added).toTable := by
    rw [SlotTable.toTable_appendClient, h.capacity]
    exact h.partitioned.appendClient sock now added
  rcases s.appendClient_cases sock now added with
    ⟨-, heq⟩ | ⟨i, hentries, hoverflows, ⟨-, heq⟩ | ⟨-, heq⟩⟩ <;> rw [heq] at hpartitioned ⊢
  · exact ⟨h.capacity, h.overflows, hpartitioned⟩
  · exact ⟨(IntStack.pop_capacity _).trans h.capacity, hoverflows.trans h.overflows, hpartitioned⟩
  · have hroom := h.pop_head_lt hentries
    refine ⟨?_, ?_, hpartitioned⟩
    · exact (IntStack.push_capacity ..).trans ((IntStack.pop_capacity _).trans h.capacity)
    · exact (IntStack.entries_push i hroom).2.trans (hoverflows.trans h.overflows)

theorem FreeDead.removeClient (h : FreeDead n s) {c : Client} (halive : s.Alive c.idx) :
    FreeDead n (s.removeClient c) := by
  refine ⟨?_, ?_, ?_⟩
  · exact (IntStack.push_capacity ..).trans h.capacity
  · exact (IntStack.entries_push c.idx (h.head_lt halive)).2.trans h.overflows
  · rw [SlotTable.toTable_removeClient, h.capacity]
    exact h.partitioned.removeClient halive

theorem freeDead_init (n : Nat) : FreeDead n (.init n) := by
  obtain ⟨-, hoverflows, hcapacity⟩ := IntStack.entries_init n
  exact ⟨hcapacity, hoverflows, by rw [SlotTable.toTable_init]; exact .init n⟩

theorem freeDead_step {call : Call} (h : FreeDead n s) (hok : NamesLive s call)
    (hstep : s.step call = some s') : FreeDead n s' := by
  cases call with
  | append sock now added =>
    obtain rfl := Option.some.inj hstep
    exact h.appendClient sock now added
  | remove client =>
    obtain rfl := Option.some.inj hstep
    exact h.removeClient hok

/-! ## One call -/

/-- The client is placed in a dead slot; no other slot changes, and nothing is closed. -/
def Placed (s s' : SlotTable) (sock : Socket) (now : Int) : Prop :=
  ∃ i, i < s.freeList.capacity ∧ ¬ s.Alive i ∧
    s'.clients = Function.update s.clients i ⟨sock, now, i, true, false⟩ ∧ s'.closes = s.closes

/-- The client's socket is closed, once; free list and live slots are as they were. -/
structure Rejected (s s' : SlotTable) (sock : Socket) : Prop where
  freeList : s'.freeList.entries = s.freeList.entries
  alive : ∀ i, s'.Alive i ↔ s.Alive i
  clients : ∀ i, s.Alive i → s'.clients i = s.clients i
  closes : s'.closes = sock.address :: s.closes

theorem appendClient_placed_or_rejected (h : FreeDead n s) (sock : Socket) (now : Int)
    (added : Bool) :
    (s.freeList.entries ≠ [] ∧ added = true → Placed s (s.appendClient sock now added) sock now) ∧
    (s.freeList.entries = [] ∨ added = false →
      Rejected s (s.appendClient sock now added) sock) := by
  rcases s.appendClient_cases sock now added with
    ⟨hnil, heq⟩ | ⟨i, hentries, -, ⟨rfl, heq⟩ | ⟨rfl, heq⟩⟩ <;> rw [heq]
  · exact ⟨fun hplaced => absurd hnil hplaced.1, fun _ => ⟨rfl, fun _ => Iff.rfl, fun _ _ => rfl, rfl⟩⟩
  all_goals
    have hmem : i ∈ s.toTable.freeList := by simp [SlotTable.toTable, hentries]
    obtain ⟨hlt, hdead⟩ := (h.partitioned.free i).mp hmem
  · refine ⟨fun _ => ⟨i, h.capacity ▸ hlt, hdead, rfl, rfl⟩, fun hor => ?_⟩
    rw [hentries] at hor
    rcases hor with hnil | hfalse
    · exact absurd hnil (List.append_ne_nil_of_right_ne_nil _ (List.cons_ne_nil i []))
    · cases hfalse
  · refine ⟨fun hplaced => (by cases hplaced.2), fun _ => ⟨?_, fun j => ?_, fun j hj => ?_, rfl⟩⟩
    · exact (IntStack.entries_push i (h.pop_head_lt hentries)).1.trans hentries.symm
    · by_cases hji : j = i
      · subst hji
        have hdead : ¬ s.Alive j := hdead
        simp [SlotTable.Alive] at hdead ⊢
        exact hdead
      · simp [SlotTable.Alive, hji]
    · have hji : j ≠ i := fun e => hdead (e ▸ hj)
      exact Function.update_of_ne hji ..

/-- **The free list and the live slots split the table** after any calls that remove live slots
    only: the entries are the dead slots, each once; no push was refused; the next client is
    placed in a dead slot, or rejected without a trace and closed once; and the next removal
    changes no other slot. -/
theorem slots_partitioned (n : Nat) (s : SlotTable)
    (h : Reach SlotTable.step NamesLive (.init n) s) :
    (s.freeList.entries.Nodup ∧ s.freeList.capacity = n ∧
      ∀ i, i ∈ s.freeList.entries ↔ i < n ∧ (s.clients i).isAlive = false) ∧
    s.freeList.overflows = 0 ∧
    (∀ sock now added,
      (s.freeList.entries ≠ [] ∧ added = true →
        Placed s (s.appendClient sock now added) sock now) ∧
      (s.freeList.entries = [] ∨ added = false →
        Rejected s (s.appendClient sock now added) sock)) ∧
    ∀ c i, i ≠ c.idx → (s.removeClient c).clients i = s.clients i := by
  have hinv := h.invariant (FreeDead n) (freeDead_init n) fun _ _ _ hs hok hstep =>
    freeDead_step hs hok hstep
  refine ⟨⟨?_, hinv.capacity, fun i => ?_⟩, hinv.overflows,
    fun sock now added => appendClient_placed_or_rejected hinv sock now added,
    fun c i hi => Function.update_of_ne hi ..⟩
  · exact List.nodup_reverse.mp hinv.partitioned.nodup
  · rw [← List.mem_reverse, ← Bool.not_eq_true]
    exact hinv.partitioned.free i

/-- Two slots: one client is placed and removed, one is rejected by epoll, one is placed. -/
def fewCalls : List Call :=
  [.append ⟨5, 0⟩ 1 true, .append ⟨6, 1⟩ 2 false, .remove ⟨⟨5, 0⟩, 1, 0, true, false⟩,
    .append ⟨7, 2⟩ 3 true]

theorem slots_partitioned_few :
    ∃ s : SlotTable, s.freeList.entries = [1] ∧ s.freeList.entries.Nodup ∧
      s.freeList.overflows = 0 := by
  obtain ⟨s, hs, hentries⟩ := Reach.of_exec_map
    (show (exec (guarded SlotTable.step NamesLive) (.init 2) fewCalls).map
      (fun s => s.freeList.entries) = some [1] by decide +kernel)
  obtain ⟨⟨hnodup, -⟩, hoverflows, -⟩ := slots_partitioned 2 s hs
  exact ⟨s, hentries, hnodup, hoverflows⟩

end Foxtails.Server
