/-
  The slot table of `utils/server.c`, with the open descriptors and the epoll registrations
  it is about: `server_append_client`, `server_remove_client`, and the sections of `main` and
  `worker_callback` that touch a slot.

  Every operation here is one section under `free_list.lock`, or one system call. A connection
  is numbered by the `accept` that returned it; the number also names the address allocated for
  it. Two logs record every `close` of a client's descriptor and every `free` of its address.

  * `removeClient_eq`: `server_remove_client` in one piece, and from it what becomes of each field.
  * `appendClient_cases`: the three ends of `server_append_client`.
-/
import Mathlib.Logic.Function.Basic
import Mathlib.Tactic

namespace Foxtails.Server

/-- `socket_t`. -/
structure Socket where
  fd : Nat
  address : Nat
  deriving DecidableEq

/-- `client_t`, without `serv` and `ip_addr`. -/
structure Client where
  socket : Socket
  lastRecv : Int
  idx : Nat
  isAlive : Bool
  inFlight : Bool
  deriving DecidableEq

/-- A zeroed slot. -/
def Client.zero : Client :=
  { socket := ⟨0, 0⟩, lastRecv := 0, idx := 0, isAlive := false, inFlight := false }

/-- What epoll holds for a descriptor: the slot its `data.ptr` points to, and whether the
    one-shot event is still to come. -/
structure Registration where
  slot : Nat
  armed : Bool
  deriving DecidableEq

structure Table where
  clients : Nat → Client
  /-- The stack `free_list`, top first. -/
  freeList : List Nat
  /-- The connection each open descriptor belongs to. -/
  fds : Nat → Option Nat
  epoll : Nat → Option Registration
  /-- How many connections were accepted. -/
  accepted : Nat
  closes : List Nat
  frees : List Nat

/-- `server_init_common`: the pushes from `max_connections - 1` down leave slot 0 on top. -/
def Table.init (maxConnections : Nat) : Table :=
  { clients := fun _ => .zero, freeList := List.range maxConnections, fds := fun _ => none,
    epoll := fun _ => none, accepted := 0, closes := [], frees := [] }

namespace Table

variable (t : Table)

def Alive (i : Nat) : Prop := (t.clients i).isAlive = true

instance (i : Nat) : Decidable (t.Alive i) := inferInstanceAs (Decidable (_ = _))

/-! ## System calls -/

/-- `accept` returns a descriptor that is not open. -/
def accept (fd : Nat) : Table :=
  { t with fds := Function.update t.fds fd (some t.accepted), accepted := t.accepted + 1 }

/-- `close`: the descriptor is gone, and its registration with it. -/
def close (sock : Socket) : Table :=
  { t with
    fds := Function.update t.fds sock.fd none
    epoll := Function.update t.epoll sock.fd none
    closes := sock.address :: t.closes }

/-- `free(sock.address)`. -/
def free (sock : Socket) : Table := { t with frees := sock.address :: t.frees }

/-- `EPOLL_CTL_ADD` and `EPOLL_CTL_MOD` with `EPOLLONESHOT`. -/
def arm (fd slot : Nat) : Table :=
  { t with epoll := Function.update t.epoll fd (some ⟨slot, true⟩) }

/-- The events `epoll_wait` returns for these descriptors, `none` being the listening socket.
    Returning a one-shot event disarms it; a descriptor that is not armed has none. -/
def report (t : Table) : List (Option Nat) → Option (List (Option Nat) × Table)
  | [] => some ([], t)
  | none :: ready => (t.report ready).map fun (events, t) => (none :: events, t)
  | some fd :: ready =>
    match t.epoll fd with
    | some ⟨slot, true⟩ =>
      (report { t with epoll := Function.update t.epoll fd (some ⟨slot, false⟩) } ready).map
        fun (events, t) => (some slot :: events, t)
    | _ => none

/-! ## Sections under the lock -/

/-- `int_stack_push`. -/
def push (capacity i : Nat) : Table :=
  { t with freeList := if t.freeList.length ≥ capacity then t.freeList else i :: t.freeList }

/-- `server_append_client`. `added` is whether epoll takes the descriptor. -/
def appendClient (capacity : Nat) (sock : Socket) (now : Int) (added : Bool) : Table :=
  match t.freeList with
  | [] => (t.close sock).free sock
  | i :: rest =>
    let client : Client :=
      { socket := sock, lastRecv := now, idx := i, isAlive := false, inFlight := false }
    if added then
      { t with freeList := rest,
               clients := Function.update t.clients i { client with isAlive := true } }.arm sock.fd i
    else
      (({ t with freeList := rest, clients := Function.update t.clients i client }.close sock).free
        sock).push capacity i

/-- `server_remove_client`. -/
def removeClient (capacity : Nat) (client : Client) : Table :=
  let t := { t with epoll := Function.update t.epoll client.socket.fd none }
  let t := ((t.push capacity client.idx).close client.socket).free client.socket
  { t with
    clients := Function.update t.clients client.idx { t.clients client.idx with isAlive := false } }

/-- `client->in_flight = true` in `main`. -/
def mark (i : Nat) : Table :=
  { t with clients := Function.update t.clients i { t.clients i with inFlight := true } }

/-- The last section of `worker_callback`: `last_recv` is set where the connection is kept. -/
def clear (i : Nat) (kept : Bool) (now : Int) : Table :=
  { t with
    clients := Function.update t.clients i
      { t.clients i with
        lastRecv := if kept then now else (t.clients i).lastRecv
        inFlight := false } }

/-! ## What adding and removing a client does -/

variable (capacity : Nat) (c : Client)

/-- The connection is refused, placed in the top slot and armed, or given up again. -/
theorem appendClient_cases (sock : Socket) (now : Int) (added : Bool) :
    (t.freeList = [] ∧ t.appendClient capacity sock now added = (t.close sock).free sock) ∨
    ∃ i rest, t.freeList = i :: rest ∧
      ((added = true ∧ t.appendClient capacity sock now added =
          { t with freeList := rest,
                   clients := Function.update t.clients i ⟨sock, now, i, true, false⟩,
                   epoll := Function.update t.epoll sock.fd (some ⟨i, true⟩) }) ∨
       (added = false ∧ t.appendClient capacity sock now added =
          { t with freeList := if rest.length ≥ capacity then rest else i :: rest,
                   clients := Function.update t.clients i ⟨sock, now, i, false, false⟩,
                   fds := Function.update t.fds sock.fd none,
                   epoll := Function.update t.epoll sock.fd none,
                   closes := sock.address :: t.closes,
                   frees := sock.address :: t.frees })) := by
  cases hfree : t.freeList with
  | nil => exact .inl ⟨rfl, by simp [appendClient, hfree]⟩
  | cons i rest =>
    refine .inr ⟨i, rest, rfl, ?_⟩
    cases added with
    | true => exact .inl ⟨rfl, by simp [appendClient, hfree, arm]⟩
    | false => exact .inr ⟨rfl, by simp [appendClient, hfree, push, close, free]⟩

theorem removeClient_eq :
    t.removeClient capacity c =
      { t with
        clients := Function.update t.clients c.idx { t.clients c.idx with isAlive := false }
        freeList := if t.freeList.length ≥ capacity then t.freeList else c.idx :: t.freeList
        fds := Function.update t.fds c.socket.fd none
        epoll := Function.update t.epoll c.socket.fd none
        closes := c.socket.address :: t.closes
        frees := c.socket.address :: t.frees } := by
  simp [removeClient, push, close, free]

@[simp] theorem alive_removeClient (i : Nat) :
    (t.removeClient capacity c).Alive i ↔ i ≠ c.idx ∧ t.Alive i := by
  rw [removeClient_eq]
  unfold Alive
  by_cases h : i = c.idx <;> simp [h]

@[simp] theorem socket_removeClient (i : Nat) :
    ((t.removeClient capacity c).clients i).socket = (t.clients i).socket := by
  rw [removeClient_eq]
  by_cases h : i = c.idx <;> simp [h]

@[simp] theorem inFlight_removeClient (i : Nat) :
    ((t.removeClient capacity c).clients i).inFlight = (t.clients i).inFlight := by
  rw [removeClient_eq]
  by_cases h : i = c.idx <;> simp [h]

@[simp] theorem idx_removeClient (i : Nat) :
    ((t.removeClient capacity c).clients i).idx = (t.clients i).idx := by
  rw [removeClient_eq]
  by_cases h : i = c.idx <;> simp [h]

@[simp] theorem closes_removeClient :
    (t.removeClient capacity c).closes = c.socket.address :: t.closes := by rw [removeClient_eq]

@[simp] theorem frees_removeClient :
    (t.removeClient capacity c).frees = c.socket.address :: t.frees := by rw [removeClient_eq]

theorem epoll_removeClient {fd : Nat} {r : Registration}
    (h : (t.removeClient capacity c).epoll fd = some r) : fd ≠ c.socket.fd ∧ t.epoll fd = some r := by
  rw [removeClient_eq] at h
  by_cases hfd : fd = c.socket.fd
  · simp [hfd] at h
  · exact ⟨hfd, by simpa [Function.update_apply, hfd] using h⟩

end Table

end Foxtails.Server
