/-
  The server as a step relation: `main`'s loop, the threads of the worker pool, `server_delete`.

  Model (read this before the theorems). An action is one section under a mutex or one system
  call; what the kernel, the clock and the clients decide is part of the action. `step` is the
  state after it, or `none` where the thread cannot take it.

  * A worker runs `worker_callback` inside the section in which it took the action
    (`worker_loop` unlocks the queue after the callback), so at most one callback runs, and
    `dispatch_command` and `worker_pool_delete` wait for it. `callback` is the worker that
    holds `queue->lock`.
  * The queue is the list of the `client_t` copies `dispatch_client` stored; `Pool.Fifo` proves
    that the ring is this list.
  * Answering a request (`fetch_response`, `http_send_response`) does not touch the table; it is
    one action. A `send` that fails is taken to return, though nothing keeps SIGPIPE away.
  * `stop` is the loop's test of `running`. `server_delete` reads the table without the lock, so
    every access of its loop is an action of its own.

  `step_poll`, `step_sweep`, …: what each action can do. Everything later uses these.
-/
import Foxtails.Server.Table

namespace Foxtails.Server

structure Config where
  maxConnections : Nat
  keepAliveTimeout : Int
  numWorkers : Nat

/-- `maxevents` in `main`. -/
def maxEvents : Nat := 32

/-- Where `main` is. `events` are the slots of the events not handled yet, `none` being the
    listening socket. -/
inductive MainPc where
  | poll
  | sweep (events : List (Option Nat)) (i : Nat)
  /-- About to call `server_remove_client` with the snapshot of slot `i`. -/
  | sweepRemove (events : List (Option Nat)) (i : Nat) (snapshot : Client)
  | events (events : List (Option Nat))
  /-- Slot `i` is marked; waiting for the queue's lock in `dispatch_command`. -/
  | dispatch (i : Nat) (events : List (Option Nat))
  | accept (events : List (Option Nat))
  | append (sock : Socket) (events : List (Option Nat))
  /-- `server_delete`: the loop at slot `i`. -/
  | delete (i : Nat)
  | deleteClose (i : Nat)
  | deleteFree (i : Nat)
  | deletePool
  | join
  | deleted

/-- Where `worker_callback` is, with its copy of the client. -/
inductive CallbackPc where
  | receive (c : Client)
  | send (c : Client) (keepAlive : Bool)
  | rearm (c : Client)
  /-- About to call `server_remove_client`. -/
  | remove (c : Client)
  | clear (c : Client) (kept : Bool)
  | unlock

structure State where
  table : Table
  queue : List Client
  callback : Option (Nat × CallbackPc)
  shuttingDown : Bool
  exited : List Nat
  main : MainPc
  /-- `oldest_timestamp`. -/
  oldest : Int
  /-- The connections answered with 503, and the `Retry-After` each was given. -/
  rejects : List (Nat × Int)

/-- The outcome of `http_recv_message` and `http_request_parse`. -/
inductive Received where
  | closed
  | bad
  | request (keepAlive : Bool)
  deriving DecidableEq

inductive Action where
  | poll (ready : List (Option Nat)) (now : Int)
  | sweep (now : Int)
  | sweepRemove
  | next
  | dispatch (stored : Bool)
  | accept (result : Option Nat)
  | append (added : Bool) (now : Int)
  | take (worker : Nat)
  | receive (outcome : Received)
  | send
  | rearm (ok : Bool)
  | remove
  | clear (now : Int)
  | unlock
  | exit (worker : Nat)
  | stop
  | delete
  deriving DecidableEq

/-- The state after `server_init`. -/
def start (cfg : Config) : State :=
  { table := .init cfg.maxConnections, queue := [], callback := none, shuttingDown := false,
    exited := [], main := .poll, oldest := 0, rejects := [] }

/-- The sweep closes slot `i`: alive, not in flight, and idle for the timeout. -/
def Idle (cfg : Config) (t : Table) (i : Nat) (now : Int) : Prop :=
  i < cfg.maxConnections ∧ t.Alive i ∧ (t.clients i).inFlight = false ∧
    now - (t.clients i).lastRecv ≥ cfg.keepAliveTimeout

instance (cfg : Config) (t : Table) (i : Nat) (now : Int) : Decidable (Idle cfg t i now) :=
  inferInstanceAs (Decidable (_ ∧ _))

/-- `main`'s loop. -/
def stepMain (cfg : Config) (s : State) : Action → Option State
  | .poll ready now =>
    match s.main with
    | .poll =>
      if ready.length ≤ maxEvents ∧ ready.count none ≤ 1 then
        (s.table.report ready).map fun (events, table) =>
          { s with table := table, main := .sweep events 0, oldest := now }
      else none
    | _ => none
  | .sweep now =>
    match s.main with
    | .sweep events i =>
      if i < cfg.maxConnections then
        let snapshot := s.table.clients i
        if ¬ snapshot.isAlive ∨ snapshot.inFlight then some { s with main := .sweep events (i + 1) }
        else if now - snapshot.lastRecv ≥ cfg.keepAliveTimeout then
          some { s with main := .sweepRemove events i snapshot }
        else some { s with main := .sweep events (i + 1), oldest := snapshot.lastRecv }
      else some { s with main := .events events }
    | _ => none
  | .sweepRemove =>
    match s.main with
    | .sweepRemove events i snapshot =>
      some { s with table := s.table.removeClient cfg.maxConnections snapshot
                    main := .sweep events (i + 1) }
    | _ => none
  | .next =>
    match s.main with
    | .events [] => some { s with main := .poll }
    | .events (some i :: rest) => some { s with table := s.table.mark i, main := .dispatch i rest }
    | .events (none :: rest) =>
      some { s with main := if s.table.freeList = [] then .events rest else .accept rest }
    | _ => none
  | .dispatch stored =>
    match s.main, s.callback with
    | .dispatch i rest, none =>
      some { s with queue := if stored then s.queue ++ [s.table.clients i] else s.queue
                    main := .events rest }
    | _, _ => none
  | .accept result =>
    match s.main, result with
    | .accept rest, none => some { s with main := .events rest }
    | .accept rest, some fd =>
      if s.table.fds fd = none then
        some { s with table := s.table.accept fd, main := .append ⟨fd, s.table.accepted⟩ rest }
      else none
    | _, _ => none
  | .append added now =>
    match s.main with
    | .append sock rest =>
      some { s with
        table := s.table.appendClient cfg.maxConnections sock now added
        main := .accept rest
        rejects := if s.table.freeList = [] then (sock.address, now - s.oldest) :: s.rejects
          else s.rejects }
    | _ => none
  | .stop =>
    match s.main with
    | .poll => some { s with main := .delete 0 }
    | _ => none
  | _ => none

/-- The callback after it has received: it answers all but a closed connection. -/
def Received.next (c : Client) : Received → CallbackPc
  | .closed => .remove c
  | .bad => .send c false
  | .request keepAlive => .send c keepAlive

/-- `worker_loop` and `worker_callback`. -/
def stepWorker (cfg : Config) (s : State) : Action → Option State
  | .take worker =>
    match s.callback, s.queue with
    | none, c :: queue =>
      if worker < cfg.numWorkers ∧ worker ∉ s.exited ∧ s.shuttingDown = false then
        some { s with callback := some (worker, .receive c), queue := queue }
      else none
    | _, _ => none
  | .receive outcome =>
    match s.callback with
    | some (worker, .receive c) => some { s with callback := some (worker, outcome.next c) }
    | _ => none
  | .send =>
    match s.callback with
    | some (worker, .send c keepAlive) =>
      some { s with callback := some (worker, if keepAlive then .rearm c else .remove c) }
    | _ => none
  | .rearm ok =>
    match s.callback with
    | some (worker, .rearm c) =>
      if ok then
        -- `EPOLL_CTL_MOD` fails on a descriptor that is not registered
        if s.table.epoll c.socket.fd = none then none
        else some { s with table := s.table.arm c.socket.fd c.idx
                           callback := some (worker, .clear c true) }
      else some { s with callback := some (worker, .remove c) }
    | _ => none
  | .remove =>
    match s.callback with
    | some (worker, .remove c) =>
      some { s with table := s.table.removeClient cfg.maxConnections c
                    callback := some (worker, .clear c false) }
    | _ => none
  | .clear now =>
    match s.callback with
    | some (worker, .clear c kept) =>
      some { s with table := s.table.clear c.idx kept now, callback := some (worker, .unlock) }
    | _ => none
  | .unlock =>
    match s.callback with
    | some (_, .unlock) => some { s with callback := none }
    | _ => none
  | .exit worker =>
    match s.callback with
    | none =>
      if worker < cfg.numWorkers ∧ worker ∉ s.exited ∧ s.shuttingDown = true then
        some { s with exited := worker :: s.exited }
      else none
    | _ => none
  | _ => none

/-- `server_delete`, with `worker_pool_delete` in it. -/
def stepDelete (cfg : Config) (s : State) : Option State :=
  match s.main with
  | .delete i =>
    if i < cfg.maxConnections then
      some { s with main := if s.table.Alive i then .deleteClose i else .delete (i + 1) }
    else
      -- `close(server.epoll_instance)`
      some { s with table := { s.table with epoll := fun _ => none }, main := .deletePool }
  | .deleteClose i =>
    some { s with table := s.table.close (s.table.clients i).socket, main := .deleteFree i }
  | .deleteFree i =>
    some { s with table := s.table.free (s.table.clients i).socket, main := .delete (i + 1) }
  | .deletePool =>
    match s.callback with
    | none => some { s with shuttingDown := true, main := .join }
    | some _ => none
  | .join =>
    if ∀ worker < cfg.numWorkers, worker ∈ s.exited then some { s with main := .deleted } else none
  | _ => none

def step (cfg : Config) (s : State) (a : Action) : Option State :=
  match a with
  | .poll .. | .sweep .. | .sweepRemove | .next | .dispatch .. | .accept .. | .append .. | .stop =>
    stepMain cfg s a
  | .take .. | .receive .. | .send | .rearm .. | .remove | .clear .. | .unlock | .exit .. =>
    stepWorker cfg s a
  | .delete => stepDelete cfg s

/-! ## What each action does -/

variable {cfg : Config} {s s' : State}

theorem step_poll {ready : List (Option Nat)} {now : Int}
    (h : step cfg s (.poll ready now) = some s') :
    s.main = .poll ∧ ∃ events table, s.table.report ready = some (events, table) ∧
      s' = { s with table := table, main := .sweep events 0, oldest := now } := by
  unfold step stepMain at h
  dsimp only at h
  split at h
  · split_ifs at h
    obtain ⟨⟨events, table⟩, hreport, rfl⟩ := Option.map_eq_some_iff.mp h
    exact ⟨‹_›, events, table, hreport, rfl⟩
  · cases h

/-- The sweep passes a slot that is not idle, decides to close one that is, or is over. -/
theorem step_sweep_idle {now : Int} (h : step cfg s (.sweep now) = some s') :
    ∃ events i, s.main = .sweep events i ∧
      ((i < cfg.maxConnections ∧ ¬ Idle cfg s.table i now ∧
          ∃ oldest, s' = { s with main := .sweep events (i + 1), oldest := oldest }) ∨
       (Idle cfg s.table i now ∧ s' = { s with main := .sweepRemove events i (s.table.clients i) }) ∨
       (cfg.maxConnections ≤ i ∧ s' = { s with main := .events events })) := by
  unfold step stepMain at h
  dsimp only at h
  split at h
  · rename_i events i hmain
    refine ⟨events, i, hmain, ?_⟩
    split_ifs at h with hi hskip hidle <;> obtain rfl := Option.some.inj h
    · refine .inl ⟨hi, fun hidle => ?_, s.oldest, rfl⟩
      obtain hdead | hflight := hskip
      · exact hdead hidle.2.1
      · rw [hidle.2.2.1] at hflight
        cases hflight
    · obtain ⟨halive, hflight⟩ := not_or.mp hskip
      exact .inr (.inl ⟨⟨hi, not_not.mp halive, Bool.eq_false_iff.mpr hflight, hidle⟩, rfl⟩)
    · exact .inl ⟨hi, fun h => hidle h.2.2.2, _, rfl⟩
    · exact .inr (.inr ⟨not_lt.mp hi, rfl⟩)
  · cases h

/-- The sweep goes on, decides to close a slot, or is over. -/
theorem step_sweep {now : Int} (h : step cfg s (.sweep now) = some s') :
    ∃ events i, s.main = .sweep events i ∧
      ((∃ oldest, s' = { s with main := .sweep events (i + 1), oldest := oldest }) ∨
       (Idle cfg s.table i now ∧ s' = { s with main := .sweepRemove events i (s.table.clients i) }) ∨
       s' = { s with main := .events events }) := by
  obtain ⟨events, i, hmain, ⟨-, -, hnext⟩ | hidle | ⟨-, hover⟩⟩ := step_sweep_idle h
  · exact ⟨events, i, hmain, .inl hnext⟩
  · exact ⟨events, i, hmain, .inr (.inl hidle)⟩
  · exact ⟨events, i, hmain, .inr (.inr hover)⟩

theorem step_sweepRemove (h : step cfg s .sweepRemove = some s') :
    ∃ events i c, s.main = .sweepRemove events i c ∧
      s' = { s with table := s.table.removeClient cfg.maxConnections c
                    main := .sweep events (i + 1) } := by
  unfold step stepMain at h
  dsimp only at h
  split at h
  · obtain rfl := Option.some.inj h
    exact ⟨_, _, _, ‹_›, rfl⟩
  · cases h

/-- The batch is done, its next event is a slot's, or it is the listening socket's. -/
theorem step_next (h : step cfg s .next = some s') :
    (s.main = .events [] ∧ s' = { s with main := .poll }) ∨
    (∃ i rest, s.main = .events (some i :: rest) ∧
      s' = { s with table := s.table.mark i, main := .dispatch i rest }) ∨
    ∃ rest pc, s.main = .events (none :: rest) ∧ (pc = .events rest ∨ pc = .accept rest) ∧
      s' = { s with main := pc } := by
  unfold step stepMain at h
  dsimp only at h
  split at h
  · obtain rfl := Option.some.inj h
    exact .inl ⟨‹_›, rfl⟩
  · obtain rfl := Option.some.inj h
    exact .inr (.inl ⟨_, _, ‹_›, rfl⟩)
  · obtain rfl := Option.some.inj h
    refine .inr (.inr ⟨_, _, ‹_›, ?_, rfl⟩)
    split_ifs
    · exact .inl rfl
    · exact .inr rfl
  · cases h

theorem step_dispatch {stored : Bool} (h : step cfg s (.dispatch stored) = some s') :
    ∃ i rest, s.main = .dispatch i rest ∧ s.callback = none ∧
      s' = { s with queue := if stored then s.queue ++ [s.table.clients i] else s.queue
                    main := .events rest } := by
  unfold step stepMain at h
  dsimp only at h
  split at h
  · obtain rfl := Option.some.inj h
    exact ⟨_, _, ‹_›, ‹_›, rfl⟩
  · cases h

theorem step_accept {result : Option Nat} (h : step cfg s (.accept result) = some s') :
    ∃ rest, s.main = .accept rest ∧
      (s' = { s with main := .events rest } ∨
       ∃ fd, s.table.fds fd = none ∧
        s' = { s with table := s.table.accept fd, main := .append ⟨fd, s.table.accepted⟩ rest }) := by
  unfold step stepMain at h
  dsimp only at h
  split at h
  · obtain rfl := Option.some.inj h
    exact ⟨_, ‹_›, .inl rfl⟩
  · split_ifs at h with hfd
    obtain rfl := Option.some.inj h
    exact ⟨_, ‹_›, .inr ⟨_, hfd, rfl⟩⟩
  · cases h

theorem step_append {added : Bool} {now : Int} (h : step cfg s (.append added now) = some s') :
    ∃ sock rest rejects, s.main = .append sock rest ∧
      s' = { s with table := s.table.appendClient cfg.maxConnections sock now added
                    main := .accept rest, rejects := rejects } := by
  unfold step stepMain at h
  dsimp only at h
  split at h
  · obtain rfl := Option.some.inj h
    exact ⟨_, _, _, ‹_›, rfl⟩
  · cases h

theorem step_stop (h : step cfg s .stop = some s') :
    s.main = .poll ∧ s' = { s with main := .delete 0 } := by
  unfold step stepMain at h
  dsimp only at h
  split at h
  · exact ⟨‹_›, (Option.some.inj h).symm⟩
  · cases h

theorem step_take {worker : Nat} (h : step cfg s (.take worker) = some s') :
    ∃ c queue, s.callback = none ∧ s.queue = c :: queue ∧ s.shuttingDown = false ∧
      s' = { s with callback := some (worker, .receive c), queue := queue } := by
  unfold step stepWorker at h
  dsimp only at h
  split at h
  · split_ifs at h with hcan
    obtain rfl := Option.some.inj h
    exact ⟨_, _, ‹_›, ‹_›, hcan.2.2, rfl⟩
  · cases h

theorem step_receive {outcome : Received} (h : step cfg s (.receive outcome) = some s') :
    ∃ worker c, s.callback = some (worker, .receive c) ∧
      s' = { s with callback := some (worker, outcome.next c) } := by
  unfold step stepWorker at h
  dsimp only at h
  split at h
  · exact ⟨_, _, ‹_›, (Option.some.inj h).symm⟩
  · cases h

theorem step_send (h : step cfg s .send = some s') :
    ∃ worker c keepAlive, s.callback = some (worker, .send c keepAlive) ∧
      s' = { s with callback := some (worker, if keepAlive then .rearm c else .remove c) } := by
  unfold step stepWorker at h
  dsimp only at h
  split at h
  · exact ⟨_, _, _, ‹_›, (Option.some.inj h).symm⟩
  · cases h

theorem step_rearm {ok : Bool} (h : step cfg s (.rearm ok) = some s') :
    ∃ worker c, s.callback = some (worker, .rearm c) ∧
      ((ok = true ∧ s.table.epoll c.socket.fd ≠ none ∧
        s' = { s with table := s.table.arm c.socket.fd c.idx
                      callback := some (worker, .clear c true) }) ∨
       (ok = false ∧ s' = { s with callback := some (worker, .remove c) })) := by
  unfold step stepWorker at h
  dsimp only at h
  split at h
  · refine ⟨_, _, ‹_›, ?_⟩
    split_ifs at h with hok hreg
    · exact .inl ⟨hok, hreg, (Option.some.inj h).symm⟩
    · exact .inr ⟨Bool.eq_false_iff.mpr hok, (Option.some.inj h).symm⟩
  · cases h

theorem step_remove (h : step cfg s .remove = some s') :
    ∃ worker c, s.callback = some (worker, .remove c) ∧
      s' = { s with table := s.table.removeClient cfg.maxConnections c
                    callback := some (worker, .clear c false) } := by
  unfold step stepWorker at h
  dsimp only at h
  split at h
  · exact ⟨_, _, ‹_›, (Option.some.inj h).symm⟩
  · cases h

theorem step_clear {now : Int} (h : step cfg s (.clear now) = some s') :
    ∃ worker c kept, s.callback = some (worker, .clear c kept) ∧
      s' = { s with table := s.table.clear c.idx kept now, callback := some (worker, .unlock) } := by
  unfold step stepWorker at h
  dsimp only at h
  split at h
  · exact ⟨_, _, _, ‹_›, (Option.some.inj h).symm⟩
  · cases h

theorem step_unlock (h : step cfg s .unlock = some s') :
    ∃ worker, s.callback = some (worker, .unlock) ∧ s' = { s with callback := none } := by
  unfold step stepWorker at h
  dsimp only at h
  split at h
  · exact ⟨_, ‹_›, (Option.some.inj h).symm⟩
  · cases h

theorem step_exit {worker : Nat} (h : step cfg s (.exit worker) = some s') :
    s' = { s with exited := worker :: s.exited } := by
  unfold step stepWorker at h
  dsimp only at h
  split at h
  · split_ifs at h
    exact (Option.some.inj h).symm
  · cases h

/-- The accesses of `server_delete`'s loop, the end of the loop, and the end of the pool. -/
theorem step_delete (h : step cfg s .delete = some s') :
    (∃ i, s.main = .delete i ∧ i < cfg.maxConnections ∧ s.table.Alive i ∧
      s' = { s with main := .deleteClose i }) ∨
    (∃ i, s.main = .delete i ∧ i < cfg.maxConnections ∧ ¬ s.table.Alive i ∧
      s' = { s with main := .delete (i + 1) }) ∨
    (∃ i, s.main = .delete i ∧ cfg.maxConnections ≤ i ∧
      s' = { s with table := { s.table with epoll := fun _ => none }, main := .deletePool }) ∨
    (∃ i, s.main = .deleteClose i ∧
      s' = { s with table := s.table.close (s.table.clients i).socket, main := .deleteFree i }) ∨
    (∃ i, s.main = .deleteFree i ∧
      s' = { s with table := s.table.free (s.table.clients i).socket, main := .delete (i + 1) }) ∨
    (s.main = .deletePool ∧ s' = { s with shuttingDown := true, main := .join }) ∨
    (s.main = .join ∧ s' = { s with main := .deleted }) := by
  unfold step stepDelete at h
  dsimp only at h
  split at h
  · split_ifs at h with hi hal <;> obtain rfl := Option.some.inj h
    · exact .inl ⟨_, ‹_›, hi, hal, rfl⟩
    · exact .inr (.inl ⟨_, ‹_›, hi, hal, rfl⟩)
    · exact .inr (.inr (.inl ⟨_, ‹_›, not_lt.mp hi, rfl⟩))
  · obtain rfl := Option.some.inj h
    exact .inr (.inr (.inr (.inl ⟨_, ‹_›, rfl⟩)))
  · obtain rfl := Option.some.inj h
    exact .inr (.inr (.inr (.inr (.inl ⟨_, ‹_›, rfl⟩))))
  · split at h
    · obtain rfl := Option.some.inj h
      exact .inr (.inr (.inr (.inr (.inr (.inl ⟨‹_›, rfl⟩)))))
    · cases h
  · split_ifs at h
    obtain rfl := Option.some.inj h
    exact .inr (.inr (.inr (.inr (.inr (.inr ⟨‹_›, rfl⟩)))))
  · cases h

end Foxtails.Server
