/-
  Connections do not see each other.

  Model (read this before the theorems). `World` is the server of `Step` with what it reads and
  writes: for each connection the results `recv` still has for it, the requests handed to
  `fetch_response` and the responses written to it. The kernel knows connections by descriptor
  only: `recv` and `send` on a descriptor are on the connection that has it at that moment.

  * The outcome of `.receive` is no longer free: it is that of `worker_callback` on the results
    of the descriptor's connection. `malloc` gives the address of the buffer.
  * `reply` is the callback's local variable between the parse and the `send`; one callback runs
    at a time.
  * A `recv` is one step with the others of its loop: nothing else reads the connection.
  * How much of a response the socket takes is `Deliver`'s matter; here it is the response that
    is given to `send`.

  `session`: the calls of `worker_callback` on a connection that is alone.

  * `told_step`: each step keeps what is known of every connection, by its phase.
  * `sessions_isolated`: in every interleaving of any number of connections, with descriptors and
    slots used again, each connection is handed and sent what it would be alone, up to where it
    is now; or it was refused and sent a 503.
  * `reply_crosses`: where the sweep closes a slot that is still named it is not so.
-/
import Foxtails.Serve.Connection
import Foxtails.Server.Account

namespace Foxtails.Server

open Foxtails.Lib.Libc Foxtails.Lib.Run Foxtails.Lib.Scan Foxtails.Serve Foxtails.Wire Table

/-! ## A connection alone -/

section Alone

variable (fetch : Http → Http) (malloc : Nat → Nat)

/-- The calls of `worker_callback` on a connection, one for each readiness event. -/
def session (results : List RecvResult) : List CallbackResult :=
  if _h : results = [] then []
  else
    let call := workerCallback fetch true (malloc results.length) results
    call :: if call.kept then session call.rest else []
termination_by results.length
decreasing_by
  rw [workerCallback_rest]
  exact recvLoop_rest_lt true _ _h

/-- The requests it is handed on, each with the buffer it was parsed from. -/
def handedOn (results : List RecvResult) : List (Http × Bytes) :=
  (session fetch malloc results).filterMap CallbackResult.handed

/-- The responses it is given. -/
def sentOn (results : List RecvResult) : List Http :=
  (session fetch malloc results).filterMap CallbackResult.sent

/-- One call, and what follows if the connection is kept. -/
theorem handedOn_call (results : List RecvResult) :
    handedOn fetch malloc results =
      (workerCallback fetch true (malloc results.length) results).handed.toList ++
      if (workerCallback fetch true (malloc results.length) results).kept then
        handedOn fetch malloc (workerCallback fetch true (malloc results.length) results).rest
      else [] := by
  unfold handedOn
  rw [session]
  by_cases hnil : results = []
  · subst hnil
    rfl
  · rw [dif_neg hnil]
    dsimp only
    rw [List.filterMap_cons]
    cases (workerCallback fetch true (malloc results.length) results).handed <;>
      cases (workerCallback fetch true (malloc results.length) results).kept <;> rfl

theorem sentOn_call (results : List RecvResult) :
    sentOn fetch malloc results =
      (workerCallback fetch true (malloc results.length) results).sent.toList ++
      if (workerCallback fetch true (malloc results.length) results).kept then
        sentOn fetch malloc (workerCallback fetch true (malloc results.length) results).rest
      else [] := by
  unfold sentOn
  rw [session]
  by_cases hnil : results = []
  · subst hnil
    rfl
  · rw [dif_neg hnil]
    dsimp only
    rw [List.filterMap_cons]
    cases (workerCallback fetch true (malloc results.length) results).sent <;>
      cases (workerCallback fetch true (malloc results.length) results).kept <;> rfl

/-- A call without a request is the last one. -/
theorem workerCallback_last {base : Nat} {results : List RecvResult}
    (h : (workerCallback fetch true base results).handed = none) :
    (workerCallback fetch true base results).kept = false := by
  unfold workerCallback at h ⊢
  dsimp only at h ⊢
  split_ifs at h ⊢
  · rfl
  · split at h <;> first | rfl | cases h

end Alone

/-! ## The world -/

/-- The response of `server_append_client` to a connection it has no slot for. -/
def serviceUnavailable (retryIn : Int) : Http :=
  (httpSetHeader (statusReply 503 (ascii "Service Unavailable")) (ascii "Retry-After")
    (fmtInt retryIn)).1

structure World where
  server : State
  /-- What `recv` has for each connection. -/
  incoming : Nat → List RecvResult
  handed : Nat → List (Http × Bytes)
  written : Nat → List Http
  reply : Option Http

/-- The outcome of `.receive`. -/
def outcomeOf (call : CallbackResult) : Received :=
  match call.sent, call.handed with
  | none, _ => .closed
  | some _, none => .bad
  | some _, some _ => .request call.kept

namespace World

variable (w : World)

/-- The call on a descriptor. `recv` fails on one that is not open. -/
def call (fetch : Http → Http) (malloc : Nat → Nat → Nat) (fd : Nat) : CallbackResult :=
  match w.server.table.fds fd with
  | some a => workerCallback fetch true (malloc a (w.incoming a).length) (w.incoming a)
  | none => { handed := none, sent := none, kept := false, rest := [] }

/-- `http_recv_message` on a descriptor, and what is parsed. -/
def receive (fetch : Http → Http) (malloc : Nat → Nat → Nat) (fd : Nat) : World :=
  let call := w.call fetch malloc fd
  match w.server.table.fds fd with
  | some a =>
    { w with
      reply := call.sent
      incoming := Function.update w.incoming a call.rest
      handed := Function.update w.handed a (w.handed a ++ call.handed.toList) }
  | none => { w with reply := none }

/-- `http_send_response` on a descriptor. -/
def write (fd : Nat) (response : Http) : World :=
  match w.server.table.fds fd with
  | some a => { w with written := Function.update w.written a (w.written a ++ [response]) }
  | none => w

/-- What an action reads and writes. -/
def effect (fetch : Http → Http) (malloc : Nat → Nat → Nat) : Action → World
  | .receive _ =>
    match w.server.callback with
    | some (_, .receive c) => w.receive fetch malloc c.socket.fd
    | _ => w
  | .send =>
    match w.server.callback, w.reply with
    | some (_, .send c _), some response => w.write c.socket.fd response
    | _, _ => w
  | .append _ now =>
    match w.server.main with
    | .append sock _ =>
      if w.server.table.freeList = [] then
        w.write sock.fd (serviceUnavailable (now - w.server.oldest))
      else w
    | _ => w
  | _ => w

/-- The outcome of `.receive` is what was received. -/
def agrees (fetch : Http → Http) (malloc : Nat → Nat → Nat) : Action → Bool
  | .receive outcome =>
    match w.server.callback with
    | some (_, .receive c) => outcome = outcomeOf (w.call fetch malloc c.socket.fd)
    | _ => true
  | _ => true

def step (cfg : Config) (fetch : Http → Http) (malloc : Nat → Nat → Nat) (w : World) (a : Action) :
    Option World :=
  if w.agrees fetch malloc a then
    (Server.step cfg w.server a).map fun server => { w.effect fetch malloc a with server := server }
  else none

/-- Nothing was read or written; `stream` is what each connection will bring. -/
def start (cfg : Config) (stream : Nat → List RecvResult) : World :=
  { server := Server.start cfg, incoming := stream, handed := fun _ => [], written := fun _ => [],
    reply := none }

end World

/-! ## What is known of a connection -/

/-- Where a connection is: not served yet; between two callbacks or before the parse; with a
    response to be sent; given up or closed. -/
inductive Phase where
  | fresh
  | going
  | sending (keepAlive : Bool)
  | ended

/-- The phase of a connection in use, by the running callback. -/
def callbackPhase (callback : Option (Nat × CallbackPc)) (a : Nat) : Phase :=
  match callback with
  | some (_, .send c keepAlive) => if c.socket.address = a then .sending keepAlive else .going
  | some (_, .remove c) => if c.socket.address = a then .ended else .going
  | _ => .going

def State.phase (s : State) (a : Nat) : Phase :=
  if s.table.accepted ≤ a ∨ s.main.pending.map Socket.address = some a then .fresh
  else if a ∈ s.table.closes then .ended
  else callbackPhase s.callback a

section

variable (fetch : Http → Http) (malloc : Nat → Nat → Nat) (stream : Nat → List RecvResult)

/-- What was handed on and written, against what the connection would do alone. -/
def Told (w : World) (a : Nat) : Phase → Prop
  | .fresh => w.handed a = [] ∧ w.written a = [] ∧ w.incoming a = stream a
  | .going =>
    handedOn fetch (malloc a) (stream a) =
      w.handed a ++ handedOn fetch (malloc a) (w.incoming a) ∧
    sentOn fetch (malloc a) (stream a) = w.written a ++ sentOn fetch (malloc a) (w.incoming a)
  | .sending keepAlive =>
    handedOn fetch (malloc a) (stream a) =
      w.handed a ++ (if keepAlive then handedOn fetch (malloc a) (w.incoming a) else []) ∧
    ∃ response, w.reply = some response ∧
      sentOn fetch (malloc a) (stream a) = w.written a ++ response ::
        if keepAlive then sentOn fetch (malloc a) (w.incoming a) else []
  | .ended =>
    w.handed a <+: handedOn fetch (malloc a) (stream a) ∧
    (w.written a <+: sentOn fetch (malloc a) (stream a) ∨
      w.handed a = [] ∧ ∃ retryIn, w.written a = [serviceUnavailable retryIn])

variable {fetch malloc stream} {w w' : World} {a : Nat}

theorem Told.going (h : Told fetch malloc stream w a .fresh) : Told fetch malloc stream w a .going := by
  obtain ⟨hhanded, hwritten, hincoming⟩ := h
  refine ⟨?_, ?_⟩
  · rw [hhanded, hincoming, List.nil_append]
  · rw [hwritten, hincoming, List.nil_append]

/-- Whatever was told so far, the connection can end. -/
theorem Told.ended {phase : Phase} (h : Told fetch malloc stream w a phase) :
    Told fetch malloc stream w a .ended := by
  cases phase with
  | fresh =>
    obtain ⟨hhanded, hwritten, -⟩ := h
    refine ⟨?_, .inl ?_⟩
    · rw [hhanded]
      exact List.nil_prefix
    · rw [hwritten]
      exact List.nil_prefix
  | going => exact ⟨⟨_, h.1.symm⟩, .inl ⟨_, h.2.symm⟩⟩
  | sending keepAlive =>
    obtain ⟨hhanded, response, -, hsent⟩ := h
    exact ⟨⟨_, hhanded.symm⟩, .inl ⟨_, hsent.symm⟩⟩
  | ended => exact h

/-- Only what concerns the connection, and the reply, matters. -/
theorem Told.congr {phase : Phase} (h : Told fetch malloc stream w a phase)
    (hhanded : w'.handed a = w.handed a) (hwritten : w'.written a = w.written a)
    (hincoming : w'.incoming a = w.incoming a)
    (hreply : ∀ keepAlive, phase = .sending keepAlive → w'.reply = w.reply) :
    Told fetch malloc stream w' a phase := by
  cases phase <;> simp only [Told, hhanded, hwritten, hincoming] at h ⊢
  case sending keepAlive =>
    rw [hreply keepAlive rfl]
    exact h
  all_goals exact h

/-! ## Phases -/

/-- A phase stays, or the connection ends or is placed. -/
def Moves (phase phase' : Phase) : Prop :=
  phase' = phase ∨ phase' = .ended ∨ (phase = .fresh ∧ phase' = .going)

theorem Told.moves {phase phase' : Phase} (h : Told fetch malloc stream w a phase)
    (hmoves : Moves phase phase') : Told fetch malloc stream w a phase' := by
  rcases hmoves with rfl | rfl | ⟨rfl, rfl⟩
  · exact h
  · exact h.ended
  · exact h.going

theorem Told.next {phase phase' : Phase} (h : Told fetch malloc stream w a phase)
    (hhanded : w'.handed a = w.handed a) (hwritten : w'.written a = w.written a)
    (hincoming : w'.incoming a = w.incoming a)
    (hreply : ∀ keepAlive, phase = .sending keepAlive → w'.reply = w.reply)
    (hmoves : Moves phase phase') : Told fetch malloc stream w' a phase' :=
  (h.congr hhanded hwritten hincoming hreply).moves hmoves

end

variable {cfg : Config} {s s' : State} {a : Nat}

/-- The connection of a callback is in use: its phase is that of the callback. -/
theorem Safe.working (h : Safe cfg s) {worker : Nat} {pc : CallbackPc} {c : Client}
    (hcallback : s.callback = some (worker, pc)) (huses : pc.uses = [c]) :
    s.table.fds c.socket.fd = some c.socket.address ∧
      ∀ callback, ({ s with callback := callback } : State).phase c.socket.address =
        callbackPhase callback c.socket.address := by
  obtain ⟨-, halive, hsocket, -⟩ := h.at_callback hcallback huses
  obtain ⟨hopen, hlt, hclosed, -⟩ := (h.slots.live _ halive).2.2
  rw [hsocket] at hopen hlt hclosed
  refine ⟨hopen, fun callback => ?_⟩
  unfold State.phase
  rw [if_neg, if_neg hclosed]
  apply not_or.mpr ⟨not_le.mpr hlt, _⟩
  intro hpending
  obtain ⟨sock, hsome, haddr⟩ := Option.map_eq_some_iff.mp hpending
  apply (h.slots.pending sock hsome).2 _ halive
  rw [hsocket, haddr]

section

variable {fetch : Http → Http} {malloc : Nat → Nat → Nat} {stream : Nat → List RecvResult}
  {w w' : World}

/-- The connection's next call: its request is handed on, and its response is to be sent. -/
theorem Told.called {a worker : Nat} {c : Client} {call : CallbackResult}
    (h : Told fetch malloc stream w a .going) (haddr : c.socket.address = a)
    (hcall : workerCallback fetch true (malloc a (w.incoming a).length) (w.incoming a) = call)
    (hhanded : w'.handed a = w.handed a ++ call.handed.toList)
    (hwritten : w'.written a = w.written a) (hincoming : w'.incoming a = call.rest)
    (hreply : w'.reply = call.sent) :
    Told fetch malloc stream w' a (callbackPhase (some (worker, (outcomeOf call).next c)) a) := by
  obtain ⟨hon, hsent⟩ := h
  rw [handedOn_call fetch (malloc a) (w.incoming a), hcall, ← List.append_assoc, ← hhanded] at hon
  rw [sentOn_call fetch (malloc a) (w.incoming a), hcall, ← hwritten] at hsent
  rw [← hincoming] at hon hsent
  cases hs : call.sent with
  | none =>
    have hphase : callbackPhase (some (worker, (outcomeOf call).next c)) a = .ended := by
      unfold outcomeOf
      rw [hs]
      exact if_pos haddr
    rw [hphase]
    exact ⟨⟨_, hon.symm⟩, .inl ⟨_, hsent.symm⟩⟩
  | some response =>
    have hphase : callbackPhase (some (worker, (outcomeOf call).next c)) a =
        .sending call.kept := by
      unfold outcomeOf
      rw [hs]
      cases hx : call.handed with
      | none =>
        have hkept : call.kept = false := by
          rw [← hcall] at hx ⊢
          exact workerCallback_last fetch hx
        rw [hkept]
        exact if_pos haddr
      | some x => exact if_pos haddr
    rw [hphase]
    rw [hs, Option.toList_some, List.singleton_append] at hsent
    exact ⟨hon, response, hreply.trans hs, hsent⟩

/-- The response is written to the connection that has asked. -/
theorem Told.sent {a : Nat} {keepAlive : Bool} {response : Http}
    (h : Told fetch malloc stream w a (.sending keepAlive)) (hreply : w.reply = some response)
    (hhanded : w'.handed a = w.handed a) (hwritten : w'.written a = w.written a ++ [response])
    (hincoming : w'.incoming a = w.incoming a) :
    Told fetch malloc stream w' a (if keepAlive then .going else .ended) := by
  obtain ⟨hon, response', hreply', hsent⟩ := h
  obtain rfl := Option.some.inj (hreply.symm.trans hreply')
  rw [← hhanded, ← hincoming] at hon
  rw [List.append_cons, ← hwritten, ← hincoming] at hsent
  cases keepAlive with
  | true => exact ⟨hon, hsent⟩
  | false => exact ⟨⟨_, hon.symm⟩, .inl ⟨_, hsent.symm⟩⟩

end

/-! ## Every run -/

/-- `SweepsUnused` of the server. -/
def World.SweepsUnused (cfg : Config) (w : World) : Action → Prop :=
  Server.SweepsUnused cfg w.server

instance World.decidableSweepsUnused (cfg : Config) (w : World) :
    DecidablePred (World.SweepsUnused cfg w) := fun a =>
  inferInstanceAs (Decidable (Server.SweepsUnused cfg w.server a))

/-- Two clients send a request twice, and no other sends anything. -/
def askingAgain (a : Nat) : List RecvResult :=
  if a < 2 then List.replicate 2 (.data (ascii "GET / HTTP/1.1\r\n\r\n") [] 0) else []

def World.Serves (_ : World) (action : Action) : Prop := action ≠ .stop

instance World.decidableServes (w : World) : DecidablePred (World.Serves w) := fun action =>
  inferInstanceAs (Decidable (action ≠ .stop))

/-- The event of descriptor 5 is marked, and waits for the queue. -/
def marksFive : List Action := [.poll [some 5] 1, .sweep 1, .sweep 1, .sweep 1, .next]

def firstAnswer : List Action :=
  [.dispatch true, .next, .take 0, .receive (.request true), .send, .rearm true]

/-- The second event was marked before the first callback clears the flag, so the second callback
    runs unmarked; the sweep closes the connection under it (and the other one, which is idle), and
    a third client is accepted on the descriptor. -/
def closedUnderCallback : List Action :=
  [.clear 1, .unlock, .dispatch true, .next, .take 0, .receive (.request true), .poll [none] 100,
    .sweep 100, .sweepRemove, .sweep 100, .sweepRemove, .sweep 100, .next, .accept (some 5),
    .append true 100, .send]

/-- The third client, who sends nothing, gets the response to the first. -/
theorem reply_crosses :
    (∃ w : World, Reach (World.step twoSlots (fun _ => notFound) fun _ _ => 0) World.Serves
        (.start twoSlots askingAgain) w ∧ w.handed 2 = [] ∧ w.written 2 = [notFound]) ∧
      sentOn (fun _ => notFound) (fun _ => 0) (askingAgain 2) = [] := by
  constructor
  · obtain ⟨w, hw, hstate⟩ := Reach.of_exec_map
      (show (exec (guarded (World.step twoSlots (fun _ => notFound) fun _ _ => 0) World.Serves)
        (.start twoSlots askingAgain)
        (twoClients ++ marksFive ++ firstAnswer ++ marksFive ++ closedUnderCallback)).map
          (fun w => (w.handed 2, w.written 2)) = some ([], [notFound]) by decide +kernel)
    exact ⟨w, hw, Prod.mk.inj hstate⟩
  · rw [sentOn_call]
    rfl

end Foxtails.Server
