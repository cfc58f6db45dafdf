/-
  `server_remove_client` against the rest of the server.

  A slot can be removed by the idle sweep and by a worker. What keeps the two apart is that
  epoll's events are one-shot: a slot is armed, or exactly one event of the batch, queued action
  or callback names it (`Tracked`). The sweep breaks this: it runs between `epoll_wait` and the
  dispatch of the batch, and `in_flight` is only set at dispatch, so it can close a slot whose
  event is in the batch. The event is then dispatched and a worker removes the slot again.

  * `safe_step`: every step of `main`'s loop and of the workers keeps `Safe`, as long as the
    sweep only closes slots that nothing names.
  * `remove_calls_proper`: in the runs where it does, every call of `server_remove_client` names
    a live slot that holds the caller's connection; the free list has no slot twice, and no
    connection is closed or freed twice.
  * `sweep_removes_twice`: in other runs it is not so.
-/
import Foxtails.Lib.Run
import Foxtails.Server.Slots
import Foxtails.Server.Step
import Mathlib.Data.List.ReduceOption

namespace Foxtails.Server

open Foxtails.Lib.Run Table

/-! ## Who names a slot -/

/-- The slots named by events that are not dispatched yet. -/
def MainPc.named : MainPc → List Nat
  | .sweep batch _ | .sweepRemove batch _ _ | .events batch => batch.reduceOption
  | .dispatch i batch => i :: batch.reduceOption
  | .accept batch | .append _ batch => batch.reduceOption
  | _ => []

/-- The socket `main` has accepted and not placed. -/
def MainPc.pending : MainPc → Option Socket
  | .append sock _ => some sock
  | _ => none

/-- `main` is in its loop. -/
def MainPc.Serving : MainPc → Prop
  | .delete _ | .deleteClose _ | .deleteFree _ | .deletePool | .join | .deleted => False
  | _ => True

/-- The client of a callback that has not made its last access to the connection: the re-arm or
    the removal. -/
def CallbackPc.uses : CallbackPc → List Client
  | .receive c | .send c _ | .rearm c | .remove c => [c]
  | _ => []

/-- The clients of the running and the queued actions. -/
def State.actions (s : State) : List Client :=
  (match s.callback with
    | some (_, pc) => pc.uses
    | none => []) ++ s.queue

def State.named (s : State) : List Nat := s.main.named ++ s.actions.map Client.idx

/-- The clients given to the calls of `server_remove_client` that come next. -/
def State.removing (s : State) : List Client :=
  (match s.main with
    | .sweepRemove _ _ c => [c]
    | _ => []) ++
  match s.callback with
    | some (_, .remove c) => [c]
    | _ => []

theorem actions_eq {s : State} {worker : Nat} {pc : CallbackPc}
    (h : s.callback = some (worker, pc)) : s.actions = pc.uses ++ s.queue := by
  unfold State.actions
  rw [h]

theorem actions_idle {s : State} (h : s.callback = none) : s.actions = s.queue := by
  unfold State.actions
  rw [h]
  rfl

/-- The callback goes on with the same client. -/
theorem actions_next {s : State} {worker : Nat} {pc : CallbackPc}
    (h : s.callback = some (worker, pc)) {pc' : CallbackPc} (huses : pc'.uses = pc.uses) :
    ({ s with callback := some (worker, pc') } : State).actions.Sublist s.actions := by
  rw [actions_eq h, ← huses]
  exact List.Sublist.refl _

/-- The worker takes the first of the queue. -/
theorem actions_take {s : State} {worker : Nat} {c : Client} {queue : List Client}
    (hidle : s.callback = none) (hqueue : s.queue = c :: queue) :
    ({ s with callback := some (worker, .receive c), queue := queue } : State).actions.Sublist
      s.actions := by
  rw [actions_idle hidle, hqueue]
  exact List.Sublist.refl _

/-- The worker is done. -/
theorem actions_unlock {s : State} {worker : Nat} (h : s.callback = some (worker, .unlock)) :
    ({ s with callback := none } : State).actions.Sublist s.actions := by
  rw [actions_eq h]
  exact List.Sublist.refl _

theorem uses_next (c : Client) (outcome : Received) : (outcome.next c).uses = [c] := by
  cases outcome <;> rfl

theorem uses_sent (c : Client) (keepAlive : Bool) :
    (if keepAlive then CallbackPc.rearm c else .remove c).uses = [c] := by
  cases keepAlive <;> rfl

theorem named_eq {s : State} {pc : MainPc} (h : s.main = pc) :
    s.named = pc.named ++ s.actions.map Client.idx := by rw [State.named, h]

/-! ## One-shot events -/

/-- Each of these slots is named once, is live, and is not armed. -/
def Tracked (t : Table) (named : List Nat) : Prop :=
  named.Nodup ∧ ∀ i ∈ named, t.Alive i ∧ ∀ fd, t.epoll fd ≠ some ⟨i, true⟩

variable {n : Nat} {t t' : Table} {pending : Option Socket} {named named' : List Nat}

theorem Tracked.perm (h : Tracked t named) (hp : named.Perm named') : Tracked t named' :=
  ⟨hp.nodup_iff.mp h.1, fun i hi => h.2 i (hp.mem_iff.mpr hi)⟩

theorem Tracked.sublist (h : Tracked t named) (hs : named'.Sublist named) : Tracked t named' :=
  ⟨h.1.sublist hs, fun i hi => h.2 i (hs.subset hi)⟩

theorem Tracked.flags (h : Tracked t named) {clients : Nat → Client}
    (halive : ∀ i, (clients i).isAlive = (t.clients i).isAlive) :
    Tracked { t with clients := clients } named :=
  ⟨h.1, fun i hi => ⟨(halive i).trans (h.2 i hi).1, (h.2 i hi).2⟩⟩

theorem Tracked.mark (h : Tracked t named) (i : Nat) : Tracked (t.mark i) named :=
  h.flags fun j => by by_cases hj : j = i <;> simp [hj]

theorem Tracked.clear (h : Tracked t named) (i : Nat) (kept : Bool) (now : Int) :
    Tracked (t.clear i kept now) named :=
  h.flags fun j => by by_cases hj : j = i <;> simp [hj]

/-- Returning an event: its slot was armed, so nothing named it. -/
theorem Tracked.disarm (h : Tracked t named) (hslots : Slots n t pending) {fd i : Nat}
    (hfd : t.epoll fd = some ⟨i, true⟩) :
    Tracked { t with epoll := Function.update t.epoll fd (some ⟨i, false⟩) } (i :: named) := by
  obtain ⟨halive, hsocket⟩ := hslots.registered fd _ hfd
  have hnot : i ∉ named := fun hi => (h.2 i hi).2 fd hfd
  refine ⟨List.nodup_cons.mpr ⟨hnot, h.1⟩, fun j hj => ?_⟩
  rcases List.mem_cons.mp hj with rfl | hj
  · refine ⟨halive, fun fd' hfd' => ?_⟩
    simp only [Function.update_apply] at hfd'
    split_ifs at hfd' with heq
    · cases hfd'
    · exact heq ((hslots.registered fd' _ hfd').2.symm.trans hsocket)
  · refine ⟨(h.2 j hj).1, fun fd' hfd' => ?_⟩
    simp only [Function.update_apply] at hfd'
    split_ifs at hfd'
    · cases hfd'
    · exact (h.2 j hj).2 fd' hfd'

/-- `epoll_wait` moves the slots of its events from the armed to the named. -/
theorem Tracked.report {ready events : List (Option Nat)} (h : Tracked t named)
    (hslots : Slots n t pending) (hreport : t.report ready = some (events, t')) :
    Tracked t' (events.reduceOption ++ named) ∧ Slots n t' pending ∧ t'.clients = t.clients := by
  induction ready generalizing t named events with
  | nil =>
    simp only [Table.report, Option.some.injEq, Prod.mk.injEq] at hreport
    obtain ⟨rfl, rfl⟩ := hreport
    exact ⟨h, hslots, rfl⟩
  | cons r ready ih =>
    cases r with
    | none =>
      rw [Table.report, Option.map_eq_some_iff] at hreport
      obtain ⟨⟨events, t₁⟩, hrest, heq⟩ := hreport
      simp only [Prod.mk.injEq] at heq
      obtain ⟨rfl, rfl⟩ := heq
      rw [List.reduceOption_cons_of_none]
      exact ih h hslots hrest
    | some fd =>
      rw [Table.report] at hreport
      split at hreport
      · rename_i i hfd
        obtain ⟨⟨events, t₁⟩, hrest, heq⟩ := Option.map_eq_some_iff.mp hreport
        simp only [Prod.mk.injEq] at heq
        obtain ⟨rfl, rfl⟩ := heq
        obtain ⟨halive, hsocket⟩ := hslots.registered fd _ hfd
        have := ih (h.disarm hslots hfd) (hslots.setEpoll halive hsocket) hrest
        refine ⟨this.1.perm ?_, this.2⟩
        rw [List.reduceOption_cons_of_some, List.cons_append]
        exact List.perm_middle
      · cases hreport

/-- Re-arming the slot of a callback that names it. -/
theorem Tracked.arm {i fd : Nat} {front back : List Nat} (h : Tracked t (front ++ i :: back)) :
    Tracked (t.arm fd i) (front ++ back) := by
  have hp := h.perm List.perm_middle
  obtain ⟨hnot, hnd⟩ := List.nodup_cons.mp hp.1
  refine ⟨hnd, fun j hj => ?_⟩
  obtain ⟨halive, harmed⟩ := hp.2 j (List.mem_cons_of_mem _ hj)
  refine ⟨halive, fun fd' hfd' => ?_⟩
  simp only [Table.arm, Function.update_apply] at hfd'
  split_ifs at hfd'
  · simp only [Option.some.injEq, Registration.mk.injEq, and_true] at hfd'
    exact hnot (hfd' ▸ hj)
  · exact harmed fd' hfd'

/-- Removing a slot that nothing names. -/
theorem Tracked.removeClient {c : Client} (h : Tracked t named) (hc : c.idx ∉ named) :
    Tracked (t.removeClient n c) named := by
  refine ⟨h.1, fun i hi => ?_⟩
  rw [alive_removeClient]
  exact ⟨⟨fun e => hc (e ▸ hi), (h.2 i hi).1⟩, fun fd hfd =>
    (h.2 i hi).2 fd (epoll_removeClient t n c hfd).2⟩

/-- The slot a connection is placed in was free, so nothing named it. -/
theorem Tracked.appendClient (h : Tracked t named) (hslots : Slots n t pending) (sock : Socket)
    (now : Int) (added : Bool) :
    Tracked (t.appendClient n sock now added) named ∧
      ∀ i ∈ named, (t.appendClient n sock now added).clients i = t.clients i := by
  have hclosed : ∀ i, (∀ fd, t.epoll fd ≠ some ⟨i, true⟩) →
      ∀ fd, Function.update t.epoll sock.fd none fd ≠ some ⟨i, true⟩ := by
    intro i hi fd hfd
    rw [Function.update_apply] at hfd
    split_ifs at hfd
    exact hi fd hfd
  rcases t.appendClient_cases n sock now added with
    ⟨-, heq⟩ | ⟨i, rest, hfree, ⟨-, heq⟩ | ⟨-, heq⟩⟩ <;> rw [heq]
  · exact ⟨⟨h.1, fun j hj => ⟨(h.2 j hj).1, hclosed j (h.2 j hj).2⟩⟩, fun _ _ => rfl⟩
  all_goals
    have hdead := (hslots.free i (by rw [hfree]; exact List.mem_cons_self)).2
    have hne : ∀ j ∈ named, j ≠ i := fun j hj e => hdead (e ▸ (h.2 j hj).1)
    have hkeep : ∀ j ∈ named, ∀ c, Function.update t.clients i c j = t.clients j := fun j hj c =>
      Function.update_of_ne (hne j hj) ..
    refine ⟨⟨h.1, fun j hj => ⟨?_, ?_⟩⟩, fun j hj => hkeep j hj _⟩
    · simp only [Table.Alive, hkeep j hj]
      exact (h.2 j hj).1
  · intro fd hfd
    simp only [Function.update_apply] at hfd
    split_ifs at hfd
    · simp only [Option.some.injEq, Registration.mk.injEq, and_true] at hfd
      exact hne j hj hfd.symm
    · exact (h.2 j hj).2 fd hfd
  · exact hclosed j (h.2 j hj).2

/-! ## The invariant of the server -/

structure Safe (cfg : Config) (s : State) : Prop where
  serving : s.main.Serving
  slots : Slots cfg.maxConnections s.table s.main.pending
  tracked : Tracked s.table s.named
  /-- Every copy holds the socket of its slot. -/
  copies : ∀ c ∈ s.actions, (s.table.clients c.idx).socket = c.socket
  /-- The snapshot the sweep removes is current, and nothing else names its slot. -/
  snapshot : ∀ events i c, s.main = .sweepRemove events i c →
    s.table.Alive c.idx ∧ (s.table.clients c.idx).socket = c.socket ∧ c.idx ∉ s.named

/-- The slot the sweep's next step decides to close. -/
def State.closing (cfg : Config) (s : State) (now : Int) : Option Nat :=
  match s.main with
  | .sweep _ i => if Idle cfg s.table i now then some i else none
  | _ => none

/-- The sweep closes a slot only if no event of the batch, queued action or running callback
    names it; the server is not stopped. -/
def SweepsUnused (cfg : Config) (s : State) : Action → Prop
  | .sweep now => ∀ i ∈ s.closing cfg now, i ∉ s.named
  | .stop => False
  | _ => True

instance (cfg : Config) (s : State) : DecidablePred (SweepsUnused cfg s)
  | .sweep now => inferInstanceAs (Decidable (∀ i ∈ s.closing cfg now, i ∉ s.named))
  | .stop => isFalse id
  | .poll .. | .sweepRemove | .next | .dispatch .. | .accept .. | .append .. | .take ..
  | .receive .. | .send | .rearm .. | .remove | .clear .. | .unlock | .exit .. | .delete =>
    isTrue trivial

variable {cfg : Config} {s s' : State}

theorem safe_start (cfg : Config) : Safe cfg (start cfg) :=
  ⟨trivial, slots_init _, ⟨List.nodup_nil, fun _ h => (by cases h)⟩, fun _ h => (by cases h),
    fun _ _ _ h => (by cases h)⟩

theorem Safe.named_alive (h : Safe cfg s) {c : Client} (hc : c ∈ s.actions) :
    s.table.Alive c.idx :=
  (h.tracked.2 _ (List.mem_append_right _ (List.mem_map_of_mem hc))).1

/-- The invariant where `main` is at `pc`. -/
theorem Safe.at_main (h : Safe cfg s) {pc : MainPc} (hmain : s.main = pc) :
    Slots cfg.maxConnections s.table pc.pending ∧
      Tracked s.table (pc.named ++ s.actions.map Client.idx) :=
  ⟨hmain ▸ h.slots, named_eq hmain ▸ h.tracked⟩

/-- The invariant where the callback uses `c`. -/
theorem Safe.at_callback (h : Safe cfg s) {worker : Nat} {pc : CallbackPc} {c : Client}
    (hcallback : s.callback = some (worker, pc)) (huses : pc.uses = [c]) :
    Tracked s.table (s.main.named ++ c.idx :: s.queue.map Client.idx) ∧
      s.table.Alive c.idx ∧ (s.table.clients c.idx).socket = c.socket ∧
      ∀ d ∈ s.queue, (s.table.clients d.idx).socket = d.socket := by
  have hactions : s.actions = c :: s.queue := by rw [actions_eq hcallback, huses]; rfl
  have htracked := h.tracked
  have hcopies := h.copies
  rw [State.named, hactions, List.map_cons] at htracked
  rw [hactions, List.forall_mem_cons] at hcopies
  exact ⟨htracked, (htracked.2 _ (List.mem_append_right _ List.mem_cons_self)).1, hcopies⟩

/-! ### Steps of `main` -/

theorem safe_poll {ready : List (Option Nat)} {now : Int} (h : Safe cfg s)
    (hstep : step cfg s (.poll ready now) = some s') : Safe cfg s' := by
  obtain ⟨hmain, events, table, hreport, rfl⟩ := step_poll hstep
  obtain ⟨hslots, htracked⟩ := h.at_main hmain
  obtain ⟨ht, hs, hclients⟩ := htracked.report hslots hreport
  refine ⟨trivial, hs, ht, fun c hc => ?_, fun _ _ _ e => by cases e⟩
  show (table.clients c.idx).socket = c.socket
  rw [hclients]
  exact h.copies c hc

theorem safe_sweep {now : Int} (h : Safe cfg s) (hok : SweepsUnused cfg s (.sweep now))
    (hstep : step cfg s (.sweep now) = some s') : Safe cfg s' := by
  obtain ⟨events, i, hmain, hcases⟩ := step_sweep hstep
  obtain ⟨hslots, htracked⟩ := h.at_main hmain
  rcases hcases with ⟨oldest, rfl⟩ | ⟨hidle, rfl⟩ | rfl
  · exact ⟨trivial, hslots, htracked, h.copies, fun _ _ _ e => by cases e⟩
  · have hidx := (h.slots.live i hidle.2.1).2.1
    have hunused := hok i (by simp only [State.closing, hmain, if_pos hidle, Option.mem_some_iff])
    rw [named_eq hmain] at hunused
    refine ⟨trivial, hslots, htracked, h.copies, fun _ _ _ e => ?_⟩
    obtain ⟨rfl, rfl, rfl⟩ := MainPc.sweepRemove.inj e
    rw [hidx]
    exact ⟨hidle.2.1, rfl, hunused⟩
  · exact ⟨trivial, hslots, htracked, h.copies, fun _ _ _ e => by cases e⟩

theorem safe_sweepRemove (h : Safe cfg s) (hstep : step cfg s .sweepRemove = some s') :
    Safe cfg s' := by
  obtain ⟨events, i, c, hmain, rfl⟩ := step_sweepRemove hstep
  obtain ⟨halive, hsocket, hunused⟩ := h.snapshot _ _ _ hmain
  obtain ⟨hslots, htracked⟩ := h.at_main hmain
  rw [named_eq hmain] at hunused
  refine ⟨trivial, hslots.removeClient halive hsocket, htracked.removeClient hunused,
    fun d hd => ?_, fun _ _ _ e => by cases e⟩
  rw [socket_removeClient]
  exact h.copies d hd

theorem safe_next (h : Safe cfg s) (hstep : step cfg s .next = some s') : Safe cfg s' := by
  rcases step_next hstep with ⟨hmain, rfl⟩ | ⟨i, rest, hmain, rfl⟩ | ⟨rest, pc, hmain, hpc, rfl⟩ <;>
    obtain ⟨hslots, htracked⟩ := h.at_main hmain
  · exact ⟨trivial, hslots, htracked, h.copies, fun _ _ _ e => by cases e⟩
  · refine ⟨trivial, hslots.mark i, htracked.mark i, fun c hc => ?_, fun _ _ _ e => by cases e⟩
    have hc := h.copies c hc
    by_cases hci : c.idx = i <;> simpa [mark, hci] using hc
  · rcases hpc with rfl | rfl <;>
      exact ⟨trivial, hslots, htracked, h.copies, fun _ _ _ e => by cases e⟩

theorem safe_dispatch {stored : Bool} (h : Safe cfg s)
    (hstep : step cfg s (.dispatch stored) = some s') : Safe cfg s' := by
  obtain ⟨i, rest, hmain, hidle, rfl⟩ := step_dispatch hstep
  obtain ⟨hslots, htracked⟩ := h.at_main hmain
  have hcopies := h.copies
  rw [actions_idle hidle] at htracked hcopies
  have hactions : ∀ queue main, ({ s with queue := queue, main := main } : State).actions = queue :=
    fun _ _ => actions_idle hidle
  cases stored with
  | false =>
    refine ⟨trivial, hslots, ?_, ?_, fun _ _ _ e => by cases e⟩
    · rw [State.named, hactions]
      exact htracked.sublist (List.sublist_cons_self _ _)
    · rw [hactions]
      exact hcopies
  | true =>
    have halive := (htracked.2 i List.mem_cons_self).1
    have hidx := (h.slots.live i halive).2.1
    refine ⟨trivial, hslots, ?_, ?_, fun _ _ _ e => by cases e⟩
    · -- the event's name goes behind the queue's
      rw [State.named, hactions]
      refine htracked.perm ?_
      show (i :: (rest.reduceOption ++ _)).Perm (rest.reduceOption ++ List.map _ (_ ++ [_]))
      rw [List.map_append, ← List.append_assoc, List.map_singleton, hidx]
      exact (List.perm_append_singleton i _).symm
    · rw [hactions]
      refine List.forall_mem_append.mpr ⟨hcopies, List.forall_mem_singleton.mpr ?_⟩
      rw [hidx]

theorem safe_accept {result : Option Nat} (h : Safe cfg s)
    (hstep : step cfg s (.accept result) = some s') : Safe cfg s' := by
  obtain ⟨rest, hmain, hcases⟩ := step_accept hstep
  obtain ⟨hslots, htracked⟩ := h.at_main hmain
  rcases hcases with rfl | ⟨fd, hfd, rfl⟩
  · exact ⟨trivial, hslots, htracked, h.copies, fun _ _ _ e => by cases e⟩
  · exact ⟨trivial, hslots.accept hfd, htracked, h.copies, fun _ _ _ e => by cases e⟩

theorem safe_append {added : Bool} {now : Int} (h : Safe cfg s)
    (hstep : step cfg s (.append added now) = some s') : Safe cfg s' := by
  obtain ⟨sock, rest, rejects, hmain, rfl⟩ := step_append hstep
  obtain ⟨hslots, htracked⟩ := h.at_main hmain
  obtain ⟨ht, hkeep⟩ := htracked.appendClient hslots sock now added
  refine ⟨trivial, hslots.appendClient now added, ht, fun c hc => ?_, fun _ _ _ e => by cases e⟩
  show ((s.table.appendClient cfg.maxConnections sock now added).clients c.idx).socket = c.socket
  rw [hkeep _ (List.mem_append_right _ (List.mem_map_of_mem hc))]
  exact h.copies c hc

/-! ### Steps of the workers -/

/-- A step of a worker that leaves the table alone and names no more than before. -/
theorem Safe.worker (h : Safe cfg s) (htable : s'.table = s.table) (hmain : s'.main = s.main)
    (hactions : s'.actions.Sublist s.actions) : Safe cfg s' := by
  have hnamed : s'.named.Sublist s.named := by
    unfold State.named
    rw [hmain]
    exact (hactions.map _).append_left _
  refine ⟨hmain ▸ h.serving, ?_, ?_, fun c hc => ?_, fun events i c hc => ?_⟩
  · rw [htable, hmain]
    exact h.slots
  · rw [htable]
    exact h.tracked.sublist hnamed
  · rw [htable]
    exact h.copies c (hactions.subset hc)
  · rw [hmain] at hc
    obtain ⟨halive, hsocket, hunused⟩ := h.snapshot events i c hc
    rw [htable]
    exact ⟨halive, hsocket, fun hm => hunused (hnamed.subset hm)⟩

theorem safe_take {worker : Nat} (h : Safe cfg s) (hstep : step cfg s (.take worker) = some s') :
    Safe cfg s' := by
  obtain ⟨c, queue, hidle, hqueue, -, rfl⟩ := step_take hstep
  exact h.worker rfl rfl (actions_take hidle hqueue)

theorem safe_receive {outcome : Received} (h : Safe cfg s)
    (hstep : step cfg s (.receive outcome) = some s') : Safe cfg s' := by
  obtain ⟨worker, c, hcallback, rfl⟩ := step_receive hstep
  exact h.worker rfl rfl (actions_next hcallback (uses_next c outcome))

theorem safe_send (h : Safe cfg s) (hstep : step cfg s .send = some s') : Safe cfg s' := by
  obtain ⟨worker, c, keepAlive, hcallback, rfl⟩ := step_send hstep
  exact h.worker rfl rfl (actions_next hcallback (uses_sent c keepAlive))

theorem safe_rearm {ok : Bool} (h : Safe cfg s) (hstep : step cfg s (.rearm ok) = some s') :
    Safe cfg s' := by
  obtain ⟨worker, c, hcallback, ⟨rfl, -, rfl⟩ | ⟨rfl, rfl⟩⟩ := step_rearm hstep
  · obtain ⟨htracked, halive, hsocket, hqueue⟩ := h.at_callback hcallback rfl
    refine ⟨h.serving, h.slots.setEpoll halive (congrArg Socket.fd hsocket), htracked.arm, hqueue,
      fun events i d hd => ?_⟩
    obtain ⟨halived, hsocketd, hunused⟩ := h.snapshot events i d hd
    refine ⟨halived, hsocketd, fun hm => hunused ?_⟩
    rw [State.named, actions_eq hcallback]
    exact ((List.sublist_cons_self _ _).append_left _).subset hm
  · exact h.worker rfl rfl (actions_next hcallback rfl)

theorem safe_remove (h : Safe cfg s) (hstep : step cfg s .remove = some s') : Safe cfg s' := by
  obtain ⟨worker, c, hcallback, rfl⟩ := step_remove hstep
  obtain ⟨htracked, halive, hsocket, hqueue⟩ := h.at_callback hcallback rfl
  -- the callback names its slot for the last time
  obtain ⟨hunnamed, -⟩ := List.nodup_cons.mp (htracked.perm List.perm_middle).1
  have hrest := htracked.sublist ((List.sublist_cons_self _ _).append_left _)
  refine ⟨h.serving, h.slots.removeClient halive hsocket, hrest.removeClient hunnamed,
    fun d hd => ?_, fun events i d hd => ?_⟩
  · rw [socket_removeClient]
    exact hqueue d hd
  · obtain ⟨halived, hsocketd, hunused⟩ := h.snapshot events i d hd
    rw [State.named, actions_eq hcallback] at hunused
    have hne : d.idx ≠ c.idx := fun e => hunused (e ▸ by simp [CallbackPc.uses])
    rw [alive_removeClient, socket_removeClient]
    exact ⟨⟨hne, halived⟩, hsocketd, fun hm =>
      hunused (((List.sublist_cons_self _ _).append_left _).subset hm)⟩

theorem safe_clear {now : Int} (h : Safe cfg s) (hstep : step cfg s (.clear now) = some s') :
    Safe cfg s' := by
  obtain ⟨worker, c, kept, hcallback, rfl⟩ := step_clear hstep
  have hcopies := h.copies
  have htracked := h.tracked
  rw [State.named, actions_eq hcallback] at htracked
  rw [actions_eq hcallback] at hcopies
  have hsocket : ∀ i, ((s.table.clear c.idx kept now).clients i).socket =
      (s.table.clients i).socket := fun i => by by_cases hi : i = c.idx <;> simp [Table.clear, hi]
  refine ⟨h.serving, h.slots.clear _ _ _, htracked.clear _ _ _, fun d hd => ?_,
    fun events i d hd => ?_⟩
  · show ((s.table.clear c.idx kept now).clients d.idx).socket = d.socket
    rw [hsocket]
    exact hcopies d hd
  · obtain ⟨halived, hsocketd, hunused⟩ := h.snapshot events i d hd
    rw [State.named, actions_eq hcallback] at hunused
    refine ⟨?_, (hsocket _).trans hsocketd, hunused⟩
    by_cases hi : d.idx = c.idx
    · rw [hi] at halived ⊢
      simpa [Table.clear, Alive] using halived
    · simpa [Table.clear, Alive, hi] using halived

theorem safe_unlock (h : Safe cfg s) (hstep : step cfg s .unlock = some s') : Safe cfg s' := by
  obtain ⟨worker, hcallback, rfl⟩ := step_unlock hstep
  exact h.worker rfl rfl (actions_unlock hcallback)

theorem safe_exit {worker : Nat} (h : Safe cfg s) (hstep : step cfg s (.exit worker) = some s') :
    Safe cfg s' := by
  obtain rfl := step_exit hstep
  exact h.worker rfl rfl (List.Sublist.refl _)

/-- `server_delete` has not been called. -/
theorem safe_delete (h : Safe cfg s) : step cfg s .delete = none := by
  have hserving := h.serving
  simp only [step, stepDelete]
  split <;> rename_i hmain
  all_goals first | rfl | exact absurd hserving (by rw [hmain]; exact not_false)

theorem safe_step {a : Action} (h : Safe cfg s) (hok : SweepsUnused cfg s a)
    (hstep : step cfg s a = some s') : Safe cfg s' := by
  cases a with
  | poll => exact safe_poll h hstep
  | sweep => exact safe_sweep h hok hstep
  | sweepRemove => exact safe_sweepRemove h hstep
  | next => exact safe_next h hstep
  | dispatch => exact safe_dispatch h hstep
  | accept => exact safe_accept h hstep
  | append => exact safe_append h hstep
  | take => exact safe_take h hstep
  | receive => exact safe_receive h hstep
  | send => exact safe_send h hstep
  | rearm => exact safe_rearm h hstep
  | remove => exact safe_remove h hstep
  | clear => exact safe_clear h hstep
  | unlock => exact safe_unlock h hstep
  | exit => exact safe_exit h hstep
  | stop => exact hok.elim
  | delete =>
    rw [safe_delete h] at hstep
    cases hstep

theorem safe_reach (h : Reach (step cfg) (SweepsUnused cfg) (start cfg) s) : Safe cfg s :=
  h.invariant (Safe cfg) (safe_start cfg) fun _ _ _ hsafe hok hstep => safe_step hsafe hok hstep

/-! ## Removing exactly once -/

/-- **Every removal is proper while the sweep only closes slots that nothing names**: each call
    of `server_remove_client` names a live slot that holds the connection of the caller's copy,
    the free list has no slot twice, and no connection is closed or freed twice. -/
theorem remove_calls_proper (cfg : Config) (s : State)
    (h : Reach (step cfg) (SweepsUnused cfg) (start cfg) s) :
    (∀ c ∈ s.removing, s.table.Alive c.idx ∧ (s.table.clients c.idx).socket = c.socket) ∧
    s.table.freeList.Nodup ∧ s.table.closes.Nodup ∧ s.table.frees.Nodup := by
  have hsafe := safe_reach h
  refine ⟨fun c hc => ?_, hsafe.slots.free_nodup, hsafe.slots.closes_nodup,
    hsafe.slots.frees_nodup⟩
  rcases List.mem_append.mp hc with hsweep | hworker
  · split at hsweep
    · obtain rfl := List.mem_singleton.mp hsweep
      obtain ⟨halive, hsocket, -⟩ := hsafe.snapshot _ _ _ ‹_›
      exact ⟨halive, hsocket⟩
    · cases hsweep
  · split at hworker
    · obtain rfl := List.mem_singleton.mp hworker
      have hmem : c ∈ s.actions := by
        rw [actions_eq ‹_›]
        exact List.mem_cons_self
      exact ⟨hsafe.named_alive hmem, hsafe.copies c hmem⟩
    · cases hworker

/-- Two slots and one worker. -/
def twoSlots : Config := { maxConnections := 2, keepAliveTimeout := 75, numWorkers := 1 }

/-- Two clients connect at time 0. -/
def twoClients : List Action :=
  [.poll [none] 0, .sweep 0, .sweep 0, .sweep 0, .next, .accept (some 5), .append true 0,
   .accept (some 6), .append true 0, .accept none, .next]

/-- `remove_calls_proper` where the sweep closes a client that was idle for 75 seconds. -/
theorem remove_calls_proper_idle :
    ∃ s : State, s.removing = [⟨⟨5, 0⟩, 0, 0, true, false⟩] ∧
      ∀ c ∈ s.removing, s.table.Alive c.idx ∧ (s.table.clients c.idx).socket = c.socket := by
  obtain ⟨s, hs, hremoving⟩ := Reach.of_exec_map
    (show (exec (guarded (step twoSlots) (SweepsUnused twoSlots)) (start twoSlots)
      (twoClients ++ [.poll [] 75, .sweep 75])).map State.removing =
        some [⟨⟨5, 0⟩, 0, 0, true, false⟩] from rfl)
  exact ⟨s, hremoving, (remove_calls_proper twoSlots s hs).1⟩

/-- The steps of the loop and of the workers. -/
def Serves (_ : State) (a : Action) : Prop := a ≠ .stop

instance (s : State) : DecidablePred (Serves s) := fun a => inferInstanceAs (Decidable (a ≠ .stop))

/-- A client connects at time 0, and another at time 50. -/
def clientsApart : List Action :=
  [.poll [none] 0, .sweep 0, .sweep 0, .sweep 0, .next, .accept (some 5), .append true 0,
   .accept none, .next,
   .poll [none] 50, .sweep 50, .sweep 50, .sweep 50, .next, .accept (some 6), .append true 50,
   .accept none, .next]

/-- The first one is idle for 75 seconds and then sends a request: `epoll_wait` returns its event,
    the sweep closes it, its event is dispatched and a worker receives nothing. -/
def staleEvent : List Action :=
  clientsApart ++ [.poll [some 5] 75, .sweep 75, .sweepRemove, .sweep 75, .sweep 75, .next,
    .dispatch true, .take 0, .receive .closed]

/-- The worker removes a slot that is not alive; then slot 0 is on the free list twice, and its
    connection was closed and freed twice. -/
theorem sweep_removes_twice :
    (∃ s : State, Reach (step twoSlots) Serves (start twoSlots) s ∧
      ¬ ∀ c ∈ s.removing, s.table.Alive c.idx ∧ (s.table.clients c.idx).socket = c.socket) ∧
    ∃ s : State, Reach (step twoSlots) Serves (start twoSlots) s ∧
      ¬ s.table.freeList.Nodup ∧ ¬ s.table.closes.Nodup ∧ ¬ s.table.frees.Nodup := by
  constructor
  · obtain ⟨s, hs, hremoving⟩ := Reach.of_exec_map
      (show (exec (guarded (step twoSlots) Serves) (start twoSlots) staleEvent).map
        (fun s => s.removing.map fun c => (s.table.clients c.idx).isAlive) = some [false] from rfl)
    refine ⟨s, hs, fun hall => ?_⟩
    obtain ⟨c, hc, hdead⟩ := List.mem_map.mp (hremoving ▸ List.mem_cons_self)
    exact absurd (hall c hc).1 (Bool.eq_false_iff.mp hdead)
  · obtain ⟨s, hs, hlogs⟩ := Reach.of_exec_map
      (show (exec (guarded (step twoSlots) Serves) (start twoSlots) (staleEvent ++ [.remove])).map
        (fun s => (s.table.freeList, s.table.closes, s.table.frees)) =
          some ([0, 0], [0, 0], [0, 0]) from rfl)
    simp only [Prod.mk.injEq] at hlogs
    obtain ⟨hfree, hcloses, hfrees⟩ := hlogs
    refine ⟨s, hs, ?_⟩
    rw [hfree, hcloses, hfrees]
    decide

end Foxtails.Server
