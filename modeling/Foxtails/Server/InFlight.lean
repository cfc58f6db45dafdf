/-
  `in_flight` against the rest of the server.

  `main` sets the flag of a slot when it dispatches the slot's event, and the worker clears it
  when it has re-armed or removed the slot. The re-arm comes first: once the descriptor is
  armed, `main` can fetch its next event, set the flag and wait in `dispatch_command` for the
  queue's lock, which the worker still holds. The worker then clears the flag `main` has set,
  and the action is queued without it.

  * `flagged_step`: every other step keeps the flag of every queued and running action.
  * `in_flight_while_used`: so in the runs without that order (and in which the sweep closes no
    slot whose event is in the batch) the flag is set, and the sweep closes no connection that a
    queued or running action uses.
  * `in_flight_cleared_late`: in other runs it is not set, and the sweep does.
-/
import Foxtails.Server.Removal

namespace Foxtails.Server

open Foxtails.Lib.Run Table

/-- The slot `main` has marked and is about to queue. -/
def State.dispatching (s : State) : Option Nat :=
  match s.main with
  | .dispatch i _ => some i
  | _ => none

/-- The slot whose flag the callback's last section clears. -/
def State.clearing (s : State) : Option Nat :=
  match s.callback with
  | some (_, .clear c _) => some c.idx
  | _ => none

/-- The sweep closes no slot with an event in the batch, and no worker clears the flag of the
    slot that `main` is about to queue; the server is not stopped. -/
def FlagKept (cfg : Config) (s : State) : Action → Prop
  | .sweep now => ∀ i ∈ s.closing cfg now, i ∉ s.main.named
  | .clear _ => ∀ i ∈ s.clearing, s.dispatching ≠ some i
  | .stop => False
  | _ => True

instance (cfg : Config) (s : State) : DecidablePred (FlagKept cfg s)
  | .sweep now => inferInstanceAs (Decidable (∀ i ∈ s.closing cfg now, i ∉ s.main.named))
  | .clear _ => inferInstanceAs (Decidable (∀ i ∈ s.clearing, s.dispatching ≠ some i))
  | .stop => isFalse id
  | .poll .. | .sweepRemove | .next | .dispatch .. | .accept .. | .append .. | .take ..
  | .receive .. | .send | .rearm .. | .remove | .unlock | .exit .. | .delete => isTrue trivial

structure Flagged (s : State) : Prop where
  actions : ∀ c ∈ s.actions, (s.table.clients c.idx).inFlight = true
  dispatching : ∀ i ∈ s.dispatching, (s.table.clients i).inFlight = true
  /-- The callback holds the queue's lock, so its slot is not queued again before it is done. -/
  clearing : ∀ i ∈ s.clearing, ∀ d ∈ s.queue, d.idx ≠ i

variable {cfg : Config} {s s' : State}

theorem flagged_start (cfg : Config) : Flagged (start cfg) :=
  ⟨fun _ h => (by cases h), fun _ h => (by cases h), fun _ h => (by cases h)⟩

/-- What the sweep decides to close is idle. -/
theorem idle_of_closing {now : Int} {i : Nat} (h : i ∈ s.closing cfg now) :
    Idle cfg s.table i now := by
  unfold State.closing at h
  split at h
  · split_ifs at h with hidle
    · obtain rfl := Option.some.inj h
      exact hidle
    · cases h
  · cases h

/-- The sweep skips the slots in flight, so what it closes is in no action. -/
theorem Flagged.closing (h : Flagged s) {now : Int} {i : Nat} (hi : i ∈ s.closing cfg now) :
    ∀ c ∈ s.actions, c.idx ≠ i := by
  intro c hc heq
  have hflag := h.actions c hc
  rw [heq, (idle_of_closing hi).2.2.1] at hflag
  cases hflag

theorem Flagged.sweepsUnused {a : Action} (h : Flagged s) (hok : FlagKept cfg s a) :
    SweepsUnused cfg s a := by
  cases a with
  | sweep now =>
    intro i hi hm
    rcases List.mem_append.mp hm with hbatch | haction
    · exact hok i hi hbatch
    · obtain ⟨c, hc, heq⟩ := List.mem_map.mp haction
      exact h.closing hi c hc heq
  | stop => exact hok
  | _ => trivial

/-- A step that clears no flag of a slot that is named, and marks and uses nothing new. -/
theorem Flagged.quiet (h : Flagged s)
    (hflag : ∀ i ∈ s.named, (s.table.clients i).inFlight = true →
      (s'.table.clients i).inFlight = true)
    (hactions : s'.actions.Sublist s.actions) (hqueue : s'.queue.Sublist s.queue)
    (hdispatching : ∀ i ∈ s'.dispatching, i ∈ s.dispatching)
    (hclearing : ∀ i ∈ s'.clearing, i ∈ s.clearing) : Flagged s' where
  actions c hc := by
    have hc := hactions.subset hc
    exact hflag _ (List.mem_append_right _ (List.mem_map_of_mem hc)) (h.actions c hc)
  dispatching i hi := by
    have hi := hdispatching i hi
    refine hflag i (List.mem_append_left _ ?_) (h.dispatching i hi)
    unfold State.dispatching at hi
    split at hi
    · obtain rfl := Option.some.inj hi
      rw [‹s.main = _›]
      exact List.mem_cons_self
    · cases hi
  clearing i hi d hd := h.clearing i (hclearing i hi) d (hqueue.subset hd)

/-- A step of `main` that leaves flags and actions alone and marks nothing. -/
theorem Flagged.main (h : Flagged s)
    (hflag : ∀ i ∈ s.named, (s.table.clients i).inFlight = true →
      (s'.table.clients i).inFlight = true)
    (hqueue : s'.queue = s.queue) (hcallback : s'.callback = s.callback)
    (hmain : s'.dispatching = none) : Flagged s' := by
  have hactions : s'.actions = s.actions := by unfold State.actions; rw [hqueue, hcallback]
  refine h.quiet hflag (hactions ▸ List.Sublist.refl _) (hqueue ▸ List.Sublist.refl _)
    (fun i hi => ?_) (fun i hi => ?_)
  · rw [hmain] at hi
    cases hi
  · unfold State.clearing at hi ⊢
    rwa [hcallback] at hi

/-- A step of a worker that leaves flags alone, before its last section. -/
theorem Flagged.worker (h : Flagged s) (htable : s'.table = s.table) (hmain : s'.main = s.main)
    (hactions : s'.actions.Sublist s.actions) (hqueue : s'.queue.Sublist s.queue)
    (hclearing : s'.clearing = none) : Flagged s' := by
  refine h.quiet (fun i _ hi => htable ▸ hi) hactions hqueue (fun i hi => ?_) (fun i hi => ?_)
  · unfold State.dispatching at hi ⊢
    rwa [hmain] at hi
  · rw [hclearing] at hi
    cases hi

theorem flagged_next (h : Flagged s) (hstep : step cfg s .next = some s') : Flagged s' := by
  obtain ⟨hmain, rfl⟩ | ⟨i, rest, hmain, rfl⟩ | ⟨rest, pc, hmain, hpc, rfl⟩ := step_next hstep
  · exact h.main (fun _ _ hi => hi) rfl rfl rfl
  · have hkeep : ∀ j, (s.table.clients j).inFlight = true →
        ((s.table.mark i).clients j).inFlight = true := by
      intro j hj
      by_cases hji : j = i <;> simp [mark, hji, hj]
    refine ⟨fun c hc => hkeep _ (h.actions c hc), fun j hj => ?_, h.clearing⟩
    obtain rfl := Option.some.inj hj
    simp [mark]
  · rcases hpc with rfl | rfl <;> exact h.main (fun _ _ hi => hi) rfl rfl rfl

theorem flagged_dispatch {stored : Bool} (hsafe : Safe cfg s) (h : Flagged s)
    (hstep : step cfg s (.dispatch stored) = some s') : Flagged s' := by
  obtain ⟨i, rest, hmain, hidle, rfl⟩ := step_dispatch hstep
  cases stored with
  | false => exact h.main (fun _ _ hi => hi) rfl rfl rfl
  | true =>
    have hflag := h.dispatching i (by rw [State.dispatching, hmain]; rfl)
    have hmem : i ∈ s.named := by
      rw [named_eq hmain]
      exact List.mem_cons_self
    have hidx := (hsafe.slots.live i (hsafe.tracked.2 i hmem).1).2.1
    have hqueue : ∀ queue main, ({ s with queue := queue, main := main } : State).actions = queue :=
      fun _ _ => actions_idle hidle
    refine ⟨fun c hc => ?_, fun _ hj => (by cases hj), fun j hj => ?_⟩
    · rw [hqueue] at hc
      rcases List.mem_append.mp hc with hc | hc
      · exact h.actions c (by rwa [actions_idle hidle])
      · obtain rfl := List.mem_singleton.mp hc
        show (s.table.clients (s.table.clients i).idx).inFlight = true
        rw [hidx]
        exact hflag
    · unfold State.clearing at hj
      simp only [hidle] at hj
      cases hj

/-- The callback's slot, after its last access to the connection. -/
theorem Flagged.finish (hsafe : Safe cfg s) (h : Flagged s) {worker : Nat} {pc : CallbackPc}
    {c : Client} (hcallback : s.callback = some (worker, pc)) (huses : pc.uses = [c])
    {table : Table} {kept : Bool}
    (hflag : ∀ i, (table.clients i).inFlight = (s.table.clients i).inFlight) :
    Flagged { s with table := table, callback := some (worker, .clear c kept) } := by
  have hactions : s.actions = c :: s.queue := by rw [actions_eq hcallback, huses]; rfl
  have hnamed := (List.nodup_append.mp (hsafe.at_callback hcallback huses).1.1).2.1
  refine ⟨fun d hd => ?_, fun i hi => ?_, fun i hi d hd => ?_⟩
  · show (table.clients d.idx).inFlight = true
    rw [hflag]
    exact h.actions d (hactions ▸ List.mem_cons_of_mem _ hd)
  · show (table.clients i).inFlight = true
    rw [hflag]
    exact h.dispatching i hi
  · obtain rfl := Option.some.inj hi
    exact fun heq => (List.nodup_cons.mp hnamed).1 (heq ▸ List.mem_map_of_mem hd)

theorem flagged_rearm {ok : Bool} (hsafe : Safe cfg s) (h : Flagged s)
    (hstep : step cfg s (.rearm ok) = some s') : Flagged s' := by
  obtain ⟨worker, c, hcallback, ⟨rfl, -, rfl⟩ | ⟨rfl, rfl⟩⟩ := step_rearm hstep
  · exact h.finish hsafe hcallback rfl fun _ => rfl
  · exact h.worker rfl rfl (actions_next hcallback rfl) (List.Sublist.refl _) rfl

theorem flagged_remove (hsafe : Safe cfg s) (h : Flagged s)
    (hstep : step cfg s .remove = some s') : Flagged s' := by
  obtain ⟨worker, c, hcallback, rfl⟩ := step_remove hstep
  exact h.finish hsafe hcallback rfl fun i => inFlight_removeClient ..

/-- The flag that is cleared is of a slot that is neither queued nor about to be. -/
theorem flagged_clear {now : Int} (h : Flagged s) (hok : FlagKept cfg s (.clear now))
    (hstep : step cfg s (.clear now) = some s') : Flagged s' := by
  obtain ⟨worker, c, kept, hcallback, rfl⟩ := step_clear hstep
  have hclearing : c.idx ∈ s.clearing := by rw [State.clearing, hcallback]; rfl
  have hother : ∀ i, i ≠ c.idx → (s.table.clients i).inFlight = true →
      ((s.table.clear c.idx kept now).clients i).inFlight = true := fun i hi hflag => by
    simpa [Table.clear, hi] using hflag
  refine ⟨fun d hd => ?_, fun i hi => ?_, fun _ hj => (by cases hj)⟩
  · refine hother d.idx (h.clearing _ hclearing d hd) (h.actions d ?_)
    rw [actions_eq hcallback]
    exact hd
  · refine hother i (fun heq => hok _ hclearing ?_) (h.dispatching i hi)
    rw [← heq]
    exact hi

theorem flagged_step {a : Action} (hsafe : Safe cfg s) (h : Flagged s) (hok : FlagKept cfg s a)
    (hstep : step cfg s a = some s') : Flagged s' := by
  cases a with
  | poll =>
    obtain ⟨hmain, events, table, hreport, rfl⟩ := step_poll hstep
    have hclients := (hsafe.tracked.report hsafe.slots hreport).2.2
    exact h.main (fun i _ hi => by show (table.clients i).inFlight = true; rwa [hclients]) rfl rfl rfl
  | sweep =>
    obtain ⟨events, i, hmain, ⟨oldest, rfl⟩ | ⟨hidle, rfl⟩ | rfl⟩ := step_sweep hstep <;>
      exact h.main (fun _ _ hi => hi) rfl rfl rfl
  | sweepRemove =>
    obtain ⟨events, i, c, hmain, rfl⟩ := step_sweepRemove hstep
    exact h.main (fun i _ hi => by rwa [inFlight_removeClient]) rfl rfl rfl
  | next => exact flagged_next h hstep
  | dispatch => exact flagged_dispatch hsafe h hstep
  | accept =>
    obtain ⟨rest, hmain, rfl | ⟨fd, hfd, rfl⟩⟩ := step_accept hstep <;>
      exact h.main (fun _ _ hi => hi) rfl rfl rfl
  | append added now =>
    obtain ⟨sock, rest, rejects, hmain, rfl⟩ := step_append hstep
    have hkeep := (hsafe.tracked.appendClient hsafe.slots sock now added).2
    exact h.main (fun i hi hflag => by rw [hkeep i hi]; exact hflag) rfl rfl rfl
  | take =>
    obtain ⟨c, queue, hidle, hqueue, -, rfl⟩ := step_take hstep
    exact h.worker rfl rfl (actions_take hidle hqueue) (hqueue ▸ List.sublist_cons_self _ _) rfl
  | receive outcome =>
    obtain ⟨worker, c, hcallback, rfl⟩ := step_receive hstep
    exact h.worker rfl rfl (actions_next hcallback (uses_next c outcome)) (List.Sublist.refl _)
      (by cases outcome <;> rfl)
  | send =>
    obtain ⟨worker, c, keepAlive, hcallback, rfl⟩ := step_send hstep
    exact h.worker rfl rfl (actions_next hcallback (uses_sent c keepAlive)) (List.Sublist.refl _)
      (by cases keepAlive <;> rfl)
  | rearm => exact flagged_rearm hsafe h hstep
  | remove => exact flagged_remove hsafe h hstep
  | clear => exact flagged_clear h hok hstep
  | unlock =>
    obtain ⟨worker, hcallback, rfl⟩ := step_unlock hstep
    exact h.worker rfl rfl (actions_unlock hcallback) (List.Sublist.refl _) rfl
  | exit =>
    obtain rfl := step_exit hstep
    exact h.quiet (fun _ _ hi => hi) (List.Sublist.refl _) (List.Sublist.refl _)
      (fun _ hi => hi) fun _ hi => hi
  | stop => exact hok.elim
  | delete =>
    rw [safe_delete hsafe] at hstep
    cases hstep

theorem flagged_reach (h : Reach (step cfg) (FlagKept cfg) (start cfg) s) :
    Safe cfg s ∧ Flagged s :=
  h.invariant (fun s => Safe cfg s ∧ Flagged s) ⟨safe_start cfg, flagged_start cfg⟩
    fun _ _ _ hs hok hstep =>
      ⟨safe_step hs.1 (hs.2.sweepsUnused hok) hstep, flagged_step hs.1 hs.2 hok hstep⟩

/-! ## The flag over whole runs -/

/-- **`in_flight` is set while a slot is used**: in every state of the runs in which no worker
    clears the flag of the slot `main` is about to queue and the sweep closes no slot with an
    event in the batch, the slot of every queued action, and of the running callback up to its
    last access to the connection, has the flag; and neither the slot the sweep decides to close
    nor the connection it is about to close is used by one of them. -/
theorem in_flight_while_used (cfg : Config) (s : State)
    (h : Reach (step cfg) (FlagKept cfg) (start cfg) s) :
    (∀ c ∈ s.actions, (s.table.clients c.idx).inFlight = true) ∧
    (∀ now, ∀ i ∈ s.closing cfg now, ∀ c ∈ s.actions, c.idx ≠ i) ∧
    ∀ events i snapshot, s.main = .sweepRemove events i snapshot → ∀ c ∈ s.actions,
      c.idx ≠ snapshot.idx ∧ c.socket.address ≠ snapshot.socket.address := by
  obtain ⟨hsafe, hflagged⟩ := flagged_reach h
  refine ⟨hflagged.actions, fun now i hi => hflagged.closing hi, fun events i d hd c hc => ?_⟩
  obtain ⟨halive, hsocket, hunused⟩ := hsafe.snapshot events i d hd
  have hne : c.idx ≠ d.idx := fun e =>
    hunused (List.mem_append_right _ (e ▸ List.mem_map_of_mem hc))
  refine ⟨hne, fun heq => hne ?_⟩
  refine hsafe.slots.distinct _ _ (hsafe.named_alive hc) halive ?_
  rw [hsafe.copies c hc, hsocket, heq]

/-- The first client's request is dispatched, and a worker runs it up to the re-arm. -/
def keptRequest : List Action :=
  twoClients ++ [.poll [some 5] 1, .sweep 1, .sweep 1, .sweep 1, .next, .dispatch true, .next,
    .take 0, .receive (.request true), .send]

/-- `in_flight_while_used` while the worker has yet to re-arm the slot. -/
theorem in_flight_while_used_kept :
    ∃ s : State, s.actions = [⟨⟨5, 0⟩, 0, 0, true, true⟩] ∧
      ∀ c ∈ s.actions, (s.table.clients c.idx).inFlight = true := by
  obtain ⟨s, hs, hactions⟩ := Reach.of_exec_map
    (show (exec (guarded (step twoSlots) (FlagKept twoSlots)) (start twoSlots) keptRequest).map
      State.actions = some [⟨⟨5, 0⟩, 0, 0, true, true⟩] from rfl)
  exact ⟨s, hactions, (in_flight_while_used twoSlots s hs).1⟩

/-- After the re-arm the client sends another request; its event is fetched and marked before
    the worker clears the flag, and queued after. Then 75 seconds pass. -/
def lateClear : List Action :=
  keptRequest ++ [.rearm true, .poll [some 5] 1, .sweep 1, .sweep 1, .sweep 1, .next, .clear 1,
    .unlock, .dispatch true, .next, .poll [] 76]

/-- A queued action's slot is not in flight, and the sweep decides to close it. -/
theorem in_flight_cleared_late :
    ∃ s : State, Reach (step twoSlots) Serves (start twoSlots) s ∧
      (¬ ∀ c ∈ s.actions, (s.table.clients c.idx).inFlight = true) ∧
      ¬ ∀ now, ∀ i ∈ s.closing twoSlots now, ∀ c ∈ s.actions, c.idx ≠ i := by
  obtain ⟨s, hs, hstate⟩ := Reach.of_exec_map
    (show (exec (guarded (step twoSlots) Serves) (start twoSlots) lateClear).map
      (fun s => (s.actions, (s.table.clients 0).inFlight, s.closing twoSlots 76)) =
        some ([⟨⟨5, 0⟩, 1, 0, true, false⟩], false, some 0) from rfl)
  simp only [Prod.mk.injEq] at hstate
  obtain ⟨hactions, hflag, hclosing⟩ := hstate
  refine ⟨s, hs, fun hall => ?_, fun hall => ?_⟩
  · have := hall _ (hactions ▸ List.mem_cons_self)
    rw [hflag] at this
    cases this
  · exact hall 76 0 hclosing _ (hactions ▸ List.mem_cons_self) rfl

end Foxtails.Server
