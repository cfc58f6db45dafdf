/-
  Who holds a live connection.

  A connection is handed on: epoll's one-shot event, the batch of events, the worker queue,
  the worker that handles it, and epoll again. `Held` lists these places. `dispatch_command`
  gives up silently when the queue cannot grow; `main` has set `in_flight` by then, so nobody
  comes back to the slot.

  * `Carries`: what holds a slot before a step holds it after.
  * `noOrphan_step`: every step keeps each live slot held, if a dispatched action is stored and
    the sweep closes no slot that is named.
  * `no_orphan`: so it is in every state of such a run.
  * `dispatch_orphans`: an action that is not stored leaves its slot to nobody.
-/
import Foxtails.Server.Removal

namespace Foxtails.Server

open Foxtails.Lib.Run Table

/-! ## Who holds a slot -/

/-- The one-shot event of slot `i` is still to come. -/
def Table.Armed (t : Table) (i : Nat) : Prop := ∃ fd, t.epoll fd = some ⟨i, true⟩

/-- The worker has re-armed slot `i` and clears its flag next. -/
def State.Clears (s : State) (i : Nat) : Prop :=
  ∃ worker c, s.callback = some (worker, .clear c true) ∧ c.idx = i

/-- Armed and not in flight, or about to be; or named by an event of the batch, by a queued
    action, or by the running callback. -/
inductive Held (s : State) (i : Nat) : Prop where
  | armed (harmed : s.table.Armed i) (hflag : (s.table.clients i).inFlight = false)
  | rearmed (harmed : s.table.Armed i) (hclears : s.Clears i)
  | batched (hbatch : i ∈ s.main.named)
  | queued (c : Client) (hqueue : c ∈ s.queue) (hidx : c.idx = i)
  | handled (worker : Nat) (pc : CallbackPc) (c : Client)
      (hcallback : s.callback = some (worker, pc)) (huses : c ∈ pc.uses) (hidx : c.idx = i)

theorem held_iff {s : State} {i : Nat} :
    Held s i ↔ (s.table.Armed i ∧ ((s.table.clients i).inFlight = false ∨ s.Clears i)) ∨
      i ∈ s.named := by
  constructor
  · rintro (⟨harmed, hflag⟩ | ⟨harmed, hclears⟩ | hbatch | ⟨c, hqueue, rfl⟩ |
      ⟨worker, pc, c, hcallback, huses, rfl⟩)
    · exact .inl ⟨harmed, .inl hflag⟩
    · exact .inl ⟨harmed, .inr hclears⟩
    · exact .inr (List.mem_append_left _ hbatch)
    · exact .inr (List.mem_append_right _ (List.mem_map_of_mem (List.mem_append_right _ hqueue)))
    · refine .inr (List.mem_append_right _ (List.mem_map_of_mem ?_))
      rw [actions_eq hcallback]
      exact List.mem_append_left _ huses
  · rintro (⟨harmed, hflag | hclears⟩ | hnamed)
    · exact .armed harmed hflag
    · exact .rearmed harmed hclears
    · rcases List.mem_append.mp hnamed with hbatch | haction
      · exact .batched hbatch
      · obtain ⟨c, hc, hidx⟩ := List.mem_map.mp haction
        cases hcallback : s.callback with
        | none =>
          rw [actions_idle hcallback] at hc
          exact .queued c hc hidx
        | some x =>
          obtain ⟨worker, pc⟩ := x
          rw [actions_eq hcallback] at hc
          rcases List.mem_append.mp hc with huses | hqueue
          · exact .handled worker pc c hcallback huses hidx
          · exact .queued c hqueue hidx

/-- Every live slot is held. -/
def NoOrphan (s : State) : Prop := ∀ i, s.table.Alive i → Held s i

/-- What holds slot `i` in `s` holds it in `s'`. -/
structure Carries (s s' : State) (i : Nat) : Prop where
  alive : s.table.Alive i
  named : i ∈ s.named → i ∈ s'.named
  armed : s.table.Armed i → s'.table.Armed i ∨ i ∈ s'.named
  flag : (s.table.clients i).inFlight = false →
    (s'.table.clients i).inFlight = false ∨ i ∈ s'.named
  clears : s.Clears i → s'.Clears i ∨ (s'.table.clients i).inFlight = false

variable {cfg : Config} {s s' : State} {i : Nat}

theorem Carries.held (h : Carries s s' i) (hs : NoOrphan s) : Held s' i := by
  rcases held_iff.mp (hs i h.alive) with ⟨harmed, hflag⟩ | hnamed
  · rcases h.armed harmed with harmed | hnamed
    · rcases hflag with hflag | hclears
      · rcases h.flag hflag with hflag | hnamed
        · exact .armed harmed hflag
        · exact held_iff.mpr (.inr hnamed)
      · rcases h.clears hclears with hclears | hflag
        · exact .rearmed harmed hclears
        · exact .armed harmed hflag
    · exact held_iff.mpr (.inr hnamed)
  · exact held_iff.mpr (.inr (h.named hnamed))

/-- A step that leaves the table alone, and ends no re-arm, only has to keep the names. -/
theorem NoOrphan.same_table (h : NoOrphan s) (htable : s'.table = s.table)
    (hnamed : s.named ⊆ s'.named) (hclears : ∀ i, s.Clears i → s'.Clears i) : NoOrphan s' := by
  intro i halive
  rw [htable] at halive
  refine Carries.held ⟨halive, fun hi => hnamed hi, ?_, ?_, fun hc => .inl (hclears i hc)⟩ h
  · rw [htable]
    exact .inl
  · rw [htable]
    exact .inl

/-! ## Registrations -/

/-- Different live slots have different descriptors. -/
theorem Slots.fd_ne {n : Nat} {t : Table} {pending : Option Socket} (h : Slots n t pending)
    {i j : Nat} (hi : t.Alive i) (hj : t.Alive j) (hne : i ≠ j) :
    (t.clients i).socket.fd ≠ (t.clients j).socket.fd :=
  (h.live i hi).2.2.fd_ne (h.live j hj).2.2 fun heq => hne (h.distinct i j hi hj heq)

/-- Changing the registration of another live slot's descriptor. -/
theorem Slots.armed_update {n : Nat} {t : Table} {pending : Option Socket} (h : Slots n t pending)
    {i j fd : Nat} (hj : t.Alive j) (hfd : (t.clients j).socket.fd = fd) (hne : i ≠ j)
    {r : Option Registration} (harmed : t.Armed i) :
    ∃ fd', Function.update t.epoll fd r fd' = some ⟨i, true⟩ := by
  obtain ⟨fd', hfd'⟩ := harmed
  obtain ⟨hi, hsocket⟩ := h.registered fd' _ hfd'
  have hdiff : fd' ≠ fd := by
    rw [← hsocket, ← hfd]
    exact h.fd_ne hi hj hne
  exact ⟨fd', by rw [Function.update_of_ne hdiff, hfd']⟩

/-- Placing the accepted socket: a live slot is the new one, armed, or is as it was. -/
theorem Slots.append_slot {n : Nat} {t : Table} {sock : Socket} (h : Slots n t (some sock))
    (now : Int) (added : Bool) {i : Nat} (hi : (t.appendClient n sock now added).Alive i) :
    ((t.appendClient n sock now added).Armed i ∧
        ((t.appendClient n sock now added).clients i).inFlight = false) ∨
      (t.Alive i ∧ (t.appendClient n sock now added).clients i = t.clients i ∧
        (t.Armed i → (t.appendClient n sock now added).Armed i)) := by
  obtain ⟨howns, hother⟩ := h.pending sock rfl
  -- the accepted socket is in no slot, so no registration is lost
  have hkeeps : ∀ r : Option Registration, t.Armed i →
      ∃ fd, Function.update t.epoll sock.fd r fd = some ⟨i, true⟩ := by
    rintro r ⟨fd, hfd⟩
    obtain ⟨hi, hsocket⟩ := h.registered fd _ hfd
    have hne : fd ≠ sock.fd := by
      rw [← hsocket]
      exact (h.live i hi).2.2.fd_ne howns (hother i hi)
    exact ⟨fd, by rw [Function.update_of_ne hne, hfd]⟩
  rcases t.appendClient_cases n sock now added with
    ⟨-, heq⟩ | ⟨j, free, hfree, ⟨-, heq⟩ | ⟨-, heq⟩⟩ <;> rw [heq] at hi ⊢
  · exact .inr ⟨hi, rfl, hkeeps none⟩
  · by_cases hij : i = j
    · subst hij
      refine .inl ⟨⟨sock.fd, Function.update_self ..⟩, ?_⟩
      show (Function.update t.clients i _ i).inFlight = false
      rw [Function.update_self]
    · have hclient : ∀ c, Function.update t.clients j c i = t.clients i := fun c =>
        Function.update_of_ne hij ..
      refine .inr ⟨?_, hclient _, hkeeps _⟩
      simpa only [Alive, hclient] using hi
  · by_cases hij : i = j
    · subst hij
      simp only [Alive, Function.update_self] at hi
      cases hi
    · have hclient : ∀ c, Function.update t.clients j c i = t.clients i := fun c =>
        Function.update_of_ne hij ..
      refine .inr ⟨?_, hclient _, hkeeps none⟩
      simpa only [Alive, hclient] using hi

/-- An armed slot stays armed, or its event is in the batch. -/
theorem armed_report {ready events : List (Option Nat)} {t t' : Table}
    (h : t.report ready = some (events, t')) {i : Nat} (harmed : t.Armed i) :
    t'.Armed i ∨ i ∈ events.reduceOption := by
  induction ready generalizing t events with
  | nil =>
    simp only [Table.report, Option.some.injEq, Prod.mk.injEq] at h
    obtain ⟨rfl, rfl⟩ := h
    exact .inl harmed
  | cons r ready ih =>
    cases r with
    | none =>
      rw [Table.report, Option.map_eq_some_iff] at h
      obtain ⟨⟨events, t₁⟩, hrest, heq⟩ := h
      simp only [Prod.mk.injEq] at heq
      obtain ⟨rfl, rfl⟩ := heq
      rw [List.reduceOption_cons_of_none]
      exact ih hrest harmed
    | some fd =>
      rw [Table.report] at h
      split at h
      · rename_i j hfd
        obtain ⟨⟨events, t₁⟩, hrest, heq⟩ := Option.map_eq_some_iff.mp h
        simp only [Prod.mk.injEq] at heq
        obtain ⟨rfl, rfl⟩ := heq
        rw [List.reduceOption_cons_of_some]
        obtain ⟨fd', hfd'⟩ := harmed
        by_cases hsame : fd' = fd
        · -- it is the event that is returned here
          subst hsame
          rw [hfd, Option.some.injEq, Registration.mk.injEq] at hfd'
          exact .inr (hfd'.1 ▸ List.mem_cons_self)
        · have hstill : Table.Armed { t with
              epoll := Function.update t.epoll fd (some ⟨j, false⟩) } i :=
            ⟨fd', by simp [Function.update_of_ne hsame, hfd']⟩
          exact (ih hrest hstill).imp_right (List.mem_cons_of_mem j)
      · cases h

/-! ## Steps of `main` -/

/-- A dispatched action is stored, and the sweep closes no slot that is named; the server is
    not stopped. -/
def HandsOver (cfg : Config) (s : State) : Action → Prop
  | .dispatch stored => stored = true
  | .sweep now => ∀ i ∈ s.closing cfg now, i ∉ s.named
  | .stop => False
  | _ => True

instance (cfg : Config) (s : State) : DecidablePred (HandsOver cfg s)
  | .dispatch stored => inferInstanceAs (Decidable (stored = true))
  | .sweep now => inferInstanceAs (Decidable (∀ i ∈ s.closing cfg now, i ∉ s.named))
  | .stop => isFalse id
  | .poll .. | .sweepRemove | .next | .accept .. | .append .. | .take .. | .receive .. | .send
  | .rearm .. | .remove | .clear .. | .unlock | .exit .. | .delete => isTrue trivial

theorem HandsOver.sweepsUnused {a : Action} (h : HandsOver cfg s a) : SweepsUnused cfg s a := by
  cases a with
  | dispatch => trivial
  | _ => exact h

theorem noOrphan_poll {ready : List (Option Nat)} {now : Int} (hsafe : Safe cfg s)
    (h : NoOrphan s) (hstep : step cfg s (.poll ready now) = some s') : NoOrphan s' := by
  obtain ⟨hmain, events, table, hreport, rfl⟩ := step_poll hstep
  obtain ⟨hslots, htracked⟩ := hsafe.at_main hmain
  obtain ⟨-, -, hclients⟩ := htracked.report hslots hreport
  intro i halive
  have hbatch : ∀ j, j ∈ events.reduceOption →
      j ∈ ({ s with table := table, main := .sweep events 0, oldest := now } : State).named :=
    fun j hj => List.mem_append_left _ hj
  have hflag : table.clients i = s.table.clients i := congrFun hclients i
  have halive : s.table.Alive i := by
    unfold Alive at halive ⊢
    rwa [← hflag]
  refine Carries.held ⟨halive, fun hi => ?_, fun harmed => ?_, fun hf => ?_, .inl⟩ h
  · rw [named_eq hmain] at hi
    exact List.mem_append_right _ hi
  · exact (armed_report hreport harmed).imp_right (hbatch i)
  · exact .inl (hflag ▸ hf)

theorem noOrphan_sweep {now : Int} (h : NoOrphan s) (hstep : step cfg s (.sweep now) = some s') :
    NoOrphan s' := by
  obtain ⟨events, i, hmain, ⟨oldest, rfl⟩ | ⟨-, rfl⟩ | rfl⟩ := step_sweep hstep
  all_goals
    refine h.same_table rfl ?_ fun _ hc => hc
    rw [named_eq hmain]
    exact fun _ hi => hi

/-- Removing a slot takes nothing from another slot. -/
theorem carries_remove {c : Client} (hslots : Slots cfg.maxConnections s.table s.main.pending)
    (halive : s.table.Alive c.idx) (hsocket : (s.table.clients c.idx).socket = c.socket)
    (hi : (s.table.removeClient cfg.maxConnections c).Alive i)
    (htable : s'.table = s.table.removeClient cfg.maxConnections c)
    (hnamed : i ∈ s.named → i ∈ s'.named) (hclears : s.Clears i → s'.Clears i) :
    Carries s s' i := by
  obtain ⟨hne, hlive⟩ := (alive_removeClient ..).mp hi
  refine ⟨hlive, hnamed, fun harmed => ?_, fun hflag => ?_, fun hc => .inl (hclears hc)⟩
  · rw [htable, removeClient_eq]
    exact .inl (hslots.armed_update halive (congrArg Socket.fd hsocket) hne harmed)
  · rw [htable, inFlight_removeClient]
    exact .inl hflag

theorem noOrphan_sweepRemove (hsafe : Safe cfg s) (h : NoOrphan s)
    (hstep : step cfg s .sweepRemove = some s') : NoOrphan s' := by
  obtain ⟨events, i, c, hmain, rfl⟩ := step_sweepRemove hstep
  obtain ⟨halive, hsocket, -⟩ := hsafe.snapshot _ _ _ hmain
  intro j hj
  have hcarries : Carries s { s with table := s.table.removeClient cfg.maxConnections c
                                     main := .sweep events (i + 1) } j := by
    refine carries_remove hsafe.slots halive hsocket hj rfl ?_ id
    rw [named_eq hmain]
    exact id
  exact hcarries.held h

theorem noOrphan_next (h : NoOrphan s) (hstep : step cfg s .next = some s') : NoOrphan s' := by
  rcases step_next hstep with ⟨hmain, rfl⟩ | ⟨i, rest, hmain, rfl⟩ | ⟨rest, pc, hmain, hpc, rfl⟩
  · refine h.same_table rfl ?_ fun _ hc => hc
    rw [named_eq hmain]
    exact fun _ hi => hi
  · -- the marked slot is named
    intro j hj
    have hnamed : j ∈ s.named →
        j ∈ ({ s with table := s.table.mark i, main := .dispatch i rest } : State).named := by
      rw [named_eq hmain]
      exact id
    by_cases hji : j = i
    · exact .batched (hji ▸ List.mem_cons_self)
    · have hclient : (s.table.mark i).clients j = s.table.clients j := Function.update_of_ne hji ..
      have halive : s.table.Alive j := by
        unfold Alive at hj ⊢
        rwa [← hclient]
      exact Carries.held ⟨halive, hnamed, .inl, fun hf => .inl (hclient ▸ hf), .inl⟩ h
  · refine h.same_table rfl ?_ fun _ hc => hc
    rw [named_eq hmain]
    rcases hpc with rfl | rfl <;> exact fun _ hi => hi

theorem noOrphan_dispatch (hsafe : Safe cfg s) (h : NoOrphan s)
    (hstep : step cfg s (.dispatch true) = some s') : NoOrphan s' := by
  obtain ⟨i, rest, hmain, hidle, rfl⟩ := step_dispatch hstep
  obtain ⟨-, htracked⟩ := hsafe.at_main hmain
  have hidx := (hsafe.slots.live i (htracked.2 i (List.mem_append_left _ List.mem_cons_self)).1).2.1
  refine h.same_table rfl (fun j hj => ?_) fun _ hc => hc
  -- the event's name goes behind the queue's
  rw [named_eq hmain, actions_idle hidle] at hj
  show j ∈ rest.reduceOption ++ _
  have hactions : ({ s with queue := s.queue ++ [s.table.clients i], main := .events rest } :
      State).actions = s.queue ++ [s.table.clients i] := actions_idle hidle
  rw [if_pos rfl, hactions, List.map_append, List.map_singleton, hidx]
  have hj : j ∈ (i :: rest.reduceOption) ++ s.queue.map Client.idx := hj
  simp only [List.mem_append, List.mem_cons] at hj ⊢
  tauto

theorem noOrphan_accept {result : Option Nat} (h : NoOrphan s)
    (hstep : step cfg s (.accept result) = some s') : NoOrphan s' := by
  obtain ⟨rest, hmain, rfl | ⟨fd, -, rfl⟩⟩ := step_accept hstep
  · refine h.same_table rfl ?_ fun _ hc => hc
    rw [named_eq hmain]
    exact fun _ hi => hi
  · intro i hi
    refine Carries.held (s := s) ⟨hi, ?_, .inl, .inl, .inl⟩ h
    rw [named_eq hmain]
    exact id

theorem noOrphan_append {added : Bool} {now : Int} (hsafe : Safe cfg s) (h : NoOrphan s)
    (hstep : step cfg s (.append added now) = some s') : NoOrphan s' := by
  obtain ⟨sock, rest, rejects, hmain, rfl⟩ := step_append hstep
  obtain ⟨hslots, -⟩ := hsafe.at_main hmain
  intro i hi
  rcases hslots.append_slot now added hi with ⟨harmed, hflag⟩ | ⟨halive, hclient, harmed⟩
  · exact .armed harmed hflag
  · refine Carries.held (s := s) ⟨halive, ?_, fun ha => .inl (harmed ha), ?_, .inl⟩ h
    · rw [named_eq hmain]
      exact id
    · exact fun hf => .inl ((congrArg Client.inFlight hclient).trans hf)

/-! ## Steps of the workers -/

/-- The callback goes on with the same client, and did not re-arm. -/
theorem noOrphan_next_callback {worker : Nat} {pc pc' : CallbackPc} (h : NoOrphan s)
    (hcallback : s.callback = some (worker, pc)) (huses : pc'.uses = pc.uses)
    (hno : pc.uses ≠ []) : NoOrphan { s with callback := some (worker, pc') } := by
  refine h.same_table rfl (fun i hi => ?_) ?_
  · have hactions : ({ s with callback := some (worker, pc') } : State).actions = s.actions := by
      rw [actions_eq hcallback, ← huses]
      rfl
    rw [State.named, hactions]
    exact hi
  · rintro i ⟨w, c, hc, -⟩
    rw [hcallback, Option.some.injEq, Prod.mk.injEq] at hc
    exact absurd (congrArg CallbackPc.uses hc.2) hno

theorem noOrphan_take {worker : Nat} (h : NoOrphan s) (hstep : step cfg s (.take worker) = some s') :
    NoOrphan s' := by
  obtain ⟨c, queue, hidle, hqueue, -, rfl⟩ := step_take hstep
  refine h.same_table rfl (fun i hi => ?_) ?_
  · rw [State.named, actions_idle hidle, hqueue] at hi
    exact hi
  · rintro i ⟨w, c', hc, -⟩
    rw [hidle] at hc
    cases hc

theorem noOrphan_receive {outcome : Received} (h : NoOrphan s)
    (hstep : step cfg s (.receive outcome) = some s') : NoOrphan s' := by
  obtain ⟨worker, c, hcallback, rfl⟩ := step_receive hstep
  exact noOrphan_next_callback h hcallback (uses_next c outcome) (List.cons_ne_nil _ _)

theorem noOrphan_send (h : NoOrphan s) (hstep : step cfg s .send = some s') : NoOrphan s' := by
  obtain ⟨worker, c, keepAlive, hcallback, rfl⟩ := step_send hstep
  exact noOrphan_next_callback h hcallback (uses_sent c keepAlive) (List.cons_ne_nil _ _)

theorem noOrphan_rearm {ok : Bool} (hsafe : Safe cfg s) (h : NoOrphan s)
    (hstep : step cfg s (.rearm ok) = some s') : NoOrphan s' := by
  obtain ⟨worker, c, hcallback, ⟨rfl, -, rfl⟩ | ⟨rfl, rfl⟩⟩ := step_rearm hstep
  · obtain ⟨-, halive, hsocket, -⟩ := hsafe.at_callback hcallback rfl
    intro i hi
    by_cases hic : i = c.idx
    · subst hic
      exact .rearmed ⟨c.socket.fd, Function.update_self ..⟩ ⟨worker, c, rfl, rfl⟩
    · refine Carries.held (s := s) ⟨hi, fun hm => ?_, fun ha => .inl ?_, .inl, ?_⟩ h
      · rw [State.named, actions_eq hcallback] at hm
        show i ∈ s.main.named ++ List.map Client.idx ([] ++ s.queue)
        simp only [CallbackPc.uses, List.map_append, List.map_cons, List.map_nil, List.mem_append,
          List.mem_cons, List.not_mem_nil, or_false, hic, false_or] at hm ⊢
        exact hm
      · exact hsafe.slots.armed_update halive (congrArg Socket.fd hsocket) hic ha
      · rintro ⟨w, c', hc, -⟩
        rw [hcallback] at hc
        cases hc
  · exact noOrphan_next_callback h hcallback rfl (List.cons_ne_nil _ _)

theorem noOrphan_remove (hsafe : Safe cfg s) (h : NoOrphan s)
    (hstep : step cfg s .remove = some s') : NoOrphan s' := by
  obtain ⟨worker, c, hcallback, rfl⟩ := step_remove hstep
  obtain ⟨-, halive, hsocket, -⟩ := hsafe.at_callback hcallback rfl
  intro i hi
  have hic := ((alive_removeClient ..).mp hi).1
  suffices Carries s { s with table := s.table.removeClient cfg.maxConnections c
                              callback := some (worker, .clear c false) } i from this.held h
  refine carries_remove hsafe.slots halive hsocket hi rfl (fun hm => ?_) ?_
  · rw [State.named, actions_eq hcallback] at hm
    show i ∈ s.main.named ++ List.map Client.idx ([] ++ s.queue)
    simp only [CallbackPc.uses, List.map_append, List.map_cons, List.map_nil, List.mem_append,
      List.mem_cons, List.not_mem_nil, or_false, hic, false_or] at hm ⊢
    exact hm
  · rintro ⟨w, c', hc, -⟩
    rw [hcallback] at hc
    cases hc

theorem noOrphan_clear {now : Int} (h : NoOrphan s) (hstep : step cfg s (.clear now) = some s') :
    NoOrphan s' := by
  obtain ⟨worker, c, kept, hcallback, rfl⟩ := step_clear hstep
  intro i hi
  have hnamed : i ∈ s.named → i ∈ s.main.named ++ List.map Client.idx ([] ++ s.queue) := by
    rw [State.named, actions_eq hcallback]
    exact id
  by_cases hic : i = c.idx
  · -- the flag that is cleared is this slot's
    subst hic
    have hcleared : ((s.table.clear c.idx kept now).clients c.idx).inFlight = false := by
      simp [Table.clear]
    have halive : s.table.Alive c.idx := by
      simpa [Table.clear, Alive] using hi
    exact Carries.held (s := s) ⟨halive, hnamed, .inl, fun _ => .inl hcleared,
      fun _ => .inr hcleared⟩ h
  · have hclient : (s.table.clear c.idx kept now).clients i = s.table.clients i :=
      Function.update_of_ne hic ..
    have halive : s.table.Alive i := by
      unfold Alive at hi ⊢
      rwa [← hclient]
    refine Carries.held (s := s) ⟨halive, hnamed, .inl, fun hf => .inl (hclient ▸ hf), ?_⟩ h
    rintro ⟨w, c', hc, rfl⟩
    rw [hcallback, Option.some.injEq, Prod.mk.injEq] at hc
    obtain ⟨rfl, -⟩ := CallbackPc.clear.inj hc.2
    exact absurd rfl hic

theorem noOrphan_unlock (h : NoOrphan s) (hstep : step cfg s .unlock = some s') : NoOrphan s' := by
  obtain ⟨worker, hcallback, rfl⟩ := step_unlock hstep
  refine h.same_table rfl (fun i hi => ?_) ?_
  · rw [State.named, actions_eq hcallback] at hi
    exact hi
  · rintro i ⟨w, c, hc, -⟩
    rw [hcallback] at hc
    cases hc

theorem noOrphan_exit {worker : Nat} (h : NoOrphan s) (hstep : step cfg s (.exit worker) = some s') :
    NoOrphan s' := by
  obtain rfl := step_exit hstep
  exact h.same_table rfl (fun _ hi => hi) fun _ hc => hc

/-! ## Runs -/

theorem noOrphan_step {a : Action} (hsafe : Safe cfg s) (h : NoOrphan s) (hok : HandsOver cfg s a)
    (hstep : step cfg s a = some s') : NoOrphan s' := by
  cases a with
  | poll => exact noOrphan_poll hsafe h hstep
  | sweep => exact noOrphan_sweep h hstep
  | sweepRemove => exact noOrphan_sweepRemove hsafe h hstep
  | next => exact noOrphan_next h hstep
  | dispatch stored =>
    obtain rfl : stored = true := hok
    exact noOrphan_dispatch hsafe h hstep
  | accept => exact noOrphan_accept h hstep
  | append => exact noOrphan_append hsafe h hstep
  | take => exact noOrphan_take h hstep
  | receive => exact noOrphan_receive h hstep
  | send => exact noOrphan_send h hstep
  | rearm => exact noOrphan_rearm hsafe h hstep
  | remove => exact noOrphan_remove hsafe h hstep
  | clear => exact noOrphan_clear h hstep
  | unlock => exact noOrphan_unlock h hstep
  | exit => exact noOrphan_exit h hstep
  | stop => exact hok.elim
  | delete =>
    rw [safe_delete hsafe] at hstep
    cases hstep

/-- **No live connection is orphaned while every dispatched action is stored** and the sweep
    closes no slot that is named, also where re-arming fails: each live slot is armed and not in
    flight, or about to be, or named by the batch, the queue or the running callback. -/
theorem no_orphan (cfg : Config) (s : State)
    (h : Reach (step cfg) (HandsOver cfg) (start cfg) s) :
    ∀ i, s.table.Alive i → Held s i := by
  have hboth : Safe cfg s ∧ NoOrphan s := by
    refine h.invariant (fun s => Safe cfg s ∧ NoOrphan s) ⟨safe_start cfg, fun i hi => ?_⟩ ?_
    · cases hi
    · exact fun s a s' hs hok hstep =>
        ⟨safe_step hs.1 hok.sweepsUnused hstep, noOrphan_step hs.1 hs.2 hok hstep⟩
  exact hboth.2

/-- An action that is not stored leaves its slot to nobody, although the sweep closes no slot
    that is in flight. -/
theorem dispatch_orphans (hsafe : Safe cfg s) (hstep : step cfg s (.dispatch false) = some s') :
    ∃ i, s'.table.Alive i ∧ ¬ Held s' i := by
  obtain ⟨i, rest, hmain, hidle, rfl⟩ := step_dispatch hstep
  obtain ⟨-, htracked⟩ := hsafe.at_main hmain
  have hnodup : (i :: (rest.reduceOption ++ s.actions.map Client.idx)).Nodup := htracked.1
  obtain ⟨halive, hdisarmed⟩ := htracked.2 i (List.mem_append_left _ List.mem_cons_self)
  refine ⟨i, halive, fun hheld => ?_⟩
  rcases held_iff.mp hheld with ⟨⟨fd, hfd⟩, -⟩ | hnamed
  · exact hdisarmed fd hfd
  · refine (List.nodup_cons.mp hnodup).1 ?_
    rw [actions_idle hidle]
    have hactions : ({ s with queue := s.queue, main := .events rest } : State).actions = s.queue :=
      actions_idle hidle
    rw [State.named, if_neg Bool.false_ne_true, hactions] at hnamed
    exact hnamed

/-! ## A burst of requests -/

/-- As many slots as the worker queue has places at first. -/
def eightSlots : Config := { maxConnections := 8, keepAliveTimeout := 75, numWorkers := 1 }

/-- The clients that connect get the descriptors from 5 on, and all send a request. -/
def burst : List Action :=
  List.flatten
    [[.poll [none] 0], List.replicate 9 (.sweep 0), [.next],
     (List.range 8).flatMap fun i => [.accept (some (5 + i)), .append true 0],
     [.accept none, .next, .poll ((List.range 8).map fun i => some (5 + i)) 1],
     List.replicate 9 (.sweep 1)]

/-- `no_orphan` where seven of the requests are queued, and the worker could not re-arm one. -/
theorem no_orphan_burst :
    ∃ s : State, s.queue.length = 6 ∧ ∀ i, s.table.Alive i → Held s i := by
  obtain ⟨s, hs, hqueue⟩ := Reach.of_exec_map
    (show (exec (guarded (step eightSlots) (HandsOver eightSlots)) (start eightSlots)
      (burst ++ (List.replicate 7 [.next, .dispatch true]).flatten ++
        [.take 0, .receive (.request true), .send, .rearm false, .remove])).map
          (fun s => s.queue.length) = some 6 by decide +kernel)
  exact ⟨s, hqueue, no_orphan eightSlots s hs⟩

/-- The eighth action finds the queue full, and the memory for a larger one is refused: its
    slot stays in flight and nobody holds it. -/
theorem burst_orphans :
    ∃ s : State, Reach (step eightSlots) Serves (start eightSlots) s ∧
      ∃ i, s.table.Alive i ∧ ¬ Held s i := by
  obtain ⟨s', hs'⟩ := Option.isSome_iff_exists.mp
    (show ((exec (guarded (step eightSlots) (HandsOver eightSlots)) (start eightSlots)
      (burst ++ (List.replicate 7 [.next, .dispatch true]).flatten ++ [.next])).bind
        fun s => step eightSlots s (.dispatch false)).isSome = true by decide +kernel)
  obtain ⟨s, hs, hstep⟩ := Option.bind_eq_some_iff.mp hs'
  have hreach : Reach (step eightSlots) (HandsOver eightSlots) (start eightSlots) s :=
    .of_exec _ hs
  have hsafe := safe_reach (hreach.weaken fun _ _ => HandsOver.sweepsUnused)
  refine ⟨s', .next (hreach.weaken fun s a hok => ?_) (fun h => (by cases h)) hstep,
    dispatch_orphans hsafe hstep⟩
  rintro rfl
  exact hok

end Foxtails.Server
