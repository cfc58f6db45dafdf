/-
  The slots at rest: a client is connected, and no request of it is being handled.

  Only `main` may begin a request there, and only the sweep may close it. What `InFlight` leaves
  open is what the last section of a callback finds: a slot that is kept still has its mark, and
  a slot that was given back has one only if `main` is about to queue a request of the next client.

  * `rest_step`: a slot at rest was at rest before the step, with the same client, or the step has
    set its `last_recv`.
  * `settled_step`: each step keeps `Settled`; so what the sweep has read of the slot it closes is
    what is there.
-/
import Foxtails.Server.InFlight

namespace Foxtails.Server

open Foxtails.Lib.Run Table

/-- The time an action has read. -/
def Action.time : Action → Option Int
  | .poll _ now | .sweep now | .append _ now | .clear now => some now
  | _ => none

/-! ## Slots at rest -/

/-- A client is connected, and no request of it is being handled. -/
def Table.Resting (t : Table) (i : Nat) : Prop :=
  t.Alive i ∧ (t.clients i).inFlight = false

/-- What `InFlight` leaves open: the flags of the slot whose callback is about to clear them, and
    the slot the sweep is about to close. -/
structure Settled (s : State) : Prop where
  kept : ∀ worker c, s.callback = some (worker, .clear c true) →
    s.table.Alive c.idx ∧ (s.table.clients c.idx).inFlight = true
  /-- A slot that was given back is marked again only for the request `main` is about to queue. -/
  given : ∀ worker c, s.callback = some (worker, .clear c false) → s.table.Alive c.idx →
    (s.table.clients c.idx).inFlight = true → s.dispatching = some c.idx
  snapshot : ∀ events i c, s.main = .sweepRemove events i c →
    c = s.table.clients i ∧ s.table.Resting i

variable {cfg : Config} {s s' : State} {a : Action}

theorem settled_start (cfg : Config) : Settled (start cfg) :=
  ⟨fun _ _ h => (by cases h), fun _ _ h => (by cases h), fun _ _ _ h => (by cases h)⟩

/-- The last section of a callback leaves a slot that was given back as it is, if it has no mark. -/
theorem clear_given (t : Table) (now : Int) {i : Nat} (hflag : (t.clients i).inFlight = false) :
    (t.clear i false now).clients i = t.clients i := by
  have hself : (t.clear i false now).clients i = { t.clients i with inFlight := false } :=
    Function.update_self ..
  rw [hself, ← hflag]

/-- The last section of a callback leaves a slot at rest only if it keeps the connection, or the
    slot was at rest before. -/
theorem rest_clear {now : Int} (h : Settled s) (hok : FlagKept cfg s (.clear now))
    (hstep : step cfg s (.clear now) = some s') {i : Nat} (hrest : s'.table.Resting i) :
    (s'.table.clients i).lastRecv = now ∨
      s.table.Resting i ∧ s'.table.clients i = s.table.clients i := by
  obtain ⟨worker, c, kept, hcallback, rfl⟩ := step_clear hstep
  by_cases hi : i = c.idx
  · obtain rfl := hi
    cases kept with
    | true =>
      refine .inl ?_
      have hself : (s.table.clear c.idx true now).clients c.idx =
          { s.table.clients c.idx with lastRecv := now, inFlight := false } :=
        Function.update_self ..
      show ((s.table.clear c.idx true now).clients c.idx).lastRecv = now
      rw [hself]
    | false =>
      have halive : s.table.Alive c.idx := by
        have hself : (s.table.clear c.idx false now).clients c.idx =
            { s.table.clients c.idx with inFlight := false } := Function.update_self ..
        have halive := hrest.1
        unfold Table.Alive at halive ⊢
        rwa [hself] at halive
      have hflag : (s.table.clients c.idx).inFlight = false := by
        rw [← Bool.not_eq_true]
        intro hset
        have hmarked := h.given worker c hcallback halive hset
        refine hok c.idx ?_ hmarked
        rw [State.clearing, hcallback]
        rfl
      exact .inr ⟨⟨halive, hflag⟩, clear_given s.table now hflag⟩
  · have hother : (s.table.clear c.idx kept now).clients i = s.table.clients i :=
      Function.update_of_ne hi ..
    refine .inr ⟨?_, hother⟩
    unfold Table.Resting Table.Alive at hrest ⊢
    rwa [hother] at hrest

/-- A slot at rest behind a removal is another one. -/
theorem rest_remove {t : Table} {n : Nat} {c : Client} {i : Nat}
    (hrest : (t.removeClient n c).Resting i) :
    t.Resting i ∧ (t.removeClient n c).clients i = t.clients i := by
  obtain ⟨halive, hflag⟩ := hrest
  obtain ⟨hne, halive⟩ := (alive_removeClient t n c i).mp halive
  rw [inFlight_removeClient] at hflag
  refine ⟨⟨halive, hflag⟩, ?_⟩
  rw [removeClient_eq]
  exact Function.update_of_ne hne ..

/-- A connection is placed in a free slot, with the time of the clock. -/
theorem appendClient_clients (t : Table) (n : Nat) (sock : Socket) (now : Int) (added : Bool) :
    (t.appendClient n sock now added).clients = t.clients ∨
      ∃ j ∈ t.freeList, (t.appendClient n sock now added).clients =
        Function.update t.clients j ⟨sock, now, j, added, false⟩ := by
  obtain ⟨-, heq⟩ | ⟨j, rest, hfree, ⟨rfl, heq⟩ | ⟨rfl, heq⟩⟩ := t.appendClient_cases n sock now added
  · exact .inl (by rw [heq]; rfl)
  · exact .inr ⟨j, by rw [hfree]; exact List.mem_cons_self, by rw [heq]⟩
  · exact .inr ⟨j, by rw [hfree]; exact List.mem_cons_self, by rw [heq]⟩

theorem rest_append {t : Table} {n : Nat} {sock : Socket} {now : Int} {added : Bool} {i : Nat}
    (hrest : (t.appendClient n sock now added).Resting i) :
    ((t.appendClient n sock now added).clients i).lastRecv = now ∨
      t.Resting i ∧ (t.appendClient n sock now added).clients i = t.clients i := by
  unfold Table.Resting Table.Alive at hrest
  obtain hsame | ⟨j, -, hplaced⟩ := appendClient_clients t n sock now added
  · rw [hsame] at hrest ⊢
    exact .inr ⟨hrest, rfl⟩
  · by_cases hij : i = j
    · refine .inl ?_
      rw [hplaced, hij, Function.update_self]
    · rw [hplaced, Function.update_of_ne hij] at hrest ⊢
      exact .inr ⟨hrest, rfl⟩

/-- **A slot at rest** was at rest before the step, with the same client, or the step has set its
    `last_recv`. -/
theorem rest_step (hsafe : Safe cfg s) (h : Settled s) (hok : FlagKept cfg s a)
    (hstep : step cfg s a = some s') {i : Nat} (hrest : s'.table.Resting i) :
    a.time = some (s'.table.clients i).lastRecv ∨
      s.table.Resting i ∧ s'.table.clients i = s.table.clients i := by
  have hsame : s'.table.clients = s.table.clients →
      s.table.Resting i ∧ s'.table.clients i = s.table.clients i := by
    intro heq
    unfold Table.Resting Table.Alive at hrest ⊢
    rw [heq] at hrest ⊢
    exact ⟨hrest, rfl⟩
  cases a with
  | poll =>
    obtain ⟨hmain, events, table, hreport, rfl⟩ := step_poll hstep
    exact .inr (hsame (hsafe.tracked.report hsafe.slots hreport).2.2)
  | sweep =>
    obtain ⟨events, j, hmain, ⟨oldest, rfl⟩ | ⟨hidle, rfl⟩ | rfl⟩ := step_sweep hstep
    · exact .inr (hsame rfl)
    · exact .inr (hsame rfl)
    · exact .inr (hsame rfl)
  | sweepRemove =>
    obtain ⟨events, j, c, hmain, rfl⟩ := step_sweepRemove hstep
    exact .inr (rest_remove hrest)
  | next =>
    obtain ⟨hmain, rfl⟩ | ⟨j, rest, hmain, rfl⟩ | ⟨rest, pc, hmain, hpc, rfl⟩ := step_next hstep
    · exact .inr (hsame rfl)
    · have hne : i ≠ j := by
        rintro rfl
        have hmarked : (s.table.mark i).clients i = { s.table.clients i with inFlight := true } :=
          Function.update_self ..
        have hflag : ((s.table.mark i).clients i).inFlight = false := hrest.2
        rw [hmarked] at hflag
        cases hflag
      have hother : (s.table.mark j).clients i = s.table.clients i := Function.update_of_ne hne ..
      refine .inr ⟨?_, hother⟩
      unfold Table.Resting Table.Alive at hrest ⊢
      rwa [hother] at hrest
    · exact .inr (hsame rfl)
  | dispatch =>
    obtain ⟨j, rest, hmain, hidle, rfl⟩ := step_dispatch hstep
    exact .inr (hsame rfl)
  | accept =>
    obtain ⟨rest, hmain, rfl | ⟨fd, hfd, rfl⟩⟩ := step_accept hstep
    · exact .inr (hsame rfl)
    · exact .inr (hsame rfl)
  | append added now =>
    obtain ⟨sock, rest, rejects, hmain, rfl⟩ := step_append hstep
    obtain hnow | hbefore := rest_append hrest
    · exact .inl (congrArg some hnow.symm)
    · exact .inr hbefore
  | take =>
    obtain ⟨c, queue, hidle, hqueue, -, rfl⟩ := step_take hstep
    exact .inr (hsame rfl)
  | receive =>
    obtain ⟨worker, c, hcallback, rfl⟩ := step_receive hstep
    exact .inr (hsame rfl)
  | send =>
    obtain ⟨worker, c, keepAlive, hcallback, rfl⟩ := step_send hstep
    exact .inr (hsame rfl)
  | rearm =>
    obtain ⟨worker, c, hcallback, ⟨rfl, -, rfl⟩ | ⟨rfl, rfl⟩⟩ := step_rearm hstep
    · exact .inr (hsame rfl)
    · exact .inr (hsame rfl)
  | remove =>
    obtain ⟨worker, c, hcallback, rfl⟩ := step_remove hstep
    exact .inr (rest_remove hrest)
  | clear now =>
    obtain hnow | hbefore := rest_clear h hok hstep hrest
    · exact .inl (congrArg some hnow.symm)
    · exact .inr hbefore
  | unlock =>
    obtain ⟨worker, hcallback, rfl⟩ := step_unlock hstep
    exact .inr (hsame rfl)
  | exit =>
    obtain rfl := step_exit hstep
    exact .inr (hsame rfl)
  | stop => exact hok.elim
  | delete =>
    rw [safe_delete hsafe] at hstep
    cases hstep

/-! ### The other invariants -/

/-- A step of `main` that marks no slot and takes the mark of none. -/
theorem Settled.main (h : Settled s) (hcallback : s'.callback = s.callback)
    (hidle : s.dispatching = none)
    (hkept : ∀ i, s.table.Alive i → (s.table.clients i).inFlight = true →
      s'.table.Alive i ∧ (s'.table.clients i).inFlight = true)
    (hgiven : ∀ i, s'.table.Alive i → (s'.table.clients i).inFlight = true →
      s.table.Alive i ∧ (s.table.clients i).inFlight = true)
    (hsnapshot : ∀ events i c, s'.main = .sweepRemove events i c →
      c = s'.table.clients i ∧ s'.table.Resting i) : Settled s' where
  kept worker c hc := by
    rw [hcallback] at hc
    obtain ⟨halive, hflag⟩ := h.kept worker c hc
    exact hkept _ halive hflag
  given worker c hc halive hflag := by
    rw [hcallback] at hc
    obtain ⟨halive, hflag⟩ := hgiven _ halive hflag
    have hmarked := h.given worker c hc halive hflag
    rw [hidle] at hmarked
    cases hmarked
  snapshot := hsnapshot

/-- A step of a worker that leaves the slots alone and is not in front of its last section. -/
theorem Settled.worker (h : Settled s) (hclients : s'.table.clients = s.table.clients)
    (hmain : s'.main = s.main) (hclear : ∀ worker c kept, s'.callback ≠ some (worker, .clear c kept)) :
    Settled s' where
  kept worker c hc := absurd hc (hclear worker c true)
  given worker c hc := absurd hc (hclear worker c false)
  snapshot events i c hc := by
    rw [hmain] at hc
    unfold Table.Resting Table.Alive
    rw [hclients]
    exact h.snapshot events i c hc

theorem settled_sweepRemove (hsafe : Safe cfg s) (h : Settled s)
    (hstep : step cfg s .sweepRemove = some s') : Settled s' := by
  obtain ⟨events, i, c, hmain, rfl⟩ := step_sweepRemove hstep
  obtain ⟨rfl, hrest⟩ := h.snapshot _ _ _ hmain
  have hidx : (s.table.clients i).idx = i := (hsafe.slots.live i hrest.1).2.1
  refine h.main rfl ?_ ?_ ?_ ?_
  · rw [State.dispatching, hmain]
  · intro j halive hflag
    have hne : j ≠ (s.table.clients i).idx := by
      rw [hidx]
      rintro rfl
      rw [hrest.2] at hflag
      cases hflag
    exact ⟨(alive_removeClient ..).mpr ⟨hne, halive⟩, (inFlight_removeClient ..).trans hflag⟩
  · intro j halive hflag
    exact ⟨((alive_removeClient ..).mp halive).2, (inFlight_removeClient ..).symm.trans hflag⟩
  · intro _ _ _ hc
    cases hc

theorem settled_next (h : Settled s) (hstep : step cfg s .next = some s') : Settled s' := by
  obtain ⟨hmain, rfl⟩ | ⟨i, rest, hmain, rfl⟩ | ⟨rest, pc, hmain, hpc, rfl⟩ := step_next hstep
  · exact h.main rfl (by rw [State.dispatching, hmain]) (fun _ ha hf => ⟨ha, hf⟩)
      (fun _ ha hf => ⟨ha, hf⟩) fun _ _ _ hc => by cases hc
  · have hother : ∀ j, j ≠ i → (s.table.mark i).clients j = s.table.clients j :=
      fun j hj => Function.update_of_ne hj ..
    have hself : (s.table.mark i).clients i = { s.table.clients i with inFlight := true } :=
      Function.update_self ..
    refine ⟨fun worker c hc => ?_, fun worker c hc halive hflag => ?_, fun _ _ _ hc => (by cases hc)⟩
    · obtain ⟨halive, hflag⟩ := h.kept worker c hc
      show (s.table.mark i).Alive c.idx ∧ ((s.table.mark i).clients c.idx).inFlight = true
      unfold Table.Alive at halive ⊢
      by_cases hi : c.idx = i
      · rw [hi] at halive ⊢
        rw [hself]
        exact ⟨halive, rfl⟩
      · rw [hother _ hi]
        exact ⟨halive, hflag⟩
    · by_cases hi : c.idx = i
      · rw [hi]
        rfl
      · change (s.table.mark i).Alive c.idx at halive
        change ((s.table.mark i).clients c.idx).inFlight = true at hflag
        unfold Table.Alive at halive
        rw [hother _ hi] at halive hflag
        have hmarked := h.given worker c hc halive hflag
        rw [State.dispatching, hmain] at hmarked
        cases hmarked
  · refine h.main rfl ?_ ?_ ?_ ?_
    · rw [State.dispatching, hmain]
    · exact fun _ ha hf => ⟨ha, hf⟩
    · exact fun _ ha hf => ⟨ha, hf⟩
    · obtain rfl | rfl := hpc
      · exact fun _ _ _ hc => by cases hc
      · exact fun _ _ _ hc => by cases hc

theorem settled_append {added : Bool} {now : Int} (hsafe : Safe cfg s) (h : Settled s)
    (hstep : step cfg s (.append added now) = some s') : Settled s' := by
  obtain ⟨sock, rest, rejects, hmain, rfl⟩ := step_append hstep
  have hmarked : ∀ i, s.table.Alive i → (s.table.clients i).inFlight = true →
      (s.table.appendClient cfg.maxConnections sock now added).clients i = s.table.clients i := by
    intro i halive _
    obtain hsame | ⟨j, hfree, hplaced⟩ :=
      appendClient_clients s.table cfg.maxConnections sock now added
    · rw [hsame]
    · have hne : i ≠ j := fun heq => (hsafe.slots.free j hfree).2 (heq ▸ halive)
      rw [hplaced, Function.update_of_ne hne]
  have hbefore : ∀ i, ((s.table.appendClient cfg.maxConnections sock now added).clients i).inFlight =
      true → (s.table.appendClient cfg.maxConnections sock now added).clients i =
        s.table.clients i := by
    intro i hflag
    obtain hsame | ⟨j, -, hplaced⟩ := appendClient_clients s.table cfg.maxConnections sock now added
    · rw [hsame]
    · by_cases hij : i = j
      · rw [hplaced, hij, Function.update_self] at hflag
        cases hflag
      · rw [hplaced, Function.update_of_ne hij]
  refine h.main rfl ?_ ?_ ?_ ?_
  · rw [State.dispatching, hmain]
  · intro i halive hflag
    unfold Table.Alive at halive ⊢
    rw [hmarked i halive hflag]
    exact ⟨halive, hflag⟩
  · intro i halive hflag
    have hsame := hbefore i hflag
    unfold Table.Alive at halive ⊢
    rw [← hsame]
    exact ⟨halive, hflag⟩
  · intro _ _ _ hc
    cases hc

/-- The slot that the sweep is about to close is as it was. -/
theorem snapshot_same {t t' : Table} {c : Client} {i : Nat} (h : c = t.clients i ∧ t.Resting i)
    (hsame : t'.clients i = t.clients i) : c = t'.clients i ∧ t'.Resting i := by
  unfold Table.Resting Table.Alive
  rw [hsame]
  exact h

theorem settled_remove (hsafe : Safe cfg s) (h : Settled s)
    (hstep : step cfg s .remove = some s') : Settled s' := by
  obtain ⟨worker, c, hcallback, rfl⟩ := step_remove hstep
  refine ⟨fun _ _ hc => (by cases hc), fun w d hc halive hflag => ?_, fun events i d hd => ?_⟩
  · cases hc
    exact absurd rfl ((alive_removeClient ..).mp halive).1
  · have hsnapshot := h.snapshot events i d hd
    obtain ⟨halive, -, hunused⟩ := hsafe.snapshot events i d hd
    -- the callback names its slot, and nothing names the sweep's
    have hne : i ≠ c.idx := by
      rintro rfl
      refine hunused ?_
      have hidx : d.idx = c.idx := by
        rw [hsnapshot.1]
        exact (hsafe.slots.live _ hsnapshot.2.1).2.1
      rw [hidx, State.named, actions_eq hcallback]
      exact List.mem_append_right _ List.mem_cons_self
    apply snapshot_same hsnapshot
    rw [removeClient_eq]
    exact Function.update_of_ne hne ..

theorem settled_clear {now : Int} (h : Settled s)
    (hstep : step cfg s (.clear now) = some s') : Settled s' := by
  obtain ⟨worker, c, kept, hcallback, rfl⟩ := step_clear hstep
  refine ⟨fun _ _ hc => (by cases hc), fun _ _ hc => (by cases hc), fun events i d hd => ?_⟩
  have hsnapshot := h.snapshot events i d hd
  apply snapshot_same hsnapshot
  by_cases hi : i = c.idx
  · have hflag := hsnapshot.2.2
    rw [hi] at hflag ⊢
    cases kept with
    | true =>
      rw [(h.kept worker c hcallback).2] at hflag
      cases hflag
    | false =>
      rw [clear_given s.table now hflag]
  · exact Function.update_of_ne hi ..

theorem settled_step (hsafe : Safe cfg s) (hflagged : Flagged s) (h : Settled s)
    (hok : FlagKept cfg s a) (hstep : step cfg s a = some s') : Settled s' := by
  have hsame : ∀ i, s.table.Alive i → (s.table.clients i).inFlight = true →
      s.table.Alive i ∧ (s.table.clients i).inFlight = true := fun _ ha hf => ⟨ha, hf⟩
  cases a with
  | poll =>
    obtain ⟨hmain, events, table, hreport, rfl⟩ := step_poll hstep
    have hclients : table.clients = s.table.clients :=
      (hsafe.tracked.report hsafe.slots hreport).2.2
    have halive : ∀ i, table.Alive i ↔ s.table.Alive i := by
      intro i
      unfold Table.Alive
      rw [hclients]
    refine h.main rfl (by rw [State.dispatching, hmain]) ?_ ?_ fun _ _ _ hc => by cases hc
    · intro i ha hf
      exact ⟨(halive i).mpr ha, by rw [hclients]; exact hf⟩
    · intro i ha hf
      exact ⟨(halive i).mp ha, by rw [← hclients]; exact hf⟩
  | sweep =>
    obtain ⟨events, i, hmain, ⟨oldest, rfl⟩ | ⟨hidle, rfl⟩ | rfl⟩ := step_sweep hstep
    · exact h.main rfl (by rw [State.dispatching, hmain]) hsame hsame fun _ _ _ hc => by cases hc
    · refine h.main rfl (by rw [State.dispatching, hmain]) hsame hsame fun _ _ _ hc => ?_
      cases hc
      exact ⟨rfl, hidle.2.1, hidle.2.2.1⟩
    · exact h.main rfl (by rw [State.dispatching, hmain]) hsame hsame fun _ _ _ hc => by cases hc
  | sweepRemove => exact settled_sweepRemove hsafe h hstep
  | next => exact settled_next h hstep
  | dispatch =>
    obtain ⟨i, rest, hmain, hidle, rfl⟩ := step_dispatch hstep
    refine ⟨fun _ _ hc => ?_, fun _ _ hc => ?_, fun _ _ _ hc => (by cases hc)⟩
    · rw [hidle] at hc
      cases hc
    · rw [hidle] at hc
      cases hc
  | accept =>
    obtain ⟨rest, hmain, rfl | ⟨fd, hfd, rfl⟩⟩ := step_accept hstep
    · exact h.main rfl (by rw [State.dispatching, hmain]) hsame hsame fun _ _ _ hc => by cases hc
    · exact h.main rfl (by rw [State.dispatching, hmain]) hsame hsame fun _ _ _ hc => by cases hc
  | append => exact settled_append hsafe h hstep
  | take =>
    obtain ⟨c, queue, hidle, hqueue, -, rfl⟩ := step_take hstep
    exact h.worker rfl rfl fun _ _ _ hc => by cases hc
  | receive outcome =>
    obtain ⟨worker, c, hcallback, rfl⟩ := step_receive hstep
    exact h.worker rfl rfl fun _ _ _ hc => by cases outcome <;> cases hc
  | send =>
    obtain ⟨worker, c, keepAlive, hcallback, rfl⟩ := step_send hstep
    exact h.worker rfl rfl fun _ _ _ hc => by cases keepAlive <;> cases hc
  | rearm =>
    obtain ⟨worker, c, hcallback, ⟨rfl, -, rfl⟩ | ⟨rfl, rfl⟩⟩ := step_rearm hstep
    · have hmem : c ∈ s.actions := by
        rw [actions_eq hcallback]
        exact List.mem_cons_self
      refine ⟨fun _ _ hc => ?_, fun _ _ hc => (by cases hc), h.snapshot⟩
      cases hc
      exact ⟨hsafe.named_alive hmem, hflagged.actions c hmem⟩
    · exact h.worker rfl rfl fun _ _ _ hc => by cases hc
  | remove => exact settled_remove hsafe h hstep
  | clear => exact settled_clear h hstep
  | unlock =>
    obtain ⟨worker, hcallback, rfl⟩ := step_unlock hstep
    exact h.worker rfl rfl fun _ _ _ hc => by cases hc
  | exit =>
    obtain rfl := step_exit hstep
    exact ⟨h.kept, h.given, h.snapshot⟩
  | stop => exact hok.elim
  | delete =>
    rw [safe_delete hsafe] at hstep
    cases hstep

end Foxtails.Server
