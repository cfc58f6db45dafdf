/-
  What a worker still writes to a slot it has given back.

  `server_remove_client` pushes the slot on the free list and unlocks; `worker_callback` then
  takes the lock a second time and clears `in_flight` of the slot. The removal leaves the flag
  set, so this changes the slot, unless `main` has accepted a new connection into it in between.
  If it has also fetched that connection's event and marked the slot, the worker clears the mark
  of a connection it has nothing to do with.

  `Watched` is the server with the one thing of its history that decides: whether, since the
  removal, a connection was put into the slot and `main` has not marked it.

  * `remove_keeps_flag`, `watching_step`: the flag of a slot given back is clear exactly there.
  * `given_back_untouched`: in the runs where the second section comes only then, the callback
    changes nothing of a slot it has given back, and every marked slot stays marked until its
    request is handled.
  * `given_back_cleared`: in other runs a new connection loses its mark.
-/
import Foxtails.Server.InFlight

namespace Foxtails.Server

open Foxtails.Lib.Run Table

/-- The slot that the running callback has given back and is about to lock again. -/
def State.givenBack (s : State) : Option Nat :=
  match s.callback with
  | some (_, .clear c false) => some c.idx
  | _ => none

/-- The steps of `worker_callback`. -/
def Action.ofCallback : Action → Bool
  | .receive _ | .send | .rearm _ | .remove | .clear _ | .unlock => true
  | _ => false

/-- The slot that this step of `main` puts a connection into. -/
def State.filling (s : State) : Action → Option Nat
  | .append _ _ =>
    match s.main with
    | .append _ _ => s.table.freeList.head?
    | _ => none
  | _ => none

/-- The slot that this step of `main` marks. -/
def State.marking (s : State) : Action → Option Nat
  | .next =>
    match s.main with
    | .events (some i :: _) => some i
    | _ => none
  | _ => none

/-- The server, and whether since the removal of a client a connection was put into its slot that
    `main` has not marked. -/
structure Watched where
  server : State
  renewed : Bool

/-- What a step does to the slot that was given back. -/
def Watched.renewedAfter (x : Watched) (a : Action) : Bool :=
  match x.server.givenBack with
  | none => false
  | some i =>
    if x.server.filling a = some i then true
    else if x.server.marking a = some i then false
    else x.renewed

def watchedStep (cfg : Config) (x : Watched) (a : Action) : Option Watched :=
  (step cfg x.server a).map fun s => ⟨s, x.renewedAfter a⟩

def watchedStart (cfg : Config) : Watched := ⟨start cfg, false⟩

/-- A callback that has given its slot back runs its last section only when a connection was put
    into the slot since, and `main` has not marked it; and the flags are kept as `FlagKept` says. -/
def LeftAlone (cfg : Config) (x : Watched) (a : Action) : Prop :=
  FlagKept cfg x.server a ∧
    (∀ now, a = .clear now → x.server.givenBack ≠ none → x.renewed = true)

instance (cfg : Config) (x : Watched) : DecidablePred (LeftAlone cfg x)
  | .clear now =>
    decidable_of_iff
      (FlagKept cfg x.server (.clear now) ∧ (x.server.givenBack ≠ none → x.renewed = true))
      ⟨fun h => ⟨h.1, fun _ _ => h.2⟩, fun h => ⟨h.1, h.2 now rfl⟩⟩
  | .poll .. | .sweep .. | .sweepRemove | .next | .dispatch .. | .accept .. | .append .. | .take ..
  | .receive .. | .send | .rearm .. | .remove | .unlock | .exit .. | .stop | .delete =>
    decidable_of_iff (FlagKept cfg x.server _)
      ⟨fun h => ⟨h, fun _ e => (by cases e)⟩, fun h => h.1⟩

variable {cfg : Config} {s s' : State}

theorem givenBack_eq {i : Nat} (h : i ∈ s.givenBack) :
    ∃ worker c, s.callback = some (worker, .clear c false) ∧ c.idx = i := by
  unfold State.givenBack at h
  split at h
  · exact ⟨_, _, ‹_›, Option.some.inj h⟩
  · cases h

/-- Before the last section of the callback come only steps of other threads. -/
theorem ofCallback_givenBack {i : Nat} {a : Action} (h : i ∈ s.givenBack)
    (ha : a.ofCallback = true) (hstep : step cfg s a = some s') : ∃ now, a = .clear now := by
  obtain ⟨worker, c, hcallback, -⟩ := givenBack_eq h
  cases a with
  | clear now => exact ⟨now, rfl⟩
  | receive outcome =>
    obtain ⟨_, _, hother, -⟩ := step_receive hstep
    rw [hcallback] at hother
    cases hother
  | send =>
    obtain ⟨_, _, _, hother, -⟩ := step_send hstep
    rw [hcallback] at hother
    cases hother
  | rearm ok =>
    obtain ⟨_, _, hother, -⟩ := step_rearm hstep
    rw [hcallback] at hother
    cases hother
  | remove =>
    obtain ⟨_, _, hother, -⟩ := step_remove hstep
    rw [hcallback] at hother
    cases hother
  | unlock =>
    obtain ⟨_, hother, -⟩ := step_unlock hstep
    rw [hcallback] at hother
    cases hother
  | _ => cases ha

/-- After its last section the callback touches no slot. -/
theorem ofCallback_unlock {worker : Nat} {a : Action} (h : s.callback = some (worker, .unlock))
    (ha : a.ofCallback = true) (hstep : step cfg s a = some s') : s'.table = s.table := by
  cases a with
  | unlock =>
    obtain ⟨_, -, rfl⟩ := step_unlock hstep
    rfl
  | receive outcome =>
    obtain ⟨_, _, -, rfl⟩ := step_receive hstep
    rfl
  | send =>
    obtain ⟨_, _, _, -, rfl⟩ := step_send hstep
    rfl
  | rearm ok =>
    obtain ⟨_, _, hother, -⟩ := step_rearm hstep
    rw [h] at hother
    cases hother
  | remove =>
    obtain ⟨_, _, hother, -⟩ := step_remove hstep
    rw [h] at hother
    cases hother
  | clear now =>
    obtain ⟨_, _, _, hother, -⟩ := step_clear hstep
    rw [h] at hother
    cases hother
  | _ => cases ha

/-- The last section changes the slot that was given back exactly when the flag is set. -/
theorem clear_unchanged_iff {i : Nat} {now : Int} (h : i ∈ s.givenBack)
    (hstep : step cfg s (.clear now) = some s') :
    s'.table.clients i = s.table.clients i ↔ (s.table.clients i).inFlight = false := by
  obtain ⟨worker, c, hcallback, rfl⟩ := givenBack_eq h
  obtain ⟨_, _, _, hclear, rfl⟩ := step_clear hstep
  rw [hcallback] at hclear
  cases hclear
  have hafter : (s.table.clear c.idx false now).clients c.idx =
      { s.table.clients c.idx with inFlight := false } := Function.update_self ..
  show (s.table.clear c.idx false now).clients c.idx = _ ↔ _
  rw [hafter]
  constructor
  · intro heq
    rw [← heq]
  · intro hflag
    rw [← hflag]

/-- A removal leaves the flag set: only a new connection in the slot clears it. -/
theorem remove_keeps_flag (h : Flagged s) (hstep : step cfg s .remove = some s') :
    ∀ i ∈ s'.givenBack, (s'.table.clients i).inFlight = true := by
  obtain ⟨worker, c, hcallback, rfl⟩ := step_remove hstep
  intro i hi
  obtain rfl := Option.some.inj hi
  show ((s.table.removeClient cfg.maxConnections c).clients c.idx).inFlight = true
  rw [inFlight_removeClient]
  apply h.actions
  rw [actions_eq hcallback]
  exact List.mem_cons_self

/-! ## The flag of a slot given back -/

/-- The flag of a slot that was given back is set, unless the slot was renewed. -/
def Watching (x : Watched) : Prop :=
  ∀ i ∈ x.server.givenBack, (x.server.table.clients i).inFlight = !x.renewed

variable {x x' : Watched} {a : Action}

theorem watchedStep_cases (h : watchedStep cfg x a = some x') :
    ∃ s', step cfg x.server a = some s' ∧ x' = ⟨s', x.renewedAfter a⟩ := by
  obtain ⟨s', hstep, rfl⟩ := Option.map_eq_some_iff.mp h
  exact ⟨s', hstep, rfl⟩

/-- The flag of the slot before a step of `main` that neither fills nor marks it, or as that step
    sets it. -/
theorem Watching.main (h : Watching x) (hcallback : s'.callback = x.server.callback)
    (hflag : ∀ i ∈ x.server.givenBack, (s'.table.clients i).inFlight =
      if x.server.filling a = some i then false
      else if x.server.marking a = some i then true
      else (x.server.table.clients i).inFlight) : Watching ⟨s', x.renewedAfter a⟩ := by
  intro i hi
  have hgiven : i ∈ x.server.givenBack := by
    unfold State.givenBack at hi ⊢
    rwa [← hcallback]
  have hsome : x.server.givenBack = some i := hgiven
  show (s'.table.clients i).inFlight = !x.renewedAfter a
  rw [hflag i hgiven, Watched.renewedAfter, hsome, h i hgiven]
  dsimp only
  split_ifs <;> rfl

/-- A step that neither fills nor marks a slot, and changes no flag. -/
theorem Watching.same (h : Watching x) (hcallback : s'.callback = x.server.callback)
    (hflag : ∀ i, (s'.table.clients i).inFlight = (x.server.table.clients i).inFlight)
    (hfill : x.server.filling a = none) (hmark : x.server.marking a = none) :
    Watching ⟨s', x.renewedAfter a⟩ :=
  h.main hcallback fun i _ => by rw [hfill, hmark, if_neg (by simp), if_neg (by simp), hflag]

/-- Without a slot that is given back. -/
theorem watching_of_none (h : s'.givenBack = none) (renewed : Bool) : Watching ⟨s', renewed⟩ := by
  intro i hi
  have hi : i ∈ s'.givenBack := hi
  rw [h] at hi
  cases hi

/-- A new connection is not in flight, and no other slot is touched. -/
theorem inFlight_appendClient (table : Table) (capacity : Nat) (sock : Socket) (now : Int)
    (added : Bool) (i : Nat) :
    ((table.appendClient capacity sock now added).clients i).inFlight =
      if table.freeList.head? = some i then false else (table.clients i).inFlight := by
  obtain ⟨hfree, heq⟩ | ⟨j, rest, hfree, hcases⟩ := table.appendClient_cases capacity sock now added
  · rw [heq, hfree]
    rfl
  · obtain ⟨c, hflag, hclients⟩ : ∃ c : Client, c.inFlight = false ∧
        (table.appendClient capacity sock now added).clients = Function.update table.clients j c := by
      obtain ⟨-, heq⟩ | ⟨-, heq⟩ := hcases
      · exact ⟨_, rfl, by rw [heq]⟩
      · exact ⟨_, rfl, by rw [heq]⟩
    rw [hclients, hfree, List.head?_cons]
    by_cases hi : i = j
    · rw [hi, if_pos rfl, Function.update_self, hflag]
    · rw [if_neg fun hj => hi (Option.some.inj hj).symm, Function.update_of_ne hi]

theorem watching_append {added : Bool} {now : Int} (h : Watching x)
    (hstep : step cfg x.server (.append added now) = some s') :
    Watching ⟨s', x.renewedAfter (.append added now)⟩ := by
  obtain ⟨sock, rest, rejects, hmain, rfl⟩ := step_append hstep
  have hfill : x.server.filling (.append added now) = x.server.table.freeList.head? := by
    rw [State.filling, hmain]
  have hmark : x.server.marking (.append added now) = none := rfl
  refine h.main rfl fun i _ => ?_
  rw [hfill, hmark, if_neg (c := none = some i) (by simp)]
  exact inFlight_appendClient ..

theorem watching_next (h : Watching x) (hstep : step cfg x.server .next = some s') :
    Watching ⟨s', x.renewedAfter .next⟩ := by
  obtain ⟨hmain, rfl⟩ | ⟨j, rest, hmain, rfl⟩ | ⟨rest, pc, hmain, -, rfl⟩ := step_next hstep
  · exact h.same rfl (fun _ => rfl) rfl (by rw [State.marking, hmain])
  · have hmark : x.server.marking .next = some j := by rw [State.marking, hmain]
    have hfill : x.server.filling .next = none := rfl
    refine h.main rfl fun i _ => ?_
    rw [hmark, hfill, if_neg (c := none = some i) (by simp)]
    show ((x.server.table.mark j).clients i).inFlight = _
    by_cases hi : i = j
    · rw [if_pos (by rw [hi]), hi]
      simp [Table.mark]
    · rw [if_neg fun hj => hi (Option.some.inj hj).symm]
      simp [Table.mark, hi]
  · exact h.same rfl (fun _ => rfl) rfl (by rw [State.marking, hmain])

theorem watching_step (hsafe : Safe cfg x.server) (hflagged : Flagged x.server) (h : Watching x)
    (hok : FlagKept cfg x.server a) (hstep : watchedStep cfg x a = some x') : Watching x' := by
  obtain ⟨s', hs, rfl⟩ := watchedStep_cases hstep
  cases a with
  | poll ready now =>
    obtain ⟨-, events, table, hreport, rfl⟩ := step_poll hs
    have hclients := (hsafe.tracked.report hsafe.slots hreport).2.2
    refine h.same rfl (fun i => ?_) rfl rfl
    show (table.clients i).inFlight = _
    rw [hclients]
  | sweep now =>
    obtain ⟨events, i, -, ⟨oldest, rfl⟩ | ⟨-, rfl⟩ | rfl⟩ := step_sweep hs
    · exact h.same rfl (fun _ => rfl) rfl rfl
    · exact h.same rfl (fun _ => rfl) rfl rfl
    · exact h.same rfl (fun _ => rfl) rfl rfl
  | sweepRemove =>
    obtain ⟨events, i, c, -, rfl⟩ := step_sweepRemove hs
    exact h.same rfl (fun i => inFlight_removeClient ..) rfl rfl
  | next => exact watching_next h hs
  | dispatch stored =>
    -- the lock of the queue is free, so no callback runs
    obtain ⟨i, rest, -, hidle, rfl⟩ := step_dispatch hs
    exact watching_of_none (by rw [State.givenBack, hidle]) _
  | accept result =>
    obtain ⟨rest, -, rfl | ⟨fd, -, rfl⟩⟩ := step_accept hs
    · exact h.same rfl (fun _ => rfl) rfl rfl
    · exact h.same rfl (fun _ => rfl) rfl rfl
  | append added now => exact watching_append h hs
  | take worker =>
    obtain ⟨c, queue, -, -, -, rfl⟩ := step_take hs
    exact watching_of_none rfl _
  | receive outcome =>
    obtain ⟨worker, c, -, rfl⟩ := step_receive hs
    exact watching_of_none (by cases outcome <;> rfl) _
  | send =>
    obtain ⟨worker, c, keepAlive, -, rfl⟩ := step_send hs
    exact watching_of_none (by cases keepAlive <;> rfl) _
  | rearm ok =>
    obtain ⟨worker, c, -, ⟨-, -, rfl⟩ | ⟨-, rfl⟩⟩ := step_rearm hs
    · exact watching_of_none rfl _
    · exact watching_of_none rfl _
  | remove =>
    intro i hi
    obtain ⟨worker, c, hcallback, -⟩ := step_remove hs
    have hnot : x.renewedAfter .remove = false := by
      rw [Watched.renewedAfter, State.givenBack, hcallback]
    show (s'.table.clients i).inFlight = !x.renewedAfter .remove
    rw [hnot]
    exact remove_keeps_flag hflagged hs i hi
  | clear now =>
    obtain ⟨worker, c, kept, -, rfl⟩ := step_clear hs
    exact watching_of_none rfl _
  | unlock =>
    obtain ⟨worker, -, rfl⟩ := step_unlock hs
    exact watching_of_none rfl _
  | exit worker =>
    obtain rfl := step_exit hs
    exact h.same rfl (fun _ => rfl) rfl rfl
  | stop => exact hok.elim
  | delete =>
    rw [safe_delete hsafe] at hs
    cases hs

theorem watching_reach (h : Reach (watchedStep cfg) (LeftAlone cfg) (watchedStart cfg) x) :
    Safe cfg x.server ∧ Flagged x.server ∧ Watching x := by
  apply h.invariant (fun x => Safe cfg x.server ∧ Flagged x.server ∧ Watching x)
    ⟨safe_start cfg, flagged_start cfg, watching_of_none rfl false⟩
  rintro x a x' ⟨hsafe, hflagged, hwatching⟩ hok hstep
  obtain ⟨s', hs, rfl⟩ := watchedStep_cases hstep
  exact ⟨safe_step hsafe (hflagged.sweepsUnused hok.1) hs, flagged_step hsafe hflagged hok.1 hs,
    watching_step hsafe hflagged hwatching hok.1 hstep⟩

/-- **A slot that was given back is left alone** in every state of the runs in which a callback
    that has removed its client runs its last section only when a connection was put into the slot
    since and not yet marked: no step of the callback changes a field of the slot, and the mark of
    every slot that `main` is about to queue, or that is queued or running, is there until its
    request is handled. At any other time that section changes the slot. -/
theorem given_back_untouched (cfg : Config) (x : Watched)
    (h : Reach (watchedStep cfg) (LeftAlone cfg) (watchedStart cfg) x) :
    (∀ i ∈ x.server.givenBack, ∀ a s', a.ofCallback = true → LeftAlone cfg x a →
      step cfg x.server a = some s' → s'.table.clients i = x.server.table.clients i) ∧
    (∀ i ∈ x.server.givenBack, ∀ now s', step cfg x.server (.clear now) = some s' →
      s'.table.clients i = x.server.table.clients i → x.renewed = true) ∧
    (∀ worker, x.server.callback = some (worker, .unlock) → ∀ a s', a.ofCallback = true →
      step cfg x.server a = some s' → s'.table = x.server.table) ∧
    (∀ i ∈ x.server.dispatching, (x.server.table.clients i).inFlight = true) ∧
    ∀ c ∈ x.server.actions, (x.server.table.clients c.idx).inFlight = true := by
  obtain ⟨-, hflagged, hwatching⟩ := watching_reach h
  refine ⟨?_, ?_, ?_, hflagged.dispatching, hflagged.actions⟩
  · intro i hi a s' ha hok hstep
    obtain ⟨now, rfl⟩ := ofCallback_givenBack hi ha hstep
    have hrenewed : x.renewed = true := hok.2 now rfl (Option.ne_none_iff_exists'.mpr ⟨i, hi⟩)
    rw [clear_unchanged_iff hi hstep, hwatching i hi, hrenewed]
    rfl
  · intro i hi now s' hstep hsame
    have hclear := (clear_unchanged_iff hi hstep).mp hsame
    rw [hwatching i hi] at hclear
    simpa using hclear
  · intro worker hcallback a s' ha hstep
    exact ofCallback_unlock hcallback ha hstep

/-- A worker answers the first client's last request and removes the client; before it locks
    the table again, `main` accepts a third connection into the slot. -/
def reusedSlot : List Action :=
  twoClients ++ [.poll [some 5] 1, .sweep 1, .sweep 1, .sweep 1, .next, .dispatch true, .next,
    .take 0, .receive (.request false), .send, .remove,
    .poll [none] 1, .sweep 1, .sweep 1, .sweep 1, .next, .accept (some 5), .append true 1,
    .accept none, .next]

/-- `given_back_untouched` where the third connection is in the slot and not yet marked: the
    worker's last section leaves it as it is. -/
theorem given_back_untouched_reused :
    ∃ (x : Watched) (s' : State), x.server.givenBack = some 0 ∧
      x.server.table.clients 0 = ⟨⟨5, 2⟩, 1, 0, true, false⟩ ∧
      step twoSlots x.server (.clear 1) = some s' ∧
      s'.table.clients 0 = x.server.table.clients 0 := by
  obtain ⟨x, hx, hstate⟩ := Reach.of_exec_map
    (show (exec (guarded (watchedStep twoSlots) (LeftAlone twoSlots)) (watchedStart twoSlots)
      reusedSlot).map (fun x => (x.server.givenBack, x.renewed, x.server.table.clients 0,
        (step twoSlots x.server (.clear 1)).isSome, decide (FlagKept twoSlots x.server (.clear 1)))) =
      some (some 0, true, ⟨⟨5, 2⟩, 1, 0, true, false⟩, true, true) from rfl)
  simp only [Prod.mk.injEq, decide_eq_true_eq] at hstate
  obtain ⟨hgiven, hrenewed, hclient, hsome, hkept⟩ := hstate
  obtain ⟨s', hstep⟩ := Option.isSome_iff_exists.mp hsome
  exact ⟨x, s', hgiven, hclient, hstep,
    (given_back_untouched twoSlots x hx).1 0 hgiven (.clear 1) s' rfl
      ⟨hkept, fun _ _ _ => hrenewed⟩ hstep⟩

/-- The third connection's request is fetched and marked before the worker locks the table: the
    worker clears the mark, and `main` queues the request without it. -/
theorem given_back_cleared :
    ∃ s s' : State, Reach (step twoSlots) Serves (start twoSlots) s ∧
      step twoSlots s (.clear 1) = some s' ∧ s.givenBack = some 0 ∧
      s.table.clients 0 = ⟨⟨5, 2⟩, 1, 0, true, true⟩ ∧
      s'.table.clients 0 = ⟨⟨5, 2⟩, 1, 0, true, false⟩ ∧ s'.dispatching = some 0 := by
  obtain ⟨s, hs, hstate⟩ := Reach.of_exec_map
    (show (exec (guarded (step twoSlots) Serves) (start twoSlots)
      (reusedSlot ++ [.poll [some 5] 1, .sweep 1, .sweep 1, .sweep 1, .next])).map
        (fun s => (s.givenBack, s.table.clients 0, (step twoSlots s (.clear 1)).map
          fun s' => (s'.table.clients 0, s'.dispatching))) =
      some (some 0, ⟨⟨5, 2⟩, 1, 0, true, true⟩,
        some (⟨⟨5, 2⟩, 1, 0, true, false⟩, some 0)) from rfl)
  simp only [Prod.mk.injEq, Option.map_eq_some_iff] at hstate
  obtain ⟨hgiven, hbefore, s', hstep, hafter, hdispatching⟩ := hstate
  exact ⟨s, s', hs, hstep, hgiven, hbefore, hafter, hdispatching⟩

end Foxtails.Server
