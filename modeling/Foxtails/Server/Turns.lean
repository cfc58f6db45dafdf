/-
  The server gets on with its work.

  Model (read this before the theorems). A callback is a few steps: `http_recv_message`,
  `fetch_response` with all it calls, and `http_send_response` are taken to return. (The receive
  loop has no bound of its own: a peer that goes on sending keeps a callback in it.) The steps that
  the rest of the world decides are `poll`, an `accept` that brings a connection, and the signal
  that ends the loop. All others are the server's own. `State.work` counts what it has still to do:
  2 for each slot that is not swept, 9 for an event of a client, 7 for a queued action, 6 and less
  for the running callback, 3 for each slot of `server_delete`, 1 for each worker.

  * `work_step`: each step costs 1, and what it brings is its `gain`.
  * `own_enabled`: unless there is nothing to do, the server has a step of its own.
  * `turns_end`: so every turn of the loop ends, a shutdown ends, and the whole server is never stuck.
-/
import Foxtails.Server.Removal

namespace Foxtails.Server

open Foxtails.Lib.Run Table

/-! ## What is left to do -/

def eventsWork : List (Option Nat) → Nat
  | [] => 1
  | none :: rest => eventsWork rest + 2
  | some _ :: rest => eventsWork rest + 9

def MainPc.work (maxConnections : Nat) : MainPc → Nat
  | .poll => 0
  | .sweep batch i => 2 * (maxConnections - i) + 1 + eventsWork batch
  | .sweepRemove batch i _ => 2 * (maxConnections - (i + 1)) + 2 + eventsWork batch
  | .events batch => eventsWork batch
  | .dispatch _ batch => eventsWork batch + 8
  | .accept batch => eventsWork batch + 1
  | .append _ batch => eventsWork batch + 2
  | .delete i => 3 * (maxConnections - i) + 3
  | .deleteClose i => 3 * (maxConnections - (i + 1)) + 5
  | .deleteFree i => 3 * (maxConnections - (i + 1)) + 4
  | .deletePool => 2
  | .join => 1
  | .deleted => 0

def CallbackPc.work : CallbackPc → Nat
  | .receive _ => 6
  | .send .. => 5
  | .rearm _ => 4
  | .remove _ => 3
  | .clear .. => 2
  | .unlock => 1

/-- The callback that runs, if there is one. -/
def callbackWork : Option (Nat × CallbackPc) → Nat
  | some (_, pc) => pc.work
  | none => 0

def State.work (cfg : Config) (s : State) : Nat :=
  s.main.work cfg.maxConnections + 7 * s.queue.length + callbackWork s.callback +
    (cfg.numWorkers - s.exited.length)

/-- What an action brings from outside; nothing if it is the server's own. -/
def gain (cfg : Config) : Action → Nat
  | .poll ready _ => 2 * cfg.maxConnections + 3 + 9 * ready.length
  | .accept (some _) => 2
  | .stop => 3 * cfg.maxConnections + 4
  | _ => 0

/-- The server is in `epoll_wait` with nothing to do, or has ended. -/
def Quiet (s : State) : Prop :=
  (s.main = .poll ∧ s.queue = [] ∧ s.callback = none) ∨ s.main = .deleted

/-- The workers that have exited, and when they do. -/
structure Crew (cfg : Config) (s : State) : Prop where
  nodup : s.exited.Nodup
  bound : ∀ worker ∈ s.exited, worker < cfg.numWorkers
  working : s.shuttingDown = false → s.exited = []
  flag : s.shuttingDown = true ↔ s.main = .join ∨ s.main = .deleted

variable {cfg : Config} {s s' : State} {a : Action}

theorem crew_start (cfg : Config) : Crew cfg (start cfg) :=
  ⟨List.nodup_nil, fun _ h => absurd h List.not_mem_nil, fun _ => rfl,
    ⟨fun h => (by cases h), fun h => by obtain h | h := h <;> cases h⟩⟩

/-- A step in which no worker exits and the flag is not set. -/
theorem Crew.same (h : Crew cfg s) (hexited : s'.exited = s.exited)
    (hflag : s'.shuttingDown = s.shuttingDown)
    (hmain : (s'.main = .join ∨ s'.main = .deleted) ↔ (s.main = .join ∨ s.main = .deleted)) :
    Crew cfg s' := by
  refine ⟨?_, ?_, ?_, ?_⟩
  · rw [hexited]
    exact h.nodup
  · rw [hexited]
    exact h.bound
  · rw [hflag, hexited]
    exact h.working
  · rw [hflag, hmain]
    exact h.flag

/-- The same where neither side is in the end of `server_delete`. -/
theorem Crew.running (h : Crew cfg s) (hexited : s'.exited = s.exited)
    (hflag : s'.shuttingDown = s.shuttingDown) (hmain : s.main ≠ .join ∧ s.main ≠ .deleted)
    (hmain' : s'.main ≠ .join ∧ s'.main ≠ .deleted) : Crew cfg s' := by
  apply h.same hexited hflag
  constructor
  · rintro (hend | hend)
    · exact absurd hend hmain'.1
    · exact absurd hend hmain'.2
  · rintro (hend | hend)
    · exact absurd hend hmain.1
    · exact absurd hend hmain.2

theorem length_exited (h : Crew cfg s) : s.exited.length ≤ cfg.numWorkers := by
  have hsub : s.exited ⊆ List.range cfg.numWorkers := fun worker hw =>
    List.mem_range.mpr (h.bound worker hw)
  have hle := (h.nodup.subperm hsub).length_le
  rwa [List.length_range] at hle

/-! ## A step -/

theorem step_exit_cases {worker : Nat} (h : step cfg s (.exit worker) = some s') :
    s.callback = none ∧ worker < cfg.numWorkers ∧ worker ∉ s.exited ∧ s.shuttingDown = true ∧
      s' = { s with exited := worker :: s.exited } := by
  unfold step stepWorker at h
  dsimp only at h
  split at h
  · split_ifs at h with hcan
    exact ⟨‹_›, hcan.1, hcan.2.1, hcan.2.2, (Option.some.inj h).symm⟩
  · cases h

theorem step_accept_none (h : step cfg s (.accept none) = some s') :
    ∃ rest, s.main = .accept rest ∧ s' = { s with main := .events rest } := by
  unfold step stepMain at h
  dsimp only at h
  split at h
  · exact ⟨_, ‹_›, (Option.some.inj h).symm⟩
  · cases ‹none = some _›
  · cases h

theorem crew_exit {worker : Nat} (h : Crew cfg s) (hstep : step cfg s (.exit worker) = some s') :
    Crew cfg s' := by
  obtain ⟨-, hworker, hnew, hflag, rfl⟩ := step_exit_cases hstep
  refine ⟨List.nodup_cons.mpr ⟨hnew, h.nodup⟩, ?_, fun hoff => ?_, h.flag⟩
  · intro w hw
    obtain rfl | hw := List.mem_cons.mp hw
    · exact hworker
    · exact h.bound w hw
  · rw [hflag] at hoff
    cases hoff

/-- Every event of the batch is one of those that were ready. -/
theorem report_length {ready events : List (Option Nat)} {t t' : Table}
    (h : t.report ready = some (events, t')) : events.length = ready.length := by
  induction ready generalizing t t' events with
  | nil =>
    simp only [Table.report, Option.some.injEq, Prod.mk.injEq] at h
    rw [← h.1]
  | cons r ready ih =>
    cases r with
    | none =>
      rw [Table.report, Option.map_eq_some_iff] at h
      obtain ⟨⟨rest, t₁⟩, hrest, heq⟩ := h
      simp only [Prod.mk.injEq] at heq
      rw [← heq.1, List.length_cons, List.length_cons, ih hrest]
    | some fd =>
      rw [Table.report] at h
      split at h
      · obtain ⟨⟨rest, t₁⟩, hrest, heq⟩ := Option.map_eq_some_iff.mp h
        simp only [Prod.mk.injEq] at heq
        rw [← heq.1, List.length_cons, List.length_cons, ih hrest]
      · cases h

theorem eventsWork_le (events : List (Option Nat)) : eventsWork events ≤ 9 * events.length + 1 := by
  induction events with
  | nil => exact le_rfl
  | cons event events ih =>
    rw [List.length_cons]
    cases event with
    | none =>
      rw [eventsWork]
      omega
    | some i =>
      rw [eventsWork]
      omega

/-- A step of `main` that leaves queue, callback and workers alone. -/
theorem work_main (hqueue : s'.queue = s.queue) (hcallback : s'.callback = s.callback)
    (hexited : s'.exited = s.exited)
    (hmain : s'.main.work cfg.maxConnections + 1 ≤ s.main.work cfg.maxConnections + gain cfg a) :
    s'.work cfg + 1 ≤ s.work cfg + gain cfg a := by
  unfold State.work
  rw [hqueue, hcallback, hexited]
  omega

/-- A step of the callback. -/
theorem work_callback {worker : Nat} {pc : CallbackPc} (hmain : s'.main = s.main)
    (hqueue : s'.queue = s.queue) (hexited : s'.exited = s.exited)
    (hcallback : s.callback = some (worker, pc)) (hless : callbackWork s'.callback + 1 ≤ pc.work) :
    s'.work cfg + 1 ≤ s.work cfg + gain cfg a := by
  have hbefore : callbackWork s.callback = pc.work := by
    rw [hcallback]
    rfl
  unfold State.work
  rw [hmain, hqueue, hexited, hbefore]
  omega

theorem work_sweep {now : Int} (hstep : step cfg s (.sweep now) = some s') :
    s'.work cfg + 1 ≤ s.work cfg + gain cfg (.sweep now) := by
  obtain ⟨batch, i, hmain, ⟨hi, -, oldest, rfl⟩ | ⟨hidle, rfl⟩ | ⟨-, rfl⟩⟩ := step_sweep_idle hstep
  · refine work_main rfl rfl rfl ?_
    rw [hmain]
    simp only [MainPc.work, gain]
    omega
  · refine work_main rfl rfl rfl ?_
    rw [hmain]
    simp only [MainPc.work, gain]
    have hi := hidle.1
    omega
  · refine work_main rfl rfl rfl ?_
    rw [hmain]
    simp only [MainPc.work, gain]
    omega

theorem work_next (hstep : step cfg s .next = some s') :
    s'.work cfg + 1 ≤ s.work cfg + gain cfg .next := by
  obtain ⟨hmain, rfl⟩ | ⟨i, rest, hmain, rfl⟩ | ⟨rest, pc, hmain, rfl | rfl, rfl⟩ := step_next hstep
  · refine work_main rfl rfl rfl ?_
    rw [hmain]
    exact le_rfl
  · refine work_main rfl rfl rfl ?_
    rw [hmain]
    exact le_rfl
  · refine work_main rfl rfl rfl ?_
    rw [hmain]
    exact Nat.le_succ _
  · refine work_main rfl rfl rfl ?_
    rw [hmain]
    exact le_rfl

theorem work_dispatch {stored : Bool} (hstep : step cfg s (.dispatch stored) = some s') :
    s'.work cfg + 1 ≤ s.work cfg + gain cfg (.dispatch stored) := by
  obtain ⟨i, rest, hmain, hidle, rfl⟩ := step_dispatch hstep
  have hbefore : s.main.work cfg.maxConnections = eventsWork rest + 8 := by
    rw [hmain]
    rfl
  have hafter : (MainPc.events rest).work cfg.maxConnections = eventsWork rest := rfl
  unfold State.work
  dsimp only
  cases stored with
  | false =>
    rw [if_neg Bool.false_ne_true]
    omega
  | true =>
    rw [if_pos rfl, List.length_append, List.length_singleton]
    omega

theorem work_accept {result : Option Nat} (h : Crew cfg s)
    (hstep : step cfg s (.accept result) = some s') :
    Crew cfg s' ∧ s'.work cfg + 1 ≤ s.work cfg + gain cfg (.accept result) := by
  cases result with
  | none =>
    obtain ⟨rest, hmain, rfl⟩ := step_accept_none hstep
    refine ⟨h.running rfl rfl (by simp [hmain]) (by simp), work_main rfl rfl rfl ?_⟩
    rw [hmain]
    exact le_rfl
  | some fd =>
    obtain ⟨rest, hmain, rfl | ⟨fd', -, rfl⟩⟩ := step_accept hstep
    · refine ⟨h.running rfl rfl (by simp [hmain]) (by simp), work_main rfl rfl rfl ?_⟩
      rw [hmain]
      exact Nat.le_add_right ..
    · refine ⟨h.running rfl rfl (by simp [hmain]) (by simp), work_main rfl rfl rfl ?_⟩
      rw [hmain]
      exact le_rfl

theorem work_delete (h : Crew cfg s) (hstep : step cfg s .delete = some s') :
    Crew cfg s' ∧ s'.work cfg + 1 ≤ s.work cfg + gain cfg .delete := by
  obtain ⟨i, hmain, hi, -, rfl⟩ | ⟨i, hmain, hi, -, rfl⟩ | ⟨i, hmain, hi, rfl⟩ | ⟨i, hmain, rfl⟩ |
    ⟨i, hmain, rfl⟩ | ⟨hmain, rfl⟩ | ⟨hmain, rfl⟩ := step_delete hstep
  · refine ⟨h.running rfl rfl (by simp [hmain]) (by simp), work_main rfl rfl rfl ?_⟩
    rw [hmain]
    simp only [MainPc.work, gain]
    omega
  · refine ⟨h.running rfl rfl (by simp [hmain]) (by simp), work_main rfl rfl rfl ?_⟩
    rw [hmain]
    simp only [MainPc.work, gain]
    omega
  · refine ⟨h.running rfl rfl (by simp [hmain]) (by simp), work_main rfl rfl rfl ?_⟩
    rw [hmain]
    simp only [MainPc.work, gain]
    omega
  · refine ⟨h.running rfl rfl (by simp [hmain]) (by simp), work_main rfl rfl rfl ?_⟩
    rw [hmain]
    exact le_rfl
  · refine ⟨h.running rfl rfl (by simp [hmain]) (by simp), work_main rfl rfl rfl ?_⟩
    rw [hmain]
    exact le_rfl
  · refine ⟨⟨h.nodup, h.bound, fun hoff => (by cases hoff), ⟨fun _ => .inl rfl, fun _ => rfl⟩⟩, ?_⟩
    refine work_main rfl rfl rfl ?_
    rw [hmain]
    exact le_rfl
  · refine ⟨h.same rfl rfl (by simp [hmain]), work_main rfl rfl rfl ?_⟩
    rw [hmain]
    exact le_rfl

/-- **A step costs 1**, and what it brings from outside is its gain. -/
theorem work_step (h : Crew cfg s) (hstep : step cfg s a = some s') :
    Crew cfg s' ∧ s'.work cfg + 1 ≤ s.work cfg + gain cfg a := by
  cases a with
  | poll ready now =>
    obtain ⟨hmain, events, table, hreport, rfl⟩ := step_poll hstep
    refine ⟨h.running rfl rfl (by simp [hmain]) (by simp), work_main rfl rfl rfl ?_⟩
    have hlength := report_length hreport
    have hevents := eventsWork_le events
    rw [hmain]
    simp only [MainPc.work, gain]
    omega
  | sweep =>
    refine ⟨?_, work_sweep hstep⟩
    obtain ⟨events, i, hmain, ⟨oldest, rfl⟩ | ⟨hidle, rfl⟩ | rfl⟩ := step_sweep hstep
    · exact h.running rfl rfl (by simp [hmain]) (by simp)
    · exact h.running rfl rfl (by simp [hmain]) (by simp)
    · exact h.running rfl rfl (by simp [hmain]) (by simp)
  | sweepRemove =>
    obtain ⟨events, i, c, hmain, rfl⟩ := step_sweepRemove hstep
    refine ⟨h.running rfl rfl (by simp [hmain]) (by simp), work_main rfl rfl rfl ?_⟩
    rw [hmain]
    simp only [MainPc.work, gain]
    omega
  | next =>
    refine ⟨?_, work_next hstep⟩
    obtain ⟨hmain, rfl⟩ | ⟨i, rest, hmain, rfl⟩ | ⟨rest, pc, hmain, rfl | rfl, rfl⟩ := step_next hstep
    · exact h.running rfl rfl (by simp [hmain]) (by simp)
    · exact h.running rfl rfl (by simp [hmain]) (by simp)
    · exact h.running rfl rfl (by simp [hmain]) (by simp)
    · exact h.running rfl rfl (by simp [hmain]) (by simp)
  | dispatch =>
    refine ⟨?_, work_dispatch hstep⟩
    obtain ⟨i, rest, hmain, hidle, rfl⟩ := step_dispatch hstep
    exact h.running rfl rfl (by simp [hmain]) (by simp)
  | accept result => exact work_accept h hstep
  | append =>
    obtain ⟨sock, rest, rejects, hmain, rfl⟩ := step_append hstep
    refine ⟨h.running rfl rfl (by simp [hmain]) (by simp), work_main rfl rfl rfl ?_⟩
    rw [hmain]
    exact le_rfl
  | take =>
    obtain ⟨c, queue, hidle, hqueue, -, rfl⟩ := step_take hstep
    refine ⟨h.same rfl rfl Iff.rfl, ?_⟩
    unfold State.work
    rw [hidle, hqueue, List.length_cons]
    simp only [callbackWork, CallbackPc.work, gain]
    omega
  | receive outcome =>
    obtain ⟨worker, c, hcallback, rfl⟩ := step_receive hstep
    refine ⟨h.same rfl rfl Iff.rfl, work_callback rfl rfl rfl hcallback ?_⟩
    cases outcome with
    | closed => exact Nat.le_add_left ..
    | bad => exact le_rfl
    | request keepAlive => exact le_rfl
  | send =>
    obtain ⟨worker, c, keepAlive, hcallback, rfl⟩ := step_send hstep
    refine ⟨h.same rfl rfl Iff.rfl, work_callback rfl rfl rfl hcallback ?_⟩
    cases keepAlive with
    | true => exact le_rfl
    | false => exact Nat.le_succ _
  | rearm =>
    obtain ⟨worker, c, hcallback, ⟨rfl, -, rfl⟩ | ⟨rfl, rfl⟩⟩ := step_rearm hstep
    · exact ⟨h.same rfl rfl Iff.rfl, work_callback rfl rfl rfl hcallback (Nat.le_succ _)⟩
    · exact ⟨h.same rfl rfl Iff.rfl, work_callback rfl rfl rfl hcallback le_rfl⟩
  | remove =>
    obtain ⟨worker, c, hcallback, rfl⟩ := step_remove hstep
    exact ⟨h.same rfl rfl Iff.rfl, work_callback rfl rfl rfl hcallback le_rfl⟩
  | clear =>
    obtain ⟨worker, c, kept, hcallback, rfl⟩ := step_clear hstep
    exact ⟨h.same rfl rfl Iff.rfl, work_callback rfl rfl rfl hcallback le_rfl⟩
  | unlock =>
    obtain ⟨worker, hcallback, rfl⟩ := step_unlock hstep
    exact ⟨h.same rfl rfl Iff.rfl, work_callback rfl rfl rfl hcallback le_rfl⟩
  | exit =>
    have hcrew := crew_exit h hstep
    obtain ⟨-, -, -, -, rfl⟩ := step_exit_cases hstep
    have hlength := length_exited hcrew
    rw [List.length_cons] at hlength
    refine ⟨hcrew, ?_⟩
    unfold State.work
    dsimp only
    rw [List.length_cons]
    omega
  | stop =>
    obtain ⟨hmain, rfl⟩ := step_stop hstep
    refine ⟨h.running rfl rfl (by simp [hmain]) (by simp), work_main rfl rfl rfl ?_⟩
    rw [hmain]
    simp only [MainPc.work, gain]
    omega
  | delete => exact work_delete h hstep

/-! ## Never stuck -/

/-- The steps the server takes by itself. -/
def Action.own : Action → Bool
  | .poll .. | .accept (some _) | .stop => false
  | _ => true

theorem gain_own (ha : a.own = true) : gain cfg a = 0 := by
  cases a with
  | poll => cases ha
  | stop => cases ha
  | accept result =>
    cases result with
    | none => rfl
    | some fd => cases ha
  | _ => rfl

/-- The running callback has a next step. -/
theorem callback_enabled {worker : Nat} {pc : CallbackPc} (h : s.callback = some (worker, pc)) :
    ∃ a, a.own = true ∧ (step cfg s a).isSome = true := by
  cases pc with
  | receive c => exact ⟨.receive .closed, rfl, by simp only [step, stepWorker, h]; rfl⟩
  | send c keepAlive => exact ⟨.send, rfl, by simp only [step, stepWorker, h]; rfl⟩
  | rearm c => exact ⟨.rearm false, rfl, by simp only [step, stepWorker, h]; rfl⟩
  | remove c => exact ⟨.remove, rfl, by simp only [step, stepWorker, h]; rfl⟩
  | clear c kept => exact ⟨.clear 0, rfl, by simp only [step, stepWorker, h]; rfl⟩
  | unlock => exact ⟨.unlock, rfl, by simp only [step, stepWorker, h]; rfl⟩

/-- While the flag is not set all workers are there, and one can take an action. -/
theorem take_enabled (hworkers : 0 < cfg.numWorkers) (h : Crew cfg s)
    (hmain : s.main ≠ .join ∧ s.main ≠ .deleted) (hcallback : s.callback = none)
    (hqueue : s.queue ≠ []) : (step cfg s (.take 0)).isSome = true := by
  have hflag : s.shuttingDown = false := by
    rw [← Bool.not_eq_true, h.flag, not_or]
    exact hmain
  have hcan : 0 < cfg.numWorkers ∧ 0 ∉ s.exited ∧ s.shuttingDown = false := by
    rw [h.working hflag]
    exact ⟨hworkers, List.not_mem_nil, hflag⟩
  obtain ⟨c, queue, hcons⟩ := List.exists_cons_of_ne_nil hqueue
  simp only [step, stepWorker, hcallback, hcons]
  rw [if_pos hcan]
  rfl

/-- A worker that has not exited can, and when all have, they can be joined. -/
theorem join_enabled (h : Crew cfg s) (hmain : s.main = .join) (hcallback : s.callback = none) :
    ∃ a, a.own = true ∧ (step cfg s a).isSome = true := by
  by_cases hall : ∀ worker < cfg.numWorkers, worker ∈ s.exited
  · refine ⟨.delete, rfl, ?_⟩
    simp only [step, stepDelete, hmain]
    rw [if_pos hall]
    rfl
  · push Not at hall
    obtain ⟨worker, hworker, hthere⟩ := hall
    refine ⟨.exit worker, rfl, ?_⟩
    simp only [step, stepWorker, hcallback]
    rw [if_pos ⟨hworker, hthere, h.flag.mpr (.inl hmain)⟩]
    rfl

/-- **Unless there is nothing to do, the server has a step of its own.** -/
theorem own_enabled (hworkers : 0 < cfg.numWorkers) (h : Crew cfg s) (hbusy : ¬ Quiet s) :
    ∃ a, a.own = true ∧ (step cfg s a).isSome = true := by
  cases hcallback : s.callback with
  | some running => exact callback_enabled hcallback
  | none =>
    cases hmain : s.main with
    | poll =>
      refine ⟨.take 0, rfl, take_enabled hworkers h (by simp [hmain]) hcallback fun hqueue => ?_⟩
      exact hbusy (.inl ⟨hmain, hqueue, hcallback⟩)
    | sweep batch i =>
      refine ⟨.sweep 0, rfl, ?_⟩
      simp only [step, stepMain, hmain]
      split_ifs <;> rfl
    | sweepRemove batch i c => exact ⟨.sweepRemove, rfl, by simp only [step, stepMain, hmain]; rfl⟩
    | events batch =>
      refine ⟨.next, rfl, ?_⟩
      cases batch with
      | nil =>
        simp only [step, stepMain, hmain]
        rfl
      | cons event batch => cases event <;> simp only [step, stepMain, hmain] <;> rfl
    | dispatch i batch =>
      exact ⟨.dispatch true, rfl, by simp only [step, stepMain, hmain, hcallback]; rfl⟩
    | accept batch => exact ⟨.accept none, rfl, by simp only [step, stepMain, hmain]; rfl⟩
    | append sock batch => exact ⟨.append true 0, rfl, by simp only [step, stepMain, hmain]; rfl⟩
    | delete i =>
      refine ⟨.delete, rfl, ?_⟩
      simp only [step, stepDelete, hmain]
      split_ifs <;> rfl
    | deleteClose i => exact ⟨.delete, rfl, by simp only [step, stepDelete, hmain]; rfl⟩
    | deleteFree i => exact ⟨.delete, rfl, by simp only [step, stepDelete, hmain]; rfl⟩
    | deletePool => exact ⟨.delete, rfl, by simp only [step, stepDelete, hmain, hcallback]; rfl⟩
    | join => exact join_enabled h hmain hcallback
    | deleted => exact absurd (.inr hmain) hbusy

/-! ## Whole runs -/

/-- Any step at all. -/
def AnyStep (_ : State) (_ : Action) : Prop := True

instance (s : State) : DecidablePred (AnyStep s) := fun _ => isTrue trivial

theorem crew_reach (h : Reach (step cfg) AnyStep (start cfg) s) : Crew cfg s :=
  h.invariant (Crew cfg) (crew_start cfg) fun _ _ _ hs _ hstep => (work_step hs hstep).1

/-- What the steps of a run cost, all together. -/
theorem work_exec (h : Crew cfg s) {as : List Action} (hexec : exec (step cfg) s as = some s') :
    Crew cfg s' ∧ s'.work cfg + as.length ≤ s.work cfg + (as.map (gain cfg)).sum := by
  obtain ⟨hcrew, hbudget⟩ := exec_budget (fun _ => 1) (gain cfg) (Crew cfg) (State.work cfg)
    (fun _ _ _ hs hstep => work_step hs hstep) h hexec
  rw [List.map_const', List.sum_replicate, smul_eq_mul, Nat.mul_one] at hbudget
  exact ⟨hcrew, hbudget⟩

theorem gain_owns {as : List Action} (h : ∀ a ∈ as, a.own = true) :
    (as.map (gain cfg)).sum = 0 := by
  rw [List.sum_eq_zero_iff]
  intro n hn
  obtain ⟨a, ha, rfl⟩ := List.mem_map.mp hn
  exact gain_own (h a ha)

/-- **Every turn of the loop ends, and the server is never stuck.** From every state of every run,
    with at least one worker: however `main` and the workers take turns, they take at most as many
    steps as there is work left and as the polls, the accepted connections and the signal bring. A
    run of their own steps that cannot go on ends where `main` waits in `epoll_wait` with nothing
    queued and no callback running, or at the end of `server_delete`; and there is one. -/
theorem turns_end (cfg : Config) (hworkers : 0 < cfg.numWorkers) (s : State)
    (h : Reach (step cfg) AnyStep (start cfg) s) :
    (∀ as s', exec (step cfg) s as = some s' →
      s'.work cfg + as.length ≤ s.work cfg + (as.map (gain cfg)).sum) ∧
    (∀ as s', exec (step cfg) s as = some s' → (∀ a ∈ as, a.own = true) →
      as.length ≤ s.work cfg ∧ ((∀ a, a.own = true → step cfg s' a = none) → Quiet s')) ∧
    ∃ as s', exec (step cfg) s as = some s' ∧ (∀ a ∈ as, a.own = true) ∧
      as.length ≤ s.work cfg ∧ Quiet s' := by
  have hcrew := crew_reach h
  refine ⟨fun as s' hexec => (work_exec hcrew hexec).2, ?_, ?_⟩
  · intro as s' hexec hown
    obtain ⟨hcrew', hbudget⟩ := work_exec hcrew hexec
    rw [gain_owns hown] at hbudget
    refine ⟨by omega, fun hend => ?_⟩
    by_contra hbusy
    obtain ⟨a, ha, hsome⟩ := own_enabled hworkers hcrew' hbusy
    rw [hend a ha] at hsome
    cases hsome
  · refine exists_exec (fun a : Action => a.own = true) (Crew cfg) Quiet (State.work cfg) ?_ hcrew
    intro s hs hbusy
    obtain ⟨a, ha, hsome⟩ := own_enabled hworkers hs hbusy
    obtain ⟨s', hstep⟩ := Option.isSome_iff_exists.mp hsome
    obtain ⟨hs', hless⟩ := work_step hs hstep
    rw [gain_own ha] at hless
    exact ⟨a, s', ha, hstep, hs', hless⟩

/-- The first client's request is in the queue, and the signal comes. -/
def signalled : List Action :=
  twoClients ++ [.poll [some 5] 1, .sweep 1, .sweep 1, .sweep 1, .next, .dispatch true, .next, .stop]

theorem turns_end_signalled :
    ∃ s : State, s.main = .delete 0 ∧ s.queue ≠ [] ∧
      (∀ as s', exec (step twoSlots) s as = some s' →
        s'.work twoSlots + as.length ≤ s.work twoSlots + (as.map (gain twoSlots)).sum) ∧
      (∀ as s', exec (step twoSlots) s as = some s' → (∀ a ∈ as, a.own = true) →
        as.length ≤ s.work twoSlots ∧
          ((∀ a, a.own = true → step twoSlots s' a = none) → Quiet s')) ∧
      ∃ as s', exec (step twoSlots) s as = some s' ∧ (∀ a ∈ as, a.own = true) ∧
        as.length ≤ s.work twoSlots ∧ Quiet s' := by
  obtain ⟨s, hs, hstate⟩ := Reach.of_exec_map
    (show (exec (guarded (step twoSlots) AnyStep) (start twoSlots) signalled).map
      (fun s => (s.main, s.queue.length)) = some (.delete 0, 1) from rfl)
  simp only [Prod.mk.injEq] at hstate
  obtain ⟨hmain, hqueue⟩ := hstate
  refine ⟨s, hmain, ?_, turns_end twoSlots (by decide) s hs⟩
  rw [← List.length_pos_iff_ne_nil, hqueue]
  exact Nat.one_pos

end Foxtails.Server
