/-
  The keep-alive timeout.

  Model (read this before the theorems). `Timed` is the server with its clock. Every reading of the
  clock is at or after the one before; `polled` is the reading `main` made when `epoll_wait` had
  returned. A step of the sweep over a slot it skips reads no clock, and is given any time there.

  * `onTime_sweep`, `onTime_sweepRemove`, `onTime_other`: the slots the sweep is through with.
  * `timeout_kept`: behind the sweep no slot at rest is idle for the timeout, and the sweep closes
    none that is not.
-/
import Foxtails.Server.Rest

namespace Foxtails.Server

open Foxtails.Lib.Run Table

variable {cfg : Config} {s s' : State} {a : Action}

/-! ## The sweep -/

/-- How many slots the sweep is through with: all of them while it is not under way. -/
def MainPc.swept (maxConnections : Nat) : MainPc → Nat
  | .sweep _ i | .sweepRemove _ i _ => i
  | _ => maxConnections

/-- What the other steps do to the sweep: those of the workers nothing, and those of `main` come
    when it is over. -/
theorem main_step (hsafe : Safe cfg s) (hok : FlagKept cfg s a) (hstep : step cfg s a = some s')
    (hpoll : ∀ ready now, a ≠ .poll ready now) (hsweep : ∀ now, a ≠ .sweep now)
    (hremove : a ≠ .sweepRemove) :
    s'.main = s.main ∨ s.main.swept cfg.maxConnections = cfg.maxConnections ∧
      s'.main.swept cfg.maxConnections = cfg.maxConnections ∧
      ∀ events i c, s'.main ≠ .sweepRemove events i c := by
  cases a with
  | poll ready now => exact absurd rfl (hpoll ready now)
  | sweep now => exact absurd rfl (hsweep now)
  | sweepRemove => exact absurd rfl hremove
  | next =>
    obtain ⟨hmain, rfl⟩ | ⟨i, rest, hmain, rfl⟩ | ⟨rest, pc, hmain, rfl | rfl, rfl⟩ := step_next hstep
    · exact .inr ⟨by rw [hmain]; rfl, rfl, fun _ _ _ hc => by cases hc⟩
    · exact .inr ⟨by rw [hmain]; rfl, rfl, fun _ _ _ hc => by cases hc⟩
    · exact .inr ⟨by rw [hmain]; rfl, rfl, fun _ _ _ hc => by cases hc⟩
    · exact .inr ⟨by rw [hmain]; rfl, rfl, fun _ _ _ hc => by cases hc⟩
  | dispatch =>
    obtain ⟨i, rest, hmain, hidle, rfl⟩ := step_dispatch hstep
    exact .inr ⟨by rw [hmain]; rfl, rfl, fun _ _ _ hc => by cases hc⟩
  | accept =>
    obtain ⟨rest, hmain, rfl | ⟨fd, hfd, rfl⟩⟩ := step_accept hstep
    · exact .inr ⟨by rw [hmain]; rfl, rfl, fun _ _ _ hc => by cases hc⟩
    · exact .inr ⟨by rw [hmain]; rfl, rfl, fun _ _ _ hc => by cases hc⟩
  | append =>
    obtain ⟨sock, rest, rejects, hmain, rfl⟩ := step_append hstep
    exact .inr ⟨by rw [hmain]; rfl, rfl, fun _ _ _ hc => by cases hc⟩
  | take =>
    obtain ⟨c, queue, hidle, hqueue, -, rfl⟩ := step_take hstep
    exact .inl rfl
  | receive =>
    obtain ⟨worker, c, hcallback, rfl⟩ := step_receive hstep
    exact .inl rfl
  | send =>
    obtain ⟨worker, c, keepAlive, hcallback, rfl⟩ := step_send hstep
    exact .inl rfl
  | rearm =>
    obtain ⟨worker, c, hcallback, ⟨rfl, -, rfl⟩ | ⟨rfl, rfl⟩⟩ := step_rearm hstep
    · exact .inl rfl
    · exact .inl rfl
  | remove =>
    obtain ⟨worker, c, hcallback, rfl⟩ := step_remove hstep
    exact .inl rfl
  | clear =>
    obtain ⟨worker, c, kept, hcallback, rfl⟩ := step_clear hstep
    exact .inl rfl
  | unlock =>
    obtain ⟨worker, hcallback, rfl⟩ := step_unlock hstep
    exact .inl rfl
  | exit =>
    obtain rfl := step_exit hstep
    exact .inl rfl
  | stop => exact hok.elim
  | delete =>
    rw [safe_delete hsafe] at hstep
    cases hstep

/-! ## The clock -/

structure Timed where
  server : State
  clock : Int
  polled : Int

def Timed.polledAfter (x : Timed) : Action → Int
  | .poll _ now => now
  | _ => x.polled

/-- A step whose reading of the clock is not before the last one. -/
def timedStep (cfg : Config) (x : Timed) (a : Action) : Option Timed :=
  if ∀ now ∈ a.time, x.clock ≤ now then
    (step cfg x.server a).map fun s => ⟨s, a.time.getD x.clock, x.polledAfter a⟩
  else none

def timedStart (cfg : Config) (now : Int) : Timed := ⟨start cfg, now, now⟩

/-- The guard of `InFlight`. -/
def TimedFlagKept (cfg : Config) (x : Timed) (a : Action) : Prop := FlagKept cfg x.server a

instance (cfg : Config) (x : Timed) : DecidablePred (TimedFlagKept cfg x) :=
  fun a => inferInstanceAs (Decidable (FlagKept cfg x.server a))

/-- The client of the slot was heard of behind the poll, or less than the timeout before it. -/
def Timed.Heard (cfg : Config) (x : Timed) (i : Nat) : Prop :=
  x.polled ≤ (x.server.table.clients i).lastRecv ∨
    x.polled - (x.server.table.clients i).lastRecv < cfg.keepAliveTimeout

structure OnTime (cfg : Config) (x : Timed) : Prop where
  polled : x.polled ≤ x.clock
  closing : ∀ events i c, x.server.main = .sweepRemove events i c →
    i < cfg.maxConnections ∧ cfg.keepAliveTimeout ≤ x.clock - c.lastRecv
  heard : ∀ i < x.server.main.swept cfg.maxConnections, x.server.table.Resting i → x.Heard cfg i

variable {x x' : Timed}

theorem timedStep_cases (h : timedStep cfg x a = some x') :
    (∀ now ∈ a.time, x.clock ≤ now) ∧ ∃ s', step cfg x.server a = some s' ∧
      x' = ⟨s', a.time.getD x.clock, x.polledAfter a⟩ := by
  unfold timedStep at h
  split_ifs at h with htime
  obtain ⟨s', hstep, rfl⟩ := Option.map_eq_some_iff.mp h
  exact ⟨htime, s', hstep, rfl⟩

theorem onTime_start (cfg : Config) (now : Int) : OnTime cfg (timedStart cfg now) :=
  ⟨le_rfl, fun _ _ _ h => (by cases h), fun _ _ h => (by cases h.1)⟩

theorem clock_le (htime : ∀ now ∈ a.time, x.clock ≤ now) : x.clock ≤ a.time.getD x.clock := by
  cases hread : a.time with
  | none => exact le_rfl
  | some now => exact htime now hread

/-- A slot the sweep was through with before the step. -/
theorem heard_before (hsafe : Safe cfg x.server) (hsettled : Settled x.server) (h : OnTime cfg x)
    (hok : FlagKept cfg x.server a) (hpoll : x.polledAfter a = x.polled)
    (htime : ∀ now ∈ a.time, x.clock ≤ now) (hstep : step cfg x.server a = some s') {i : Nat}
    (hbefore : x.server.table.Resting i → x.Heard cfg i) (hrest : s'.table.Resting i) :
    Timed.Heard cfg ⟨s', a.time.getD x.clock, x.polledAfter a⟩ i := by
  unfold Timed.Heard at hbefore ⊢
  dsimp only
  rw [hpoll]
  obtain hnow | ⟨hrest, hsame⟩ := rest_step hsafe hsettled hok hstep hrest
  · exact .inl (h.polled.trans (htime _ hnow))
  · rw [hsame]
    exact hbefore hrest

/-- A step that is none of the sweep's. -/
theorem onTime_other (hsafe : Safe cfg x.server) (hsettled : Settled x.server) (h : OnTime cfg x)
    (hok : FlagKept cfg x.server a) (htime : ∀ now ∈ a.time, x.clock ≤ now)
    (hstep : step cfg x.server a = some s') (hpolled : x.polledAfter a = x.polled)
    (hmain : s'.main = x.server.main ∨ x.server.main.swept cfg.maxConnections = cfg.maxConnections ∧
      s'.main.swept cfg.maxConnections = cfg.maxConnections ∧
      ∀ events i c, s'.main ≠ .sweepRemove events i c) :
    OnTime cfg ⟨s', a.time.getD x.clock, x.polledAfter a⟩ where
  polled := by
    dsimp only
    rw [hpolled]
    exact h.polled.trans (clock_le htime)
  closing events i c hc := by
    obtain hsame | ⟨-, -, hnone⟩ := hmain
    · obtain ⟨hi, hidle⟩ := h.closing events i c (hsame.symm.trans hc)
      have hclock := clock_le htime
      refine ⟨hi, ?_⟩
      dsimp only
      omega
    · exact absurd hc (hnone events i c)
  heard i hi hrest := by
    apply heard_before hsafe hsettled h hok hpolled htime hstep ?_ hrest
    apply h.heard i
    obtain hsame | ⟨hall, hall', -⟩ := hmain
    · rwa [← hsame]
    · rw [hall, ← hall']
      exact hi

theorem onTime_sweep {now : Int} (hsafe : Safe cfg x.server) (hsettled : Settled x.server)
    (h : OnTime cfg x) (hok : FlagKept cfg x.server (.sweep now)) (hnow : x.clock ≤ now)
    (hstep : step cfg x.server (.sweep now) = some s') : OnTime cfg ⟨s', now, x.polled⟩ := by
  have htime : ∀ t ∈ (Action.sweep now).time, x.clock ≤ t := by
    intro t ht
    obtain rfl := Option.some.inj ht
    exact hnow
  have hbefore : ∀ i < x.server.main.swept cfg.maxConnections, s'.table.Resting i →
      Timed.Heard cfg ⟨s', now, x.polled⟩ i := fun i hi hrest =>
    heard_before hsafe hsettled h hok rfl htime hstep (h.heard i hi) hrest
  obtain ⟨events, i, hmain, hcases⟩ := step_sweep_idle hstep
  rw [hmain] at hbefore
  obtain ⟨-, hidle, oldest, rfl⟩ | ⟨hidle, rfl⟩ | ⟨hover, rfl⟩ := hcases
  · refine ⟨h.polled.trans hnow, fun _ _ _ hc => (by cases hc), fun j hj hrest => ?_⟩
    obtain hlt | rfl := Nat.lt_succ_iff_lt_or_eq.mp hj
    · exact hbefore j hlt hrest
    · obtain hread | ⟨hrest, hsame⟩ := rest_step hsafe hsettled hok hstep hrest
      · exact .inl (h.polled.trans (htime _ hread))
      · -- at rest and not idle
        have hrecent : now - (x.server.table.clients j).lastRecv < cfg.keepAliveTimeout := by
          rw [← not_le]
          intro hle
          exact hidle ⟨(hsafe.slots.live j hrest.1).1, hrest.1, hrest.2, hle⟩
        have hpolled := h.polled
        refine .inr ?_
        dsimp only
        omega
  · refine ⟨h.polled.trans hnow, fun _ _ _ hc => ?_, fun j hj hrest => hbefore j hj hrest⟩
    cases hc
    exact ⟨hidle.1, hidle.2.2.2⟩
  · exact ⟨h.polled.trans hnow, fun _ _ _ hc => (by cases hc), fun j hj hrest =>
      hbefore j (hj.trans_le hover) hrest⟩

theorem onTime_sweepRemove (hsafe : Safe cfg x.server) (hsettled : Settled x.server)
    (h : OnTime cfg x) (hok : FlagKept cfg x.server .sweepRemove)
    (hstep : step cfg x.server .sweepRemove = some s') : OnTime cfg ⟨s', x.clock, x.polled⟩ := by
  have htime : ∀ t ∈ Action.sweepRemove.time, x.clock ≤ t := fun t ht => by cases ht
  obtain ⟨events, i, c, hmain, hs'⟩ := step_sweepRemove hstep
  obtain ⟨hc, hresting⟩ := hsettled.snapshot events i c hmain
  have hnext : s'.main = .sweep events (i + 1) := by rw [hs']
  refine ⟨h.polled, fun _ _ _ hc => ?_, fun j hj hrest => ?_⟩
  · rw [hnext] at hc
    cases hc
  · rw [hnext] at hj
    obtain hlt | rfl := Nat.lt_succ_iff_lt_or_eq.mp hj
    · apply heard_before hsafe hsettled h hok rfl htime hstep ?_ hrest
      apply h.heard j
      rwa [hmain]
    · -- the slot that was closed
      have halive := hrest.1
      have hidx : c.idx = j := by
        rw [hc]
        exact (hsafe.slots.live j hresting.1).2.1
      rw [hs'] at halive
      exact absurd hidx.symm ((alive_removeClient ..).mp halive).1

theorem onTime_step (hsafe : Safe cfg x.server) (hsettled : Settled x.server) (h : OnTime cfg x)
    (hok : TimedFlagKept cfg x a) (hstep : timedStep cfg x a = some x') : OnTime cfg x' := by
  obtain ⟨htime, s', hs, rfl⟩ := timedStep_cases hstep
  have hother := main_step hsafe hok hs
  cases a with
  | poll ready now =>
    obtain ⟨-, events, table, -, rfl⟩ := step_poll hs
    exact ⟨le_rfl, fun _ _ _ hc => (by cases hc), fun _ hi => absurd hi (Nat.not_lt_zero _)⟩
  | sweep now => exact onTime_sweep hsafe hsettled h hok (htime now rfl) hs
  | sweepRemove => exact onTime_sweepRemove hsafe hsettled h hok hs
  | _ =>
    exact onTime_other hsafe hsettled h hok htime hs rfl
      (hother (fun _ _ heq => by cases heq) (fun _ heq => by cases heq) fun heq => by cases heq)

theorem onTime_reach {now : Int}
    (h : Reach (timedStep cfg) (TimedFlagKept cfg) (timedStart cfg now) x) :
    Safe cfg x.server ∧ Flagged x.server ∧ Settled x.server ∧ OnTime cfg x := by
  apply h.invariant (fun x => Safe cfg x.server ∧ Flagged x.server ∧ Settled x.server ∧ OnTime cfg x)
    ⟨safe_start cfg, flagged_start cfg, settled_start cfg, onTime_start cfg now⟩
  rintro x a x' ⟨hsafe, hflagged, hsettled, hontime⟩ hok hstep
  obtain ⟨-, s', hs, rfl⟩ := timedStep_cases hstep
  refine ⟨?_, ?_, ?_, onTime_step hsafe hsettled hontime hok hstep⟩
  · exact safe_step hsafe (hflagged.sweepsUnused hok) hs
  · exact flagged_step hsafe hflagged hok hs
  · exact settled_step hsafe hflagged hsettled hok hs

/-- **The keep-alive timeout is kept**, in every run with a clock that does not go back, in which no
    worker clears the flag of the slot `main` is about to queue and the sweep closes no slot with an
    event in the batch. No slot that the sweep is through with is at rest and idle for the timeout
    at the time of the poll, and the slot the sweep is about to close is at rest, is the one it has
    read, and is idle for the timeout. -/
theorem timeout_kept (cfg : Config) (now : Int) (x : Timed)
    (h : Reach (timedStep cfg) (TimedFlagKept cfg) (timedStart cfg now) x) :
    (∀ i < x.server.main.swept cfg.maxConnections, x.server.table.Resting i → x.Heard cfg i) ∧
    ∀ events i c, x.server.main = .sweepRemove events i c →
      c = x.server.table.clients i ∧ Idle cfg x.server.table i x.clock := by
  obtain ⟨-, -, hsettled, hontime⟩ := onTime_reach h
  refine ⟨hontime.heard, fun events i c hc => ?_⟩
  obtain ⟨hsame, halive, hflag⟩ := hsettled.snapshot events i c hc
  obtain ⟨hi, hidle⟩ := hontime.closing events i c hc
  refine ⟨hsame, hi, halive, hflag, ?_⟩
  rw [← hsame]
  exact hidle

/-- The first client sends a request 70 seconds after it has connected, and the second none; the
    sweep at 75 seconds is about to close the second. -/
def oneIdle : List Action :=
  twoClients ++ [.poll [some 5] 70, .sweep 70, .sweep 70, .sweep 70, .next, .dispatch true, .next,
    .take 0, .receive (.request true), .send, .rearm true, .clear 71, .unlock,
    .poll [] 75, .sweep 75, .sweep 75]

theorem timeout_kept_idle :
    ∃ x : Timed, x.server.main = .sweepRemove [] 1 ⟨⟨6, 1⟩, 0, 1, true, false⟩ ∧
      (∀ i < x.server.main.swept twoSlots.maxConnections, x.server.table.Resting i →
        x.Heard twoSlots i) ∧
      Idle twoSlots x.server.table 1 x.clock := by
  obtain ⟨x, hx, hmain⟩ := Reach.of_exec_map
    (show (exec (guarded (timedStep twoSlots) (TimedFlagKept twoSlots)) (timedStart twoSlots 0)
      oneIdle).map (fun x => x.server.main) =
        some (.sweepRemove [] 1 ⟨⟨6, 1⟩, 0, 1, true, false⟩) from rfl)
  have hkept := timeout_kept twoSlots 0 x hx
  exact ⟨x, hmain, hkept.1, (hkept.2 _ _ _ hmain).2⟩

end Foxtails.Server
