/-
  `oldest_timestamp`, from which the `Retry-After` of a 503 is computed.

  The sweep starts with the current time and goes through the slots in order. `readings` are the
  slots it reads in a run, each as it was then and with the time of the clock; the workers may run
  between two of them. `keptTimes` are the `last_recv` of those it neither skips nor closes.

  * `swept_step`, `swept_exec`: in every run the sweep reads each slot once, and what it has is
    the last of the kept times.
  * `getLast_eq_min_iff`: when the last of some numbers is the least.
  * `oldest_iff`: so it has the oldest exactly when no kept slot is older than the last one.
-/
import Foxtails.Server.Removal

namespace Foxtails.Server

open Foxtails.Lib.Run

/-! ## What the sweep reads -/

/-- A slot, as it was read, and the time it was compared with. -/
structure Reading where
  slot : Nat
  client : Client
  now : Int

/-- The reading that a step makes. -/
def reading (cfg : Config) (s : State) : Action → List Reading
  | .sweep now =>
    match s.main with
    | .sweep _ i => if i < cfg.maxConnections then [⟨i, s.table.clients i, now⟩] else []
    | _ => []
  | _ => []

/-- The readings of a run. -/
def readings (cfg : Config) : State → List Action → List Reading :=
  observed (step cfg) (reading cfg)

/-- Alive, not in flight, and not closed by the sweep. -/
def Reading.Kept (cfg : Config) (r : Reading) : Prop :=
  r.client.isAlive = true ∧ r.client.inFlight = false ∧
    r.now - r.client.lastRecv < cfg.keepAliveTimeout

instance (cfg : Config) : DecidablePred (Reading.Kept cfg) :=
  fun _ => inferInstanceAs (Decidable (_ ∧ _))

/-- `last_recv` of the slots that are kept, in the order they were read. -/
def keptTimes (cfg : Config) (rs : List Reading) : List Int :=
  (rs.filter fun r => r.Kept cfg).map fun r => r.client.lastRecv

/-- The least of the times, and the current time when there are none. -/
def oldestOf (now : Int) (times : List Int) : Int := times.min?.getD now

theorem keptTimes_append (cfg : Config) (rs rs' : List Reading) :
    keptTimes cfg (rs ++ rs') = keptTimes cfg rs ++ keptTimes cfg rs' := by
  rw [keptTimes, List.filter_append, List.map_append]
  rfl

/-! ## The sweep -/

/-- How many slots the sweep has read; nothing while it is not under way or over. -/
def MainPc.slotsRead (maxConnections : Nat) : MainPc → Option Nat
  | .sweep _ i => some i
  | .sweepRemove _ i _ => some (i + 1)
  | .events .. | .dispatch .. | .accept .. | .append .. => some maxConnections
  | .poll | .delete _ | .deleteClose _ | .deleteFree _ | .deletePool | .join | .deleted => none

/-- The slots up to where the sweep is were read in order, and `oldest_timestamp` is the last of
    the kept times. `now` is what it was before. -/
def Swept (cfg : Config) (now : Int) (rs : List Reading) (s : State) : Prop :=
  ∀ n, s.main.slotsRead cfg.maxConnections = some n →
    n ≤ cfg.maxConnections ∧ rs.map (·.slot) = List.range n ∧
      s.oldest = (keptTimes cfg rs).getLast?.getD now

variable {cfg : Config} {s s' : State} {now : Int} {rs : List Reading} {a : Action}

/-- A step that reads nothing and gets no further. -/
theorem Swept.same (h : Swept cfg now rs s) (hold : s'.oldest = s.oldest)
    (hmain : ∀ n, s'.main.slotsRead cfg.maxConnections = some n →
      s.main.slotsRead cfg.maxConnections = some n) : Swept cfg now (rs ++ []) s' := by
  intro n hn
  rw [List.append_nil, hold]
  exact h n (hmain n hn)

/-- The sweep reads the next slot, or is over. -/
theorem swept_sweep {time : Int} (h : Swept cfg now rs s)
    (hstep : step cfg s (.sweep time) = some s') :
    Swept cfg now (rs ++ reading cfg s (.sweep time)) s' := by
  unfold step stepMain at hstep
  dsimp only at hstep
  split at hstep
  · rename_i events i hmain
    obtain ⟨hle, hslots, hold⟩ := h i (by rw [hmain]; rfl)
    have hread : reading cfg s (.sweep time) =
        if i < cfg.maxConnections then [⟨i, s.table.clients i, time⟩] else [] := by
      rw [reading, hmain]
    rw [hread]
    by_cases hi : i < cfg.maxConnections
    · rw [if_pos hi] at hstep ⊢
      set r : Reading := ⟨i, s.table.clients i, time⟩ with hr
      have hslots' : (rs ++ [r]).map (·.slot) = List.range (i + 1) := by
        rw [List.map_append, hslots, List.range_succ]
        rfl
      have hskip : ¬ r.Kept cfg →
          (keptTimes cfg (rs ++ [r])).getLast?.getD now = s.oldest := by
        intro hno
        have hnil : keptTimes cfg [r] = [] := by simp [keptTimes, hno]
        rw [keptTimes_append, hnil, List.append_nil, hold]
      have hkeep : r.Kept cfg →
          (keptTimes cfg (rs ++ [r])).getLast?.getD now = r.client.lastRecv := by
        intro hkept
        have hone : keptTimes cfg [r] = [r.client.lastRecv] := by simp [keptTimes, hkept]
        rw [keptTimes_append, hone, List.getLast?_concat, Option.getD_some]
      split_ifs at hstep with hdead hidle
      · obtain rfl := Option.some.inj hstep
        rintro n ⟨⟩
        refine ⟨hi, hslots', (hskip ?_).symm⟩
        rintro ⟨halive, hflight, -⟩
        rcases hdead with hdead | hdead
        · exact hdead halive
        · rw [hflight] at hdead
          cases hdead
      · obtain rfl := Option.some.inj hstep
        rintro n ⟨⟩
        refine ⟨hi, hslots', (hskip ?_).symm⟩
        rintro ⟨-, -, htime⟩
        exact absurd hidle (not_le.mpr htime)
      · obtain rfl := Option.some.inj hstep
        rintro n ⟨⟩
        obtain ⟨halive, hflight⟩ := not_or.mp hdead
        refine ⟨hi, hslots', (hkeep ⟨not_not.mp halive, ?_, not_le.mp hidle⟩).symm⟩
        exact Bool.eq_false_iff.mpr hflight
    · rw [if_neg hi] at hstep ⊢
      obtain rfl := Option.some.inj hstep
      obtain rfl : i = cfg.maxConnections := le_antisymm hle (not_lt.mp hi)
      rintro n ⟨⟩
      rw [List.append_nil]
      exact ⟨le_rfl, hslots, hold⟩
  · cases hstep

/-- Every step but the one that starts a sweep. -/
theorem swept_step (h : Swept cfg now rs s) (hpoll : ∀ ready time, a ≠ .poll ready time)
    (hstep : step cfg s a = some s') : Swept cfg now (rs ++ reading cfg s a) s' := by
  cases a with
  | poll ready time => exact absurd rfl (hpoll ready time)
  | sweep time => exact swept_sweep h hstep
  | sweepRemove =>
    obtain ⟨events, i, c, hmain, rfl⟩ := step_sweepRemove hstep
    exact h.same rfl fun n hn => by rw [hmain]; exact hn
  | next =>
    obtain ⟨hmain, rfl⟩ | ⟨i, rest, hmain, rfl⟩ | ⟨rest, pc, hmain, hpc, rfl⟩ := step_next hstep
    · exact h.same rfl fun n hn => by cases hn
    · exact h.same rfl fun n hn => by rw [hmain]; exact hn
    · refine h.same rfl fun n hn => ?_
      rw [hmain]
      rcases hpc with rfl | rfl
      · exact hn
      · exact hn
  | dispatch stored =>
    obtain ⟨i, rest, hmain, -, rfl⟩ := step_dispatch hstep
    exact h.same rfl fun n hn => by rw [hmain]; exact hn
  | accept result =>
    obtain ⟨rest, hmain, rfl | ⟨fd, -, rfl⟩⟩ := step_accept hstep
    · exact h.same rfl fun n hn => by rw [hmain]; exact hn
    · exact h.same rfl fun n hn => by rw [hmain]; exact hn
  | append added time =>
    obtain ⟨sock, rest, rejects, hmain, rfl⟩ := step_append hstep
    exact h.same rfl fun n hn => by rw [hmain]; exact hn
  | stop =>
    obtain ⟨-, rfl⟩ := step_stop hstep
    exact h.same rfl fun n hn => by cases hn
  | delete =>
    obtain ⟨i, -, -, -, rfl⟩ | ⟨i, -, -, -, rfl⟩ | ⟨i, -, -, rfl⟩ | ⟨i, -, rfl⟩ | ⟨i, -, rfl⟩ |
      ⟨-, rfl⟩ | ⟨-, rfl⟩ := step_delete hstep
    all_goals exact h.same rfl fun n hn => by cases hn
  | take worker =>
    obtain ⟨c, queue, -, -, -, rfl⟩ := step_take hstep
    exact h.same rfl fun n hn => hn
  | receive outcome =>
    obtain ⟨worker, c, -, rfl⟩ := step_receive hstep
    exact h.same rfl fun n hn => hn
  | send =>
    obtain ⟨worker, c, keepAlive, -, rfl⟩ := step_send hstep
    exact h.same rfl fun n hn => hn
  | rearm ok =>
    obtain ⟨worker, c, -, ⟨-, -, rfl⟩ | ⟨-, rfl⟩⟩ := step_rearm hstep
    · exact h.same rfl fun n hn => hn
    · exact h.same rfl fun n hn => hn
  | remove =>
    obtain ⟨worker, c, -, rfl⟩ := step_remove hstep
    exact h.same rfl fun n hn => hn
  | clear time =>
    obtain ⟨worker, c, kept, -, rfl⟩ := step_clear hstep
    exact h.same rfl fun n hn => hn
  | unlock =>
    obtain ⟨worker, -, rfl⟩ := step_unlock hstep
    exact h.same rfl fun n hn => hn
  | exit worker =>
    obtain rfl := step_exit hstep
    exact h.same rfl fun n hn => hn

/-- **What the loop has after a sweep**: in every run from `epoll_wait` on, with whatever the
    workers do meanwhile, each slot was read once, and `oldest_timestamp` is the last of the kept
    times. -/
theorem swept_exec {ready : List (Option Nat)} {s₀ : State} {as : List Action}
    (hpoll : step cfg s₀ (.poll ready now) = some s)
    (hone : ∀ a ∈ as, ∀ ready time, a ≠ .poll ready time)
    (hexec : exec (step cfg) s as = some s') : Swept cfg now (readings cfg s as) s' := by
  have hstart : Swept cfg now [] s := by
    obtain ⟨-, events, table, -, rfl⟩ := step_poll hpoll
    rintro n ⟨⟩
    exact ⟨Nat.zero_le _, rfl, rfl⟩
  have hstep : ∀ (rs : List Reading) (s : State) (a : Action) (s' : State), Swept cfg now rs s →
      (∀ ready time, a ≠ .poll ready time) → step cfg s a = some s' →
        Swept cfg now (rs ++ reading cfg s a) s' :=
    fun _ _ _ _ h hne hstep => swept_step h hne hstep
  exact exec_observed (Swept cfg now) hstep hstart hone hexec

/-! ## The oldest -/

/-- The last of some numbers is the least exactly when none is less. -/
theorem getLast_eq_min_iff (now : Int) (times : List Int) :
    times.getLast?.getD now = oldestOf now times ↔
      ∀ t ∈ times.getLast?, ∀ u ∈ times, t ≤ u := by
  unfold oldestOf
  cases hlast : times.getLast? with
  | none =>
    obtain rfl := List.getLast?_eq_none_iff.mp hlast
    refine iff_of_true rfl fun t ht => ?_
    cases ht
  | some t =>
    have hmem := List.mem_of_getLast? hlast
    obtain ⟨m, hm⟩ : ∃ m, times.min? = some m := by
      rw [← Option.isSome_iff_exists, List.isSome_min?_iff]
      exact List.ne_nil_of_mem hmem
    obtain ⟨hmin, hle⟩ := List.min?_eq_some_iff.mp hm
    rw [hm, Option.getD_some, Option.getD_some]
    constructor
    · rintro rfl _ ⟨⟩ u hu
      exact hle u hu
    · intro h
      exact le_antisymm (h t rfl m hmin) (hle t hmem)

/-- **`oldest_timestamp` is the oldest exactly when no kept slot is older than the last one**: for
    every number of slots, every state in which the loop calls `epoll_wait` and every run from there
    to the end of the sweep or into the events after it, each slot was read once, in order, and then
    `oldest_timestamp` is the least `last_recv` of those kept, or the current time when none is. -/
theorem oldest_iff {ready : List (Option Nat)} {s₀ : State} {as : List Action}
    (hpoll : step cfg s₀ (.poll ready now) = some s)
    (hone : ∀ a ∈ as, ∀ ready time, a ≠ .poll ready time)
    (hexec : exec (step cfg) s as = some s')
    (hdone : s'.main.slotsRead cfg.maxConnections = some cfg.maxConnections) :
    (readings cfg s as).map (·.slot) = List.range cfg.maxConnections ∧
      (s'.oldest = oldestOf now (keptTimes cfg (readings cfg s as)) ↔
        ∀ t ∈ (keptTimes cfg (readings cfg s as)).getLast?,
          ∀ u ∈ keptTimes cfg (readings cfg s as), t ≤ u) := by
  obtain ⟨-, hslots, hold⟩ := swept_exec hpoll hone hexec _ hdone
  rw [hold]
  exact ⟨hslots, getLast_eq_min_iff now _⟩

/-- The sweep of two slots, all at one time. -/
def sweepAt (now : Int) : List Action := [.sweep now, .sweep now, .sweep now]

/-- A client connects at time 0, and another at time 1. -/
def twoArrivals : List Action :=
  [.poll [none] 0, .sweep 0, .sweep 0, .sweep 0, .next, .accept (some 5), .append true 0,
   .accept (some 6), .append true 1, .accept none, .next]

/-- The first one sends a request, which is handled at time 3. -/
def firstAgain : List Action :=
  twoArrivals ++ [.poll [some 5] 2, .sweep 2, .sweep 2, .sweep 2, .next, .dispatch true, .next,
    .take 0, .receive (.request true), .send, .rearm true, .clear 3, .unlock]

/-- `oldest_iff` at time 4, when both are kept and the second slot has the older one. -/
theorem oldest_iff_again :
    ∃ s₀ s s' : State, Reach (step twoSlots) Serves (start twoSlots) s₀ ∧
      step twoSlots s₀ (.poll [] 4) = some s ∧ exec (step twoSlots) s (sweepAt 4) = some s' ∧
      (readings twoSlots s (sweepAt 4)).map (·.slot) = [0, 1] ∧
      keptTimes twoSlots (readings twoSlots s (sweepAt 4)) = [3, 1] ∧
      s'.oldest = oldestOf 4 [3, 1] := by
  obtain ⟨s₀, hs₀, hrun⟩ := Reach.of_exec_map
    (show (exec (guarded (step twoSlots) Serves) (start twoSlots) firstAgain).map
      (fun s₀ => (step twoSlots s₀ (.poll [] 4)).bind fun s =>
        (exec (step twoSlots) s (sweepAt 4)).map fun s' =>
          (keptTimes twoSlots (readings twoSlots s (sweepAt 4)),
            s'.main.slotsRead twoSlots.maxConnections)) = some (some ([3, 1], some 2)) from rfl)
  obtain ⟨s, hs, hsweep⟩ := Option.bind_eq_some_iff.mp hrun
  obtain ⟨s', hs', hpair⟩ := Option.map_eq_some_iff.mp hsweep
  obtain ⟨htimes, hread⟩ := Prod.mk.inj hpair
  have hnone : ∀ a ∈ sweepAt 4, ∀ ready time, a ≠ .poll ready time := by
    intro a ha ready time heq
    simp [sweepAt, heq] at ha
  obtain ⟨hslots, holdest⟩ := oldest_iff hs hnone hs' hread
  rw [htimes] at holdest
  exact ⟨s₀, s, s', hs₀, hs, hs', hslots, htimes, holdest.mpr (by decide)⟩

/-- At time 2 both are kept; the loop has 1, the time of the second slot, and the oldest is 0. -/
theorem oldest_is_last :
    ∃ s₀ s s' : State, Reach (step twoSlots) Serves (start twoSlots) s₀ ∧
      step twoSlots s₀ (.poll [] 2) = some s ∧ exec (step twoSlots) s (sweepAt 2) = some s' ∧
      keptTimes twoSlots (readings twoSlots s (sweepAt 2)) = [0, 1] ∧ s'.oldest = 1 ∧
      ¬ s'.oldest = oldestOf 2 (keptTimes twoSlots (readings twoSlots s (sweepAt 2))) := by
  obtain ⟨s₀, hs₀, hrun⟩ := Reach.of_exec_map
    (show (exec (guarded (step twoSlots) Serves) (start twoSlots) twoArrivals).map
      (fun s₀ => (step twoSlots s₀ (.poll [] 2)).bind fun s =>
        (exec (step twoSlots) s (sweepAt 2)).map fun s' =>
          (keptTimes twoSlots (readings twoSlots s (sweepAt 2)), s'.oldest)) =
        some (some ([0, 1], 1)) from rfl)
  obtain ⟨s, hs, hsweep⟩ := Option.bind_eq_some_iff.mp hrun
  obtain ⟨s', hs', hpair⟩ := Option.map_eq_some_iff.mp hsweep
  obtain ⟨htimes, hold⟩ := Prod.mk.inj hpair
  refine ⟨s₀, s, s', hs₀, hs, hs', htimes, hold, ?_⟩
  rw [htimes, hold]
  decide

end Foxtails.Server
