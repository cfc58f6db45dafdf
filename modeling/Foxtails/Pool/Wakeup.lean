/-
  No wake-up is lost.

  A signal is sent behind the unlock and is not counted, so several dispatches can wake one
  worker. What holds all the same is `Covered`: with an action in the queue some worker is not
  waiting, or a dispatcher has its signal to give. A worker goes into `wait` only on an empty
  queue; every store leaves a signal to give; and a signal is given only to wake a worker, or
  where none waits.

  * `wake_step`: every step keeps `WakeInv`.
  * `no_lost_wakeup`: so in every state of every run; and behind the broadcast of
    `worker_pool_delete` no worker waits again.
-/
import Foxtails.Pool.Threads

namespace Foxtails.Pool.Threads

open Foxtails.Lib.Libc Foxtails.Lib.Run Foxtails.Lib.Sync Foxtails.Lib.Sync.Monitor

/-! ## The invariant -/

def IsDispatcher (t : Thread) : Prop := ∃ d, t = .dispatcher d

/-- The broadcast of `worker_pool_delete` has been issued. -/
def DeletePc.Broadcasted : DeletePc → Prop
  | .joining | .joined => True
  | _ => False

structure WakeInv (n : Nat) (s : State) : Prop where
  covered : s.queue.count ≠ 0 → s.queue.shuttingDown = false →
    Covered (crew n) IsDispatcher s.monitor
  down : s.delete = .flagged ∨ s.delete.Broadcasted → s.queue.shuttingDown = true
  quiet : s.delete.Broadcasted → Quiet s.monitor

variable {n : Nat} {s s' : State}

theorem crew_ne_nil (hn : 0 < n) : crew n ≠ [] := by
  unfold crew
  simp only [ne_eq, List.map_eq_nil_iff, List.range_eq_nil]
  omega

theorem wakeInv_start : WakeInv n start :=
  ⟨fun h => absurd rfl h, fun h => (by rcases h with h | h <;> cases h), fun h => h.elim⟩

/-- A step of the monitor alone that no thread takes into `wait`. -/
theorem WakeInv.monitor (h : WakeInv n s) {m : Monitor Thread}
    (hcovered : Covered (crew n) IsDispatcher s.monitor → Covered (crew n) IsDispatcher m)
    (hquiet : Quiet s.monitor → Quiet m) : WakeInv n { s with monitor := m } :=
  ⟨fun hcount hdown => hcovered (h.covered hcount hdown), h.down, fun hb => hquiet (h.quiet hb)⟩

/-! ## Steps -/

theorem wake_test {i : Nat} (h : WakeInv n s) (hstep : step n s (.test i) = some s') :
    WakeInv n s' := by
  obtain ⟨-, -, ⟨hzero, hup, m, hwait, rfl⟩ | ⟨-, m, hleave, rfl⟩ | ⟨hcount, hup, rfl⟩⟩ :=
    step_test hstep
  · -- the queue is empty, and the pool is not shut down
    refine ⟨fun hcount => absurd hzero hcount, h.down, fun hb => ?_⟩
    have hdown := h.down (.inr hb)
    rw [hup] at hdown
    cases hdown
  · exact ⟨fun hcount hup => (h.covered hcount hup).leave hleave, h.down,
      fun hb => (h.quiet hb).leave hleave⟩
  · exact ⟨fun _ _ => h.covered hcount hup, h.down, h.quiet⟩

theorem wake_finish {i : Nat} (h : WakeInv n s) (hstep : step n s (.finish i) = some s') :
    WakeInv n s' := by
  obtain ⟨r, m, -, hleave, rfl⟩ := step_finish hstep
  exact ⟨fun hcount hup => (h.covered hcount hup).leave hleave, h.down,
    fun hb => (h.quiet hb).leave hleave⟩

theorem wake_store {d : Nat} {allocated : Bool} (h : WakeInv n s)
    (hstep : step n s (.store d allocated) = some s') : WakeInv n s' := by
  obtain ⟨type, payload, queue, stored, m, -, hqueue, hleave, rfl⟩ := step_store hstep
  have hdown := dispatchCommand_shuttingDown hqueue
  refine ⟨fun hcount hup => ?_, fun hpc => hdown.trans (h.down hpc),
    fun hb => (h.quiet hb).leave hleave⟩
  cases stored with
  | true => exact covered_of_leave ⟨d, rfl⟩ hleave
  | false =>
    obtain rfl := dispatchCommand_refused hqueue
    exact (h.covered hcount hup).leave hleave

theorem wake_signal {d : Nat} {target : Option Nat} (hn : 0 < n) (h : WakeInv n s)
    (hstep : step n s (.signal d target) = some s') : WakeInv n s' := by
  obtain ⟨m, hsignal, rfl⟩ := step_signal hstep
  exact h.monitor (fun _ => covered_of_signal (crew_ne_nil hn) hsignal) fun hq => hq.signal hsignal

theorem wake_delete (h : WakeInv n s) (hstep : step n s .delete = some s') : WakeInv n s' := by
  obtain ⟨hpc, m, henter, rfl⟩ := step_delete hstep
  refine ⟨fun hcount hup => (h.covered hcount hup).enter henter, fun hd => ?_, fun hb => hb.elim⟩
  rcases hd with hd | hd
  · cases hd
  · exact hd.elim

theorem wake_flag (hstep : step n s .flag = some s') : WakeInv n s' := by
  obtain ⟨hpc, m, hleave, rfl⟩ := step_flag hstep
  exact ⟨fun _ hup => (by cases hup), fun _ => rfl, fun hb => hb.elim⟩

theorem wake_broadcast (h : WakeInv n s) (hstep : step n s .broadcast = some s') :
    WakeInv n s' := by
  obtain ⟨hpc, m, hbroadcast, rfl⟩ := step_broadcast hstep
  have hdown := h.down (.inl hpc)
  refine ⟨fun _ hup => ?_, fun _ => hdown, fun _ => broadcast_not_waiting hbroadcast⟩
  have hup : s.queue.shuttingDown = false := hup
  rw [hdown] at hup
  cases hup

theorem wake_step {a : Action} (hn : 0 < n) (h : WakeInv n s) (hstep : step n s a = some s') :
    WakeInv n s' := by
  cases a with
  | lock i =>
    obtain ⟨-, m, henter, rfl⟩ := step_lock hstep
    exact h.monitor (fun hc => hc.enter henter) fun hq => hq.enter henter
  | test i => exact wake_test h hstep
  | spurious i =>
    obtain ⟨m, hwake, rfl⟩ := step_spurious hstep
    exact h.monitor (fun hc => hc.wake hwake) fun hq => hq.wake hwake
  | finish i => exact wake_finish h hstep
  | dispatch d type payload =>
    obtain ⟨m, henter, rfl⟩ := step_dispatch hstep
    exact ⟨fun hcount hup => (h.covered hcount hup).enter henter, h.down,
      fun hb => (h.quiet hb).enter henter⟩
  | store d allocated => exact wake_store h hstep
  | signal d target => exact wake_signal hn h hstep
  | delete => exact wake_delete h hstep
  | flag => exact wake_flag hstep
  | broadcast => exact wake_broadcast h hstep
  | join =>
    obtain ⟨hpc, rfl⟩ := step_join hstep
    have hb : s.delete.Broadcasted := by rw [hpc]; trivial
    exact ⟨h.covered, fun _ => h.down (.inr hb), fun _ => h.quiet hb⟩

/-! ## Runs -/

theorem wake_reach (hn : 0 < n) (h : Reach (step n) Any start s) : WakeInv n s :=
  h.invariant (WakeInv n) wakeInv_start fun _ _ _ hs _ hstep => wake_step hn hs hstep

/-- The broadcast is not taken back. -/
theorem broadcasted_step {a : Action} (h : s.delete.Broadcasted) (hstep : step n s a = some s') :
    s'.delete.Broadcasted := by
  cases a with
  | lock i => obtain ⟨-, m, -, rfl⟩ := step_lock hstep; exact h
  | test i =>
    obtain ⟨-, -, ⟨-, -, m, -, rfl⟩ | ⟨-, m, -, rfl⟩ | ⟨-, -, rfl⟩⟩ := step_test hstep <;> exact h
  | spurious i => obtain ⟨m, -, rfl⟩ := step_spurious hstep; exact h
  | finish i => obtain ⟨r, m, -, -, rfl⟩ := step_finish hstep; exact h
  | dispatch d type payload => obtain ⟨m, -, rfl⟩ := step_dispatch hstep; exact h
  | store d allocated => obtain ⟨_, _, _, _, m, -, -, -, rfl⟩ := step_store hstep; exact h
  | signal d target => obtain ⟨m, -, rfl⟩ := step_signal hstep; exact h
  | delete =>
    obtain ⟨hpc, -⟩ := step_delete hstep
    rw [hpc] at h
    exact h.elim
  | flag =>
    obtain ⟨hpc, -⟩ := step_flag hstep
    rw [hpc] at h
    exact h.elim
  | broadcast => obtain ⟨-, m, -, rfl⟩ := step_broadcast hstep; trivial
  | join => obtain ⟨-, rfl⟩ := step_join hstep; trivial

/-- **No wake-up is lost**, with at least one worker, in every state of every interleaving: with
    an action in the queue, and the pool not shut down, some worker is not waiting or a
    dispatcher has its signal to give; behind the broadcast of `worker_pool_delete` no worker
    waits, and none ever waits again. -/
theorem no_lost_wakeup (n : Nat) (hn : 0 < n) (s : State) (h : Reach (step n) Any start s) :
    (s.queue.count ≠ 0 → s.queue.shuttingDown = false →
      (∃ i < n, s.monitor.place (.worker i) ≠ .waiting) ∨
        ∃ d, s.monitor.place (.dispatcher d) = .signalling) ∧
    (s.delete.Broadcasted → ∀ s', Reach (step n) Any s s' →
      ∀ i, s'.monitor.place (.worker i) ≠ .waiting) := by
  refine ⟨fun hcount hup => ?_, fun hb s' h' i => ?_⟩
  · rcases (wake_reach hn h).covered hcount hup with ⟨t, ht, hplace⟩ | ⟨t, ⟨d, rfl⟩, hplace⟩
    · obtain ⟨i, hi, rfl⟩ := List.mem_map.mp ht
      exact .inl ⟨i, List.mem_range.mp hi, hplace⟩
    · exact .inr ⟨d, hplace⟩
  · have hb' : s'.delete.Broadcasted :=
      h'.invariant (fun s => s.delete.Broadcasted) hb fun _ _ _ hs _ hstep =>
        broadcasted_step hs hstep
    exact (wake_reach hn (h.trans h')).quiet hb' (.worker i)

/-- Two workers wait, two dispatches follow each other before either signals, and the first
    signal wakes worker 0. -/
def twoDispatches : List Action :=
  [.lock 0, .test 0, .lock 1, .test 1, .dispatch 0 1 nullPayload, .store 0 true,
   .dispatch 1 1 nullPayload, .store 1 true, .signal 0 (some 0)]

theorem no_lost_wakeup_two :
    ∃ s : State, s.queue.count = 2 ∧
      ((∃ i < 2, s.monitor.place (.worker i) ≠ .waiting) ∨
        ∃ d, s.monitor.place (.dispatcher d) = .signalling) := by
  obtain ⟨s, hs, hcount⟩ := Reach.of_exec_map
    (show (exec (guarded (step 2) Any) start twoDispatches).map
      (fun s => (s.queue.count, s.queue.shuttingDown)) = some (2, false) by decide +kernel)
  obtain ⟨hcount, hup⟩ := Prod.mk.inj hcount
  exact ⟨s, hcount, (no_lost_wakeup 2 (by decide) s hs).1 (by rw [hcount]; decide) hup⟩

end Foxtails.Pool.Threads
