/-
  `server_delete` against the workers.

  The loop of `server_delete` closes every live slot's connection without the lock, and only
  then are the workers told to stop. A worker that is in `worker_callback` for a slot, or takes
  an action for it, after the loop has closed its connection finds the descriptor dead and
  removes the client: the connection is closed and its address freed a second time. The same
  happens if a worker removes a slot between the loop's test of `is_alive` and its `close`.

  * `Logged`: a log has a live slot's connection exactly if a worker removed the slot or the
    loop has passed it.
  * `releasing_step`: every step keeps this, as long as no worker meets the loop at a slot.
  * `shutdown_releases_once`: in the runs in which none does, from any consistent state whose
    actions name live slots, every connection is closed and freed at most once, and each that
    was live has been when `server_delete` returns.
  * `shutdown_closes_twice`: in other runs it is not so.
-/
import Foxtails.Server.Removal

namespace Foxtails.Server

open Foxtails.Lib.Run Table

/-! ## Where the loop and the workers are -/

/-- The slots below this have had their connection closed, if they were live. -/
def MainPc.closedTo (n : Nat) : MainPc → Nat
  | .delete i | .deleteClose i => i
  | .deleteFree i => i + 1
  | .deletePool | .join | .deleted => n
  | _ => 0

/-- The slots below this have had their address freed, if they were live. -/
def MainPc.freedTo (n : Nat) : MainPc → Nat
  | .delete i | .deleteClose i | .deleteFree i => i
  | .deletePool | .join | .deleted => n
  | _ => 0

/-- The slot the loop has found alive and not closed yet. -/
def State.found (s : State) : Option Nat :=
  match s.main with
  | .deleteClose i => some i
  | _ => none

/-- The client of the callback, up to its last access to the connection. -/
def State.running (s : State) : List Client :=
  match s.callback with
  | some (_, pc) => pc.uses
  | none => []

/-- No worker takes an action for a slot whose connection the loop has closed, none removes the
    slot the loop has found alive, and the loop closes no connection that a callback uses. -/
def Undisturbed (cfg : Config) (s : State) : Action → Prop
  | .take _ => ∀ c ∈ s.queue.head?, s.main.closedTo cfg.maxConnections ≤ c.idx
  | .remove | .delete => ∀ c ∈ s.running, s.found ≠ some c.idx
  | _ => True

instance (cfg : Config) (s : State) : DecidablePred (Undisturbed cfg s)
  | .take _ => inferInstanceAs
      (Decidable (∀ c ∈ s.queue.head?, s.main.closedTo cfg.maxConnections ≤ c.idx))
  | .remove | .delete => inferInstanceAs (Decidable (∀ c ∈ s.running, s.found ≠ some c.idx))
  | .poll .. | .sweep .. | .sweepRemove | .next | .dispatch .. | .accept .. | .append ..
  | .receive .. | .send | .rearm .. | .clear .. | .unlock | .exit .. | .stop => isTrue trivial

/-- A slot is free exactly if it is not alive, and each live slot owns an open socket. -/
structure Consistent (cfg : Config) (t : Table) : Prop where
  free_nodup : t.freeList.Nodup
  free : ∀ i < cfg.maxConnections, i ∈ t.freeList ↔ ¬ t.Alive i
  owned : ∀ i < cfg.maxConnections, t.Alive i → Owns t (t.clients i).socket
  distinct : ∀ i < cfg.maxConnections, ∀ j < cfg.maxConnections, t.Alive i → t.Alive j →
    (t.clients i).socket.address = (t.clients j).socket.address → i = j
  closes_nodup : t.closes.Nodup
  frees_nodup : t.frees.Nodup

/-- The queued actions and the running callback name live slots and hold their sockets, each slot
    at most once. -/
def CopiesCurrent (cfg : Config) (s : State) : Prop :=
  (∀ c ∈ s.actions, c.idx < cfg.maxConnections ∧ s.table.Alive c.idx ∧
    (s.table.clients c.idx).socket = c.socket) ∧
  (s.actions.map Client.idx).Nodup

theorem running_subset {s : State} : ∀ c ∈ s.running, c ∈ s.actions := fun _ hc =>
  List.mem_append_left _ hc

/-! ## The logs -/

/-- A log of a run from the table `t₀`: it has the connection of a slot that was live exactly if
    the slot is not alive any more or the loop has passed it. -/
structure Logged (n : Nat) (t₀ : Table) (alive : Nat → Prop) (bound : Nat) (log : List Nat) :
    Prop where
  nodup : log.Nodup
  mem : ∀ i < n, t₀.Alive i →
    ((t₀.clients i).socket.address ∈ log ↔ ¬ alive i ∨ i < bound)

variable {cfg : Config} {n : Nat} {t₀ : Table} {alive alive' : Nat → Prop} {bound bound' : Nat}
  {log : List Nat}

theorem Logged.congr (h : Logged n t₀ alive bound log)
    (hiff : ∀ i < n, t₀.Alive i → (¬ alive' i ∨ i < bound' ↔ ¬ alive i ∨ i < bound)) :
    Logged n t₀ alive' bound' log :=
  ⟨h.nodup, fun i hi ha => (h.mem i hi ha).trans (hiff i hi ha).symm⟩

/-- The connection of a slot that is alive and not passed is logged. -/
theorem Logged.add (h : Logged n t₀ alive bound log) {j : Nat} (hj : j < n) (ha : t₀.Alive j)
    (hdistinct : ∀ i < n, t₀.Alive i →
      (t₀.clients i).socket.address = (t₀.clients j).socket.address → i = j)
    (halive : alive j) (hbound : bound ≤ j)
    (hiff : ∀ i < n, t₀.Alive i → (¬ alive' i ∨ i < bound' ↔ i = j ∨ ¬ alive i ∨ i < bound)) :
    Logged n t₀ alive' bound' ((t₀.clients j).socket.address :: log) where
  nodup := by
    refine List.nodup_cons.mpr ⟨fun hm => ?_, h.nodup⟩
    rcases (h.mem j hj ha).mp hm with hdead | hlt
    · exact hdead halive
    · omega
  mem i hi hai := by
    rw [List.mem_cons, hiff i hi hai, h.mem i hi hai]
    refine or_congr ⟨hdistinct i hi hai, fun e => by rw [e]⟩ Iff.rfl

/-- The loop passes slot `i`. -/
theorem passed_succ (p : Prop) (i j : Nat) : p ∨ j < i + 1 ↔ j = i ∨ p ∨ j < i := by
  rw [Nat.lt_succ_iff_lt_or_eq, ← or_assoc, or_comm]

/-! ## The invariant of a shutdown -/

/-- `main` is in `server_delete`. -/
def MainPc.Deleting : MainPc → Prop
  | .delete _ | .deleteClose _ | .deleteFree _ | .deletePool | .join | .deleted => True
  | _ => False

/-- A state of the shutdown of `s₀`. -/
structure Releasing (cfg : Config) (s₀ s : State) : Prop where
  deleting : s.main.Deleting
  socket : ∀ i, (s.table.clients i).socket = (s₀.table.clients i).socket
  alive : ∀ i, s.table.Alive i → s₀.table.Alive i
  copies : CopiesCurrent cfg s
  /-- The loop has not closed the connection of a running callback. -/
  running : ∀ c ∈ s.running, s.main.closedTo cfg.maxConnections ≤ c.idx
  /-- The slot the loop is at is alive from its test to its `free`. -/
  current : ∀ i, s.main = .deleteClose i ∨ s.main = .deleteFree i →
    i < cfg.maxConnections ∧ s.table.Alive i
  closes : Logged cfg.maxConnections s₀.table s.table.Alive
    (s.main.closedTo cfg.maxConnections) s.table.closes
  frees : Logged cfg.maxConnections s₀.table s.table.Alive
    (s.main.freedTo cfg.maxConnections) s.table.frees

variable {s₀ s s' : State}

theorem releasing_start (hmain : s.main = .delete 0) (hcons : Consistent cfg s.table)
    (hcopies : CopiesCurrent cfg s) : Releasing cfg s s := by
  refine ⟨by rw [hmain]; trivial, fun _ => rfl, fun _ h => h, hcopies, fun c _ => ?_, fun i hi => ?_,
    ⟨hcons.closes_nodup, fun i hi ha => ?_⟩, ⟨hcons.frees_nodup, fun i hi ha => ?_⟩⟩
  · rw [hmain]
    exact Nat.zero_le _
  · rw [hmain] at hi
    rcases hi with hi | hi <;> cases hi
  · rw [hmain]
    refine ⟨fun hm => absurd hm (hcons.owned i hi ha).2.2.1, ?_⟩
    rintro (hd | hlt)
    · exact absurd ha hd
    · exact absurd hlt (Nat.not_lt_zero i)
  · rw [hmain]
    refine ⟨fun hm => absurd hm (hcons.owned i hi ha).2.2.2, ?_⟩
    rintro (hd | hlt)
    · exact absurd ha hd
    · exact absurd hlt (Nat.not_lt_zero i)

/-- A step that leaves `main`, the logs and the live slots alone. -/
theorem Releasing.quiet (h : Releasing cfg s₀ s) (hmain : s'.main = s.main)
    (hsocket : ∀ i, (s'.table.clients i).socket = (s.table.clients i).socket)
    (halive : ∀ i, s'.table.Alive i ↔ s.table.Alive i)
    (hcloses : s'.table.closes = s.table.closes) (hfrees : s'.table.frees = s.table.frees)
    (hactions : s'.actions.Sublist s.actions)
    (hrunning : ∀ c ∈ s'.running, s.main.closedTo cfg.maxConnections ≤ c.idx) :
    Releasing cfg s₀ s' where
  deleting := hmain ▸ h.deleting
  socket i := (hsocket i).trans (h.socket i)
  alive i hi := h.alive i ((halive i).mp hi)
  copies := by
    obtain ⟨hcur, hnd⟩ := h.copies
    refine ⟨fun c hc => ?_, hnd.sublist (hactions.map _)⟩
    rw [halive, hsocket]
    exact hcur c (hactions.subset hc)
  running := hmain ▸ hrunning
  current i hi := by
    rw [halive]
    exact h.current i (hmain ▸ hi)
  closes := by
    rw [hmain, hcloses]
    exact h.closes.congr fun i _ _ => by rw [halive]
  frees := by
    rw [hmain, hfrees]
    exact h.frees.congr fun i _ _ => by rw [halive]

/-! ### Steps of the workers -/

theorem releasing_take {worker : Nat} (h : Releasing cfg s₀ s)
    (hok : Undisturbed cfg s (.take worker)) (hstep : step cfg s (.take worker) = some s') :
    Releasing cfg s₀ s' := by
  obtain ⟨c, queue, hidle, hqueue, -, rfl⟩ := step_take hstep
  refine h.quiet rfl (fun _ => rfl) (fun _ => Iff.rfl) rfl rfl (actions_take hidle hqueue)
    fun d hd => ?_
  obtain rfl := List.mem_singleton.mp hd
  exact hok d (by rw [hqueue]; rfl)

/-- A step of the callback to `pc'` that only touches flags. -/
theorem Releasing.callback (h : Releasing cfg s₀ s) {worker : Nat} {pc : CallbackPc}
    (hcallback : s.callback = some (worker, pc)) (pc' : CallbackPc) (huses : pc'.uses = pc.uses)
    (table : Table)
    (hsocket : ∀ i, (table.clients i).socket = (s.table.clients i).socket)
    (halive : ∀ i, table.Alive i ↔ s.table.Alive i)
    (hcloses : table.closes = s.table.closes) (hfrees : table.frees = s.table.frees) :
    Releasing cfg s₀ { s with table := table, callback := some (worker, pc') } := by
  refine h.quiet rfl hsocket halive hcloses hfrees (actions_next hcallback huses)
    fun c hc => h.running c ?_
  unfold State.running
  simp only [hcallback, ← huses]
  exact hc

/-- A step after which the callback uses its connection no more. -/
theorem Releasing.idle (h : Releasing cfg s₀ s) (hmain : s'.main = s.main)
    (htable : s'.table.clients = s.table.clients)
    (hcloses : s'.table.closes = s.table.closes) (hfrees : s'.table.frees = s.table.frees)
    (hactions : s'.actions.Sublist s.actions) (hrunning : s'.running = []) :
    Releasing cfg s₀ s' :=
  h.quiet hmain (fun i => by rw [htable]) (fun i => by unfold Alive; rw [htable]) hcloses hfrees
    hactions fun c hc => by rw [hrunning] at hc; cases hc

theorem releasing_rearm {ok : Bool} (h : Releasing cfg s₀ s)
    (hstep : step cfg s (.rearm ok) = some s') : Releasing cfg s₀ s' := by
  obtain ⟨worker, c, hcallback, ⟨rfl, -, rfl⟩ | ⟨rfl, rfl⟩⟩ := step_rearm hstep
  · refine h.idle rfl rfl rfl rfl ?_ rfl
    rw [actions_eq hcallback]
    exact List.sublist_cons_self _ _
  · exact h.callback hcallback (.remove c) rfl s.table (fun _ => rfl) (fun _ => Iff.rfl) rfl rfl

/-- A worker's removal: the loop is not at the slot and has not passed it. -/
theorem releasing_remove (hcons : Consistent cfg s₀.table) (h : Releasing cfg s₀ s)
    (hok : Undisturbed cfg s .remove) (hstep : step cfg s .remove = some s') :
    Releasing cfg s₀ s' := by
  obtain ⟨worker, c, hcallback, rfl⟩ := step_remove hstep
  have hrun : c ∈ s.running := by
    unfold State.running
    rw [hcallback]
    exact List.mem_singleton_self c
  obtain ⟨hlt, halive, hsocket⟩ := h.copies.1 c (running_subset c hrun)
  have hbound := h.running c hrun
  have hnotfound := hok c hrun
  have hfreed : s.main.freedTo cfg.maxConnections ≤ s.main.closedTo cfg.maxConnections := by
    cases s.main <;> simp [MainPc.freedTo, MainPc.closedTo]
  have hcopies := h.copies
  rw [CopiesCurrent, actions_eq hcallback] at hcopies
  obtain ⟨hcur, hnd⟩ := hcopies
  have hunnamed := (List.nodup_cons.mp hnd).1
  have haddress : c.socket.address = (s₀.table.clients c.idx).socket.address := by
    rw [← hsocket, h.socket]
  have ha₀ := h.alive _ halive
  have hdist : ∀ i < cfg.maxConnections, s₀.table.Alive i →
      (s₀.table.clients i).socket.address = (s₀.table.clients c.idx).socket.address → i = c.idx :=
    fun i hi ha => hcons.distinct i hi c.idx hlt ha ha₀
  have hiff : ∀ bound i, (¬ (s.table.removeClient cfg.maxConnections c).Alive i ∨ i < bound ↔
      i = c.idx ∨ ¬ s.table.Alive i ∨ i < bound) := fun bound i => by
    rw [alive_removeClient, not_and_or, not_not, or_assoc]
  refine ⟨h.deleting, fun i => ?_, fun i hi => ?_, ⟨fun d hd => ?_, (List.nodup_cons.mp hnd).2⟩,
    fun _ hd => (by cases hd), fun i hi => ?_, ?_, ?_⟩
  · rw [socket_removeClient]
    exact h.socket i
  · exact h.alive i ((alive_removeClient ..).mp hi).2
  · obtain ⟨hltd, halived, hsocketd⟩ := hcur d (List.mem_cons_of_mem _ hd)
    rw [alive_removeClient, socket_removeClient]
    exact ⟨hltd, ⟨fun e => hunnamed (e ▸ List.mem_map_of_mem hd), halived⟩, hsocketd⟩
  · obtain ⟨hlti, halivei⟩ := h.current i hi
    rw [alive_removeClient]
    refine ⟨hlti, fun e => ?_, halivei⟩
    rcases hi with hi | hi
    · exact hnotfound (by rw [State.found, show s.main = _ from hi, e])
    · rw [show s.main = _ from hi] at hbound
      exact absurd hbound (by rw [e]; exact Nat.not_succ_le_self _)
  · rw [closes_removeClient, haddress]
    exact h.closes.add hlt ha₀ hdist halive hbound fun i _ _ => hiff _ i
  · rw [frees_removeClient, haddress]
    exact h.frees.add hlt ha₀ hdist halive (hfreed.trans hbound) fun i _ _ => hiff _ i

theorem releasing_clear {now : Int} (h : Releasing cfg s₀ s)
    (hstep : step cfg s (.clear now) = some s') : Releasing cfg s₀ s' := by
  obtain ⟨worker, c, kept, hcallback, rfl⟩ := step_clear hstep
  refine h.callback hcallback .unlock rfl _ (fun i => ?_) (fun i => ?_) rfl rfl <;>
    by_cases hi : i = c.idx <;> simp [Table.clear, Alive, hi]

/-! ### Steps of `server_delete` -/

/-- A step of `main` that leaves the slots and the actions alone. -/
theorem Releasing.main (h : Releasing cfg s₀ s) {pc : MainPc} {table : Table} {shuttingDown : Bool}
    (hdeleting : pc.Deleting) (hclients : table.clients = s.table.clients)
    (hrunning : ∀ c ∈ s.running, pc.closedTo cfg.maxConnections ≤ c.idx)
    (hcurrent : ∀ i, pc = .deleteClose i ∨ pc = .deleteFree i →
      i < cfg.maxConnections ∧ s.table.Alive i)
    (hcloses : Logged cfg.maxConnections s₀.table s.table.Alive
      (pc.closedTo cfg.maxConnections) table.closes)
    (hfrees : Logged cfg.maxConnections s₀.table s.table.Alive
      (pc.freedTo cfg.maxConnections) table.frees) :
    Releasing cfg s₀ { s with table := table, shuttingDown := shuttingDown, main := pc } := by
  have halive : table.Alive = s.table.Alive := by
    unfold Alive
    rw [hclients]
  refine ⟨hdeleting, fun i => ?_, fun i hi => ?_, ⟨fun c hc => ?_, h.copies.2⟩, hrunning,
    fun i hi => ?_, ?_, ?_⟩
  · show (table.clients i).socket = _
    rw [hclients]
    exact h.socket i
  · exact h.alive i (halive ▸ hi)
  · show _ ∧ table.Alive c.idx ∧ (table.clients c.idx).socket = c.socket
    rw [halive, hclients]
    exact h.copies.1 c hc
  · show _ ∧ table.Alive i
    rw [halive]
    exact hcurrent i hi
  · show Logged _ _ table.Alive _ _
    rw [halive]
    exact hcloses
  · show Logged _ _ table.Alive _ _
    rw [halive]
    exact hfrees

theorem releasing_delete (hcons : Consistent cfg s₀.table) (h : Releasing cfg s₀ s)
    (hok : Undisturbed cfg s .delete) (hstep : step cfg s .delete = some s') :
    Releasing cfg s₀ s' := by
  have hrunning := h.running
  have hcurrent := h.current
  have hcloses := h.closes
  have hfrees := h.frees
  have hcopies : ∀ c ∈ s.running, c.idx < cfg.maxConnections ∧ s.table.Alive c.idx :=
    fun c hc => ⟨(h.copies.1 c (running_subset c hc)).1, (h.copies.1 c (running_subset c hc)).2.1⟩
  have hdist : ∀ j < cfg.maxConnections, s.table.Alive j → ∀ i < cfg.maxConnections,
      s₀.table.Alive i →
      (s₀.table.clients i).socket.address = (s₀.table.clients j).socket.address → i = j :=
    fun j hj haj i hi ha => hcons.distinct i hi j hj ha (h.alive j haj)
  rcases step_delete hstep with ⟨i, hmain, hi, halive, rfl⟩ | ⟨i, hmain, hi, hdead, rfl⟩ |
    ⟨i, hmain, hi, rfl⟩ | ⟨i, hmain, rfl⟩ | ⟨i, hmain, rfl⟩ | ⟨hmain, rfl⟩ | ⟨hmain, rfl⟩ <;>
    rw [hmain] at hrunning hcloses hfrees
  · -- the slot is alive
    refine h.main trivial rfl hrunning (fun j hj => ?_) hcloses hfrees
    obtain rfl : i = j := by rcases hj with hj | hj <;> cases hj; rfl
    exact ⟨hi, halive⟩
  · -- the slot is dead: a worker removed it, or it was free all the time
    have hnext : ∀ j, ¬ s.table.Alive j ∨ j < i + 1 ↔ ¬ s.table.Alive j ∨ j < i := fun j =>
      (passed_succ _ i j).trans (or_iff_right_of_imp fun hj => .inl (hj ▸ hdead))
    refine h.main trivial rfl (fun c hc => ?_) (fun j hj => by rcases hj with hj | hj <;> cases hj)
      (hcloses.congr fun j _ _ => hnext j) (hfrees.congr fun j _ _ => hnext j)
    exact lt_of_le_of_ne (hrunning c hc) fun e : i = c.idx => hdead (e ▸ (hcopies c hc).2)
  · -- the loop is over
    have hend : ∀ j < cfg.maxConnections,
        (¬ s.table.Alive j ∨ j < cfg.maxConnections ↔ ¬ s.table.Alive j ∨ j < i) := fun j hj =>
      ⟨fun _ => .inr (hj.trans_le hi), fun _ => .inr hj⟩
    exact h.main trivial rfl (fun c hc => hi.trans (hrunning c hc))
      (fun j hj => by rcases hj with hj | hj <;> cases hj)
      (hcloses.congr fun j hj _ => hend j hj) (hfrees.congr fun j hj _ => hend j hj)
  · -- the connection is closed
    obtain ⟨hi, halive⟩ := hcurrent i (.inl hmain)
    refine h.main trivial rfl (fun c hc => ?_) (fun j hj => ?_) ?_ hfrees
    · refine lt_of_le_of_ne (hrunning c hc) fun e : i = c.idx => hok c hc ?_
      rw [State.found, hmain, e]
    · obtain rfl : i = j := by rcases hj with hj | hj <;> cases hj; rfl
      exact ⟨hi, halive⟩
    · show Logged _ _ _ (i + 1) ((s.table.clients i).socket.address :: s.table.closes)
      rw [h.socket i]
      exact hcloses.add hi (h.alive i halive) (hdist i hi halive) halive (le_refl i)
        fun j _ _ => passed_succ _ i j
  · -- the address is freed
    obtain ⟨hi, halive⟩ := hcurrent i (.inr hmain)
    refine h.main trivial rfl hrunning (fun j hj => by rcases hj with hj | hj <;> cases hj)
      hcloses ?_
    show Logged _ _ _ (i + 1) ((s.table.clients i).socket.address :: s.table.frees)
    rw [h.socket i]
    exact hfrees.add hi (h.alive i halive) (hdist i hi halive) halive (le_refl i)
      fun j _ _ => passed_succ _ i j
  · exact h.main trivial rfl hrunning (fun j hj => by rcases hj with hj | hj <;> cases hj)
      hcloses hfrees
  · exact h.main trivial rfl hrunning (fun j hj => by rcases hj with hj | hj <;> cases hj)
      hcloses hfrees

/-- `main`'s loop is over. -/
theorem Releasing.not_serving (h : Releasing cfg s₀ s) {pc : MainPc} (hmain : s.main = pc)
    (hpc : ¬ pc.Deleting) : False := hpc (hmain ▸ h.deleting)

theorem releasing_step (hcons : Consistent cfg s₀.table) {a : Action} (h : Releasing cfg s₀ s)
    (hok : Undisturbed cfg s a) (hstep : step cfg s a = some s') : Releasing cfg s₀ s' := by
  cases a with
  | poll =>
    obtain ⟨hmain, -⟩ := step_poll hstep
    exact (h.not_serving hmain not_false).elim
  | sweep =>
    obtain ⟨events, i, hmain, -⟩ := step_sweep hstep
    exact (h.not_serving hmain not_false).elim
  | sweepRemove =>
    obtain ⟨events, i, c, hmain, -⟩ := step_sweepRemove hstep
    exact (h.not_serving hmain not_false).elim
  | next =>
    rcases step_next hstep with ⟨hmain, -⟩ | ⟨i, rest, hmain, -⟩ | ⟨rest, pc, hmain, -⟩ <;>
      exact (h.not_serving hmain not_false).elim
  | dispatch =>
    obtain ⟨i, rest, hmain, -⟩ := step_dispatch hstep
    exact (h.not_serving hmain not_false).elim
  | accept =>
    obtain ⟨rest, hmain, -⟩ := step_accept hstep
    exact (h.not_serving hmain not_false).elim
  | append =>
    obtain ⟨sock, rest, rejects, hmain, -⟩ := step_append hstep
    exact (h.not_serving hmain not_false).elim
  | stop =>
    obtain ⟨hmain, -⟩ := step_stop hstep
    exact (h.not_serving hmain not_false).elim
  | take => exact releasing_take h hok hstep
  | receive outcome =>
    obtain ⟨worker, c, hcallback, rfl⟩ := step_receive hstep
    exact h.callback hcallback _ (uses_next c outcome) s.table (fun _ => rfl) (fun _ => Iff.rfl)
      rfl rfl
  | send =>
    obtain ⟨worker, c, keepAlive, hcallback, rfl⟩ := step_send hstep
    exact h.callback hcallback _ (uses_sent c keepAlive) s.table (fun _ => rfl) (fun _ => Iff.rfl)
      rfl rfl
  | rearm => exact releasing_rearm h hstep
  | remove => exact releasing_remove hcons h hok hstep
  | clear => exact releasing_clear h hstep
  | unlock =>
    obtain ⟨worker, hcallback, rfl⟩ := step_unlock hstep
    exact h.idle rfl rfl rfl rfl (actions_unlock hcallback) rfl
  | exit =>
    obtain rfl := step_exit hstep
    exact h.quiet rfl (fun _ => rfl) (fun _ => Iff.rfl) rfl rfl (List.Sublist.refl _) h.running
  | delete => exact releasing_delete hcons h hok hstep

/-! ## Releasing exactly once -/

/-- **A shutdown in which no worker meets the loop at a slot releases everything exactly once**:
    from a consistent state whose actions name live slots, no connection is closed twice and no
    address freed twice, and when `server_delete` returns each connection that was live has been
    closed and its address freed. -/
theorem shutdown_releases_once (cfg : Config) (s₀ s : State) (hmain : s₀.main = .delete 0)
    (hcons : Consistent cfg s₀.table) (hcopies : CopiesCurrent cfg s₀)
    (h : Reach (step cfg) (Undisturbed cfg) s₀ s) :
    s.table.closes.Nodup ∧ s.table.frees.Nodup ∧
    (s.main = .deleted → ∀ i < cfg.maxConnections, s₀.table.Alive i →
      (s₀.table.clients i).socket.address ∈ s.table.closes ∧
      (s₀.table.clients i).socket.address ∈ s.table.frees) := by
  have hinv : Releasing cfg s₀ s := h.invariant (Releasing cfg s₀)
    (releasing_start hmain hcons hcopies) fun _ _ _ hr hok hstep => releasing_step hcons hr hok hstep
  refine ⟨hinv.closes.nodup, hinv.frees.nodup, fun hdeleted i hi ha => ⟨?_, ?_⟩⟩
  · refine (hinv.closes.mem i hi ha).mpr (.inr ?_)
    rw [hdeleted]
    exact hi
  · refine (hinv.frees.mem i hi ha).mpr (.inr ?_)
    rw [hdeleted]
    exact hi

/-- The server is stopped while a worker is in `http_recv_message` for the first of two clients. -/
def stoppedWhileReceiving : State :=
  (exec (step twoSlots) (start twoSlots)
    (twoClients ++ [.poll [some 5] 1, .sweep 1, .sweep 1, .sweep 1, .next, .dispatch true, .next,
      .take 0, .stop])).getD (start twoSlots)

theorem stoppedWhileReceiving_consistent :
    stoppedWhileReceiving.main = .delete 0 ∧ Consistent twoSlots stoppedWhileReceiving.table ∧
      CopiesCurrent twoSlots stoppedWhileReceiving := by
  refine ⟨rfl, ⟨by decide, by decide, fun i hi _ => ?_, by decide, by decide, by decide⟩, ?_⟩
  · have howns : ∀ i < 2, Owns stoppedWhileReceiving.table
        (stoppedWhileReceiving.table.clients i).socket := by
      unfold Owns
      decide
    exact howns i hi
  · unfold CopiesCurrent
    decide

/-- `shutdown_releases_once` where the worker gets its request and re-arms the slot before the
    loop closes it. -/
theorem shutdown_releases_once_rearmed :
    ∃ s : State, s.main = .deleted ∧ s.table.closes = [1, 0] ∧
      (s.table.closes.Nodup ∧ s.table.frees.Nodup ∧
      (s.main = .deleted → ∀ i < 2, stoppedWhileReceiving.table.Alive i →
        (stoppedWhileReceiving.table.clients i).socket.address ∈ s.table.closes ∧
        (stoppedWhileReceiving.table.clients i).socket.address ∈ s.table.frees)) := by
  obtain ⟨s, hs, hstate⟩ := Reach.of_exec_map
    (show (exec (guarded (step twoSlots) (Undisturbed twoSlots)) stoppedWhileReceiving
      [.delete, .receive (.request true), .send, .rearm true, .delete, .delete, .clear 1, .unlock,
       .delete, .delete, .delete, .delete, .delete, .exit 0, .delete]).map
        (fun s => (s.main, s.table.closes)) = some (.deleted, [1, 0]) from rfl)
  simp only [Prod.mk.injEq] at hstate
  obtain ⟨hmain, hcons, hcopies⟩ := stoppedWhileReceiving_consistent
  exact ⟨s, hstate.1, hstate.2,
    shutdown_releases_once twoSlots stoppedWhileReceiving s hmain hcons hcopies hs⟩

/-- The loop closes both connections; the worker then receives nothing, and removes its client. -/
theorem shutdown_closes_twice :
    stoppedWhileReceiving.main = .delete 0 ∧ Consistent twoSlots stoppedWhileReceiving.table ∧
    ∃ s : State, Reach (step twoSlots) (fun _ _ => True) stoppedWhileReceiving s ∧
      ¬ s.table.closes.Nodup ∧ ¬ s.table.frees.Nodup := by
  obtain ⟨hmain, hcons, -⟩ := stoppedWhileReceiving_consistent
  obtain ⟨s, hs, hlogs⟩ := Reach.of_exec_map
    (show (exec (guarded (step twoSlots) fun _ _ => True) stoppedWhileReceiving
      [.delete, .delete, .delete, .delete, .delete, .delete, .receive .closed, .remove]).map
        (fun s => (s.table.closes, s.table.frees)) = some ([0, 1, 0], [0, 1, 0]) from rfl)
  simp only [Prod.mk.injEq] at hlogs
  obtain ⟨hcloses, hfrees⟩ := hlogs
  refine ⟨hmain, hcons, s, hs, ?_⟩
  rw [hcloses, hfrees]
  decide

end Foxtails.Server
