/-
  What becomes of every connection `accept` returns.

  Model (read this before the theorems). The server is the step relation of `Step`, over the
  runs of `Removal`: every interleaving of `main`'s loop and the workers in which the sweep only
  closes slots that nothing names. A connection is the number of its `accept`. It is in use while
  `main` has it in hand (`pending`) or a live slot holds it.

  * `Accounts`: the connections are those in use and those closed, the open descriptors those in
    use, and the free list has the other slots. Each operation on the table keeps it.
  * `live_add_free`: the live slots and the free list make up the table.
  * `connections_accounted`: in every state reached, each connection is in use in one place with
    its descriptor open, or closed and freed once; and the numbers add up.
-/
import Foxtails.Server.FreeList
import Foxtails.Server.Removal

namespace Foxtails.Server

open Foxtails.Lib.Run Table

/-! ## In use -/

/-- `main` has the connection in hand, or a live slot holds it. -/
def InUse (t : Table) (pending : Option Socket) (sock : Socket) : Prop :=
  pending = some sock ∨ ∃ i, t.Alive i ∧ (t.clients i).socket = sock

structure Accounts (n : Nat) (t : Table) (pending : Option Socket) : Prop where
  logs : t.frees = t.closes
  found : ∀ a < t.accepted, a ∈ t.closes ∨ ∃ sock, InUse t pending sock ∧ sock.address = a
  opened : ∀ fd a, t.fds fd = some a → InUse t pending ⟨fd, a⟩
  partitioned : Partitioned n t
  count : t.accepted + t.freeList.length = t.closes.length + n + pending.toList.length

variable {n : Nat} {t : Table} {pending : Option Socket}

theorem accounts_init (n : Nat) : Accounts n (.init n) none := by
  refine ⟨rfl, fun a ha => absurd ha (Nat.not_lt_zero a), fun fd a h => (by cases h), .init n, ?_⟩
  show 0 + (List.range n).length = 0 + n + 0
  rw [List.length_range, Nat.add_zero]

/-- What becomes of the connections in use where only flags and registrations change. -/
theorem Accounts.same (h : Accounts n t pending) {t' : Table}
    (hsocket : ∀ i, (t'.clients i).socket = (t.clients i).socket)
    (halive : ∀ i, t'.Alive i ↔ t.Alive i) (hfree : t'.freeList = t.freeList)
    (hfds : t'.fds = t.fds) (haccepted : t'.accepted = t.accepted)
    (hcloses : t'.closes = t.closes) (hfrees : t'.frees = t.frees) : Accounts n t' pending := by
  have huse : ∀ sock, InUse t' pending sock ↔ InUse t pending sock := by
    intro sock
    unfold InUse
    simp only [halive, hsocket]
  refine ⟨?_, fun a ha => ?_, fun fd a hfd => ?_, ⟨?_, fun i => ?_, fun i hi => ?_⟩, ?_⟩
  · rw [hfrees, hcloses]
    exact h.logs
  · rw [hcloses]
    simp only [huse]
    exact h.found a (haccepted ▸ ha)
  · rw [huse]
    exact h.opened fd a (hfds ▸ hfd)
  · rw [hfree]
    exact h.partitioned.nodup
  · rw [hfree, halive]
    exact h.partitioned.free i
  · exact h.partitioned.live i ((halive i).mp hi)
  · rw [haccepted, hfree, hcloses]
    exact h.count

theorem Accounts.mark (h : Accounts n t pending) (i : Nat) : Accounts n (t.mark i) pending := by
  refine h.same (fun j => ?_) (fun j => ?_) rfl rfl rfl rfl rfl
  · by_cases hj : j = i <;> simp [Table.mark, hj]
  · unfold Alive
    by_cases hj : j = i <;> simp [Table.mark, hj]

theorem Accounts.clear (h : Accounts n t pending) (i : Nat) (kept : Bool) (now : Int) :
    Accounts n (t.clear i kept now) pending := by
  refine h.same (fun j => ?_) (fun j => ?_) rfl rfl rfl rfl rfl
  · by_cases hj : j = i <;> simp [Table.clear, hj]
  · unfold Alive
    by_cases hj : j = i <;> simp [Table.clear, hj]

theorem Accounts.setEpoll (h : Accounts n t pending) (epoll : Nat → Option Registration) :
    Accounts n { t with epoll := epoll } pending :=
  h.same (fun _ => rfl) (fun _ => Iff.rfl) rfl rfl rfl rfl rfl

/-- `epoll_wait` changes registrations only. -/
theorem report_table {ready events : List (Option Nat)} {t' : Table}
    (h : t.report ready = some (events, t')) : ∃ epoll, t' = { t with epoll := epoll } := by
  induction ready generalizing t events with
  | nil =>
    rw [Table.report, Option.some.injEq, Prod.mk.injEq] at h
    exact ⟨t.epoll, h.2.symm⟩
  | cons r ready ih =>
    cases r with
    | none =>
      rw [Table.report, Option.map_eq_some_iff] at h
      obtain ⟨⟨events, t₁⟩, hrest, heq⟩ := h
      obtain ⟨-, rfl⟩ := Prod.mk.inj heq
      exact ih hrest
    | some fd =>
      rw [Table.report] at h
      split at h
      · obtain ⟨⟨events, t₁⟩, hrest, heq⟩ := Option.map_eq_some_iff.mp h
        obtain ⟨-, rfl⟩ := Prod.mk.inj heq
        obtain ⟨epoll, rfl⟩ := ih hrest
        exact ⟨epoll, rfl⟩
      · cases h

/-- The new connection is the one in hand. -/
theorem Accounts.accept (h : Accounts n t none) (fd : Nat) :
    Accounts n (t.accept fd) (some ⟨fd, t.accepted⟩) := by
  have huse : ∀ sock, InUse t none sock → InUse (t.accept fd) (some ⟨fd, t.accepted⟩) sock :=
    fun sock hs => .inr (hs.resolve_left fun hnone => by cases hnone)
  refine ⟨h.logs, fun a ha => ?_, fun fd' a hfd' => ?_, ⟨h.partitioned.nodup, h.partitioned.free,
    h.partitioned.live⟩, ?_⟩
  · rcases Nat.lt_succ_iff_lt_or_eq.mp ha with ha | rfl
    · exact (h.found a ha).imp id fun ⟨sock, hs, haddr⟩ => ⟨sock, huse sock hs, haddr⟩
    · exact .inr ⟨_, .inl rfl, rfl⟩
  · replace hfd' : Function.update t.fds fd (some t.accepted) fd' = some a := hfd'
    rw [Function.update_apply] at hfd'
    split_ifs at hfd' with heq
    · obtain rfl := Option.some.inj hfd'
      rw [heq]
      exact .inl rfl
    · exact huse _ (h.opened fd' a hfd')
  · have hcount := h.count
    simp only [Option.toList_none, Option.toList_some, List.length_nil, List.length_singleton]
      at hcount ⊢
    show t.accepted + 1 + t.freeList.length = t.closes.length + n + 1
    omega

/-- A connection in use is closed and freed, and the others stay in use. -/
theorem Accounts.release {sock : Socket} {pending' : Option Socket} {t' : Table}
    (h : Accounts n t pending)
    (huse : ∀ other, InUse t pending other → other ≠ sock → InUse t' pending' other)
    (hpartitioned : Partitioned n t') (hfds : t'.fds = Function.update t.fds sock.fd none)
    (haccepted : t'.accepted = t.accepted) (hcloses : t'.closes = sock.address :: t.closes)
    (hfrees : t'.frees = sock.address :: t.frees)
    (hlength : t'.freeList.length + pending.toList.length =
      t.freeList.length + pending'.toList.length + 1) : Accounts n t' pending' := by
  refine ⟨?_, fun a ha => ?_, fun fd a hfd => ?_, hpartitioned, ?_⟩
  · rw [hfrees, hcloses, h.logs]
  · rw [hcloses, List.mem_cons]
    by_cases hsock : a = sock.address
    · exact .inl (.inl hsock)
    · rcases h.found a (haccepted ▸ ha) with hclosed | ⟨other, hother, haddr⟩
      · exact .inl (.inr hclosed)
      · have hne : other ≠ sock := fun heq => hsock (heq ▸ haddr.symm)
        exact .inr ⟨other, huse other hother hne, haddr⟩
  · rw [hfds, Function.update_apply] at hfd
    split_ifs at hfd with heq
    apply huse _ (h.opened fd a hfd)
    exact fun hsock => heq (congrArg Socket.fd hsock)
  · have hcount := h.count
    rw [haccepted, hcloses, List.length_cons]
    omega

theorem Accounts.appendClient {sock : Socket} (h : Accounts n t (some sock)) (now : Int)
    (added : Bool) :
    Accounts n (t.appendClient n sock now added) none := by
  have hpartitioned := h.partitioned.appendClient sock now added
  have hlive : ∀ other, InUse t (some sock) other → other ≠ sock →
      ∃ i, t.Alive i ∧ (t.clients i).socket = other := by
    intro other hother hne
    exact hother.resolve_left fun heq => hne (Option.some.inj heq).symm
  rcases t.appendClient_cases n sock now added with
    ⟨-, heq⟩ | ⟨i, rest, hfree, ⟨-, heq⟩ | ⟨-, heq⟩⟩ <;> rw [heq] at hpartitioned ⊢
  · exact h.release (fun other ho hne => .inr (hlive other ho hne)) hpartitioned rfl rfl rfl
      rfl rfl
  all_goals
    have hdead := ((h.partitioned.free i).mp (by rw [hfree]; exact List.mem_cons_self)).2
    have hkeep : ∀ (c : Client) (j : Nat), t.Alive j →
        Function.update t.clients i c j = t.clients j :=
      fun c j hj => Function.update_of_ne (fun e : j = i => hdead (e ▸ hj)) ..
  · -- the connection goes from `main`'s hand into the slot
    set clients := Function.update t.clients i ⟨sock, now, i, true, false⟩ with hclients
    have hself : clients i = ⟨sock, now, i, true, false⟩ := Function.update_self ..
    have huse : ∀ other, InUse t (some sock) other →
        ∃ j, (clients j).isAlive = true ∧ (clients j).socket = other := by
      intro other hother
      by_cases hsock : other = sock
      · exact ⟨i, by rw [hself], by rw [hself, hsock]⟩
      · obtain ⟨j, hj, hsocket⟩ := hlive other hother hsock
        have hsame : clients j = t.clients j := hkeep _ j hj
        exact ⟨j, by rw [hsame]; exact hj, by rw [hsame]; exact hsocket⟩
    refine ⟨h.logs, fun a ha => ?_, fun fd a hfd => .inr (huse _ (h.opened fd a hfd)),
      hpartitioned, ?_⟩
    · exact (h.found a ha).imp id fun ⟨other, ho, haddr⟩ => ⟨other, .inr (huse other ho), haddr⟩
    · have hcount := h.count
      rw [hfree, List.length_cons] at hcount
      simp only [Option.toList_some, Option.toList_none, List.length_singleton, List.length_nil]
        at hcount ⊢
      omega
  · refine h.release (fun other ho hne => ?_) hpartitioned rfl rfl rfl rfl ?_
    · obtain ⟨j, hj, hsocket⟩ := hlive other ho hne
      have hsame := hkeep ⟨sock, now, i, false, false⟩ j hj
      refine .inr ⟨j, ?_, (congrArg Client.socket hsame).trans hsocket⟩
      exact (congrArg Client.isAlive hsame).trans hj
    · rw [if_neg (not_le.mpr (h.partitioned.length_lt_of_cons hfree)), hfree]
      rfl

theorem Accounts.removeClient {c : Client} (h : Accounts n t pending) (halive : t.Alive c.idx)
    (hsocket : (t.clients c.idx).socket = c.socket) :
    Accounts n (t.removeClient n c) pending := by
  refine h.release (fun other ho hne => ?_) (h.partitioned.removeClient halive) ?_ ?_
    (closes_removeClient ..) (frees_removeClient ..) ?_
  · rcases ho with hpending | ⟨i, hi, hother⟩
    · exact .inl hpending
    · have hidx : i ≠ c.idx := fun heq => hne (by rw [← hother, heq, hsocket])
      exact .inr ⟨i, (alive_removeClient ..).mpr ⟨hidx, hi⟩, by rw [socket_removeClient, hother]⟩
  · rw [removeClient_eq]
  · rw [removeClient_eq]
  · rw [removeClient_eq]
    show (if t.freeList.length ≥ n then t.freeList else c.idx :: t.freeList).length + _ = _
    rw [if_neg (not_le.mpr (h.partitioned.length_lt halive)), List.length_cons]
    omega

/-! ## The live slots -/

/-- How many slots are alive. -/
def Table.live (t : Table) (n : Nat) : Nat := ((List.range n).filter fun i => t.Alive i).length

/-- The free list has all the others. -/
theorem live_add_free (h : Partitioned n t) : t.live n + t.freeList.length = n := by
  have hdead : t.freeList.Perm ((List.range n).filter fun i => ¬ t.Alive i) := by
    rw [List.perm_ext_iff_of_nodup h.nodup (List.nodup_range.filter _)]
    intro i
    rw [h.free, List.mem_filter, List.mem_range, decide_eq_true_iff]
  have hsplit := List.length_eq_length_filter_add (l := List.range n) fun i => decide (t.Alive i)
  rw [List.length_range] at hsplit
  rw [hdead.length_eq, Table.live]
  simpa only [decide_not] using hsplit.symm

/-- Slots that are named once each, and live, are no more than the live slots. -/
theorem length_le_live (h : Partitioned n t) {named : List Nat} (hnodup : named.Nodup)
    (halive : ∀ i ∈ named, t.Alive i) : named.length ≤ t.live n := by
  refine (List.subperm_of_subset hnodup fun i hi => ?_).length_le
  rw [List.mem_filter, List.mem_range, decide_eq_true_iff]
  exact ⟨h.live i (halive i hi), halive i hi⟩

/-! ## The server -/

variable {cfg : Config} {s s' : State}

/-- The books of the server. -/
def Accounted (cfg : Config) (s : State) : Prop :=
  Accounts cfg.maxConnections s.table s.main.pending

theorem Accounted.at_main (h : Accounted cfg s) {pc : MainPc} (hmain : s.main = pc) :
    Accounts cfg.maxConnections s.table pc.pending := hmain ▸ h

theorem accounted_step {a : Action} (hsafe : Safe cfg s) (h : Accounted cfg s)
    (hstep : step cfg s a = some s') : Accounted cfg s' := by
  cases a with
  | poll ready now =>
    obtain ⟨hmain, events, table, hreport, rfl⟩ := step_poll hstep
    obtain ⟨epoll, rfl⟩ := report_table hreport
    exact (h.at_main hmain).setEpoll epoll
  | sweep now =>
    obtain ⟨events, i, hmain, hcases⟩ := step_sweep hstep
    have hbooks := h.at_main hmain
    rcases hcases with ⟨oldest, rfl⟩ | ⟨-, rfl⟩ | rfl <;> exact hbooks
  | sweepRemove =>
    obtain ⟨events, i, c, hmain, rfl⟩ := step_sweepRemove hstep
    obtain ⟨halive, hsocket, -⟩ := hsafe.snapshot _ _ _ hmain
    exact (h.at_main hmain).removeClient halive hsocket
  | next =>
    rcases step_next hstep with ⟨hmain, rfl⟩ | ⟨i, rest, hmain, rfl⟩ | ⟨rest, pc, hmain, hpc, rfl⟩ <;>
      have hbooks := h.at_main hmain
    · exact hbooks
    · exact hbooks.mark i
    · rcases hpc with rfl | rfl <;> exact hbooks
  | dispatch stored =>
    obtain ⟨i, rest, hmain, -, rfl⟩ := step_dispatch hstep
    have hbooks := h.at_main hmain
    exact hbooks
  | accept result =>
    obtain ⟨rest, hmain, hcases⟩ := step_accept hstep
    have hbooks := h.at_main hmain
    rcases hcases with rfl | ⟨fd, -, rfl⟩
    · exact hbooks
    · exact hbooks.accept fd
  | append added now =>
    obtain ⟨sock, rest, rejects, hmain, rfl⟩ := step_append hstep
    exact (h.at_main hmain).appendClient now added
  | stop =>
    obtain ⟨hmain, rfl⟩ := step_stop hstep
    have hbooks := h.at_main hmain
    exact hbooks
  | take worker =>
    obtain ⟨c, queue, -, -, -, rfl⟩ := step_take hstep
    exact h
  | receive outcome =>
    obtain ⟨worker, c, -, rfl⟩ := step_receive hstep
    exact h
  | send =>
    obtain ⟨worker, c, keepAlive, -, rfl⟩ := step_send hstep
    exact h
  | rearm ok =>
    obtain ⟨worker, c, -, ⟨-, -, rfl⟩ | ⟨-, rfl⟩⟩ := step_rearm hstep
    · exact Accounts.setEpoll h _
    · exact h
  | remove =>
    obtain ⟨worker, c, hcallback, rfl⟩ := step_remove hstep
    obtain ⟨-, halive, hsocket, -⟩ := hsafe.at_callback hcallback rfl
    exact Accounts.removeClient h halive hsocket
  | clear now =>
    obtain ⟨worker, c, kept, -, rfl⟩ := step_clear hstep
    exact Accounts.clear h c.idx kept now
  | unlock =>
    obtain ⟨worker, -, rfl⟩ := step_unlock hstep
    exact h
  | exit worker =>
    obtain rfl := step_exit hstep
    exact h
  | delete =>
    rw [safe_delete hsafe] at hstep
    cases hstep

theorem accounted_reach (h : Reach (step cfg) (SweepsUnused cfg) (start cfg) s) :
    Safe cfg s ∧ Accounted cfg s :=
  h.invariant (fun s => Safe cfg s ∧ Accounted cfg s) ⟨safe_start cfg, accounts_init _⟩
    fun _ _ _ hs hok hstep => ⟨safe_step hs.1 hok hstep, accounted_step hs.1 hs.2 hstep⟩

/-! ## No connection is lost -/

/-- A connection in use is open, in one place only, and neither closed nor freed. -/
theorem InUse.owns (h : Slots n t pending) {sock : Socket} (huse : InUse t pending sock) :
    Owns t sock := by
  rcases huse with hpending | ⟨i, hi, hsocket⟩
  · exact (h.pending sock hpending).1
  · rw [← hsocket]
    exact (h.live i hi).2.2

theorem InUse.unique (h : Slots n t pending) {sock sock' : Socket} (huse : InUse t pending sock)
    (huse' : InUse t pending sock') (haddr : sock.address = sock'.address) : sock = sock' := by
  by_contra hne
  have hfd : sock.fd ≠ sock'.fd := fun hfd => hne (congrArg₂ Socket.mk hfd haddr)
  have hlive : ∀ {sock sock' : Socket}, sock.address = sock'.address → sock.fd ≠ sock'.fd →
      pending = some sock → InUse t pending sock' → False := by
    intro sock sock' haddr hfd hpending huse
    rcases huse with hpending' | ⟨i, hi, hsocket⟩
    · exact hfd (congrArg Socket.fd (Option.some.inj (hpending.symm.trans hpending')))
    · exact (h.pending sock hpending).2 i hi (by rw [hsocket, haddr])
  rcases huse with hpending | ⟨i, hi, hsocket⟩
  · exact hlive haddr hfd hpending huse'
  · rcases huse' with hpending' | ⟨j, hj, hsocket'⟩
    · exact hlive haddr.symm hfd.symm hpending' (.inr ⟨i, hi, hsocket⟩)
    · obtain rfl := h.distinct i j hi hj (by rw [hsocket, hsocket', haddr])
      exact hne (hsocket.symm.trans hsocket')

/-- The connections in use, in the server. -/
def State.InUse (s : State) (sock : Socket) : Prop := Server.InUse s.table s.main.pending sock

/-- **No connection is lost, and none is kept twice**: while the sweep only closes slots that
    nothing names, each connection that was accepted is either in use, in one place and with its
    descriptor open, or its descriptor was closed and its address freed, each once; no other
    descriptor is open; those in use, at most one more than there are slots, and those closed are
    all; and at most one action, callback or event waits for each live slot. -/
theorem connections_accounted (cfg : Config) (s : State)
    (h : Reach (step cfg) (SweepsUnused cfg) (start cfg) s) :
    (∀ a < s.table.accepted,
      (a ∉ s.table.closes ∧ a ∉ s.table.frees ∧ ∃! sock, s.InUse sock ∧ sock.address = a) ∨
      (s.table.closes.count a = 1 ∧ s.table.frees.count a = 1 ∧
        ∀ sock, s.InUse sock → sock.address ≠ a)) ∧
    (∀ fd a, s.table.fds fd = some a ↔ s.InUse ⟨fd, a⟩) ∧
    s.table.live cfg.maxConnections + s.table.freeList.length = cfg.maxConnections ∧
    s.table.accepted = s.table.closes.length + s.table.live cfg.maxConnections +
      s.main.pending.toList.length ∧
    s.main.named.length + s.actions.length ≤ s.table.live cfg.maxConnections := by
  obtain ⟨hsafe, hbooks⟩ := accounted_reach h
  have hlive := live_add_free hbooks.partitioned
  have hcount := hbooks.count
  refine ⟨fun a ha => ?_, fun fd a => ⟨hbooks.opened fd a, fun huse => (huse.owns hsafe.slots).1⟩,
    hlive, by omega, ?_⟩
  · rcases hbooks.found a ha with hclosed | ⟨sock, huse, haddr⟩
    · refine .inr ⟨?_, ?_, fun sock huse haddr => ?_⟩
      · exact List.count_eq_one_of_mem hsafe.slots.closes_nodup hclosed
      · rw [hbooks.logs]
        exact List.count_eq_one_of_mem hsafe.slots.closes_nodup hclosed
      · exact (huse.owns hsafe.slots).2.2.1 (haddr ▸ hclosed)
    · obtain ⟨-, -, hcloses, hfrees⟩ := huse.owns hsafe.slots
      rw [haddr] at hcloses hfrees
      refine .inl ⟨hcloses, hfrees, sock, ⟨huse, haddr⟩, fun other hother => ?_⟩
      exact hother.1.unique hsafe.slots huse (hother.2.trans haddr.symm)
  · have hnamed := length_le_live hbooks.partitioned hsafe.tracked.1
      fun i hi => (hsafe.tracked.2 i hi).1
    rwa [State.named, List.length_append, List.length_map] at hnamed

/-- `connections_accounted` where two clients have connected, the first was idle for 75 seconds
    and was closed, and a third has been accepted on its descriptor. -/
theorem connections_accounted_reused :
    ∃ s : State, s.table.accepted = 3 ∧ s.table.closes = [0] ∧ s.InUse ⟨5, 2⟩ ∧
      s.table.live 2 = 1 := by
  obtain ⟨s, hs, hstate⟩ := Reach.of_exec_map
    (show (exec (guarded (step twoSlots) (SweepsUnused twoSlots)) (start twoSlots)
      (clientsApart ++ [.poll [none] 75, .sweep 75, .sweepRemove, .sweep 75, .sweep 75, .next,
        .accept (some 5)])).map (fun s => (s.table.accepted, s.table.closes, s.table.fds 5,
          s.main.pending.toList.length)) = some (3, [0], some 2, 1) from rfl)
  simp only [Prod.mk.injEq] at hstate
  obtain ⟨haccepted, hcloses, hfd, hpending⟩ := hstate
  obtain ⟨-, hopen, hlive, hcount, -⟩ := connections_accounted twoSlots s hs
  refine ⟨s, haccepted, hcloses, (hopen 5 2).mp hfd, ?_⟩
  rw [haccepted, hcloses, hpending] at hcount
  replace hcount : 3 = 1 + s.table.live 2 + 1 := hcount
  omega

end Foxtails.Server
