/-
  The invariant of the slot table.

  `Slots n t pending`: a free slot is dead; each live slot, and the socket `main` has accepted
  and not placed yet, owns an open descriptor of its own; a registration names the live slot of
  its descriptor; nothing was closed or freed twice.

  * `Slots.accept`, `Slots.appendClient`, `Slots.removeClient`, `Slots.report`, `Slots.arm`,
    `Slots.flags`: what keeps it. `Slots.removeClient` needs the slot to be alive and to hold the
    connection that is removed; nothing in `server_remove_client` checks that.
-/
import Foxtails.Server.Table
import Mathlib.Data.List.Nodup

namespace Foxtails.Server

open Table

/-- `sock` is open, and neither closed nor freed. -/
def Owns (t : Table) (sock : Socket) : Prop :=
  t.fds sock.fd = some sock.address ∧ sock.address < t.accepted ∧
    sock.address ∉ t.closes ∧ sock.address ∉ t.frees

structure Slots (n : Nat) (t : Table) (pending : Option Socket) : Prop where
  free_nodup : t.freeList.Nodup
  free : ∀ i ∈ t.freeList, i < n ∧ ¬ t.Alive i
  live : ∀ i, t.Alive i → i < n ∧ (t.clients i).idx = i ∧ Owns t (t.clients i).socket
  distinct : ∀ i j, t.Alive i → t.Alive j →
    (t.clients i).socket.address = (t.clients j).socket.address → i = j
  pending : ∀ sock, pending = some sock →
    Owns t sock ∧ ∀ i, t.Alive i → (t.clients i).socket.address ≠ sock.address
  registered : ∀ fd r, t.epoll fd = some r →
    t.Alive r.slot ∧ (t.clients r.slot).socket.fd = fd
  logged : (∀ a ∈ t.closes, a < t.accepted) ∧ ∀ a ∈ t.frees, a < t.accepted
  closes_nodup : t.closes.Nodup
  frees_nodup : t.frees.Nodup

variable {n : Nat} {t : Table} {pending : Option Socket}

theorem Owns.fd_ne {s s' : Socket} (h : Owns t s) (h' : Owns t s') (hne : s.address ≠ s'.address) :
    s.fd ≠ s'.fd := fun heq =>
  hne (Option.some.inj (h.1.symm.trans (heq ▸ h'.1)))

/-- Closing and freeing another socket. -/
theorem Owns.release {t' : Table} {s s' : Socket} (h : Owns t s) (h' : Owns t s')
    (hne : s.address ≠ s'.address) (hfds : t'.fds = Function.update t.fds s'.fd none)
    (haccepted : t'.accepted = t.accepted) (hcloses : t'.closes = s'.address :: t.closes)
    (hfrees : t'.frees = s'.address :: t.frees) : Owns t' s := by
  refine ⟨?_, ?_, ?_, ?_⟩
  · rw [hfds, Function.update_of_ne (h.fd_ne h' hne), h.1]
  · rw [haccepted]
    exact h.2.1
  · rw [hcloses, List.mem_cons]
    exact not_or.mpr ⟨hne, h.2.2.1⟩
  · rw [hfrees, List.mem_cons]
    exact not_or.mpr ⟨hne, h.2.2.2⟩

theorem slots_init (n : Nat) : Slots n (.init n) none := by
  have hdead : ∀ i, ¬ (Table.init n).Alive i := fun i h => by cases h
  refine ⟨List.nodup_range, fun i hi => ⟨List.mem_range.mp hi, hdead i⟩, ?_, ?_, ?_, ?_, ?_, ?_, ?_⟩
  · exact fun i hi => absurd hi (hdead i)
  · exact fun i j hi => absurd hi (hdead i)
  · exact fun sock h => by cases h
  · exact fun fd r h => by cases h
  · exact ⟨fun a h => (by cases h), fun a h => by cases h⟩
  · exact List.nodup_nil
  · exact List.nodup_nil

/-- Changes of `last_recv` and `in_flight` do not matter. -/
theorem Slots.flags (h : Slots n t pending) {clients : Nat → Client}
    (hsocket : ∀ i, (clients i).socket = (t.clients i).socket)
    (hidx : ∀ i, (clients i).idx = (t.clients i).idx)
    (halive : ∀ i, (clients i).isAlive = (t.clients i).isAlive) :
    Slots n { t with clients := clients } pending := by
  have hal : ∀ i, ({ t with clients := clients } : Table).Alive i ↔ t.Alive i := fun i => by
    show (clients i).isAlive = true ↔ (t.clients i).isAlive = true
    rw [halive]
  refine ⟨h.free_nodup, ?_, ?_, ?_, ?_, ?_, h.logged, h.closes_nodup, h.frees_nodup⟩ <;>
    simp only [hal, hsocket, hidx]
  · exact h.free
  · exact h.live
  · exact h.distinct
  · exact h.pending
  · exact h.registered

theorem Slots.mark (h : Slots n t pending) (i : Nat) : Slots n (t.mark i) pending := by
  refine h.flags (fun j => ?_) (fun j => ?_) (fun j => ?_) <;>
    by_cases hj : j = i <;> simp [hj]

theorem Slots.clear (h : Slots n t pending) (i : Nat) (kept : Bool) (now : Int) :
    Slots n (t.clear i kept now) pending := by
  refine h.flags (fun j => ?_) (fun j => ?_) (fun j => ?_) <;>
    by_cases hj : j = i <;> simp [hj]

/-- Registering a live slot's descriptor. -/
theorem Slots.setEpoll (h : Slots n t pending) {fd : Nat} {r : Registration}
    (halive : t.Alive r.slot) (hfd : (t.clients r.slot).socket.fd = fd) :
    Slots n { t with epoll := Function.update t.epoll fd (some r) } pending := by
  refine ⟨h.free_nodup, h.free, h.live, h.distinct, h.pending, fun fd' r' hr => ?_, h.logged,
    h.closes_nodup, h.frees_nodup⟩
  simp only [Function.update_apply] at hr
  split_ifs at hr with hfd'
  · obtain rfl := Option.some.inj hr
    exact ⟨halive, hfd.trans hfd'.symm⟩
  · exact h.registered fd' r' hr

/-- The accepted socket is open and in no slot. -/
theorem Slots.accept (h : Slots n t none) {fd : Nat} (hfd : t.fds fd = none) :
    Slots n (t.accept fd) (some ⟨fd, t.accepted⟩) := by
  have hmono : ∀ s : Socket, Owns t s → Owns (t.accept fd) s := by
    intro s hs
    have hne : s.fd ≠ fd := fun heq => by
      have := hs.1
      rw [heq, hfd] at this
      cases this
    refine ⟨?_, Nat.lt_succ_of_lt hs.2.1, hs.2.2⟩
    show Function.update t.fds fd _ s.fd = _
    rw [Function.update_of_ne hne, hs.1]
  obtain ⟨hcl, hfr⟩ := h.logged
  refine ⟨h.free_nodup, h.free, fun i hi => ?_, h.distinct, fun sock hs => ?_, h.registered, ?_,
    h.closes_nodup, h.frees_nodup⟩
  · obtain ⟨hlt, hidx, hown⟩ := h.live i hi
    exact ⟨hlt, hidx, hmono _ hown⟩
  · obtain rfl := Option.some.inj hs
    refine ⟨⟨Function.update_self .., Nat.lt_succ_self _, fun hm => ?_, fun hm => ?_⟩,
      fun i hi heq => ?_⟩
    · exact Nat.lt_irrefl _ (hcl _ hm)
    · exact Nat.lt_irrefl _ (hfr _ hm)
    · have hlt := (h.live i hi).2.2.2.1
      replace heq : (t.clients i).socket.address = t.accepted := heq
      omega
  · exact ⟨fun a ha => Nat.lt_succ_of_lt (hcl a ha), fun a ha => Nat.lt_succ_of_lt (hfr a ha)⟩

/-- A log after one more entry. -/
theorem nodup_log {log : List Nat} {a b : Nat} (h : log.Nodup) (hlt : ∀ x ∈ log, x < b)
    (ha : a ∉ log) (hab : a < b) : (a :: log).Nodup ∧ ∀ x ∈ a :: log, x < b :=
  ⟨List.nodup_cons.mpr ⟨ha, h⟩, List.forall_mem_cons.mpr ⟨hab, hlt⟩⟩

/-- The pending socket is closed, freed and in no slot: whatever happens to dead slots and to the
    part of the free list that names them. -/
theorem Slots.refuse {sock : Socket} (h : Slots n t (some sock)) {t' : Table}
    (hclients : ∀ i, t.Alive i → t'.clients i = t.clients i)
    (halive : ∀ i, t'.Alive i → t.Alive i) (hnodup : t'.freeList.Nodup)
    (hfree : ∀ i ∈ t'.freeList, i ∈ t.freeList) (hfds : t'.fds = Function.update t.fds sock.fd none)
    (hepoll : t'.epoll = Function.update t.epoll sock.fd none) (haccepted : t'.accepted = t.accepted)
    (hcloses : t'.closes = sock.address :: t.closes) (hfrees : t'.frees = sock.address :: t.frees) :
    Slots n t' none := by
  obtain ⟨hown, hne⟩ := h.pending sock rfl
  obtain ⟨hcn, hcl⟩ := nodup_log h.closes_nodup h.logged.1 hown.2.2.1 hown.2.1
  obtain ⟨hfn, hfl⟩ := nodup_log h.frees_nodup h.logged.2 hown.2.2.2 hown.2.1
  refine ⟨hnodup, fun i hi => ?_, fun i hi => ?_, fun i j hi hj => ?_, fun _ hs => (by cases hs),
    fun fd r hr => ?_, ?_, hcloses ▸ hcn, hfrees ▸ hfn⟩
  · obtain ⟨hlt, hdead⟩ := h.free i (hfree i hi)
    exact ⟨hlt, fun hal => hdead (halive i hal)⟩
  · have hal := halive i hi
    obtain ⟨hlt, hidx, howni⟩ := h.live i hal
    rw [hclients i hal]
    exact ⟨hlt, hidx, howni.release hown (hne i hal) hfds haccepted hcloses hfrees⟩
  · have hali := halive i hi
    have halj := halive j hj
    rw [hclients i hali, hclients j halj]
    exact h.distinct i j hali halj
  · rw [hepoll, Function.update_apply] at hr
    split_ifs at hr with hfd
    obtain ⟨hal, hslot⟩ := h.registered fd r hr
    have hkeep := hclients _ hal
    refine ⟨?_, by rw [hkeep, hslot]⟩
    show (t'.clients r.slot).isAlive = true
    rw [hkeep]
    exact hal
  · rw [hcloses, hfrees, haccepted]
    exact ⟨hcl, hfl⟩

theorem Slots.appendClient {sock : Socket} (h : Slots n t (some sock)) (now : Int) (added : Bool) :
    Slots n (t.appendClient n sock now added) none := by
  rcases t.appendClient_cases n sock now added with
    ⟨-, heq⟩ | ⟨i, rest, hfree, ⟨-, heq⟩ | ⟨-, heq⟩⟩
  · rw [heq]
    exact h.refuse (fun _ _ => rfl) (fun _ hi => hi) h.free_nodup (fun _ hi => hi) rfl rfl rfl rfl rfl
  · -- the slot becomes live, with the pending socket
    obtain ⟨hlt, hdead⟩ := h.free i (by rw [hfree]; exact List.mem_cons_self)
    have hnd := h.free_nodup
    rw [hfree, List.nodup_cons] at hnd
    obtain ⟨hown, hne⟩ := h.pending sock rfl
    rw [heq]
    set clients := Function.update t.clients i ⟨sock, now, i, true, false⟩ with hclients
    have hself : clients i = ⟨sock, now, i, true, false⟩ := Function.update_self ..
    have hother : ∀ j, j ≠ i → clients j = t.clients j := fun j hj => Function.update_of_ne hj ..
    have hal : ∀ j, j ≠ i → (clients j).isAlive = true → t.Alive j := fun j hj hja => by
      rw [hother j hj] at hja
      exact hja
    refine ⟨hnd.2, fun j hj => ?_, fun j hj => ?_, fun j k hj hk hjk => ?_, fun _ hs => (by cases hs),
      fun fd r hr => ?_, h.logged, h.closes_nodup, h.frees_nodup⟩
    · have hji : j ≠ i := fun e => hnd.1 (e ▸ hj)
      obtain ⟨hltj, hdeadj⟩ := h.free j (by rw [hfree]; exact List.mem_cons_of_mem _ hj)
      exact ⟨hltj, fun hja => hdeadj (hal j hji hja)⟩
    · by_cases hji : j = i
      · subst hji
        show j < n ∧ (clients j).idx = j ∧ Owns _ (clients j).socket
        rw [hself]
        exact ⟨hlt, rfl, hown⟩
      · show j < n ∧ (clients j).idx = j ∧ Owns _ (clients j).socket
        rw [hother j hji]
        exact h.live j (hal j hji hj)
    · replace hjk : (clients j).socket.address = (clients k).socket.address := hjk
      by_cases hji : j = i <;> by_cases hki : k = i
      · exact hji.trans hki.symm
      · subst hji
        rw [hself, hother k hki] at hjk
        exact absurd hjk.symm (hne k (hal k hki hk))
      · subst hki
        rw [hself, hother j hji] at hjk
        exact absurd hjk (hne j (hal j hji hj))
      · rw [hother j hji, hother k hki] at hjk
        exact h.distinct j k (hal j hji hj) (hal k hki hk) hjk
    · simp only [Function.update_apply] at hr
      split_ifs at hr with hfd
      · obtain rfl := Option.some.inj hr
        show (clients i).isAlive = true ∧ (clients i).socket.fd = fd
        rw [hself]
        exact ⟨rfl, hfd.symm⟩
      · obtain ⟨halr, hslot⟩ := h.registered fd r hr
        have hri : r.slot ≠ i := fun e => hdead (e ▸ halr)
        show (clients r.slot).isAlive = true ∧ (clients r.slot).socket.fd = fd
        rw [hother _ hri]
        exact ⟨halr, hslot⟩
  · -- epoll did not take the descriptor: the slot is free again
    obtain ⟨-, hdead⟩ := h.free i (by rw [hfree]; exact List.mem_cons_self)
    have hnd := h.free_nodup
    rw [hfree] at hnd
    rw [heq]
    refine h.refuse (fun j hj => Function.update_of_ne (fun e : j = i => hdead (e ▸ hj)) ..)
      (fun j hj => ?_)
      ?_ (fun j hj => ?_) rfl rfl rfl rfl rfl
    · by_cases hji : j = i
      · subst hji
        exact absurd hj (by simp [Alive])
      · simpa [Alive, Function.update_of_ne hji] using hj
    · show (if rest.length ≥ n then rest else i :: rest).Nodup
      split_ifs
      · exact hnd.of_cons
      · exact hnd
    · rw [hfree]
      replace hj : j ∈ (if rest.length ≥ n then rest else i :: rest) := hj
      split_ifs at hj
      · exact List.mem_cons_of_mem _ hj
      · exact hj

/-- Removing the connection a live slot holds. -/
theorem Slots.removeClient (h : Slots n t pending) {c : Client} (halive : t.Alive c.idx)
    (hsocket : (t.clients c.idx).socket = c.socket) : Slots n (t.removeClient n c) pending := by
  obtain ⟨hlt, -, hown⟩ := h.live c.idx halive
  rw [hsocket] at hown
  have hne : ∀ i, i ≠ c.idx → t.Alive i → (t.clients i).socket.address ≠ c.socket.address := by
    intro i hi hal heq
    exact hi (h.distinct i c.idx hal halive (by rw [hsocket, heq]))
  obtain ⟨hcn, hcl⟩ := nodup_log h.closes_nodup h.logged.1 hown.2.2.1 hown.2.1
  obtain ⟨hfn, hfl⟩ := nodup_log h.frees_nodup h.logged.2 hown.2.2.2 hown.2.1
  have hrelease : ∀ s : Socket, Owns t s → s.address ≠ c.socket.address →
      Owns (t.removeClient n c) s := by
    intro s hs hs'
    rw [removeClient_eq]
    exact hs.release hown hs' rfl rfl rfl rfl
  have hfree : (t.removeClient n c).freeList =
      if t.freeList.length ≥ n then t.freeList else c.idx :: t.freeList := by rw [removeClient_eq]
  have hnotin : c.idx ∉ t.freeList := fun hm => (h.free _ hm).2 halive
  refine ⟨?_, fun i hi => ?_, fun i hi => ?_, fun i j hi hj => ?_, fun sock hs => ?_,
    fun fd r hr => ?_, ?_, ?_, ?_⟩
  · rw [hfree]
    split_ifs
    · exact h.free_nodup
    · exact List.nodup_cons.mpr ⟨hnotin, h.free_nodup⟩
  · rw [alive_removeClient]
    have hi' : i = c.idx ∨ i ∈ t.freeList := by
      rw [hfree] at hi
      split_ifs at hi
      · exact .inr hi
      · exact List.mem_cons.mp hi
    rcases hi' with rfl | hi'
    · exact ⟨hlt, fun hal => hal.1 rfl⟩
    · obtain ⟨hlti, hdead⟩ := h.free i hi'
      exact ⟨hlti, fun hal => hdead hal.2⟩
  · rw [alive_removeClient] at hi
    obtain ⟨hlti, hidx, howni⟩ := h.live i hi.2
    rw [socket_removeClient, idx_removeClient]
    exact ⟨hlti, hidx, hrelease _ howni (hne i hi.1 hi.2)⟩
  · rw [alive_removeClient] at hi hj
    rw [socket_removeClient, socket_removeClient]
    exact h.distinct i j hi.2 hj.2
  · obtain ⟨howns, hnes⟩ := h.pending sock hs
    have hs' : sock.address ≠ c.socket.address := by
      have := hnes c.idx halive
      rw [hsocket] at this
      exact this.symm
    refine ⟨hrelease sock howns hs', fun i hi => ?_⟩
    rw [alive_removeClient] at hi
    rw [socket_removeClient]
    exact hnes i hi.2
  · obtain ⟨hfd, hr⟩ := epoll_removeClient t n c hr
    obtain ⟨hal, hslot⟩ := h.registered fd r hr
    rw [alive_removeClient, socket_removeClient]
    refine ⟨⟨fun e => hfd ?_, hal⟩, hslot⟩
    rw [← hslot, e, hsocket]
  · rw [closes_removeClient, frees_removeClient, removeClient_eq]
    exact ⟨hcl, hfl⟩
  · rw [closes_removeClient]
    exact hcn
  · rw [frees_removeClient]
    exact hfn

end Foxtails.Server
