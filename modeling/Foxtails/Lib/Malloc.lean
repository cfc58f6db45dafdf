/-
  Memory that is handed out and given back in regions.

  An `Allocator` may refuse any request; a region it does hand out is apart from every region
  in use. Its answers may differ from call to call. `Memory` are the regions in use, and it
  carries that they are apart.

  * `malloc_cases`: a request is refused, or adds a region.
  * `disjoint_of_live`: regions in use at different addresses have no address in common.
  * `release_of_perm`, `releaseAll_of_perm`: what is in use can be given back, once.
  * `load_store_self`, `load_store_disjoint`: what a store puts into memory, and what it keeps.
-/
import Mathlib.Data.List.Basic
import Mathlib.Tactic

namespace Foxtails.Lib.Malloc

/-- The addresses from `addr` on, `size` of them. -/
structure Region where
  addr : Nat
  size : Nat
  deriving DecidableEq

namespace Region

/-- No address in common. -/
def Disjoint (r r' : Region) : Prop := r.addr + r.size ≤ r'.addr ∨ r'.addr + r'.size ≤ r.addr

/-- Disjoint, and at different addresses: an empty region has an address of its own, too. -/
def Apart (r r' : Region) : Prop := r.addr ≠ r'.addr ∧ r.Disjoint r'

/-- `r` is a part of `r'`. -/
def Within (r r' : Region) : Prop := r'.addr ≤ r.addr ∧ r.addr + r.size ≤ r'.addr + r'.size

variable {r r' q q' : Region}

theorem Disjoint.symm (h : r.Disjoint r') : r'.Disjoint r := Or.symm h

instance : Std.Symm Apart := ⟨fun _ _ h => ⟨Ne.symm h.1, h.2.symm⟩⟩

theorem Disjoint.mono (h : q.Disjoint q') (hr : r.Within q) (hr' : r'.Within q') :
    r.Disjoint r' := by
  unfold Disjoint Within at *
  omega

theorem Within.trans (h : r.Within r') (h' : r'.Within q) : r.Within q := by
  unfold Within at *
  omega

end Region

/-- The regions in use are apart. -/
structure Memory where
  live : List Region
  /-- How many requests were made. -/
  calls : Nat
  apart : live.Pairwise Region.Apart

/-- What `malloc` answers to the request number `calls`, for `size` bytes, with the regions
    `live` in use. -/
structure Allocator where
  answer : (live : List Region) → (calls size : Nat) → Option Nat
  fresh : ∀ live calls size addr, answer live calls size = some addr →
    ∀ r ∈ live, Region.Apart ⟨addr, size⟩ r

namespace Memory

theorem apart_filter {live : List Region} (h : live.Pairwise Region.Apart) (keep : Region → Bool) :
    (live.filter keep).Pairwise Region.Apart := h.filter _

theorem apart_cons {live : List Region} (h : live.Pairwise Region.Apart) {r : Region}
    (hr : ∀ r' ∈ live, r.Apart r') : (r :: live).Pairwise Region.Apart :=
  List.pairwise_cons.mpr ⟨hr, h⟩

def empty : Memory := { live := [], calls := 0, apart := List.Pairwise.nil }

/-- A request that is refused. -/
def refuse (m : Memory) : Memory := { m with calls := m.calls + 1 }

/-- A request that is answered with `r`. -/
def add (m : Memory) (r : Region) (h : ∀ r' ∈ m.live, r.Apart r') : Memory :=
  { live := r :: m.live, calls := m.calls + 1, apart := apart_cons m.apart h }

def malloc (A : Allocator) (m : Memory) (size : Nat) : Memory × Option Nat :=
  match h : A.answer m.live m.calls size with
  | none => (m.refuse, none)
  | some addr => (m.add ⟨addr, size⟩ (A.fresh _ _ _ _ h), some addr)

def free (m : Memory) (addr : Nat) : Memory :=
  { m with live := m.live.filter fun r => r.addr ≠ addr, apart := apart_filter m.apart _ }

variable {m : Memory} {r r' : Region}

/-- **The two answers to a request.** -/
theorem malloc_cases (A : Allocator) (m : Memory) (size : Nat) :
    m.malloc A size = (m.refuse, none) ∨
      ∃ addr h, m.malloc A size = (m.add ⟨addr, size⟩ h, some addr) := by
  unfold malloc
  split
  · exact .inl rfl
  · next addr h => exact .inr ⟨addr, A.fresh _ _ _ _ h, rfl⟩

@[simp] theorem live_add (h : ∀ r' ∈ m.live, r.Apart r') : (m.add r h).live = r :: m.live := rfl

@[simp] theorem live_free {addr : Nat} :
    r ∈ (m.free addr).live ↔ r ∈ m.live ∧ r.addr ≠ addr := by
  rw [free, List.mem_filter, decide_eq_true_eq]

/-- What has just been handed out can be given back. -/
theorem live_free_add (h : ∀ r' ∈ m.live, r.Apart r') :
    ((m.add r h).free r.addr).live = m.live := by
  simp only [free, live_add, ne_eq, not_true_eq_false, decide_false, Bool.false_eq_true,
    not_false_eq_true, List.filter_cons_of_neg]
  rw [List.filter_eq_self]
  intro r' hr'
  simpa using (h r' hr').1.symm

/-- Regions in use at different addresses have no address in common. -/
theorem disjoint_of_live (hr : r ∈ m.live) (hr' : r' ∈ m.live) (hne : r.addr ≠ r'.addr) :
    r.Disjoint r' := by
  have hreq : r ≠ r' := fun heq => hne (congrArg Region.addr heq)
  exact (m.apart.forall hr hr' hreq).2

/-! ### Giving back -/

/-- The addresses of the regions in use. -/
def addrs (m : Memory) : List Nat := m.live.map Region.addr

/-- `free` of an address in use; `none` for any other. -/
def release (m : Memory) (addr : Nat) : Option Memory :=
  if addr ∈ m.addrs then some (m.free addr) else none

theorem addrs_nodup (m : Memory) : m.addrs.Nodup :=
  List.pairwise_map.mpr (m.apart.imp fun h => h.1)

theorem addrs_free (m : Memory) (addr : Nat) :
    (m.free addr).addrs = m.addrs.filter fun x => x ≠ addr := by
  rw [addrs, addrs, free, List.filter_map]
  rfl

theorem addrs_eq_nil_iff : m.addrs = [] ↔ m.live = [] := List.map_eq_nil_iff

/-- **An address in use can be given back**, and the others stay in use. -/
theorem release_of_perm {addr : Nat} {rest : List Nat} (h : m.addrs.Perm (addr :: rest)) :
    m.release addr = some (m.free addr) ∧ (m.free addr).addrs.Perm rest := by
  have hnodup := h.nodup_iff.mp m.addrs_nodup
  have hrest : addr ∉ rest := (List.nodup_cons.mp hnodup).1
  refine ⟨if_pos (h.mem_iff.mpr List.mem_cons_self), ?_⟩
  have hfilter := h.filter fun x => x ≠ addr
  rw [← addrs_free, List.filter_cons_of_neg (by simp)] at hfilter
  have hself : rest.filter (fun x => x ≠ addr) = rest := by
    rw [List.filter_eq_self]
    intro x hx
    exact decide_eq_true fun heq => hrest (heq ▸ hx)
  rwa [hself] at hfilter

/-- A list of addresses in use, one after the other. -/
theorem releaseAll_of_perm {addrs rest : List Nat} (h : m.addrs.Perm (addrs ++ rest)) :
    ∃ m', addrs.foldlM release m = some m' ∧ m'.addrs.Perm rest := by
  induction addrs generalizing m with
  | nil => exact ⟨m, rfl, h⟩
  | cons addr addrs ih =>
    obtain ⟨hfree, hperm⟩ := release_of_perm h
    obtain ⟨m', hall, hrest⟩ := ih hperm
    refine ⟨m', ?_, hrest⟩
    rw [List.foldlM_cons, hfree]
    exact hall

end Memory

/-- Nothing is refused. -/
def Allocator.Answers (A : Allocator) : Prop := ∀ live calls size, A.answer live calls size ≠ none

theorem Allocator.Answers.malloc {A : Allocator} (hA : A.Answers) (m : Memory) (size : Nat) :
    ∃ m' addr, m.malloc A size = (m', some addr) := by
  unfold Memory.malloc
  split
  · next h => exact absurd h (hA _ _ _)
  · next addr h => exact ⟨_, addr, rfl⟩

/-! ## What is in memory -/

section Bytes

variable {β : Type}

/-- The `n` bytes from `addr` on. -/
def load (m : Nat → β) (addr n : Nat) : List β := (List.range n).map fun i => m (addr + i)

/-- `memcpy(addr, bs, |bs|)`. -/
def store (m : Nat → β) (addr : Nat) (bs : List β) : Nat → β := fun x =>
  if addr ≤ x then bs[x - addr]?.getD (m x) else m x

theorem load_store_self (m : Nat → β) (addr : Nat) (bs : List β) :
    load (store m addr bs) addr bs.length = bs := by
  unfold load store
  refine List.ext_getElem (by simp) fun i hi hi' => ?_
  simp only [List.getElem_map, List.getElem_range, Nat.le_add_right, if_true,
    Nat.add_sub_cancel_left]
  rw [List.getElem?_eq_getElem hi', Option.getD_some]

theorem load_store_disjoint (m : Nat → β) {r : Region} {addr : Nat} {bs : List β}
    (h : r.Disjoint ⟨addr, bs.length⟩) :
    load (store m addr bs) r.addr r.size = load m r.addr r.size := by
  unfold load store
  refine List.map_congr_left fun i hi => ?_
  rw [List.mem_range] at hi
  unfold Region.Disjoint at h
  dsimp only at h
  split_ifs with hle
  · rw [List.getElem?_eq_none (by omega), Option.getD_none]
  · rfl

end Bytes

end Foxtails.Lib.Malloc
