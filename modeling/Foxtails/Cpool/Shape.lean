/-
  The two lists of a pool in memory.

  `Shape p blocks larges`: `blocks` is the chain from `root` to `last`, `larges` the list from
  `large_root` to `large_last`; every node, and the data of every large block, is memory in
  use, all at different addresses.

  * `Shape.append`, `Shape.appendLarge`: a new node at the end of a list.
  * `clear_spec`, `freeLarge_spec`: what the two loops of `cpool_restore` do.
-/
import Foxtails.Cpool.Blocks

namespace Foxtails.Cpool

open Foxtails.Lib.Chain Foxtails.Lib.Libc Foxtails.Lib.Malloc

namespace Pool

variable (p : Pool)

/-- The memory of a block. -/
def blockRegion (b : Nat) : Region := ⟨b, sizeofBlock + p.blockSize⟩

/-- The part of it behind the header. -/
def dataRegion (b : Nat) : Region := ⟨b + sizeofBlock, p.blockSize⟩

/-- The data of the large blocks. -/
def largeData (lb : Nat) : Nat := (p.large lb).data

end Pool

structure Shape (p : Pool) (blocks larges : List Nat) : Prop where
  chain : Links p.next (some p.root) blocks
  last : blocks.getLast? = some p.last
  live : ∀ b ∈ blocks, p.blockRegion b ∈ p.memory.live
  data : ∀ b ∈ blocks, (p.block b).data = b + sizeofBlock
  largeChain : Links p.largeNext p.largeRoot larges
  largeLast : larges.getLast? = p.largeLast
  largeLive : ∀ lb ∈ larges, ⟨lb, sizeofLargeBlock⟩ ∈ p.memory.live
  dataLive : ∀ lb ∈ larges, ∃ size, ⟨p.largeData lb, size⟩ ∈ p.memory.live
  distinct : (blocks ++ (larges ++ larges.map p.largeData)).Nodup

variable {A : Allocator} {p : Pool} {blocks larges : List Nat}

namespace Shape

variable (h : Shape p blocks larges)

include h

theorem nodup : blocks.Nodup := h.chain.nodup

theorem last_mem : p.last ∈ blocks := List.mem_of_getLast? h.last

/-- The last block has no next one. -/
theorem next_last : p.next p.last = none := by
  obtain ⟨front, rfl⟩ := List.getLast?_eq_some_iff.mp h.last
  exact h.chain.next_last

/-- Every address of the shape is that of a region in use. -/
theorem exists_live {x : Nat} (hx : x ∈ blocks ++ (larges ++ larges.map p.largeData)) :
    ∃ r ∈ p.memory.live, r.addr = x := by
  rcases List.mem_append.mp hx with hb | hx
  · exact ⟨_, h.live x hb, rfl⟩
  · rcases List.mem_append.mp hx with hlb | hx
    · exact ⟨_, h.largeLive x hlb, rfl⟩
    · obtain ⟨lb, hlb, rfl⟩ := List.mem_map.mp hx
      obtain ⟨size, hlive⟩ := h.dataLive lb hlb
      exact ⟨_, hlive, rfl⟩

/-- Fresh memory is at none of the addresses. -/
theorem fresh {r : Region} (hr : ∀ r' ∈ p.memory.live, r.Apart r') :
    r.addr ∉ blocks ++ (larges ++ larges.map p.largeData) := by
  intro hmem
  obtain ⟨r', hr', haddr⟩ := h.exists_live hmem
  exact (hr r' hr').1 haddr.symm

theorem block_ne_data {b lb : Nat} (hb : b ∈ blocks) (hlb : lb ∈ larges) : b ≠ p.largeData lb := by
  have hdisjoint := List.disjoint_of_nodup_append h.distinct
  rintro rfl
  exact hdisjoint hb (List.mem_append_right _ (List.mem_map_of_mem hlb))

theorem length_le_rounds : blocks.length ≤ p.rounds := by
  have hnodup : (blocks.map p.blockRegion).Nodup :=
    h.nodup.map fun b b' heq => congrArg Region.addr heq
  have hsub : blocks.map p.blockRegion ⊆ p.memory.live := by
    intro r hr
    obtain ⟨b, hb, rfl⟩ := List.mem_map.mp hr
    exact h.live b hb
  have hle := (hnodup.subperm hsub).length_le
  rwa [List.length_map] at hle

theorem large_length_le_rounds : larges.length ≤ p.rounds := by
  have hnodup : (larges.map fun lb => (⟨lb, sizeofLargeBlock⟩ : Region)).Nodup :=
    h.largeChain.nodup.map fun lb lb' heq => congrArg Region.addr heq
  have hsub : larges.map (fun lb => (⟨lb, sizeofLargeBlock⟩ : Region)) ⊆ p.memory.live := by
    intro r hr
    obtain ⟨lb, hlb, rfl⟩ := List.mem_map.mp hr
    exact h.largeLive lb hlb
  have hle := (hnodup.subperm hsub).length_le
  rwa [List.length_map] at hle

/-! ## Changes that keep the lists -/

/-- The allocator did something else. -/
theorem withMemory {m : Memory} (hm : m.live = p.memory.live) :
    Shape { p with memory := m } blocks larges :=
  { h with
    live := fun b hb => (by rw [hm]; exact h.live b hb)
    largeLive := fun lb hlb => (by rw [hm]; exact h.largeLive lb hlb)
    dataLive := fun lb hlb => (by rw [hm]; exact h.dataLive lb hlb) }

/-- A block gets another head. -/
theorem setBlock {b : Nat} {x : Block} (hnext : x.next = (p.block b).next)
    (hdata : x.data = (p.block b).data) : Shape (p.setBlock b x) blocks larges := by
  have hblock : ∀ c, ((p.setBlock b x).block c).next = (p.block c).next ∧
      ((p.setBlock b x).block c).data = (p.block c).data := by
    intro c
    by_cases hc : c = b
    · subst hc
      simp only [Pool.setBlock, Function.update_self]
      exact ⟨hnext, hdata⟩
    · simp only [Pool.setBlock, Function.update_of_ne hc, and_self]
  refine { h with chain := h.chain.congr fun c _ => (hblock c).1, data := fun c hc => ?_ }
  rw [(hblock c).2]
  exact h.data c hc

end Shape

/-! ## A new block -/

/-- The pool behind `__append_block`, where `malloc` gives `b`. -/
def Pool.appended (p : Pool) (m : Memory) (b : Nat) : Pool :=
  { p with
    memory := m
    block := Function.update (Function.update p.block b (.new b)) p.last
      { p.block p.last with next := some b }
    last := b
    current := some b }

/-- **`__append_block` changes nothing, or appends a block.** -/
theorem Shape.appendBlock_cases (h : Shape p blocks larges) (A : Allocator)
    (hsize : sizeofBlock + p.blockSize < SIZE) :
    (∃ m, m.live = p.memory.live ∧ p.appendBlock A = ({ p with memory := m }, none)) ∨
      ∃ m b, m.live = p.blockRegion b :: p.memory.live ∧
        (∀ r ∈ p.memory.live, (p.blockRegion b).Apart r) ∧
        p.appendBlock A = (p.appended m b, some b) := by
  unfold Pool.appendBlock Pool.initBlock Pool.malloc
  rw [Nat.mod_eq_of_lt hsize]
  rcases Memory.malloc_cases A p.memory (sizeofBlock + p.blockSize) with heq | ⟨b, hfresh, heq⟩
  · refine .inl ⟨p.memory.refuse, rfl, ?_⟩
    rw [heq]
    have hsame : Function.update p.block p.last { p.block p.last with next := none } = p.block := by
      have hnext : (p.block p.last).next = none := h.next_last
      rw [← hnext, Function.update_eq_self]
    simp only [Pool.setBlock, hsame]
  · refine .inr ⟨p.memory.add _ hfresh, b, rfl, hfresh, ?_⟩
    have hne : p.last ≠ b := by
      rintro rfl
      exact h.fresh hfresh (List.mem_append_left _ h.last_mem)
    rw [heq]
    simp only [Pool.setBlock, Function.update_of_ne hne, Pool.appended]

namespace Shape

variable {m : Memory} {b : Nat}

theorem appended_block (hne : p.last ≠ b) : (p.appended m b).block b = .new b := by
  simp only [Pool.appended, Function.update_of_ne hne.symm, Function.update_self]

/-- The other blocks, links apart. -/
theorem appended_of_ne {c : Nat} (hc : c ≠ b) :
    ((p.appended m b).block c).data = (p.block c).data ∧
      ((p.appended m b).block c).head = (p.block c).head ∧
      (c ≠ p.last → (p.appended m b).next c = p.next c) := by
  unfold Pool.next Pool.appended
  by_cases hlast : c = p.last
  · subst hlast
    simp
  · simp [Function.update_of_ne hlast, Function.update_of_ne hc]

theorem append (h : Shape p blocks larges) (hm : m.live = p.blockRegion b :: p.memory.live)
    (hfresh : ∀ r ∈ p.memory.live, (p.blockRegion b).Apart r) :
    Shape (p.appended m b) (blocks ++ [b]) larges := by
  have hnew := h.fresh hfresh
  have hb : ∀ c ∈ blocks, c ≠ b := by
    rintro c hc rfl
    exact hnew (List.mem_append_left _ hc)
  have hlast : p.last ≠ b := hb _ h.last_mem
  have hsub : ∀ r ∈ p.memory.live, r ∈ m.live := fun r hr => by
    rw [hm]
    exact List.mem_cons_of_mem _ hr
  obtain ⟨front, hfront⟩ := List.getLast?_eq_some_iff.mp h.last
  have hnodup := h.nodup
  refine ⟨?_, ?_, ?_, ?_, h.largeChain, h.largeLast,
    fun lb hlb => hsub _ (h.largeLive lb hlb), ?_, ?_⟩
  · rw [hfront, List.append_assoc]
    have hchain := h.chain
    rw [hfront] at hchain hnodup
    have hkeep : ∀ c ∈ front, (p.appended m b).next c = p.next c := by
      intro c hc
      have hne : c ≠ p.last := fun heq =>
        List.disjoint_of_nodup_append hnodup hc (heq ▸ List.mem_singleton_self _)
      exact (appended_of_ne (hb c (hfront ▸ List.mem_append_left _ hc))).2.2 hne
    have hback : Links (p.appended m b).next ((p.appended m b).next p.last) [b] := by
      have hnext : (p.appended m b).next p.last = some b := by simp [Pool.next, Pool.appended]
      have hend : (p.appended m b).next b = none := by
        rw [Pool.next, appended_block hlast, Block.new_next]
      rw [hnext]
      exact ⟨rfl, hend⟩
    exact hchain.relink hkeep hback
  · exact List.getLast?_concat
  · intro c hc
    rcases List.mem_append.mp hc with hc | hc
    · exact hsub _ (h.live c hc)
    · obtain rfl := List.mem_singleton.mp hc
      show p.blockRegion c ∈ m.live
      rw [hm]
      exact List.mem_cons_self
  · intro c hc
    rcases List.mem_append.mp hc with hc | hc
    · rw [(appended_of_ne (hb c hc)).1]
      exact h.data c hc
    · obtain rfl := List.mem_singleton.mp hc
      rw [appended_block hlast, Block.new_data]
  · intro lb hlb
    obtain ⟨size, hlive⟩ := h.dataLive lb hlb
    exact ⟨size, hsub _ hlive⟩
  · rw [List.append_assoc]
    exact (List.perm_middle.nodup_iff).mpr (List.nodup_cons.mpr ⟨hnew, h.distinct⟩)

end Shape

/-! ## A new large block -/

/-- The pool behind `__alloc_large_block`, where `malloc` gives `lb` and `data`. -/
def Pool.appendedLarge (p : Pool) (m : Memory) (lb data : Nat) : Pool :=
  { p.setLink (some lb) p.link with
    memory := m
    large := Function.update (p.setLink (some lb) p.link).large lb { data, next := none }
    largeLast := some lb }

/-- The link `__alloc_large_block` writes is NULL: that of the root, or that of the last. -/
theorem Shape.link_cases (h : Shape p blocks larges) :
    (p.link = .largeRoot ∧ larges = [] ∧ p.largeRoot = none) ∨
      ∃ front last, p.link = .next last ∧ larges = front ++ [last] ∧ p.largeNext last = none := by
  unfold Pool.link
  cases hlast : larges.getLast? with
  | none =>
    obtain rfl : larges = [] := List.getLast?_eq_none_iff.mp hlast
    have hroot : p.largeRoot = none := h.largeChain
    exact .inl ⟨by rw [hroot], rfl, hroot⟩
  | some last =>
    obtain ⟨front, rfl⟩ := List.getLast?_eq_some_iff.mp hlast
    refine .inr ⟨front, last, ?_, rfl, h.largeChain.next_last⟩
    rw [← h.largeLast, hlast]
    cases hroot : p.largeRoot with
    | none =>
      have hnil := h.largeChain.nil_iff.mpr hroot
      simp at hnil
    | some root => rfl

/-- Writing NULL there changes nothing. -/
theorem Shape.setLink_none (h : Shape p blocks larges) (m : Memory) :
    Pool.setLink { p with memory := m } none p.link = { p with memory := m } := by
  rcases h.link_cases with ⟨hlink, -, hroot⟩ | ⟨front, last, hlink, -, hnext⟩
  · rw [hlink, Pool.setLink, ← hroot]
  · have hnext : (p.large last).next = none := hnext
    rw [hlink, Pool.setLink, Pool.setLarge, ← hnext, Function.update_eq_self]

/-- Writing NULL there again takes the new large block back. -/
theorem Shape.setLink_undo (h : Shape p blocks larges) (m : Memory) (lb : Option Nat) :
    Pool.setLink { p.setLink lb p.link with memory := m } none p.link = { p with memory := m } := by
  rcases h.link_cases with ⟨hlink, -, hroot⟩ | ⟨front, last, hlink, -, hnext⟩
  · rw [hlink, Pool.setLink, Pool.setLink, ← hroot]
  · have hnext : (p.large last).next = none := hnext
    have hself : { p.large last with next := none } = p.large last := by rw [← hnext]
    simp only [hlink, Pool.setLink, Pool.setLarge, Function.update_idem, Function.update_self,
      hself, Function.update_eq_self]

/-- **`__alloc_large_block` changes nothing, or appends a large block.** -/
theorem Shape.allocLargeBlock_cases (h : Shape p blocks larges) (A : Allocator) (size : Nat) :
    (∃ m, m.live = p.memory.live ∧ p.allocLargeBlock A size = ({ p with memory := m }, none)) ∨
      ∃ m lb data, m.live = ⟨data, size⟩ :: ⟨lb, sizeofLargeBlock⟩ :: p.memory.live ∧
        (∀ r ∈ p.memory.live, Region.Apart ⟨lb, sizeofLargeBlock⟩ r) ∧
        (∀ r ∈ ⟨lb, sizeofLargeBlock⟩ :: p.memory.live, Region.Apart ⟨data, size⟩ r) ∧
        p.allocLargeBlock A size = (p.appendedLarge m lb data, some data) := by
  unfold Pool.allocLargeBlock Pool.malloc
  rcases Memory.malloc_cases A p.memory sizeofLargeBlock with heq | ⟨lb, hfresh, heq⟩
  · refine .inl ⟨p.memory.refuse, rfl, ?_⟩
    rw [heq]
    simp only [h.setLink_none]
  · rw [heq]
    dsimp only
    have hlinked : (Pool.setLink { p with memory := p.memory.add _ hfresh } (some lb) p.link) =
        { p.setLink (some lb) p.link with memory := p.memory.add _ hfresh } := by
      cases p.link <;> rfl
    rw [hlinked]
    dsimp only
    rcases Memory.malloc_cases A (p.memory.add _ hfresh) size with heq | ⟨data, hfresh', heq⟩
    · refine .inl ⟨(p.memory.add _ hfresh).refuse.free lb, 
        Memory.live_free_add hfresh, ?_⟩
      rw [heq]
      simp only [Pool.free, h.setLink_undo]
    · refine .inr ⟨(p.memory.add _ hfresh).add _ hfresh', lb, data, rfl, hfresh, hfresh', ?_⟩
      rw [heq]
      rfl

/-- The blocks are as before. -/
structure SameBlocks (p p' : Pool) : Prop where
  block : p'.block = p.block
  root : p'.root = p.root
  current : p'.current = p.current
  last : p'.last = p.last
  blockSize : p'.blockSize = p.blockSize
  snapshots : p'.snapshots = p.snapshots

namespace Shape

variable {m : Memory} {lb data size : Nat}

theorem sameBlocks_appendedLarge (p : Pool) (m : Memory) (lb data : Nat) :
    SameBlocks p (p.appendedLarge m lb data) := by
  unfold Pool.appendedLarge
  cases p.link <;> exact ⟨rfl, rfl, rfl, rfl, rfl, rfl⟩

theorem appendedLarge_self : (p.appendedLarge m lb data).large lb = { data, next := none } :=
  Function.update_self ..

theorem appendedLarge_of_ne {x : Nat} (hx : x ≠ lb) :
    (p.appendedLarge m lb data).largeData x = p.largeData x ∧
      (p.link ≠ .next x → (p.appendedLarge m lb data).largeNext x = p.largeNext x) := by
  unfold Pool.largeData Pool.largeNext Pool.appendedLarge
  simp only [Function.update_of_ne hx]
  cases hlink : p.link with
  | largeRoot => exact ⟨rfl, fun _ => rfl⟩
  | next last =>
    simp only [Pool.setLink, Pool.setLarge]
    by_cases hlast : x = last
    · subst hlast
      simp
    · simp [Function.update_of_ne hlast]

/-- The list goes on with the new large block. -/
theorem appendedLarge_chain (h : Shape p blocks larges) (hne : ∀ x ∈ larges, x ≠ lb) :
    Links (p.appendedLarge m lb data).largeNext (p.appendedLarge m lb data).largeRoot
      (larges ++ [lb]) := by
  have hend : Links (p.appendedLarge m lb data).largeNext (some lb) [lb] := by
    refine ⟨rfl, ?_⟩
    show (p.appendedLarge m lb data).largeNext lb = none
    rw [Pool.largeNext, appendedLarge_self]
  rcases h.link_cases with ⟨hlink, rfl, -⟩ | ⟨front, last, hlink, rfl, -⟩
  · have hroot : (p.appendedLarge m lb data).largeRoot = some lb := by
      rw [Pool.appendedLarge, hlink, Pool.setLink]
    rw [hroot]
    exact hend
  · have hroot : (p.appendedLarge m lb data).largeRoot = p.largeRoot := by
      rw [Pool.appendedLarge, hlink, Pool.setLink, Pool.setLarge]
    have hlast : (p.appendedLarge m lb data).largeNext last = some lb := by
      have hnelast := hne last (List.mem_append_right _ (List.mem_singleton_self last))
      simp only [Pool.appendedLarge, hlink, Pool.setLink, Pool.setLarge, Pool.largeNext,
        Function.update_of_ne hnelast, Function.update_self]
    have hkeep : ∀ x ∈ front, (p.appendedLarge m lb data).largeNext x = p.largeNext x := by
      intro x hx
      refine (appendedLarge_of_ne (hne x (List.mem_append_left _ hx))).2 fun heq => ?_
      obtain rfl : last = x := Pool.Link.next.inj (hlink.symm.trans heq)
      exact List.disjoint_of_nodup_append h.largeChain.nodup hx (List.mem_singleton_self last)
    rw [hroot, List.append_assoc]
    exact h.largeChain.relink hkeep (hlast ▸ hend)

theorem appendedLarge_map (hne : ∀ x ∈ larges, x ≠ lb) :
    (larges ++ [lb]).map (p.appendedLarge m lb data).largeData =
      larges.map p.largeData ++ [data] := by
  have hold : larges.map (p.appendedLarge m lb data).largeData = larges.map p.largeData :=
    List.map_congr_left fun x hx => (appendedLarge_of_ne (hne x hx)).1
  rw [List.map_append, hold, List.map_singleton, Pool.largeData, appendedLarge_self]

/-- Two new addresses at the ends of the lists. -/
theorem distinct_append (h : Shape p blocks larges)
    (hlb : lb ∉ blocks ++ (larges ++ larges.map p.largeData))
    (hdata : data ∉ blocks ++ (larges ++ larges.map p.largeData)) (hne : data ≠ lb) :
    (blocks ++ (larges ++ [lb] ++ (larges.map p.largeData ++ [data]))).Nodup := by
  have hperm : (blocks ++ (larges ++ [lb] ++ (larges.map p.largeData ++ [data]))).Perm
      (data :: lb :: (blocks ++ (larges ++ larges.map p.largeData))) := by
    refine List.perm_iff_count.mpr fun x => ?_
    simp only [List.count_append, List.count_cons, List.count_nil]
    omega
  have hnodup := List.nodup_cons.mpr ⟨hlb, h.distinct⟩
  refine hperm.nodup_iff.mpr (List.nodup_cons.mpr ⟨fun hmem => ?_, hnodup⟩)
  exact (List.mem_cons.mp hmem).elim hne hdata

theorem appendLarge (h : Shape p blocks larges)
    (hm : m.live = ⟨data, size⟩ :: ⟨lb, sizeofLargeBlock⟩ :: p.memory.live)
    (hlb : ∀ r ∈ p.memory.live, Region.Apart ⟨lb, sizeofLargeBlock⟩ r)
    (hdata : ∀ r ∈ ⟨lb, sizeofLargeBlock⟩ :: p.memory.live, Region.Apart ⟨data, size⟩ r) :
    Shape (p.appendedLarge m lb data) blocks (larges ++ [lb]) := by
  have hsame := sameBlocks_appendedLarge p m lb data
  have hnew := h.fresh hlb
  have hnewData := h.fresh fun r hr => hdata r (List.mem_cons_of_mem _ hr)
  have hne : ∀ x ∈ larges, x ≠ lb := by
    rintro x hx rfl
    exact hnew (List.mem_append_right _ (List.mem_append_left _ hx))
  have hsub : ∀ r ∈ p.memory.live, r ∈ m.live := fun r hr => by
    rw [hm]
    exact List.mem_cons_of_mem _ (List.mem_cons_of_mem _ hr)
  have hnext : (p.appendedLarge m lb data).next = p.next := by
    funext b
    rw [Pool.next, Pool.next, hsame.block]
  refine ⟨?_, ?_, ?_, ?_, h.appendedLarge_chain hne, List.getLast?_concat, ?_, ?_, ?_⟩
  · rw [hnext, hsame.root]
    exact h.chain
  · rw [hsame.last]
    exact h.last
  · intro b hb
    rw [Pool.blockRegion, hsame.blockSize]
    exact hsub _ (h.live b hb)
  · intro b hb
    rw [hsame.block]
    exact h.data b hb
  · intro x hx
    rcases List.mem_append.mp hx with hx | hx
    · exact hsub _ (h.largeLive x hx)
    · obtain rfl := List.mem_singleton.mp hx
      show _ ∈ m.live
      rw [hm]
      exact List.mem_cons_of_mem _ List.mem_cons_self
  · intro x hx
    rcases List.mem_append.mp hx with hx | hx
    · obtain ⟨n, hlive⟩ := h.dataLive x hx
      rw [(appendedLarge_of_ne (hne x hx)).1]
      exact ⟨n, hsub _ hlive⟩
    · obtain rfl := List.mem_singleton.mp hx
      refine ⟨size, ?_⟩
      rw [Pool.largeData, appendedLarge_self]
      show _ ∈ m.live
      rw [hm]
      exact List.mem_cons_self
  · rw [appendedLarge_map hne]
    exact h.distinct_append hnew hnewData (hdata _ List.mem_cons_self).1

end Shape

/-! ## The loops of a restore -/

/-- What emptying blocks changes. -/
theorem clear_spec (bs : List Nat) (p : Pool) :
    ∃ block, bs.foldl (fun p b => p.setHead b 0 false) p = { p with block } ∧
      (∀ c, (block c).next = (p.block c).next ∧ (block c).data = (p.block c).data) ∧
      (∀ c, c ∉ bs → block c = p.block c) ∧ ∀ c ∈ bs, (block c).head = 0 := by
  induction bs generalizing p with
  | nil => exact ⟨p.block, rfl, fun _ => ⟨rfl, rfl⟩, fun _ _ => rfl, fun _ hc => (by cases hc)⟩
  | cons b bs ih =>
    obtain ⟨block, heq, hlinks, hsame, hempty⟩ := ih (p.setHead b 0 false)
    refine ⟨block, heq, fun c => ?_, fun c hc => ?_, fun c hc => ?_⟩
    · rw [(hlinks c).1, (hlinks c).2]
      by_cases hcb : c = b
      · subst hcb
        simp [Pool.setHead]
      · simp [Pool.setHead, Pool.setBlock_of_ne _ hcb]
    · have hcb : c ≠ b := fun heq => hc (heq ▸ List.mem_cons_self)
      rw [hsame c fun hmem => hc (List.mem_cons_of_mem b hmem)]
      exact Function.update_of_ne hcb ..
    · by_cases hmem : c ∈ bs
      · exact hempty c hmem
      · obtain rfl : c = b := (List.mem_cons.mp hc).resolve_right hmem
        rw [hsame c hmem]
        simp [Pool.setHead]

/-- What freeing large blocks changes, and what it keeps. -/
theorem freeLarge_spec (lbs : List Nat) (p : Pool) :
    ∃ memory large, lbs.foldl (fun p lb =>
        ((p.free (p.large lb).data).setLarge lb { p.large lb with next := none }).free lb) p =
        { p with memory, large } ∧
      (∀ x, x ∉ lbs → large x = p.large x) ∧
      ∀ r ∈ p.memory.live, (∀ x ∈ lbs, r.addr ≠ x ∧ r.addr ≠ p.largeData x) → r ∈ memory.live := by
  induction lbs generalizing p with
  | nil => exact ⟨p.memory, p.large, rfl, fun _ _ => rfl, fun _ hr _ => hr⟩
  | cons lb lbs ih =>
    obtain ⟨memory, large, heq, hsame, hlive⟩ :=
      ih (((p.free (p.large lb).data).setLarge lb { p.large lb with next := none }).free lb)
    refine ⟨memory, large, heq, fun x hx => ?_, fun r hr hne => ?_⟩
    · have hxlb : x ≠ lb := fun heq => hx (heq ▸ List.mem_cons_self)
      rw [hsame x fun hmem => hx (List.mem_cons_of_mem lb hmem)]
      exact Function.update_of_ne hxlb ..
    · obtain ⟨hlb, hdata⟩ := hne lb List.mem_cons_self
      refine hlive r ?_ fun x hx => ?_
      · exact Memory.live_free.mpr ⟨Memory.live_free.mpr ⟨hr, hdata⟩, hlb⟩
      · have hx' := hne x (List.mem_cons_of_mem lb hx)
        refine ⟨hx'.1, ?_⟩
        by_cases hxlb : x = lb
        · subst hxlb
          simpa [Pool.largeData, Pool.setLarge, Pool.free] using hx'.2
        · simpa [Pool.largeData, Pool.setLarge, Pool.free, Function.update_of_ne hxlb] using hx'.2

theorem Shape.restoreBlocks_spec (h : Shape p blocks larges) {snapshot : Snapshot} {b : Nat}
    {pre post : List Nat} (hb : snapshot.current.getD snapshot.last = b)
    (hsplit : blocks = pre ++ b :: post) :
    ∃ block, p.restoreBlocks snapshot =
        { p with block, current := some b, last := snapshot.last } ∧
      (∀ c, (block c).next = (p.block c).next ∧ (block c).data = (p.block c).data) ∧
      (block b).head = snapshot.head ∧ ∀ c ∈ post, (block c).head = 0 := by
  subst hsplit
  have h₁ : Shape (p.setHead b snapshot.head snapshot.full) (pre ++ b :: post) larges :=
    h.setBlock rfl rfl
  have hwalk : walk (p.setHead b snapshot.head snapshot.full).next
      (p.setHead b snapshot.head snapshot.full).rounds
      ((p.setHead b snapshot.head snapshot.full).block b).next = post := by
    refine h₁.chain.behind.walk_eq (le_trans ?_ h₁.length_le_rounds)
    rw [List.length_append, List.length_cons]
    omega
  have hnot : b ∉ post := (List.nodup_cons.mp h.nodup.of_append_right).1
  obtain ⟨block, heq, hlinks, hsame, hempty⟩ :=
    clear_spec post (p.setHead b snapshot.head snapshot.full)
  refine ⟨block, ?_, fun c => ?_, ?_, hempty⟩
  · rw [Pool.restoreBlocks, hb]
    simp only [Pool.clear, hwalk, heq]
    rfl
  · rw [(hlinks c).1, (hlinks c).2]
    by_cases hcb : c = b
    · subst hcb
      simp [Pool.setHead]
    · simp [Pool.setHead, Pool.setBlock_of_ne _ hcb]
  · rw [hsame b hnot]
    simp [Pool.setHead]

theorem restoreLarge_spec {snapshot : Snapshot} {older rest : List Nat}
    (hchain : Links p.largeNext p.largeRoot (older ++ rest)) (hlen : rest.length ≤ p.rounds)
    (holder : older.getLast? = snapshot.largeCurrent) :
    ∃ memory large largeRoot, p.restoreLarge snapshot =
        { p with memory, large, largeRoot, largeLast := snapshot.largeCurrent } ∧
      Links (fun x => (large x).next) largeRoot older ∧
      (∀ x ∈ older, (large x).data = p.largeData x) ∧
      ∀ r ∈ p.memory.live, (∀ x ∈ rest, r.addr ≠ x ∧ r.addr ≠ p.largeData x) →
        r ∈ memory.live := by
  obtain ⟨memory, large, heq, hsame, hlive⟩ := freeLarge_spec rest p
  have hnot : ∀ x ∈ older, x ∉ rest := fun x hx hmem =>
    List.disjoint_of_nodup_append hchain.nodup hx hmem
  unfold Pool.restoreLarge Pool.freeLarge
  rw [← holder]
  cases hlast : older.getLast? with
  | none =>
    obtain rfl : older = [] := List.getLast?_eq_none_iff.mp hlast
    refine ⟨memory, large, none, ?_, rfl, fun _ hx => (by cases hx), hlive⟩
    simp only [hchain.walk_eq hlen, List.nil_append, heq]
  | some lb =>
    obtain ⟨front, rfl⟩ := List.getLast?_eq_some_iff.mp hlast
    have hlb : lb ∈ front ++ [lb] := List.mem_append_right _ (List.mem_singleton_self lb)
    rw [List.append_assoc, List.singleton_append] at hchain
    have hwalk : walk p.largeNext p.rounds (p.large lb).next = rest := hchain.behind.walk_eq hlen
    have hfront : ∀ x ∈ front, x ≠ lb := by
      rintro x hx rfl
      exact List.disjoint_of_nodup_append hchain.nodup hx List.mem_cons_self
    refine ⟨memory, Function.update large lb { large lb with next := none }, p.largeRoot,
      ?_, ?_, ?_, hlive⟩
    · simp only [hwalk, heq]
      rfl
    · refine hchain.relink (fun x hx => ?_) ?_
      · rw [Function.update_of_ne (hfront x hx), hsame x (hnot x (List.mem_append_left _ hx))]
        rfl
      · rw [Function.update_self]
        rfl
    · intro x hx
      by_cases hxlb : x = lb
      · subst hxlb
        rw [Function.update_self, hsame x (hnot x hx)]
        rfl
      · rw [Function.update_of_ne hxlb, hsame x (hnot x hx)]
        rfl

/-- The addresses of what a restore keeps are not among those it frees. -/
theorem Shape.ne_of_kept {older rest : List Nat} (h : Shape p blocks (older ++ rest)) {y : Nat}
    (hy : y ∈ blocks ++ (older ++ older.map p.largeData)) {x : Nat} (hx : x ∈ rest) :
    y ≠ x ∧ y ≠ p.largeData x := by
  have hdistinct := h.distinct
  rw [List.map_append] at hdistinct
  have hperm : (blocks ++ (older ++ rest ++ (older.map p.largeData ++ rest.map p.largeData))).Perm
      ((blocks ++ (older ++ older.map p.largeData)) ++ (rest ++ rest.map p.largeData)) := by
    refine List.perm_iff_count.mpr fun x => ?_
    simp only [List.count_append]
    omega
  have hdisjoint := List.disjoint_of_nodup_append (hperm.nodup_iff.mp hdistinct)
  constructor
  · rintro rfl
    exact hdisjoint hy (List.mem_append_left _ hx)
  · rintro rfl
    exact hdisjoint hy (List.mem_append_right _ (List.mem_map_of_mem hx))

/-- The loop at the end of a restore finds the end of the chain. -/
theorem Shape.lastFrom_eq (h : Shape p blocks larges) {b : Nat} (hb : b ∈ blocks) :
    p.lastFrom b = p.last := by
  obtain ⟨us, vs, rfl⟩ := List.append_of_mem hb
  have hlast := h.last
  have hrounds := h.length_le_rounds
  rw [List.getLast?_append_of_ne_nil _ (by simp)] at hlast
  rw [List.length_append] at hrounds
  rw [Pool.lastFrom, h.chain.at.walk_eq (le_trans (Nat.le_add_left _ us.length) hrounds), hlast]
  rfl

/-- The pool behind a restore. -/
structure Restored (p : Pool) (snapshot : Snapshot) (older post : List Nat) (p' : Pool) : Prop where
  current : p'.current = some (snapshot.current.getD snapshot.last)
  head : (p'.block (snapshot.current.getD snapshot.last)).head = snapshot.head
  empty : ∀ c ∈ post, (p'.block c).head = 0
  largeLast : p'.largeLast = snapshot.largeCurrent
  blockSize : p'.blockSize = p.blockSize
  snapshots : p'.snapshots = p.snapshots
  largeData : ∀ x ∈ older, p'.largeData x = p.largeData x
  dataLive : ∀ x ∈ older, ∀ size, ⟨p.largeData x, size⟩ ∈ p.memory.live →
    ⟨p.largeData x, size⟩ ∈ p'.memory.live

/-- **A restore keeps the chain and cuts the large blocks.** -/
theorem Shape.restore (h : Shape p blocks larges) {snapshot : Snapshot}
    {pre post older rest : List Nat}
    (hsplit : blocks = pre ++ snapshot.current.getD snapshot.last :: post)
    (hlast : snapshot.last ∈ blocks) (hlarges : larges = older ++ rest)
    (holder : older.getLast? = snapshot.largeCurrent) :
    Shape (p.cpoolRestore snapshot) blocks older ∧
      Restored p snapshot older post (p.cpoolRestore snapshot) := by
  subst hlarges
  obtain ⟨block, hblocks, hlinks, hhead, hempty⟩ := h.restoreBlocks_spec rfl hsplit
  have hlen : rest.length ≤ p.rounds := by
    refine le_trans ?_ h.large_length_le_rounds
    rw [List.length_append]
    omega
  obtain ⟨memory, large, largeRoot, hlarge, hchain, hdata, hlive⟩ :=
    restoreLarge_spec (p := p.restoreBlocks snapshot)
      (by rw [hblocks]; exact h.largeChain) (by rw [hblocks]; exact hlen) holder
  rw [hblocks] at hlarge hdata hlive
  have hkeep : ∀ r ∈ p.memory.live, r.addr ∈ blocks ++ (older ++ older.map p.largeData) →
      r ∈ memory.live := fun r hr haddr => hlive r hr fun x hx => h.ne_of_kept haddr hx
  have hmap : older.map (fun x => (large x).data) = older.map p.largeData :=
    List.map_congr_left fun x hx => hdata x hx
  have hshape : Shape
      { p with
        memory, block, large, largeRoot
        current := some (snapshot.current.getD snapshot.last)
        largeLast := snapshot.largeCurrent } blocks older := by
    refine ⟨h.chain.congr fun c _ => (hlinks c).1, h.last, fun c hc => ?_, fun c hc => ?_, hchain,
      holder, fun x hx => ?_, fun x hx => ?_, ?_⟩
    · exact hkeep _ (h.live c hc) (List.mem_append_left _ hc)
    · exact ((hlinks c).2).trans (h.data c hc)
    · exact hkeep _ (h.largeLive x (List.mem_append_left _ hx))
        (List.mem_append_right _ (List.mem_append_left _ hx))
    · obtain ⟨size, hsize⟩ := h.dataLive x (List.mem_append_left _ hx)
      refine ⟨size, ?_⟩
      show (⟨(large x).data, size⟩ : Region) ∈ memory.live
      rw [hdata x hx]
      exact hkeep _ hsize
        (List.mem_append_right _ (List.mem_append_right _ (List.mem_map_of_mem hx)))
    · show (blocks ++ (older ++ older.map fun x => (large x).data)).Nodup
      rw [hmap]
      refine h.distinct.sublist (List.Sublist.append_left ?_ _)
      rw [List.map_append]
      exact (List.sublist_append_left _ _).append (List.sublist_append_left _ _)
  have hfrom : Pool.lastFrom
      { p with
        memory, block, large, largeRoot
        current := some (snapshot.current.getD snapshot.last)
        last := snapshot.last
        largeLast := snapshot.largeCurrent } snapshot.last = p.last := hshape.lastFrom_eq hlast
  have heq : p.cpoolRestore snapshot =
      { p with
        memory, block, large, largeRoot
        current := some (snapshot.current.getD snapshot.last)
        largeLast := snapshot.largeCurrent } := by
    rw [Pool.cpoolRestore, hblocks, hlarge]
    dsimp only
    rw [hfrom]
  rw [heq]
  refine ⟨hshape, rfl, hhead, hempty, rfl, rfl, rfl, hdata, fun x hx size hsize => ?_⟩
  exact hkeep _ hsize (List.mem_append_right _ (List.mem_append_right _ (List.mem_map_of_mem hx)))

end Foxtails.Cpool
