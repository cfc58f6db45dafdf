/-
  How far a pool is used.

  A `Mark` is a block and a `head` in it. An allocation is `Under` a mark if it lies in an
  earlier block, in this one below `head`, or in a large block of a list. All that is in force
  is under the mark of the pool; and what was made before a snapshot is still under the mark
  that the snapshot would restore.

  * `Inv.move`: what every change of the pool has to keep.
  * `Inv.disjoint_behind`: nothing in force has an address behind the mark.
  * `Inv.take`: so the bytes that the end of `palloc` gives are new.
-/
import Foxtails.Cpool.Shape

namespace Foxtails.Cpool

open Foxtails.Lib.Chain Foxtails.Lib.Libc Foxtails.Lib.Malloc

/-! ## Marks -/

structure Mark where
  block : Nat
  head : Nat

/-- Where the next allocation goes, if it fits. -/
def Pool.mark (p : Pool) : Mark :=
  ⟨p.current.getD p.last, (p.block (p.current.getD p.last)).head⟩

/-- The mark a restore goes back to. -/
def Snapshot.mark (snapshot : Snapshot) : Mark :=
  ⟨snapshot.current.getD snapshot.last, snapshot.head⟩

/-- `a` lies before the mark, or in one of the large blocks. -/
inductive Under (p : Pool) (blocks larges : List Nat) (m : Mark) (a : Alloc) : Prop where
  | before (b : Nat) (hb : Behind blocks b m.block) (hin : a.Within (p.dataRegion b))
  | below (hin : a.Within (p.dataRegion m.block))
      (hhead : a.addr + a.size ≤ m.block + sizeofBlock + m.head)
  | large (lb : Nat) (hlb : lb ∈ larges) (hdata : p.largeData lb = a.addr)
      (hlive : a.toRegion ∈ p.memory.live)

/-- What a change of the pool keeps of the large blocks. -/
structure Keeps (p p' : Pool) (larges : List Nat) : Prop where
  blockSize : p'.blockSize = p.blockSize
  data : ∀ x ∈ larges, p'.largeData x = p.largeData x
  live : ∀ x ∈ larges, ∀ size, ⟨p.largeData x, size⟩ ∈ p.memory.live →
    ⟨p.largeData x, size⟩ ∈ p'.memory.live

variable {A : Allocator} {p p' : Pool} {blocks blocks' larges larges' : List Nat} {m m' : Mark}
  {a : Alloc}

theorem Keeps.subset (h : Keeps p p' larges) {older : List Nat} (hsub : older ⊆ larges) :
    Keeps p p' older :=
  ⟨h.blockSize, fun x hx => h.data x (hsub hx), fun x hx => h.live x (hsub hx)⟩

theorem Under.mono (h : Under p blocks larges m a) (hkeeps : Keeps p p' larges)
    (hblocks : blocks <+: blocks') (hlarges : larges ⊆ larges') :
    Under p' blocks' larges' m a := by
  have hregion : ∀ b, p'.dataRegion b = p.dataRegion b := fun b => by
    rw [Pool.dataRegion, Pool.dataRegion, hkeeps.blockSize]
  cases h with
  | before b hb hin => exact .before b (hb.mono hblocks) (by rw [hregion]; exact hin)
  | below hin hhead => exact .below (by rw [hregion]; exact hin) hhead
  | large lb hlb hdata hlive =>
    refine .large lb (hlarges hlb) ((hkeeps.data lb hlb).trans hdata) ?_
    have hkept := hkeeps.live lb hlb a.size
    rw [hdata] at hkept
    exact hkept hlive

/-- The mark moves on within its block. -/
theorem Under.raise (h : Under p blocks larges m a) (hblock : m'.block = m.block)
    (hhead : m.head ≤ m'.head) : Under p blocks larges m' a := by
  cases h with
  | before b hb hin => exact .before b (hblock ▸ hb) hin
  | below hin hend => exact .below (hblock ▸ hin) (by rw [hblock]; omega)
  | large lb hlb hdata hlive => exact .large lb hlb hdata hlive

/-- The mark moves on to a later block. -/
theorem Under.advance (h : Under p blocks larges m a) (hnodup : blocks.Nodup)
    (hbehind : Behind blocks m.block m'.block) : Under p blocks larges m' a := by
  cases h with
  | before b hb hin => exact .before b (hb.trans hnodup hbehind) hin
  | below hin _ => exact .before _ hbehind hin
  | large lb hlb hdata hlive => exact .large lb hlb hdata hlive

/-! ## Snapshots -/

/-- As far as the head of a block can go: `blockSize`, rounded up to the alignment of a block. -/
def Pool.limit (p : Pool) : Nat := (p.blockSize + (blockAlign - 1)) / blockAlign * blockAlign

/-- What the restore of a snapshot finds: its large blocks are `older`, its blocks are in the
    chain, and what was made behind at most `depth` snapshots is under its mark. -/
structure Saved (p : Pool) (blocks older : List Nat) (allocs : List Alloc) (depth : Nat)
    (snapshot : Snapshot) : Prop where
  largeCurrent : older.getLast? = snapshot.largeCurrent
  block : snapshot.mark.block ∈ blocks
  last : snapshot.last ∈ blocks
  limit : snapshot.head ≤ p.limit
  under : ∀ a ∈ allocs, a.depth ≤ depth → Under p blocks older snapshot.mark a

/-- All snapshots, the latest first: the large blocks of each are the first of the next. -/
def Saves (p : Pool) (blocks : List Nat) (allocs : List Alloc) :
    List Nat → List Snapshot → Prop
  | _, [] => True
  | larges, snapshot :: snapshots =>
    ∃ older, older <+: larges ∧ Saved p blocks older allocs snapshots.length snapshot ∧
      Saves p blocks allocs older snapshots

theorem Saves.mono {allocs allocs' : List Alloc} {snapshots : List Snapshot}
    (h : Saves p blocks allocs larges snapshots) (hkeeps : Keeps p p' larges)
    (hblocks : blocks <+: blocks') (hlarges : larges <+: larges')
    (hallocs : ∀ a ∈ allocs', a.depth < snapshots.length → a ∈ allocs) :
    Saves p' blocks' allocs' larges' snapshots := by
  induction snapshots generalizing larges larges' with
  | nil => trivial
  | cons snapshot snapshots ih =>
    obtain ⟨older, hprefix, hsaved, hsaves⟩ := h
    have hkeeps := hkeeps.subset hprefix.subset
    refine ⟨older, hprefix.trans hlarges, ⟨hsaved.largeCurrent, hblocks.subset hsaved.block,
      hblocks.subset hsaved.last, ?_, fun a ha hdepth => ?_⟩, ?_⟩
    · rw [Pool.limit, hkeeps.blockSize]
      exact hsaved.limit
    · have ha' := hallocs a ha (Nat.lt_succ_of_le hdepth)
      exact (hsaved.under a ha' hdepth).mono hkeeps hblocks (List.Subset.refl _)
    · exact ih hsaves hkeeps (List.prefix_refl _) fun a ha hdepth =>
        hallocs a ha (Nat.lt_succ_of_lt hdepth)

/-! ## The invariant -/

/-- The largest size of an object. -/
abbrev ptrdiffMax : Nat := 2 ^ 63 - 1

/-- The blocks behind the mark are empty. -/
structure Front (p : Pool) (blocks : List Nat) : Prop where
  mem : p.mark.block ∈ blocks
  empty : ∀ b, Behind blocks p.mark.block b → (p.block b).head = 0
  limit : p.mark.head ≤ p.limit

structure Inv (s : State) (blocks larges : List Nat) : Prop where
  fits : sizeofBlock + s.pool.blockSize ≤ ptrdiffMax
  shape : Shape s.pool blocks larges
  front : Front s.pool blocks
  under : ∀ a ∈ s.allocs, Under s.pool blocks larges s.pool.mark a
  depth : ∀ a ∈ s.allocs, a.depth ≤ s.pool.snapshots.length
  disjoint : s.allocs.Pairwise fun a a' => a.Disjoint a'.toRegion
  saves : Saves s.pool blocks s.allocs larges s.pool.snapshots

variable {s s' : State}

/-- **A change of the pool keeps the invariant** if it keeps the lists, adding at their ends,
    and moves the mark on. -/
theorem Inv.move (h : Inv s blocks larges) (hshape : Shape p' blocks' larges')
    (hfront : Front p' blocks') (hkeeps : Keeps s.pool p' larges) (hblocks : blocks <+: blocks')
    (hlarges : larges <+: larges') (hsnapshots : p'.snapshots = s.pool.snapshots)
    (hmark : ∀ a, Under p' blocks' larges' s.pool.mark a → Under p' blocks' larges' p'.mark a) :
    Inv { s with pool := p' } blocks' larges' := by
  refine ⟨?_, hshape, hfront, fun a ha => ?_, fun a ha => ?_, h.disjoint, ?_⟩
  · show sizeofBlock + p'.blockSize ≤ ptrdiffMax
    rw [hkeeps.blockSize]
    exact h.fits
  · exact hmark a ((h.under a ha).mono hkeeps hblocks hlarges.subset)
  · show a.depth ≤ p'.snapshots.length
    rw [hsnapshots]
    exact h.depth a ha
  · show Saves p' blocks' s.allocs larges' p'.snapshots
    rw [hsnapshots]
    exact h.saves.mono hkeeps hblocks hlarges fun a ha _ => ha

/-! ## Changes of the pool -/

theorem Pool.dataRegion_within (b : Nat) : (p.dataRegion b).Within (p.blockRegion b) :=
  ⟨Nat.le_add_right b sizeofBlock, le_of_eq (Nat.add_assoc ..)⟩

theorem Pool.blockSize_le_limit : p.blockSize ≤ p.limit := by
  simp only [Pool.limit, blockAlign]
  omega

theorem mark_of_some {b : Nat} (h : p.current = some b) : p.mark = ⟨b, (p.block b).head⟩ := by
  rw [Pool.mark, h]
  rfl

theorem Pool.take_eq {b size : Nat}
    (hsum : ((p.block b).head + size) % SIZE = (p.block b).head + size) :
    p.take b size =
      (let p' := p.setHead b ((p.block b).head + size) (p.block b).full
       if (p.block b).head + size = p.blockSize then
         { p'.setHead b ((p.block b).head + size) true with current := (p.block b).next }
       else p', (p.block b).data + (p.block b).head) := by
  simp only [Pool.take, hsum, Pool.setHead_self, Pool.setHead_blockSize]
  split_ifs <;> rfl

namespace Inv

variable (h : Inv s blocks larges)

include h

theorem withMemory {m : Memory} (hm : m.live = s.pool.memory.live) :
    Inv { s with pool := { s.pool with memory := m } } blocks larges := by
  have hkeeps : Keeps s.pool { s.pool with memory := m } larges :=
    ⟨rfl, fun _ _ => rfl, fun _ _ _ hlive => (by rw [hm]; exact hlive)⟩
  exact h.move (h.shape.withMemory hm) ⟨h.front.mem, h.front.empty, h.front.limit⟩ hkeeps
    (List.prefix_refl _) (List.prefix_refl _) rfl fun _ ha => ha

/-- A new block at the end of the chain is the current one. -/
theorem append {m : Memory} {b : Nat} (hm : m.live = s.pool.blockRegion b :: s.pool.memory.live)
    (hfresh : ∀ r ∈ s.pool.memory.live, (s.pool.blockRegion b).Apart r) :
    Inv { s with pool := s.pool.appended m b } (blocks ++ [b]) larges ∧
      ((s.pool.appended m b).block b).head = 0 := by
  have hnew := h.shape.fresh hfresh
  have hlast : s.pool.last ≠ b := by
    rintro rfl
    exact hnew (List.mem_append_left _ h.shape.last_mem)
  have hshape := h.shape.append hm hfresh
  have hempty : ((s.pool.appended m b).block b).head = 0 := by
    rw [Shape.appended_block hlast, Block.new_head]
  have hmark : (s.pool.appended m b).mark = ⟨b, 0⟩ := by
    rw [mark_of_some (b := b) rfl, hempty]
  refine ⟨h.move hshape ?_ ?_ (List.prefix_append _ _) (List.prefix_refl _) rfl fun a ha => ?_,
    hempty⟩
  · refine ⟨?_, fun c hc => ?_, ?_⟩
    · rw [hmark]
      exact List.mem_append_right _ (List.mem_singleton_self b)
    · rw [hmark] at hc
      cases (behind_iff hshape.nodup).mp hc
    · rw [hmark]
      exact Nat.zero_le _
  · refine ⟨rfl, fun _ _ => rfl, fun x _ size hlive => ?_⟩
    show _ ∈ m.live
    rw [hm]
    exact List.mem_cons_of_mem _ hlive
  · refine ha.advance hshape.nodup ?_
    rw [hmark]
    exact behind_concat h.front.mem b

/-- A new large block at the end of the list. -/
theorem appendLarge {m : Memory} {lb data size : Nat}
    (hm : m.live = ⟨data, size⟩ :: ⟨lb, sizeofLargeBlock⟩ :: s.pool.memory.live)
    (hlb : ∀ r ∈ s.pool.memory.live, Region.Apart ⟨lb, sizeofLargeBlock⟩ r)
    (hdata : ∀ r ∈ ⟨lb, sizeofLargeBlock⟩ :: s.pool.memory.live, Region.Apart ⟨data, size⟩ r) :
    Inv { s with pool := s.pool.appendedLarge m lb data } blocks (larges ++ [lb]) := by
  have hsame := Shape.sameBlocks_appendedLarge s.pool m lb data
  have hmark : (s.pool.appendedLarge m lb data).mark = s.pool.mark := by
    rw [Pool.mark, Pool.mark, hsame.current, hsame.last, hsame.block]
  refine h.move (h.shape.appendLarge hm hlb hdata) ?_ ?_ (List.prefix_refl _)
    (List.prefix_append _ _) hsame.snapshots fun a ha => hmark ▸ ha
  · refine ⟨by rw [hmark]; exact h.front.mem, fun b hb => ?_, ?_⟩
    · rw [hmark] at hb
      rw [hsame.block]
      exact h.front.empty b hb
    · rw [hmark, Pool.limit, hsame.blockSize]
      exact h.front.limit
  · refine ⟨hsame.blockSize, fun x hx => ?_, fun x hx n hlive => ?_⟩
    · refine (Shape.appendedLarge_of_ne ?_).1
      rintro rfl
      exact h.shape.fresh hlb (List.mem_append_right _ (List.mem_append_left _ hx))
    · show _ ∈ m.live
      rw [hm]
      exact List.mem_cons_of_mem _ (List.mem_cons_of_mem _ hlive)

/-- More of the current block is used. -/
theorem setHead {b head : Nat} (full : Bool) (hcurrent : s.pool.current = some b)
    (hle : (s.pool.block b).head ≤ head) (hlimit : head ≤ s.pool.limit) :
    Inv { s with pool := s.pool.setHead b head full } blocks larges := by
  have hshape : Shape (s.pool.setHead b head full) blocks larges := h.shape.setBlock rfl rfl
  have hold := mark_of_some hcurrent
  have hmark : (s.pool.setHead b head full).mark = ⟨b, head⟩ := by
    rw [mark_of_some (p := s.pool.setHead b head full) hcurrent, Pool.setHead_self]
  have hmem := h.front.mem
  have hempty := h.front.empty
  rw [hold] at hmem hempty
  refine h.move hshape ?_ ⟨rfl, fun _ _ => rfl, fun _ _ _ hlive => hlive⟩ (List.prefix_refl _)
    (List.prefix_refl _) rfl fun a ha => ?_
  · refine ⟨by rw [hmark]; exact hmem, fun c hc => ?_, by rw [hmark]; exact hlimit⟩
    rw [hmark] at hc
    have hne : c ≠ b := (hc.ne hshape.nodup).symm
    rw [Pool.setHead, Pool.setBlock_of_ne _ hne]
    exact hempty c hc
  · refine ha.raise ?_ ?_
    · rw [hmark, hold]
    · rw [hmark, hold]
      exact hle

/-- The next block, or NULL, is the current one. -/
theorem next {b : Nat} (hcurrent : s.pool.current = some b) :
    Inv { s with pool := { s.pool with current := (s.pool.block b).next } } blocks larges := by
  have hold := mark_of_some hcurrent
  have hmem := h.front.mem
  have hempty := h.front.empty
  rw [hold] at hmem hempty
  generalize hc : (s.pool.block b).next = current
  have hshape : Shape { s.pool with current } blocks larges := { h.shape with }
  have hkeeps : Keeps s.pool { s.pool with current } larges :=
    ⟨rfl, fun _ _ => rfl, fun _ _ _ hlive => hlive⟩
  cases current with
  | none =>
    -- `b` is the last block, and stays the one of the mark
    have hlast := h.shape.chain.getLast_of_next_none hmem hc
    have hb : s.pool.last = b := Option.some.inj (h.shape.last.symm.trans hlast)
    have hmark : ({ s.pool with current := none } : Pool).mark = s.pool.mark := by
      rw [hold, Pool.mark, Option.getD_none, hb]
    refine h.move hshape ⟨?_, ?_, ?_⟩ hkeeps (List.prefix_refl _) (List.prefix_refl _) rfl
      fun a ha => hmark ▸ ha
    · rw [hmark]
      exact h.front.mem
    · rw [hmark]
      exact h.front.empty
    · rw [hmark]
      exact h.front.limit
  | some c =>
    have hbehind : Behind blocks b c := h.shape.chain.behind_next hmem hc
    have hmark : ({ s.pool with current := some c } : Pool).mark = ⟨c, 0⟩ := by
      rw [mark_of_some (b := c) rfl]
      exact congrArg (Mark.mk c) (hempty c hbehind)
    refine h.move hshape ⟨?_, fun x hx => ?_, ?_⟩ hkeeps (List.prefix_refl _) (List.prefix_refl _)
      rfl fun a ha => ?_
    · rw [hmark]
      exact hbehind.subset (List.mem_cons_of_mem _ List.mem_cons_self)
    · rw [hmark] at hx
      exact hempty x (hbehind.trans h.shape.nodup hx)
    · rw [hmark]
      exact Nat.zero_le _
    · refine ha.advance h.shape.nodup ?_
      rw [hmark, hold]
      exact hbehind

/-! ## Allocations -/

/-- What is in force lies in memory in use. -/
theorem exists_live (ha : a ∈ s.allocs) : ∃ r ∈ s.pool.memory.live, a.Within r := by
  cases h.under a ha with
  | before b hb hin =>
    exact ⟨_, h.shape.live b (hb.subset List.mem_cons_self), hin.trans (Pool.dataRegion_within b)⟩
  | below hin =>
    exact ⟨_, h.shape.live _ h.front.mem, hin.trans (Pool.dataRegion_within _)⟩
  | large lb hlb hdata hlive => exact ⟨_, hlive, le_refl _, le_refl _⟩

/-- Nothing in force has an address behind the mark. -/
theorem disjoint_behind {b : Nat} (hcurrent : s.pool.current = some b) {r : Region}
    (hin : r.Within (s.pool.dataRegion b))
    (hfrom : b + sizeofBlock + (s.pool.block b).head ≤ r.addr) (ha : a ∈ s.allocs) :
    r.Disjoint a.toRegion := by
  have hmark := mark_of_some hcurrent
  have hmem := h.front.mem
  have hunder := h.under a ha
  rw [hmark] at hmem hunder
  have hblock := h.shape.live b hmem
  have hin' : r.Within (s.pool.blockRegion b) := hin.trans (Pool.dataRegion_within b)
  cases hunder with
  | before c hc hinc =>
    have hlive := h.shape.live c (hc.subset List.mem_cons_self)
    have hne : b ≠ c := (hc.ne h.shape.nodup).symm
    exact (Memory.disjoint_of_live hblock hlive hne).mono hin'
      (hinc.trans (Pool.dataRegion_within c))
  | below _ hhead => exact .inr (le_trans hhead hfrom)
  | large lb hlb hdata hlive =>
    have hne : b ≠ a.addr := hdata ▸ h.shape.block_ne_data hmem hlb
    exact (Memory.disjoint_of_live hblock hlive hne).mono hin' ⟨le_refl _, le_refl _⟩

/-- A new allocation under the mark, apart from the others. -/
theorem record {r : Region}
    (hunder : Under s.pool blocks larges s.pool.mark ⟨r, s.pool.snapshots.length⟩)
    (hdisjoint : ∀ a ∈ s.allocs, r.Disjoint a.toRegion) :
    Inv { s with allocs := ⟨r, s.pool.snapshots.length⟩ :: s.allocs } blocks larges := by
  refine ⟨h.fits, h.shape, h.front, fun a ha => ?_, fun a ha => ?_,
    List.pairwise_cons.mpr ⟨hdisjoint, h.disjoint⟩, ?_⟩
  · rcases List.mem_cons.mp ha with rfl | ha
    · exact hunder
    · exact h.under a ha
  · rcases List.mem_cons.mp ha with rfl | ha
    · exact le_refl _
    · exact h.depth a ha
  · have hkeeps : Keeps s.pool s.pool larges := ⟨rfl, fun _ _ => rfl, fun _ _ _ hlive => hlive⟩
    refine h.saves.mono hkeeps (List.prefix_refl _) (List.prefix_refl _) fun a ha hdepth => ?_
    rcases List.mem_cons.mp ha with rfl | ha
    · exact absurd hdepth (lt_irrefl _)
    · exact ha

/-- The end of `palloc`. -/
theorem take {b size : Nat} (hcurrent : s.pool.current = some b)
    (hfits : (s.pool.block b).head + size ≤ s.pool.blockSize) :
    Inv (s.allocated size ((s.pool.take b size).1, some (s.pool.take b size).2)) blocks larges := by
  have hfits' := h.fits
  have hmark := mark_of_some hcurrent
  have hmem := h.front.mem
  rw [hmark] at hmem
  have hsum : ((s.pool.block b).head + size) % SIZE = (s.pool.block b).head + size :=
    Nat.mod_eq_of_lt (by simp only [ptrdiffMax, SIZE] at hfits' ⊢; omega)
  have hdata := h.shape.data b hmem
  -- the head goes up, ...
  have h₁ := h.setHead (s.pool.block b).full hcurrent (Nat.le_add_right _ size)
    (le_trans hfits Pool.blockSize_le_limit)
  -- ... the bytes below it are in force, ...
  have hin : Region.Within ⟨(s.pool.block b).data + (s.pool.block b).head, size⟩
      (s.pool.dataRegion b) := by
    unfold Region.Within Pool.dataRegion
    rw [hdata]
    constructor <;> dsimp only <;> omega
  have hdisjoint : ∀ a ∈ s.allocs,
      Region.Disjoint ⟨(s.pool.block b).data + (s.pool.block b).head, size⟩ a.toRegion :=
    fun a ha => h.disjoint_behind hcurrent hin (le_of_eq (by rw [hdata])) ha
  have hmark₁ := mark_of_some
    (p := s.pool.setHead b ((s.pool.block b).head + size) (s.pool.block b).full) hcurrent
  rw [Pool.setHead_self] at hmark₁
  have hunder : Under (s.pool.setHead b ((s.pool.block b).head + size) (s.pool.block b).full)
      blocks larges ⟨b, (s.pool.block b).head + size⟩
      ⟨⟨(s.pool.block b).data + (s.pool.block b).head, size⟩, s.pool.snapshots.length⟩ :=
    .below hin (by dsimp only; rw [hdata]; omega)
  have h₂ := h₁.record (hmark₁ ▸ hunder) hdisjoint
  -- ... and a full block is left.
  rw [Pool.take_eq hsum]
  split_ifs with hfull
  · have h₃ := h₂.setHead true hcurrent (by rw [Pool.setHead_self])
      (le_of_eq_of_le hfull Pool.blockSize_le_limit)
    have h₄ := h₃.next hcurrent
    rw [Pool.setHead_self, Pool.setHead_self] at h₄
    exact h₄
  · exact h₂

end Inv

end Foxtails.Cpool
