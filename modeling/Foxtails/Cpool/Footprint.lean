/-
  How much memory a pool takes.

  Model (read this before the theorems). The blocks of a pool are filled by next-fit: `Lib.NextFit`
  says where the next allocation goes, from the sizes of the allocations in force alone. A guard
  `Modest B` on a run keeps those of them that go into blocks at `B` bytes in all. There is no
  `cpool_align` in these runs, as there is none between the save and the restore of a worker: it
  leaves a full block for one at the end of the chain, whatever stands between.

  * `Packed`: the mark of the pool, and that of every snapshot, is where next-fit is behind the
    allocations made before it; there is a large block for each allocation too large for a block.
  * `packed_step`: every call keeps this.
  * `footprint`: so the blocks are as many as `B` bytes need, at most half empty, however often
    the pool was saved and restored before, and nothing else grows.
-/
import Foxtails.Lib.NextFit
import Foxtails.Cpool.Release

namespace Foxtails.Cpool

open Foxtails.Lib.Chain Foxtails.Lib.Libc Foxtails.Lib.Malloc Foxtails.Lib.NextFit Foxtails.Lib.Run

/-! ## Sizes -/

/-- What goes into blocks, the oldest first. -/
def sizesIn (cap : Nat) (allocs : List Alloc) : List Nat :=
  ((allocs.filter fun a => a.size ≤ cap).map fun a => a.size).reverse

/-- The number of allocations that have a large block. -/
def largeCount (cap : Nat) (allocs : List Alloc) : Nat :=
  (allocs.filter fun a => cap < a.size).length

/-- What was made behind at most `depth` snapshots. -/
def upTo (depth : Nat) (allocs : List Alloc) : List Alloc :=
  allocs.filter fun a => a.depth ≤ depth

variable {cap : Nat} {allocs allocs' : List Alloc} {a : Alloc}

theorem sizesIn_cons_of_le (h : a.size ≤ cap) :
    sizesIn cap (a :: allocs) = sizesIn cap allocs ++ [a.size] := by
  simp [sizesIn, h]

theorem sizesIn_cons_of_lt (h : cap < a.size) : sizesIn cap (a :: allocs) = sizesIn cap allocs := by
  simp [sizesIn, h]

theorem largeCount_cons_of_le (h : a.size ≤ cap) :
    largeCount cap (a :: allocs) = largeCount cap allocs := by
  simp [largeCount, h]

theorem largeCount_cons_of_lt (h : cap < a.size) :
    largeCount cap (a :: allocs) = largeCount cap allocs + 1 := by
  simp [largeCount, h]

theorem upTo_upTo {depth depth' : Nat} (h : depth ≤ depth') (allocs : List Alloc) :
    upTo depth (upTo depth' allocs) = upTo depth allocs := by
  unfold upTo
  rw [List.filter_filter]
  apply List.filter_congr
  intro a _
  simp only [Bool.and_eq_left_iff_imp, decide_eq_true_eq]
  exact fun ha => ha.trans h

theorem upTo_cons {depth : Nat} (h : depth < a.depth) : upTo depth (a :: allocs) = upTo depth allocs :=
  List.filter_cons_of_neg (by simpa using h)

theorem upTo_eq_self {depth : Nat} (h : ∀ a ∈ allocs, a.depth ≤ depth) : upTo depth allocs = allocs :=
  List.filter_eq_self.mpr fun a ha => decide_eq_true (h a ha)

/-! ## Marks and positions -/

/-- The mark is at the position, or in the empty block behind it where that one is full. -/
def AtPosition (cap : Nat) (blocks : List Nat) (m : Mark) (pos : Position) : Prop :=
  ∃ i : Nat, blocks[i]? = some m.block ∧
    ((pos.bin = i ∧ pos.fill = m.head) ∨ (pos.bin + 1 = i ∧ pos.fill = cap ∧ m.head = 0))

/-- An allocation of `size` bytes at the mark is where next-fit puts it. -/
def Takes (cap : Nat) (blocks : List Nat) (m : Mark) (pos : Position) (size : Nat) : Prop :=
  ∃ i : Nat, blocks[i]? = some m.block ∧ pos.add cap size = ⟨i, m.head + size⟩

variable {blocks blocks' larges larges' : List Nat} {m : Mark} {pos : Position} {size : Nat}

theorem getElem?_of_prefix {i x : Nat} (h : blocks <+: blocks') (hx : blocks[i]? = some x) :
    blocks'[i]? = some x := by
  obtain ⟨rest, rfl⟩ := h
  rw [List.getElem?_append_left (List.getElem?_eq_some_iff.mp hx).1]
  exact hx

theorem AtPosition.mono (h : AtPosition cap blocks m pos) (hblocks : blocks <+: blocks') :
    AtPosition cap blocks' m pos := by
  obtain ⟨i, hi, hpos⟩ := h
  exact ⟨i, getElem?_of_prefix hblocks hi, hpos⟩

/-- There is room behind the mark. -/
theorem AtPosition.takes (h : AtPosition cap blocks m pos) (hpos : 0 < size)
    (hfits : m.head + size ≤ cap) : Takes cap blocks m pos size := by
  obtain ⟨i, hi, ⟨hbin, hfill⟩ | ⟨hbin, hfill, hhead⟩⟩ := h
  · refine ⟨i, hi, ?_⟩
    rw [Position.add_of_le (by omega), hbin, hfill]
  · refine ⟨i, hi, ?_⟩
    rw [Position.add_of_lt (by omega), hbin, hhead, Nat.zero_add]

/-- There is none, and the allocation is the first of the next block. -/
theorem AtPosition.takes_next (h : AtPosition cap blocks m pos)
    (hsize : size ≤ cap) (hfull : cap < m.head + size) {b : Nat}
    (hnext : ∀ i : Nat, blocks[i]? = some m.block → blocks'[i + 1]? = some b) :
    Takes cap blocks' ⟨b, 0⟩ pos size := by
  obtain ⟨i, hi, ⟨hbin, hfill⟩ | ⟨-, -, hhead⟩⟩ := h
  · refine ⟨i + 1, hnext i hi, ?_⟩
    rw [Position.add_of_lt (by omega), hbin, Nat.zero_add]
  · omega

/-! ## The invariant -/

/-- What a snapshot has is what there was before it. -/
def PackedSaves (cap : Nat) (blocks : List Nat) (allocs : List Alloc) :
    List Nat → List Snapshot → Prop
  | _, [] => True
  | larges, snapshot :: snapshots =>
    ∃ older, older <+: larges ∧ older.getLast? = snapshot.largeCurrent ∧
      older.length = largeCount cap (upTo snapshots.length allocs) ∧
      AtPosition cap blocks snapshot.mark
        (nextFit cap (sizesIn cap (upTo snapshots.length allocs))) ∧
      PackedSaves cap blocks allocs older snapshots

theorem PackedSaves.mono {snapshots : List Snapshot}
    (h : PackedSaves cap blocks allocs larges snapshots) (hblocks : blocks <+: blocks')
    (hlarges : larges <+: larges')
    (hallocs : ∀ depth < snapshots.length, upTo depth allocs' = upTo depth allocs) :
    PackedSaves cap blocks' allocs' larges' snapshots := by
  induction snapshots generalizing larges larges' with
  | nil => trivial
  | cons snapshot snapshots ih =>
    obtain ⟨older, hprefix, hlast, hcount, hmark, hsaves⟩ := h
    have hsame := hallocs snapshots.length (Nat.lt_succ_self _)
    refine ⟨older, hprefix.trans hlarges, hlast, by rw [hsame]; exact hcount, ?_, ?_⟩
    · rw [hsame]
      exact hmark.mono hblocks
    · exact ih hsaves (List.prefix_refl _) fun depth hdepth =>
        hallocs depth (Nat.lt_succ_of_lt hdepth)

/-- **The pool is packed**: everything is where next-fit puts it. -/
structure Packed (cap B : Nat) (s : State) (blocks larges : List Nat) : Prop where
  blockSize : s.pool.blockSize = cap
  mark : AtPosition cap blocks s.pool.mark (nextFit cap (sizesIn cap s.allocs))
  full : s.pool.current = none → s.pool.mark.head = cap
  count : larges.length = largeCount cap s.allocs
  saves : PackedSaves cap blocks s.allocs larges s.pool.snapshots
  length : blocks.length ≤ 2 * B / cap + 1

variable {A : Allocator} {p p' : Pool} {s s' : State} {B b : Nat}

theorem mark_of_none (h : p.current = none) : p.mark = ⟨p.last, (p.block p.last).head⟩ := by
  rw [Pool.mark, h]
  rfl

namespace Packed

variable (h : Packed cap B s blocks larges)

include h

/-- The allocations and the blocks are as before. -/
theorem same (hblockSize : p'.blockSize = s.pool.blockSize) (hmark : p'.mark = s.pool.mark)
    (hcurrent : p'.current = s.pool.current) (hsnapshots : p'.snapshots = s.pool.snapshots) :
    Packed cap B { s with pool := p' } blocks larges := by
  refine ⟨hblockSize.trans h.blockSize, ?_, ?_, h.count, ?_, h.length⟩
  · dsimp only
    rw [hmark]
    exact h.mark
  · dsimp only
    rw [hmark, hcurrent]
    exact h.full
  · dsimp only
    rw [hsnapshots]
    exact h.saves

/-- A new large block. -/
theorem appendLarge {m : Memory} {lb data : Nat} (hsize : cap < size) :
    Packed cap B (s.allocated size (s.pool.appendedLarge m lb data, some data)) blocks
      (larges ++ [lb]) := by
  have hsame := Shape.sameBlocks_appendedLarge s.pool m lb data
  have hmark : (s.pool.appendedLarge m lb data).mark = s.pool.mark := by
    rw [Pool.mark, Pool.mark, hsame.current, hsame.last, hsame.block]
  have h' := h.same hsame.blockSize hmark hsame.current hsame.snapshots
  refine ⟨h'.blockSize, ?_, h'.full, ?_, ?_, h'.length⟩
  · show AtPosition cap blocks _ (nextFit cap (sizesIn cap (_ :: s.allocs)))
    rw [sizesIn_cons_of_lt hsize]
    exact h'.mark
  · show _ = largeCount cap (_ :: s.allocs)
    rw [largeCount_cons_of_lt hsize, List.length_append, List.length_singleton]
    exact congrArg Nat.succ h'.count
  · refine h'.saves.mono (List.prefix_refl _) (List.prefix_append _ _) fun depth hdepth => ?_
    refine upTo_cons (lt_of_lt_of_le hdepth (le_of_eq ?_))
    exact congrArg List.length hsame.snapshots

end Packed

/-! ## Allocations -/

/-- What `palloc` finds where it can take `size` bytes from `b`. -/
structure Chosen (cap : Nat) (s : State) (blocks larges : List Nat) (size : Nat) (p' : Pool) (b : Nat)
    (blocks' : List Nat) : Prop where
  inv : Inv { s with pool := p' } blocks' larges
  blockSize : p'.blockSize = cap
  snapshots : p'.snapshots = s.pool.snapshots
  current : p'.current = some b
  room : p'.mark.head + size ≤ cap
  takes : Takes cap blocks' p'.mark (nextFit cap (sizesIn cap s.allocs)) size
  grows : blocks <+: blocks'
  length : blocks' = blocks ∨
    blocks'.length = 1 + (nextFit cap (sizesIn cap s.allocs ++ [size])).bin

/-- `__append_block` at the end of the chain. -/
theorem appendBlock_chosen (h : Inv s blocks larges) (hpacked : Packed cap B s blocks larges)
    (A : Allocator) (hsize : size ≤ cap) (hlast : s.pool.mark.block = s.pool.last)
    (hfull : cap < s.pool.mark.head + size) :
    (∃ m, m.live = s.pool.memory.live ∧
      s.pool.appendBlock A = ({ s.pool with memory := m }, none)) ∨
      ∃ p' b blocks', s.pool.appendBlock A = (p', some b) ∧
        Chosen cap s blocks larges size p' b blocks' := by
  refine (h.shape.appendBlock_cases A h.size_lt).imp id ?_
  intro ⟨m, b, hm, hfresh, heq⟩
  obtain ⟨hinv, hempty⟩ := h.append hm hfresh
  have hmark : (s.pool.appended m b).mark = ⟨b, 0⟩ := by
    rw [mark_of_some (b := b) rfl, hempty]
  -- the mark is in the last block, so the new one is next
  have hindex : ∀ i : Nat, blocks[i]? = some s.pool.mark.block → i + 1 = blocks.length := by
    intro i hi
    have hend := h.shape.last
    rw [List.getLast?_eq_getElem?, ← hlast] at hend
    have hlt := (List.getElem?_eq_some_iff.mp hi).1
    have hi := (List.getElem?_inj hlt h.shape.nodup).mp (hi.trans hend.symm)
    omega
  have htakes :
      Takes cap (blocks ++ [b]) ⟨b, 0⟩ (nextFit cap (sizesIn cap s.allocs)) size :=
    hpacked.mark.takes_next hsize hfull fun i hi => by
      rw [hindex i hi]
      exact List.getElem?_concat_length
  refine ⟨_, b, _, heq, hinv, hpacked.blockSize, rfl, rfl, ?_, by rw [hmark]; exact htakes,
    List.prefix_append _ _, .inr ?_⟩
  · rw [hmark, Nat.zero_add]
    exact hsize
  · obtain ⟨i, hi, hadd⟩ := htakes
    have hlt := (List.getElem?_eq_some_iff.mp hi).1
    have hi := (List.getElem?_inj hlt hinv.shape.nodup).mp
      (hi.trans List.getElem?_concat_length.symm)
    rw [nextFit_concat, hadd, List.length_append, List.length_singleton, hi, Nat.add_comm]

/-- The block `palloc` chooses, or NULL and nothing has changed. -/
theorem blockFor_chosen (h : Inv s blocks larges) (hpacked : Packed cap B s blocks larges)
    (A : Allocator) (hpos : 0 < size) (hsize : size ≤ cap) :
    (∃ m, m.live = s.pool.memory.live ∧
      s.pool.blockFor A size = ({ s.pool with memory := m }, none)) ∨
      ∃ p' b blocks', s.pool.blockFor A size = (p', some b) ∧
        Chosen cap s blocks larges size p' b blocks' := by
  have hcap := hpacked.blockSize
  unfold Pool.blockFor
  cases hcurrent : s.pool.current with
  | none =>
    have hfull := hpacked.full hcurrent
    have hlast := congrArg Mark.block (mark_of_none hcurrent)
    exact appendBlock_chosen h hpacked A hsize hlast (by omega)
  | some b =>
    have hmark := mark_of_some hcurrent
    have hmem := h.front.mem
    have hempty := h.front.empty
    have hlimit := h.front.limit
    rw [hmark] at hmem hempty hlimit
    have hlt : (s.pool.block b).head + size < SIZE := by
      have hfits := h.fits
      simp only [Pool.limit, blockAlign, ptrdiffMax, SIZE] at hfits hlimit ⊢
      omega
    dsimp only
    rw [Nat.mod_eq_of_lt hlt]
    split_ifs with hroom
    · have hfull : cap < s.pool.mark.head + size := by
        rw [hmark, ← hcap]
        exact hroom
      cases hnext : (s.pool.block b).next with
      | none =>
        have hlast := h.shape.chain.getLast_of_next_none hmem hnext
        refine appendBlock_chosen h hpacked A hsize ?_ hfull
        rw [hmark]
        exact Option.some.inj (hlast.symm.trans h.shape.last)
      | some c =>
        have hinv := h.next hcurrent
        rw [hnext] at hinv
        have hc : (s.pool.block c).head = 0 := hempty c (h.shape.chain.behind_next hmem hnext)
        have hmark' : ({ s.pool with current := some c } : Pool).mark = ⟨c, 0⟩ := by
          rw [mark_of_some (b := c) rfl]
          exact congrArg (Mark.mk c) hc
        refine .inr ⟨_, c, blocks, rfl, hinv, hcap, rfl, rfl, ?_, ?_, List.prefix_refl _, .inl rfl⟩
        · rw [hmark', Nat.zero_add]
          exact hsize
        · rw [hmark']
          refine hpacked.mark.takes_next hsize hfull fun i hi => ?_
          rw [hmark] at hi
          exact (h.shape.chain.next_getElem hi).symm.trans hnext
    · have hfits : s.pool.mark.head + size ≤ cap := by
        rw [hmark, ← hcap]
        exact not_lt.mp hroom
      exact .inr ⟨_, b, blocks, rfl, h, hcap, rfl, hcurrent, hfits, hpacked.mark.takes hpos hfits,
        List.prefix_refl _, .inl rfl⟩

/-- The end of `palloc`: the mark is where next-fit is behind the allocation. -/
theorem take_mark (h : Inv s blocks larges) (hcap : s.pool.blockSize = cap)
    (hcurrent : s.pool.current = some b) (hroom : s.pool.mark.head + size ≤ cap)
    (htakes : Takes cap blocks s.pool.mark pos size) :
    AtPosition cap blocks (s.pool.take b size).1.mark (pos.add cap size) ∧
      ((s.pool.take b size).1.current = none → (s.pool.take b size).1.mark.head = cap) := by
  have hmark := mark_of_some hcurrent
  have hmem := h.front.mem
  have hempty := h.front.empty
  rw [hmark] at hmem hempty hroom htakes
  obtain ⟨i, hi, hadd⟩ := htakes
  have hsum : ((s.pool.block b).head + size) % SIZE = (s.pool.block b).head + size :=
    Nat.mod_eq_of_lt (by
      have hfits := h.fits
      simp only [ptrdiffMax, SIZE] at hfits hroom ⊢
      omega)
  rw [hadd, Pool.take_eq hsum, hcap]
  dsimp only at hroom hi ⊢
  split_ifs with hfull
  · cases hnext : (s.pool.block b).next with
    | none =>
      have hlast := h.shape.chain.getLast_of_next_none hmem hnext
      obtain rfl : s.pool.last = b := Option.some.inj (h.shape.last.symm.trans hlast)
      have hhead : (s.pool.block s.pool.last).head + size = cap := hfull
      rw [mark_of_none rfl]
      simp only [Pool.setHead, Pool.setBlock]
      exact ⟨⟨i, hi, .inl ⟨rfl, by simp⟩⟩, fun _ => by simpa using hhead⟩
    | some c =>
      have hbehind : Behind blocks b c := h.shape.chain.behind_next hmem hnext
      have hne : c ≠ b := (hbehind.ne h.shape.nodup).symm
      rw [mark_of_some rfl]
      refine ⟨⟨i + 1, (h.shape.chain.next_getElem hi).symm.trans hnext, .inr ⟨rfl, hfull, ?_⟩⟩,
        fun hnone => by cases hnone⟩
      simp only [Pool.setHead, Pool.setBlock, Function.update_of_ne hne]
      exact hempty c hbehind
  · have hmark' := mark_of_some
      (p := s.pool.setHead b ((s.pool.block b).head + size) (s.pool.block b).full) hcurrent
    rw [hmark', Pool.setHead_self]
    refine ⟨⟨i, hi, .inl ⟨rfl, rfl⟩⟩, fun hnone => ?_⟩
    exact absurd (hcurrent.symm.trans hnone) (by simp)

/-! ## Calls -/

/-- The pool is packed in the lists it has. -/
def PackedIn (cap B : Nat) (s : State) : Prop :=
  ∃ blocks larges, Shape s.pool blocks larges ∧ Packed cap B s blocks larges

theorem take_same (p : Pool) (b size : Nat) :
    (p.take b size).1.blockSize = p.blockSize ∧ (p.take b size).1.snapshots = p.snapshots := by
  unfold Pool.take
  dsimp only
  split_ifs <;> exact ⟨rfl, rfl⟩

theorem Chosen.take (hpacked : Packed cap B s blocks larges) (hpos : 0 < size) (hsize : size ≤ cap)
    (hB : (sizesIn cap s.allocs).sum + size ≤ B)
    (hchosen : Chosen cap s blocks larges size p' b blocks') :
    PackedIn cap B (s.allocated size ((p'.take b size).1, some (p'.take b size).2)) := by
  obtain ⟨hblockSize, hsnapshots⟩ := take_same p' b size
  have hfits : (p'.block b).head + size ≤ p'.blockSize := by
    have hroom := hchosen.room
    rw [mark_of_some hchosen.current] at hroom
    exact le_of_le_of_eq hroom hchosen.blockSize.symm
  have hshape := (hchosen.inv.take hchosen.current hfits).shape
  obtain ⟨hmark, hfull⟩ :=
    take_mark hchosen.inv hchosen.blockSize hchosen.current hchosen.room hchosen.takes
  refine ⟨blocks', larges, hshape, hblockSize.trans hchosen.blockSize, ?_, hfull, ?_, ?_, ?_⟩
  · show AtPosition cap blocks' _ (nextFit cap (sizesIn cap (_ :: s.allocs)))
    rw [sizesIn_cons_of_le hsize, nextFit_concat]
    exact hmark
  · show larges.length = largeCount cap (_ :: s.allocs)
    rw [largeCount_cons_of_le hsize]
    exact hpacked.count
  · show PackedSaves cap blocks' (_ :: s.allocs) larges (p'.take b size).1.snapshots
    rw [hsnapshots, hchosen.snapshots]
    exact hpacked.saves.mono hchosen.grows (List.prefix_refl _) fun depth hdepth => upTo_cons hdepth
  · rcases hchosen.length with heq | hlength
    · rw [heq]
      exact hpacked.length
    · have hbin := nextFit_bin_le (hpos.trans_le hsize) (sizesIn cap s.allocs ++ [size])
      rw [List.sum_append, List.sum_singleton] at hbin
      have hle := Nat.div_le_div_right (c := cap) (Nat.mul_le_mul_left 2 hB)
      omega

theorem packed_palloc (h : Inv s blocks larges) (hpacked : Packed cap B s blocks larges)
    (A : Allocator) (hpos : 0 < size)
    (hB : size ≤ cap → (sizesIn cap s.allocs).sum + size ≤ B) :
    PackedIn cap B (s.allocated size (s.pool.palloc A size)) := by
  unfold Pool.palloc
  rw [hpacked.blockSize]
  split_ifs with hlarge
  · rcases h.shape.allocLargeBlock_cases A size with
      ⟨m, hm, heq⟩ | ⟨m, lb, data, hm, hlb, hdata, heq⟩
    · rw [heq]
      exact ⟨blocks, larges, h.shape.withMemory hm, hpacked.same rfl rfl rfl rfl⟩
    · rw [heq]
      exact ⟨blocks, larges ++ [lb], h.shape.appendLarge hm hlb hdata, hpacked.appendLarge hlarge⟩
  · have hsize := not_lt.mp hlarge
    rcases blockFor_chosen h hpacked A hpos hsize with ⟨m, hm, heq⟩ | ⟨p', b, blocks', heq, hchosen⟩
    · rw [heq]
      exact ⟨blocks, larges, h.shape.withMemory hm, hpacked.same rfl rfl rfl rfl⟩
    · rw [heq]
      exact hchosen.take hpacked hpos hsize (hB hsize)

theorem packed_pcalloc (h : Inv s blocks larges) (hpacked : Packed cap B s blocks larges)
    (A : Allocator) {num : Nat} (hnum : 0 < num) (hpos : 0 < size)
    (hB : size * num ≤ cap → (sizesIn cap s.allocs).sum + size * num ≤ B) :
    PackedIn cap B (s.allocated (size * num) (s.pool.pcalloc A num size)) := by
  unfold Pool.pcalloc
  split_ifs with hover
  · exact ⟨blocks, larges, h.shape, hpacked⟩
  · have hle : size ≤ (SIZE - 1) / num := by
      by_contra hlt
      exact hover ⟨hnum.ne', not_le.mp hlt⟩
    have hproduct : size * num < SIZE := by
      have hle := (Nat.le_div_iff_mul_le hnum).mp hle
      simp only [SIZE] at hle ⊢
      omega
    rw [Nat.mod_eq_of_lt hproduct]
    exact packed_palloc h hpacked A (Nat.mul_pos hpos hnum) hB

theorem packed_save (h : Inv s blocks larges) (hpacked : Packed cap B s blocks larges) :
    Packed cap B { s with pool := s.pool.cpoolSave } blocks larges := by
  have hall := upTo_eq_self h.depth
  refine ⟨hpacked.blockSize, hpacked.mark, hpacked.full, hpacked.count,
    ⟨larges, List.prefix_refl _, h.shape.largeLast, ?_, ?_, hpacked.saves⟩, hpacked.length⟩
  · rw [hall]
    exact hpacked.count
  · rw [hall]
    exact hpacked.mark

theorem packed_restore (h : Inv s blocks larges) (hpacked : Packed cap B s blocks larges)
    {snapshot : Snapshot} {snapshots : List Snapshot}
    (hsnapshots : s.pool.snapshots = snapshot :: snapshots) :
    PackedIn cap B { pool := { s.pool with snapshots }.cpoolRestore snapshot
                     allocs := upTo snapshots.length s.allocs } := by
  have hsaves := h.saves
  have hpackedSaves := hpacked.saves
  rw [hsnapshots] at hsaves hpackedSaves
  obtain ⟨_, -, hsaved, -⟩ := hsaves
  obtain ⟨older, ⟨rest, hlarges⟩, hlast, hcount, hmark, hpackedSaves⟩ := hpackedSaves
  obtain ⟨pre, post, hsplit⟩ := List.append_of_mem hsaved.block
  have hshape : Shape { s.pool with snapshots } blocks larges := { h.shape with }
  obtain ⟨hshape', hrestored⟩ := hshape.restore hsplit hsaved.last hlarges.symm hlast
  have hmark' : ({ s.pool with snapshots }.cpoolRestore snapshot).mark = snapshot.mark := by
    rw [mark_of_some hrestored.current, hrestored.head]
    rfl
  refine ⟨blocks, older, hshape', hrestored.blockSize.trans hpacked.blockSize, ?_, fun hnone => ?_,
    hcount, ?_, hpacked.length⟩
  · dsimp only
    rw [hmark']
    exact hmark
  · exact absurd (hrestored.current.symm.trans hnone) (by simp)
  · have hsame := hrestored.snapshots
    dsimp only at hsame ⊢
    rw [hsame]
    exact hpackedSaves.mono (List.prefix_refl _) (List.prefix_refl _) fun depth hdepth =>
      upTo_upTo hdepth.le s.allocs

theorem packed_reset {pool : Nat} (haccounts : Accounts pool s.pool blocks larges)
    (hpacked : Packed cap B s blocks larges) :
    PackedIn cap B { pool := s.pool.cpoolReset, allocs := [] } := by
  obtain ⟨-, haccounts', hcurrent, hblockSize, hsnapshots, hempty⟩ := haccounts.reset
  have hroot := Accounts.root_mem haccounts.shape
  have hmark : s.pool.cpoolReset.mark = ⟨s.pool.root, 0⟩ := by
    rw [mark_of_some hcurrent, hempty _ hroot]
  refine ⟨blocks, [], haccounts'.shape, hblockSize.trans hpacked.blockSize, ?_, fun hnone => ?_, rfl,
    ?_, hpacked.length⟩
  · dsimp only
    rw [hmark]
    refine ⟨0, ?_, .inl ⟨rfl, rfl⟩⟩
    have hchain := haccounts.shape.chain
    cases blocks with
    | nil => cases hroot
    | cons b blocks =>
      rw [Option.some.inj hchain.1]
      rfl
  · exact absurd (hcurrent.symm.trans hnone) (by simp)
  · dsimp only
    rw [hsnapshots]
    trivial

/-! ## Runs -/

/-- With `size` bytes more, the blocks hold at most `B` bytes. -/
def Fits (B size : Nat) (s : State) : Prop :=
  size ≤ s.pool.blockSize → (sizesIn s.pool.blockSize s.allocs).sum + size ≤ B

instance (B size : Nat) (s : State) : Decidable (Fits B size s) :=
  inferInstanceAs (Decidable (_ → _))

/-- Never more than `B` bytes in blocks at a time, and no `cpool_align`. -/
def Modest (B : Nat) (s : State) : LifeAction → Prop
  | .call (.palloc size) => Fits B size s
  | .call (.pcalloc num size) => Fits B (size * num) s
  | .call (.align _) => False
  | _ => True

instance (B : Nat) (s : State) (action : LifeAction) : Decidable (Modest B s action) := by
  unfold Modest
  split <;> infer_instance

theorem packed_step {pool : Nat} {action : LifeAction} (h : Inv s blocks larges)
    (haccounts : Accounts pool s.pool blocks larges) (hpacked : Packed cap B s blocks larges)
    (hmodest : Modest B s action) (hstep : lifeStep A s action = some s') : PackedIn cap B s' := by
  have hfits : ∀ size, Fits B size s → size ≤ cap → (sizesIn cap s.allocs).sum + size ≤ B := by
    intro size hsize
    rw [Fits, hpacked.blockSize] at hsize
    exact hsize
  cases action with
  | reset =>
    obtain rfl := Option.some.inj hstep
    exact packed_reset haccounts hpacked
  | call action =>
    cases action with
    | palloc size =>
      simp only [lifeStep, step, Option.ite_none_right_eq_some, Option.some.injEq] at hstep
      obtain ⟨⟨hpos, -⟩, rfl⟩ := hstep
      exact packed_palloc h hpacked A hpos (hfits size hmodest)
    | pcalloc num size =>
      simp only [lifeStep, step, Option.ite_none_right_eq_some, Option.some.injEq] at hstep
      obtain ⟨⟨⟨hnum, -⟩, hsize, -⟩, rfl⟩ := hstep
      exact packed_pcalloc h hpacked A hnum hsize (hfits _ hmodest)
    | align align => exact hmodest.elim
    | save =>
      simp only [lifeStep, step, Option.ite_none_right_eq_some, Option.some.injEq] at hstep
      obtain ⟨-, rfl⟩ := hstep
      exact ⟨blocks, larges, { h.shape with }, packed_save h hpacked⟩
    | restore =>
      unfold lifeStep step at hstep
      dsimp only at hstep
      split at hstep
      · cases hstep
      · next snapshot snapshots hsnapshots =>
        obtain rfl := Option.some.inj hstep
        exact packed_restore h hpacked hsnapshots

/-- What is kept of a pool at `pool`. -/
def InOrder (pool cap B : Nat) (s : State) : Prop :=
  ∃ blocks larges, Inv s blocks larges ∧ Accounts pool s.pool blocks larges ∧
    Packed cap B s blocks larges

theorem inOrder_step {pool : Nat} {action : LifeAction} (h : InOrder pool cap B s)
    (hmodest : Modest B s action) (hstep : lifeStep A s action = some s') : InOrder pool cap B s' := by
  obtain ⟨blocks, larges, hinv, haccounts, hpacked⟩ := h
  obtain ⟨blocks₁, larges₁, hinv', haccounts'⟩ := (accounts_step hinv haccounts action).2 s' hstep
  obtain ⟨blocks₂, larges₂, hshape, hpacked'⟩ := packed_step hinv haccounts hpacked hmodest hstep
  obtain ⟨rfl, rfl⟩ := hinv'.shape.unique hshape
  exact ⟨_, _, hinv', haccounts', hpacked'⟩

theorem inOrder_start {blockSize pool : Nat} (hfits : sizeofBlock + blockSize ≤ ptrdiffMax)
    (hpool : (Memory.empty.malloc A sizeofPool).2 = some pool)
    (hinit : cpoolInit A blockSize = some p) : InOrder pool blockSize B (start p) := by
  obtain ⟨blocks, larges, hinv, haccounts⟩ := accounts_start hfits hpool hinit
  refine ⟨blocks, larges, hinv, haccounts, ?_⟩
  have hsize : sizeofBlock + blockSize < SIZE := by
    simp only [ptrdiffMax, SIZE] at hfits ⊢
    omega
  obtain ⟨m, root, -, rfl⟩ := cpoolInit_eq hsize hinit
  have hblock : (Pool.initial m blockSize root).block root = .new root := by
    simp only [Pool.initial, Function.update_self]
  have hnext : (Pool.initial m blockSize root).next root = none := by
    rw [Pool.next, hblock, Block.new_next]
  have hchain : Links (Pool.initial m blockSize root).next (some root) [root] := ⟨rfl, hnext⟩
  obtain rfl := hinv.shape.chain.unique hchain
  obtain rfl : larges = [] := hinv.shape.largeChain.nil_iff.mpr rfl
  have hmark : (Pool.initial m blockSize root).mark = ⟨root, 0⟩ := by
    rw [mark_of_some (b := root) rfl, hblock, Block.new_head]
  refine ⟨rfl, ?_, fun hnone => (by cases hnone), rfl, trivial, Nat.le_add_left 1 _⟩
  show AtPosition _ [root] (Pool.initial m blockSize root).mark ⟨0, 0⟩
  rw [hmark]
  exact ⟨0, rfl, .inl ⟨rfl, rfl⟩⟩

theorem length_largeAddrs (p : Pool) (lbs : List Nat) :
    (p.largeAddrs lbs).length = 2 * lbs.length := by
  rw [Pool.largeAddrs, List.length_flatMap]
  simp [Nat.mul_comm]

/-- **The footprint of a pool**: in a run that never has more than `B` bytes in blocks, saved,
    restored and reset however often, the memory in use is the pool's structure, at most
    `2 * B / blockSize + 1` blocks, and two regions for each allocation in force that is too
    large for a block; and the next allocation goes where next-fit puts it behind those in
    force. -/
theorem footprint (A : Allocator) (blockSize B : Nat) (hfits : sizeofBlock + blockSize ≤ ptrdiffMax)
    (pool : Nat) (p : Pool) (hpool : (Memory.empty.malloc A sizeofPool).2 = some pool)
    (hinit : cpoolInit A blockSize = some p) (s : State)
    (h : Reach (lifeStep A) (Modest B) (start p) s) :
    ∃ blocks, Links s.pool.next (some s.pool.root) blocks ∧
      blocks.length ≤ 2 * B / blockSize + 1 ∧
      s.pool.memory.live.length = 1 + blocks.length + 2 * largeCount blockSize s.allocs ∧
      AtPosition blockSize blocks s.pool.mark (nextFit blockSize (sizesIn blockSize s.allocs)) := by
  obtain ⟨blocks, larges, hinv, haccounts, hpacked⟩ :=
    h.invariant (InOrder pool blockSize B) (inOrder_start hfits hpool hinit) fun _ _ _ hs hok hstep =>
      inOrder_step hs hok hstep
  refine ⟨blocks, hinv.shape.chain, hpacked.length, ?_, hpacked.mark⟩
  have hlength := haccounts.addrs.length_eq
  rw [Memory.addrs, List.length_map, List.length_cons, List.length_append, length_largeAddrs,
    hpacked.count] at hlength
  omega

/-- Three times: a save, two blocks full and a large block, and the restore. -/
def sessions : List LifeAction :=
  (List.replicate 3 [.call .save, .call (.palloc 1000), .call (.palloc 1000),
    .call (.pcalloc 2 1000), .call .restore]).flatten

/-- `footprint` behind these calls: at most four blocks, though 6000 bytes were taken of blocks. -/
theorem footprint_sessions :
    ∃ (p : Pool) (s : State) (blocks : List Nat), cpoolInit bump 1024 = some p ∧ s.allocs = [] ∧
      Links s.pool.next (some s.pool.root) blocks ∧ blocks.length ≤ 4 ∧
      s.pool.memory.live.length = 1 + blocks.length + 2 * largeCount 1024 s.allocs := by
  obtain ⟨pool, hpool⟩ := Option.isSome_iff_exists.mp
    (show (Memory.empty.malloc bump sizeofPool).2.isSome = true by decide +kernel)
  obtain ⟨p, hinit, hrun⟩ := Option.bind_eq_some_iff.mp
    (show ((cpoolInit bump 1024).bind fun p =>
      (exec (guarded (lifeStep bump) (Modest 2000)) (start p) sessions).map fun s =>
        s.allocs) = some [] by decide +kernel)
  obtain ⟨s, hreach, hallocs⟩ := Reach.of_exec_map hrun
  obtain ⟨blocks, hchain, hlength, hlive, -⟩ :=
    footprint bump 1024 2000 (by decide) pool p hpool hinit s hreach
  exact ⟨p, s, blocks, hinit, hallocs, hchain, hlength, hlive⟩

end Foxtails.Cpool
