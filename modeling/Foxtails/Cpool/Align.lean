/-
  What `cpool_align` gives.

  Model (read this before the theorems). `malloc` gives addresses that are aligned for any object;
  this is the assumption `AlignedAllocator`. A block's data starts `sizeofBlock` bytes behind its
  address, which is a multiple of the alignment too.

  * `aligned_step`: all memory of a pool stays aligned.
  * `aligned_behind_align`: what `palloc` gives directly behind a `cpool_align` is aligned as
    asked, whichever block it is in, and also where `cpool_align` has failed.
-/
import Foxtails.Cpool.Release

namespace Foxtails.Cpool

open Foxtails.Lib.Chain Foxtails.Lib.Libc Foxtails.Lib.Malloc Foxtails.Lib.Run

/-- Addresses are aligned for any object. -/
def AlignedAllocator (A : Allocator) : Prop :=
  ∀ live calls size addr, A.answer live calls size = some addr → blockAlign ∣ addr

/-- Everything in use is aligned. -/
def AlignedMemory (m : Memory) : Prop := ∀ r ∈ m.live, blockAlign ∣ r.addr

variable {A : Allocator} {p p' : Pool} {m : Memory} {s s' : State} {size addr : Nat}

/-! ## Memory -/

theorem AlignedMemory.malloc (hA : AlignedAllocator A) (hm : AlignedMemory m) (size : Nat) :
    AlignedMemory (m.malloc A size).1 ∧
      ∀ addr, (m.malloc A size).2 = some addr → blockAlign ∣ addr := by
  unfold Memory.malloc
  split
  · exact ⟨hm, fun _ h => by cases h⟩
  · next addr h =>
    have haddr := hA _ _ _ _ h
    refine ⟨fun r hr => ?_, fun x hx => Option.some.inj hx ▸ haddr⟩
    rcases List.mem_cons.mp hr with rfl | hr
    · exact haddr
    · exact hm r hr

theorem AlignedMemory.free (hm : AlignedMemory m) (addr : Nat) : AlignedMemory (m.free addr) :=
  fun r hr => hm r (Memory.live_free.mp hr).1

theorem AlignedMemory.empty : AlignedMemory Memory.empty := fun _ hr => by cases hr

namespace Pool

variable (hA : AlignedAllocator A) (hp : AlignedMemory p.memory)

include hA hp

theorem aligned_appendBlock : AlignedMemory (p.appendBlock A).1.memory := by
  have hmalloc := (hp.malloc hA ((sizeofBlock + p.blockSize) % SIZE)).1
  unfold Pool.appendBlock Pool.initBlock Pool.malloc
  rcases hm : p.memory.malloc A ((sizeofBlock + p.blockSize) % SIZE) with ⟨m, _ | b⟩
  all_goals
    rw [hm] at hmalloc
    exact hmalloc

omit hA hp in
@[simp] theorem setLink_memory (p : Pool) (lb : Option Nat) (link : Link) :
    (p.setLink lb link).memory = p.memory := by
  cases link <;> rfl

theorem aligned_allocLargeBlock :
    AlignedMemory (p.allocLargeBlock A size).1.memory ∧
      ∀ addr, (p.allocLargeBlock A size).2 = some addr → blockAlign ∣ addr := by
  have hmalloc := (hp.malloc hA sizeofLargeBlock).1
  unfold Pool.allocLargeBlock Pool.malloc
  rcases hm : p.memory.malloc A sizeofLargeBlock with ⟨m, _ | lb⟩
  · rw [hm] at hmalloc
    exact ⟨by rw [setLink_memory]; exact hmalloc, fun _ h => by cases h⟩
  · rw [hm] at hmalloc
    have hmalloc' := hmalloc.malloc hA size
    dsimp only
    rw [setLink_memory]
    rcases hm' : m.malloc A size with ⟨m', _ | data⟩
    · rw [hm'] at hmalloc'
      exact ⟨by rw [setLink_memory]; exact hmalloc'.1.free lb, fun _ h => by cases h⟩
    · rw [hm'] at hmalloc'
      exact hmalloc'

theorem aligned_blockFor : AlignedMemory (p.blockFor A size).1.memory := by
  unfold Pool.blockFor
  split
  · exact aligned_appendBlock hA hp
  · split_ifs
    · split
      · exact hp
      · exact aligned_appendBlock hA hp
    · exact hp

omit hA hp in
theorem take_memory (p : Pool) (b size : Nat) : (p.take b size).1.memory = p.memory := by
  unfold Pool.take
  dsimp only
  split_ifs <;> rfl

theorem aligned_palloc : AlignedMemory (p.palloc A size).1.memory := by
  unfold Pool.palloc
  split_ifs
  · exact (aligned_allocLargeBlock hA hp).1
  · have hblock : AlignedMemory (p.blockFor A size).1.memory := aligned_blockFor hA hp
    rcases hb : p.blockFor A size with ⟨q, _ | b⟩
    · rw [hb] at hblock
      exact hblock
    · rw [hb] at hblock
      dsimp only
      rw [take_memory]
      exact hblock

theorem aligned_cpoolAlign (align : Nat) : AlignedMemory (p.cpoolAlign A align).1.memory := by
  have hblock : AlignedMemory (p.currentBlock A).1.memory := by
    unfold Pool.currentBlock
    split
    · exact aligned_appendBlock hA hp
    · exact hp
  unfold Pool.cpoolAlign
  rcases hb : p.currentBlock A with ⟨q, _ | b⟩
  · rw [hb] at hblock
    exact hblock
  · rw [hb] at hblock
    dsimp only
    split_ifs
    · exact aligned_appendBlock hA hblock
    · exact hblock

end Pool

/-- A loop that frees. -/
theorem aligned_freeNodes (write : LargeBlock → LargeBlock) (lbs : List Nat) (p : Pool)
    (hp : AlignedMemory p.memory) :
    AlignedMemory (lbs.foldl (Pool.freeNode write) p).memory := by
  induction lbs generalizing p with
  | nil => exact hp
  | cons lb lbs ih => exact ih _ ((hp.free _).free _)

theorem clear_memory (p : Pool) (b : Option Nat) : (p.clear b).memory = p.memory := by
  obtain ⟨block, heq, -⟩ := clear_spec (walk p.next p.rounds b) p
  rw [Pool.clear, heq]

theorem aligned_cpoolRestore (snapshot : Snapshot) (hp : AlignedMemory p.memory) :
    AlignedMemory (p.cpoolRestore snapshot).memory := by
  have hblocks : AlignedMemory (p.restoreBlocks snapshot).memory := by
    unfold Pool.restoreBlocks
    dsimp only
    rw [clear_memory]
    exact hp
  have hlarge := fun nodes => aligned_freeNodes (fun lb => { lb with next := none }) nodes
    (p.restoreBlocks snapshot) hblocks
  unfold Pool.cpoolRestore Pool.restoreLarge Pool.freeLarge
  cases snapshot.largeCurrent with
  | none => exact hlarge _
  | some lb => exact hlarge _

theorem aligned_cpoolReset (hp : AlignedMemory p.memory) :
    AlignedMemory p.cpoolReset.memory := by
  have hblocks : AlignedMemory p.resetBlocks.memory := by
    unfold Pool.resetBlocks
    dsimp only
    rw [clear_memory]
    exact hp
  exact aligned_freeNodes (fun lb => { lb with data := 0 }) _ _ hblocks

/-- **All memory of a pool stays aligned.** -/
theorem aligned_step (hA : AlignedAllocator A) {action : LifeAction}
    (h : AlignedMemory s.pool.memory) (hstep : lifeStep A s action = some s') :
    AlignedMemory s'.pool.memory := by
  cases action with
  | reset =>
    obtain rfl := Option.some.inj hstep
    exact aligned_cpoolReset h
  | call action =>
    cases action with
    | palloc size =>
      simp only [lifeStep, step, Option.ite_none_right_eq_some, Option.some.injEq] at hstep
      obtain ⟨-, rfl⟩ := hstep
      exact Pool.aligned_palloc hA h
    | pcalloc num size =>
      simp only [lifeStep, step, Option.ite_none_right_eq_some, Option.some.injEq] at hstep
      obtain ⟨-, rfl⟩ := hstep
      show AlignedMemory (s.pool.pcalloc A num size).1.memory
      unfold Pool.pcalloc
      split_ifs
      · exact h
      · exact Pool.aligned_palloc hA h
    | align align =>
      simp only [lifeStep, step, Option.ite_none_right_eq_some, Option.some.injEq] at hstep
      obtain ⟨-, rfl⟩ := hstep
      exact Pool.aligned_cpoolAlign hA h align
    | save =>
      simp only [lifeStep, step, Option.ite_none_right_eq_some, Option.some.injEq] at hstep
      obtain ⟨-, rfl⟩ := hstep
      exact h
    | restore =>
      unfold lifeStep step at hstep
      dsimp only at hstep
      split at hstep
      · cases hstep
      · obtain rfl := Option.some.inj hstep
        exact aligned_cpoolRestore _ h

theorem aligned_cpoolInit (hA : AlignedAllocator A) {blockSize : Nat}
    (hinit : cpoolInit A blockSize = some p) : AlignedMemory p.memory := by
  have hpool := (AlignedMemory.empty.malloc hA sizeofPool).1
  unfold cpoolInit Pool.initBlock Pool.malloc at hinit
  rcases hm : Memory.empty.malloc A sizeofPool with ⟨m, _ | pool⟩
  · rw [hm] at hinit
    cases hinit
  · rw [hm] at hpool hinit
    have hblock := (hpool.malloc hA ((sizeofBlock + blockSize) % SIZE)).1
    dsimp only at hinit
    rcases hm' : m.malloc A ((sizeofBlock + blockSize) % SIZE) with ⟨m', _ | root⟩
    · rw [hm'] at hinit
      cases hinit
    · rw [hm'] at hblock hinit
      obtain rfl := Option.some.inj hinit
      exact hblock

/-! ## Behind an alignment -/

variable {align : Nat} {blocks larges : List Nat}

theorem Pool.alignUp_dvd {head limit : Nat} (hpos : 0 < align) (hpow : align &&& (align - 1) = 0)
    (hle : align ≤ blockAlign) (hhead : head ≤ limit) (hlimit : limit + blockAlign ≤ SIZE) :
    align ∣ Pool.alignUp head align := by
  obtain ⟨k, rfl⟩ := Nat.ne_zero_and_sub_one_eq_zero_iff_isPowerOfTwo.mp ⟨hpos.ne', hpow⟩
  have hk : k ≤ 4 := (Nat.pow_le_pow_iff_right (by decide)).mp hle
  have hlt : head + 2 ^ k - 1 < SIZE := by omega
  rw [Pool.alignUp, Nat.mod_eq_of_lt hlt, and_clearLow hlt (by omega)]
  exact Nat.dvd_mul_left _ _

theorem align_dvd_blockAlign (hpos : 0 < align) (hpow : align &&& (align - 1) = 0)
    (hle : align ≤ blockAlign) : align ∣ blockAlign := by
  obtain ⟨k, rfl⟩ := Nat.ne_zero_and_sub_one_eq_zero_iff_isPowerOfTwo.mp ⟨hpos.ne', hpow⟩
  exact Nat.pow_dvd_pow 2 ((Nat.pow_le_pow_iff_right (m := 4) (by decide)).mp hle)

/-- The next allocation is aligned: the head of the current block is, or it has no room. -/
def Ready (align : Nat) (p : Pool) : Prop :=
  ∀ b, p.current = some b → align ∣ (p.block b).head ∨ p.blockSize ≤ (p.block b).head

/-- `__append_block` leaves the next allocation aligned, in an empty block or as it was. -/
theorem ready_appendBlock (h : Inv s blocks larges) (A : Allocator) (hready : Ready align s.pool) :
    Ready align (s.pool.appendBlock A).1 := by
  rcases h.shape.appendBlock_cases A h.size_lt with ⟨m, -, heq⟩ | ⟨m, b, hm, hfresh, heq⟩
  · rw [heq]
    exact hready
  · rw [heq]
    intro c hc
    obtain rfl : b = c := Option.some.inj hc
    refine .inl ?_
    rw [(h.append hm hfresh).2]
    exact Nat.dvd_zero _ |>.trans (dvd_refl _)

/-- The block `cpool_align` rounds up in is the current one; where there is none, nothing is. -/
theorem currentBlock_spec (h : Inv s blocks larges) (A : Allocator) :
    ∃ p' result, s.pool.currentBlock A = (p', result) ∧ p'.current = result ∧
      ∃ blocks', Inv { s with pool := p' } blocks' larges := by
  unfold Pool.currentBlock
  cases hcurrent : s.pool.current with
  | some b => exact ⟨_, _, rfl, hcurrent, blocks, h⟩
  | none =>
    rcases h.shape.appendBlock_cases A h.size_lt with ⟨m, hm, heq⟩ | ⟨m, b, hm, hfresh, heq⟩
    · exact ⟨_, _, heq, hcurrent, blocks, h.withMemory hm⟩
    · exact ⟨_, _, heq, rfl, _, (h.append hm hfresh).1⟩

theorem ready_cpoolAlign (h : Inv s blocks larges) (A : Allocator) (hpos : 0 < align)
    (hpow : align &&& (align - 1) = 0) (hle : align ≤ blockAlign) :
    Ready align (s.pool.cpoolAlign A align).1 := by
  obtain ⟨p', result, heq, hcurrent, blocks', hinv⟩ := currentBlock_spec h A
  unfold Pool.cpoolAlign
  rw [heq]
  cases result with
  | none => exact fun b hb => absurd (hcurrent.symm.trans hb) (by simp)
  | some b =>
    have hlimit := hinv.front.limit
    rw [mark_of_some hcurrent] at hlimit
    have hsize : p'.limit + blockAlign ≤ SIZE := by
      have hfits := hinv.fits
      simp only [Pool.limit, blockAlign, ptrdiffMax, SIZE] at hfits ⊢
      omega
    obtain ⟨hup, hmax⟩ := Pool.alignUp_spec hpos hpow hle (Dvd.intro_left _ rfl) hlimit hsize
    have hdvd := Pool.alignUp_dvd hpos hpow hle hlimit hsize
    have h₁ := hinv.setHead (p'.block b).full hcurrent hup hmax
    dsimp only
    split_ifs with hfull
    · -- the block is left, or stays the current one without room
      have h₂ := h₁.setHead true hcurrent (le_refl _) (by rw [Pool.setHead_self]; exact hmax)
      refine ready_appendBlock h₂ A fun c hc => .inr ?_
      obtain rfl : b = c := Option.some.inj (hcurrent.symm.trans hc)
      simp only [Pool.setHead_self, Pool.setHead_blockSize] at hfull ⊢
      exact hfull
    · intro c hc
      obtain rfl : b = c := Option.some.inj (hcurrent.symm.trans hc)
      rw [Pool.setHead_self]
      exact .inl hdvd

/-- The block `palloc` takes of has an aligned head. -/
theorem blockFor_aligned (h : Inv s blocks larges) (A : Allocator) (hready : Ready align s.pool)
    (hpos : 0 < size) (hsize : size ≤ s.pool.blockSize) {q : Pool} {b : Nat} (heq : s.pool.blockFor A size = (q, some b)) :
    align ∣ (q.block b).head := by
  obtain ⟨p', result, happend, -, -, -, hnew⟩ := h.appendBlock A
  -- a new block is empty, and so is the next one
  have hempty : s.pool.appendBlock A = (q, some b) → align ∣ (q.block b).head := by
    intro hq
    obtain ⟨rfl, rfl⟩ := Prod.mk.inj (happend.symm.trans hq)
    rw [(hnew b rfl).2]
    exact Nat.dvd_zero align
  unfold Pool.blockFor at heq
  cases hcurrent : s.pool.current with
  | none =>
    rw [hcurrent] at heq
    exact hempty heq
  | some c =>
    have hmark := mark_of_some hcurrent
    have hmem := h.front.mem
    have hfront := h.front.empty
    have hlimit := h.front.limit
    rw [hmark] at hmem hfront hlimit
    rw [hcurrent] at heq
    dsimp only at heq
    split_ifs at heq with hroom
    · cases hnext : (s.pool.block c).next with
      | none =>
        rw [hnext] at heq
        exact hempty heq
      | some d =>
        rw [hnext] at heq
        obtain ⟨rfl, hb⟩ := Prod.mk.inj heq
        obtain rfl : d = b := Option.some.inj hb
        have hd := hfront d (h.shape.chain.behind_next hmem hnext)
        show align ∣ (s.pool.block d).head
        rw [hd]
        exact Nat.dvd_zero align
    · obtain ⟨rfl, hb⟩ := Prod.mk.inj heq
      obtain rfl : c = b := Option.some.inj hb
      have hlt : (s.pool.block c).head + size < SIZE := by
        have hfits := h.fits
        simp only [Pool.limit, blockAlign, ptrdiffMax, SIZE] at hfits hlimit ⊢
        omega
      rw [Nat.mod_eq_of_lt hlt] at hroom
      exact (hready c hcurrent).resolve_right (by omega)

theorem palloc_aligned (hA : AlignedAllocator A) (h : Inv s blocks larges)
    (hmemory : AlignedMemory s.pool.memory) (hready : Ready align s.pool)
    (hdvd : align ∣ blockAlign) (hpos : 0 < size) (haddr : (s.pool.palloc A size).2 = some addr) :
    align ∣ addr := by
  unfold Pool.palloc at haddr
  split_ifs at haddr with hlarge
  · exact hdvd.trans ((Pool.aligned_allocLargeBlock hA hmemory).2 addr haddr)
  · obtain ⟨q, result, heq, -, ⟨blocks', hinv⟩, hroom⟩ := h.blockFor A (not_lt.mp hlarge)
    rw [heq] at haddr
    cases result with
    | none => cases haddr
    | some b =>
      have hhead := blockFor_aligned h A hready hpos (not_lt.mp hlarge) heq
      have hblock : AlignedMemory (s.pool.blockFor A size).1.memory :=
        Pool.aligned_blockFor hA hmemory
      rw [heq] at hblock
      have hmem := hinv.front.mem
      rw [mark_of_some (hroom b rfl).1] at hmem
      have hb := hblock _ (hinv.shape.live b hmem)
      have hdata : (q.block b).data = b + sizeofBlock := hinv.shape.data b hmem
      obtain rfl : (q.block b).data + (q.block b).head = addr := by
        have htake : (q.take b size).2 = (q.block b).data + (q.block b).head := by
          unfold Pool.take
          dsimp only
          split_ifs <;> rfl
        exact htake.symm.trans (Option.some.inj haddr)
      rw [hdata]
      exact Nat.dvd_add (Nat.dvd_add (hdvd.trans hb) (hdvd.trans ⟨2, rfl⟩)) hhead

/-! ## Runs -/

/-- **Aligned as asked**: in every run, whatever the allocator answers, an allocation that follows
    a `cpool_align` directly has an address that is a multiple of the alignment, for every
    alignment that `malloc` gives a block. It does not matter whether `cpool_align` has given 0 or
    ENOMEM. -/
theorem aligned_behind_align (A : Allocator) (hA : AlignedAllocator A) (blockSize : Nat)
    (hfits : sizeofBlock + blockSize ≤ ptrdiffMax) (pool : Nat) (p : Pool)
    (hpool : (Memory.empty.malloc A sizeofPool).2 = some pool)
    (hinit : cpoolInit A blockSize = some p) (s s' : State)
    (h : Reach (lifeStep A) AnyLife (start p) s) (align : Nat)
    (hstep : step A s (.align align) = some s') (size addr : Nat) (hpos : 0 < size)
    (haddr : (s'.pool.palloc A size).2 = some addr) : align ∣ addr := by
  obtain ⟨blocks, larges, hinv, -⟩ := accounted hfits hpool hinit h
  have hmemory : AlignedMemory s.pool.memory :=
    h.invariant (fun s => AlignedMemory s.pool.memory) (aligned_cpoolInit hA hinit)
      fun _ _ _ hs _ hnext => aligned_step hA hs hnext
  obtain ⟨_, _, hinv'⟩ := inv_step hinv hstep
  have hmemory' : AlignedMemory s'.pool.memory :=
    aligned_step hA hmemory (show lifeStep A s (.call (.align align)) = some s' from hstep)
  simp only [step, Option.ite_none_right_eq_some, Option.some.injEq] at hstep
  obtain ⟨⟨hposAlign, hpow, hle⟩, rfl⟩ := hstep
  exact palloc_aligned hA hinv' hmemory' (ready_cpoolAlign hinv A hposAlign hpow hle)
    (align_dvd_blockAlign hposAlign hpow hle) hpos haddr

theorem bumpAligned_fresh (live : List Region) (_ size addr : Nat)
    (h : some (blockAlign * (1 + (live.map fun r => r.addr + r.size).sum)) = some addr) (r : Region)
    (hr : r ∈ live) : Region.Apart ⟨addr, size⟩ r := by
  have hle := List.single_le_sum (fun _ _ => Nat.zero_le _) _
    (List.mem_map_of_mem (f := fun r : Region => r.addr + r.size) hr)
  have haddr := Option.some.inj h
  simp only [blockAlign] at haddr
  exact ⟨by dsimp only; omega, .inr (by dsimp only; omega)⟩

/-- An allocator that goes on behind everything in use, at a multiple of the alignment. -/
def bumpAligned : Allocator where
  answer live _ _ := some (blockAlign * (1 + (live.map fun r => r.addr + r.size).sum))
  fresh := bumpAligned_fresh

theorem bumpAligned_aligned : AlignedAllocator bumpAligned := by
  intro live calls size addr h
  rw [← Option.some.inj h]
  exact Nat.dvd_mul_right _ _

/-- `aligned_behind_align` where 63 of 64 bytes are in use: the next block is aligned too. -/
theorem aligned_behind_align_eight :
    ∃ (p : Pool) (s s' : State) (addr : Nat), cpoolInit bumpAligned 64 = some p ∧
      step bumpAligned s (.align 8) = some s' ∧ s.allocs.length = 2 ∧
      (s'.pool.palloc bumpAligned 24).2 = some addr ∧ 8 ∣ addr := by
  obtain ⟨pool, hpool⟩ := Option.isSome_iff_exists.mp
    (show (Memory.empty.malloc bumpAligned sizeofPool).2.isSome = true by decide +kernel)
  obtain ⟨p, hinit, hrun⟩ := Option.bind_eq_some_iff.mp
    (show ((cpoolInit bumpAligned 64).bind fun p =>
      (exec (guarded (lifeStep bumpAligned) AnyLife) (start p)
        [.call (.palloc 5), .call (.palloc 58)]).map fun s =>
          (s.allocs.length, (step bumpAligned s (.align 8)).map fun s' =>
            (s'.pool.palloc bumpAligned 24).2.isSome)) = some (2, some true) by decide +kernel)
  obtain ⟨s, hreach, hobserved⟩ := Reach.of_exec_map hrun
  obtain ⟨hlength, hnext⟩ := Prod.mk.inj hobserved
  obtain ⟨s', hstep, hsome⟩ := Option.map_eq_some_iff.mp hnext
  obtain ⟨addr, haddr⟩ := Option.isSome_iff_exists.mp hsome
  exact ⟨p, s, s', addr, hinit, hstep, hlength, haddr,
    aligned_behind_align bumpAligned bumpAligned_aligned 64 (by decide) pool p hpool hinit s s'
      hreach 8 hstep 24 addr (by decide) haddr⟩

end Foxtails.Cpool
