/-
  Allocations do not overlap.

  * `inv_step`: every call keeps `Inv`.
  * `no_overlap`: in every run the allocations in force lie in their blocks and are disjoint,
    and a restore keeps what was in force at its save.
-/
import Foxtails.Lib.Run
import Foxtails.Cpool.Marks

namespace Foxtails.Cpool

open Foxtails.Lib.Chain Foxtails.Lib.Libc Foxtails.Lib.Malloc Foxtails.Lib.Run

variable {A : Allocator} {p : Pool} {blocks larges : List Nat} {a : Alloc} {s s' : State}

/-- Rounding up goes no further than a multiple of the block alignment. -/
theorem Pool.alignUp_spec {head align limit : Nat} (hpos : 0 < align)
    (hpow : align &&& (align - 1) = 0) (hle : align ≤ blockAlign) (hdvd : blockAlign ∣ limit)
    (hhead : head ≤ limit) (hlimit : limit + blockAlign ≤ SIZE) :
    head ≤ Pool.alignUp head align ∧ Pool.alignUp head align ≤ limit := by
  obtain ⟨k, rfl⟩ := Nat.ne_zero_and_sub_one_eq_zero_iff_isPowerOfTwo.mp ⟨hpos.ne', hpow⟩
  have hk : k ≤ 4 := (Nat.pow_le_pow_iff_right (by decide)).mp hle
  obtain ⟨q, rfl⟩ := (Nat.pow_dvd_pow 2 hk).trans hdvd
  have hlt : head + 2 ^ k - 1 < SIZE := by omega
  rw [Pool.alignUp, Nat.mod_eq_of_lt hlt, and_clearLow hlt (by omega)]
  constructor
  · have hdiv := Nat.div_add_mod' (head + 2 ^ k - 1) (2 ^ k)
    have hmod := Nat.mod_lt (head + 2 ^ k - 1) hpos
    omega
  · rw [Nat.mul_comm (2 ^ k) q]
    refine Nat.mul_le_mul_right _ (Nat.le_of_lt_succ ((Nat.div_lt_iff_lt_mul hpos).mpr ?_))
    rw [Nat.succ_mul, Nat.mul_comm q]
    omega

namespace Inv

variable (h : Inv s blocks larges)

include h

theorem size_lt : sizeofBlock + s.pool.blockSize < SIZE := by
  have hfits := h.fits
  simp only [ptrdiffMax, SIZE] at hfits ⊢
  omega

/-- What `__append_block` gives: NULL, or an empty current block. -/
theorem appendBlock (A : Allocator) :
    ∃ p' result, s.pool.appendBlock A = (p', result) ∧ p'.snapshots = s.pool.snapshots ∧
      p'.blockSize = s.pool.blockSize ∧
      (∃ blocks', Inv { s with pool := p' } blocks' larges) ∧
      ∀ b, result = some b → p'.current = some b ∧ (p'.block b).head = 0 := by
  rcases h.shape.appendBlock_cases A h.size_lt with ⟨m, hm, heq⟩ | ⟨m, b, hm, hfresh, heq⟩
  · exact ⟨_, _, heq, rfl, rfl, ⟨blocks, h.withMemory hm⟩, fun b hb => (by cases hb)⟩
  · obtain ⟨hinv, hempty⟩ := h.append hm hfresh
    refine ⟨_, _, heq, rfl, rfl, ⟨_, hinv⟩, fun c hc => ?_⟩
    obtain rfl : b = c := Option.some.inj hc
    exact ⟨rfl, hempty⟩

/-- The block `palloc` chooses has room. -/
theorem blockFor (A : Allocator) {size : Nat} (hsize : size ≤ s.pool.blockSize) :
    ∃ p' result, s.pool.blockFor A size = (p', result) ∧ p'.snapshots = s.pool.snapshots ∧
      (∃ blocks', Inv { s with pool := p' } blocks' larges) ∧
      ∀ b, result = some b → p'.current = some b ∧ (p'.block b).head + size ≤ p'.blockSize := by
  obtain ⟨p', result, heq, hsnapshots, hblockSize, hinv, hnew⟩ := h.appendBlock A
  have happend : ∃ p' result, s.pool.appendBlock A = (p', result) ∧
      p'.snapshots = s.pool.snapshots ∧ (∃ blocks', Inv { s with pool := p' } blocks' larges) ∧
      ∀ b, result = some b → p'.current = some b ∧ (p'.block b).head + size ≤ p'.blockSize := by
    refine ⟨p', result, heq, hsnapshots, hinv, fun b hb => ?_⟩
    obtain ⟨hcurrent, hempty⟩ := hnew b hb
    rw [hempty, hblockSize, Nat.zero_add]
    exact ⟨hcurrent, hsize⟩
  unfold Pool.blockFor
  cases hcurrent : s.pool.current with
  | none => exact happend
  | some b =>
    have hmark := mark_of_some hcurrent
    have hmem := h.front.mem
    have hempty := h.front.empty
    have hlimit := h.front.limit
    rw [hmark] at hmem hempty hlimit
    dsimp only
    split_ifs with hroom
    · cases hnext : (s.pool.block b).next with
      | none => exact happend
      | some c =>
        have hinv := h.next hcurrent
        rw [hnext] at hinv
        refine ⟨_, _, rfl, rfl, ⟨blocks, hinv⟩, fun x hx => ?_⟩
        obtain rfl : c = x := Option.some.inj hx
        refine ⟨rfl, ?_⟩
        show (s.pool.block c).head + size ≤ s.pool.blockSize
        rw [hempty c (h.shape.chain.behind_next hmem hnext), Nat.zero_add]
        exact hsize
    · refine ⟨_, _, rfl, rfl, ⟨blocks, h⟩, fun x hx => ?_⟩
      obtain rfl : b = x := Option.some.inj hx
      refine ⟨hcurrent, ?_⟩
      have hfits := h.fits
      have hlt : (s.pool.block b).head + size < SIZE := by
        simp only [Pool.limit, blockAlign, ptrdiffMax, SIZE] at hfits hlimit ⊢
        omega
      rw [Nat.mod_eq_of_lt hlt] at hroom
      omega

theorem palloc (A : Allocator) (size : Nat) :
    ∃ blocks' larges', Inv (s.allocated size (s.pool.palloc A size)) blocks' larges' := by
  unfold Pool.palloc
  split_ifs with hlarge
  · rcases h.shape.allocLargeBlock_cases A size with
      ⟨m, hm, heq⟩ | ⟨m, lb, data, hm, hlb, hdata, heq⟩
    · rw [heq]
      exact ⟨blocks, larges, h.withMemory hm⟩
    · rw [heq]
      have hinv := h.appendLarge hm hlb hdata
      have hunder : Under (s.pool.appendedLarge m lb data) blocks (larges ++ [lb])
          (s.pool.appendedLarge m lb data).mark
          ⟨⟨data, size⟩, (s.pool.appendedLarge m lb data).snapshots.length⟩ := by
        refine .large lb (List.mem_append_right _ (List.mem_singleton_self lb)) ?_ ?_
        · rw [Pool.largeData, Shape.appendedLarge_self]
        · show _ ∈ m.live
          rw [hm]
          exact List.mem_cons_self
      have hdisjoint : ∀ a ∈ s.allocs, Region.Disjoint ⟨data, size⟩ a.toRegion := by
        intro a ha
        obtain ⟨r, hr, hin⟩ := h.exists_live ha
        exact (hdata r (List.mem_cons_of_mem _ hr)).2.mono ⟨le_refl _, le_refl _⟩ hin
      have hrecord := hinv.record hunder hdisjoint
      rw [(Shape.sameBlocks_appendedLarge s.pool m lb data).snapshots] at hrecord
      exact ⟨blocks, larges ++ [lb], hrecord⟩
  · obtain ⟨p', result, heq, hsnapshots, ⟨blocks', hinv⟩, hroom⟩ := h.blockFor A (not_lt.mp hlarge)
    rw [heq]
    cases result with
    | none => exact ⟨blocks', larges, hinv⟩
    | some b =>
      obtain ⟨hcurrent, hfits⟩ := hroom b rfl
      have htake := hinv.take hcurrent hfits
      refine ⟨blocks', larges, ?_⟩
      unfold State.allocated at htake ⊢
      rw [hsnapshots] at htake
      exact htake

theorem pcalloc (A : Allocator) {num size : Nat} (hnum : 0 < num) :
    ∃ blocks' larges',
      Inv (s.allocated (size * num) (s.pool.pcalloc A num size)) blocks' larges' := by
  unfold Pool.pcalloc
  split_ifs with hover
  · exact ⟨blocks, larges, h⟩
  · have hsize : size ≤ (SIZE - 1) / num := by
      by_contra hlt
      exact hover ⟨hnum.ne', not_le.mp hlt⟩
    have hproduct : size * num < SIZE := by
      have hle := (Nat.le_div_iff_mul_le hnum).mp hsize
      simp only [SIZE] at hle ⊢
      omega
    rw [Nat.mod_eq_of_lt hproduct]
    exact h.palloc A (size * num)

/-! ## Alignment -/

theorem align (A : Allocator) {align : Nat} (hpos : 0 < align)
    (hpow : align &&& (align - 1) = 0) (hle : align ≤ blockAlign) :
    ∃ blocks', Inv { s with pool := (s.pool.cpoolAlign A align).1 } blocks' larges := by
  have hblock : ∃ p' result, s.pool.currentBlock A = (p', result) ∧
      (∃ blocks', Inv { s with pool := p' } blocks' larges) ∧
      ∀ b, result = some b → p'.current = some b := by
    unfold Pool.currentBlock
    cases hcurrent : s.pool.current with
    | none =>
      obtain ⟨p', result, heq, -, -, hinv, hnew⟩ := h.appendBlock A
      exact ⟨p', result, heq, hinv, fun b hb => (hnew b hb).1⟩
    | some b => exact ⟨_, _, rfl, ⟨blocks, h⟩, fun c hc => hcurrent.trans hc⟩
  obtain ⟨p', result, heq, ⟨blocks', hinv⟩, hcurrent⟩ := hblock
  unfold Pool.cpoolAlign
  rw [heq]
  cases result with
  | none => exact ⟨blocks', hinv⟩
  | some b =>
    have hcurrent := hcurrent b rfl
    have hlimit := hinv.front.limit
    rw [mark_of_some hcurrent] at hlimit
    have hsize : p'.limit + blockAlign ≤ SIZE := by
      have hfits := hinv.fits
      simp only [Pool.limit, blockAlign, ptrdiffMax, SIZE] at hfits ⊢
      omega
    obtain ⟨hup, hmax⟩ := Pool.alignUp_spec hpos hpow hle (Dvd.intro_left _ rfl) hlimit hsize
    have h₁ := hinv.setHead (p'.block b).full hcurrent hup hmax
    dsimp only
    split_ifs with hfull
    · have h₂ := h₁.setHead true hcurrent (le_refl _) (by rw [Pool.setHead_self]; exact hmax)
      obtain ⟨p'', result, heq, -, -, hinv, -⟩ := h₂.appendBlock A
      rw [heq]
      exact hinv
    · exact ⟨blocks', h₁⟩

/-! ## Saving and restoring -/

theorem save : Inv { s with pool := s.pool.cpoolSave } blocks larges := by
  have hkeeps : Keeps s.pool s.pool.cpoolSave larges :=
    ⟨rfl, fun _ _ => rfl, fun _ _ _ hlive => hlive⟩
  have hunder : ∀ a ∈ s.allocs, Under s.pool.cpoolSave blocks larges s.pool.mark a := fun a ha =>
    (h.under a ha).mono hkeeps (List.prefix_refl _) (List.Subset.refl _)
  refine ⟨h.fits, { h.shape with }, ⟨h.front.mem, h.front.empty, h.front.limit⟩, hunder,
    fun a ha => Nat.le_succ_of_le (h.depth a ha), h.disjoint, larges, List.prefix_refl _, ?_, ?_⟩
  · exact ⟨h.shape.largeLast, h.front.mem, h.shape.last_mem, h.front.limit,
      fun a ha _ => hunder a ha⟩
  · exact h.saves.mono hkeeps (List.prefix_refl _) (List.prefix_refl _) fun a ha _ => ha

theorem restore {snapshot : Snapshot} {snapshots : List Snapshot}
    (hsnapshots : s.pool.snapshots = snapshot :: snapshots) :
    ∃ older, Inv
      { pool := { s.pool with snapshots }.cpoolRestore snapshot
        allocs := s.allocs.filter fun a => a.depth ≤ snapshots.length } blocks older := by
  have hsaves := h.saves
  rw [hsnapshots] at hsaves
  obtain ⟨older, ⟨rest, hlarges⟩, hsaved, hsaves⟩ := hsaves
  obtain ⟨pre, post, hsplit⟩ := List.append_of_mem hsaved.block
  have hshape : Shape { s.pool with snapshots } blocks larges := { h.shape with }
  obtain ⟨hshape', hrestored⟩ :=
    hshape.restore hsplit hsaved.last hlarges.symm hsaved.largeCurrent
  have hkeeps : Keeps s.pool ({ s.pool with snapshots }.cpoolRestore snapshot) older :=
    ⟨hrestored.blockSize, hrestored.largeData, hrestored.dataLive⟩
  have hmark : ({ s.pool with snapshots }.cpoolRestore snapshot).mark = snapshot.mark := by
    rw [mark_of_some hrestored.current, hrestored.head]
    rfl
  refine ⟨older, ?_, hshape', ⟨?_, fun c hc => ?_, ?_⟩, fun a ha => ?_, fun a ha => ?_,
    h.disjoint.filter _, ?_⟩
  · show sizeofBlock + Pool.blockSize _ ≤ ptrdiffMax
    rw [hrestored.blockSize]
    exact h.fits
  · rw [hmark]
    exact hsaved.block
  · have hnodup := h.shape.nodup
    rw [hmark] at hc
    rw [hsplit] at hc hnodup
    exact hrestored.empty c ((behind_iff hnodup).mp hc)
  · rw [hmark, Pool.limit, hrestored.blockSize]
    exact hsaved.limit
  · obtain ⟨ha, hdepth⟩ := List.mem_filter.mp ha
    rw [hmark]
    exact (hsaved.under a ha (of_decide_eq_true hdepth)).mono hkeeps (List.prefix_refl _)
      (List.Subset.refl _)
  · obtain ⟨-, hdepth⟩ := List.mem_filter.mp ha
    show a.depth ≤ (Pool.snapshots _).length
    rw [hrestored.snapshots]
    exact of_decide_eq_true hdepth
  · show Saves _ blocks _ older (Pool.snapshots _)
    rw [hrestored.snapshots]
    exact hsaves.mono hkeeps (List.prefix_refl _) (List.prefix_refl _) fun a ha _ =>
      (List.mem_filter.mp ha).1

end Inv

/-! ## Runs -/

theorem inv_step {action : Action} (h : Inv s blocks larges) (hstep : step A s action = some s') :
    ∃ blocks' larges', Inv s' blocks' larges' := by
  cases action with
  | palloc size =>
    simp only [step, Option.ite_none_right_eq_some, Option.some.injEq] at hstep
    obtain ⟨-, rfl⟩ := hstep
    exact h.palloc A size
  | pcalloc num size =>
    simp only [step, Option.ite_none_right_eq_some, Option.some.injEq] at hstep
    obtain ⟨⟨⟨hnum, -⟩, -⟩, rfl⟩ := hstep
    exact h.pcalloc A hnum
  | align align =>
    simp only [step, Option.ite_none_right_eq_some, Option.some.injEq] at hstep
    obtain ⟨⟨hpos, hpow, hle⟩, rfl⟩ := hstep
    obtain ⟨blocks', hinv⟩ := h.align A hpos hpow hle
    exact ⟨blocks', larges, hinv⟩
  | save =>
    simp only [step, Option.ite_none_right_eq_some, Option.some.injEq] at hstep
    obtain ⟨-, rfl⟩ := hstep
    exact ⟨blocks, larges, h.save⟩
  | restore =>
    unfold step at hstep
    dsimp only at hstep
    split at hstep
    · cases hstep
    · next snapshot snapshots hsnapshots =>
      obtain rfl := Option.some.inj hstep
      obtain ⟨older, hinv⟩ := h.restore hsnapshots
      exact ⟨blocks, older, hinv⟩

/-- The pool `cpool_init` gives, where `malloc` gives `root`. -/
def Pool.initial (memory : Memory) (blockSize root : Nat) : Pool :=
  { memory
    block := Function.update (fun _ => ⟨0, none, false, 0⟩) root (.new root)
    large := fun _ => ⟨0, none⟩
    root
    current := some root
    last := root
    blockSize
    largeRoot := none
    largeLast := none
    snapshots := [] }

theorem cpoolInit_eq {blockSize : Nat} (hsize : sizeofBlock + blockSize < SIZE)
    (hinit : cpoolInit A blockSize = some p) :
    ∃ m root, (⟨root, sizeofBlock + blockSize⟩ : Region) ∈ m.live ∧
      p = Pool.initial m blockSize root := by
  unfold cpoolInit Pool.initBlock Pool.malloc at hinit
  rcases Memory.malloc_cases A Memory.empty sizeofPool with heq | ⟨pool, hpool, heq⟩
  · rw [heq] at hinit
    cases hinit
  rw [heq] at hinit
  dsimp only at hinit
  rw [Nat.mod_eq_of_lt hsize] at hinit
  rcases Memory.malloc_cases A (Memory.empty.add _ hpool) (sizeofBlock + blockSize) with
    heq | ⟨root, hroot, heq⟩
  · rw [heq] at hinit
    cases hinit
  · rw [heq] at hinit
    exact ⟨_, root, List.mem_cons_self, (Option.some.inj hinit).symm⟩

theorem inv_start {blockSize : Nat} (hfits : sizeofBlock + blockSize ≤ ptrdiffMax)
    (hinit : cpoolInit A blockSize = some p) : ∃ blocks larges, Inv (start p) blocks larges := by
  have hsize : sizeofBlock + blockSize < SIZE := by
    simp only [ptrdiffMax, SIZE] at hfits ⊢
    omega
  obtain ⟨m, root, hlive, rfl⟩ := cpoolInit_eq hsize hinit
  have hroot : (Pool.initial m blockSize root).block root = .new root := by
    simp only [Pool.initial, Function.update_self]
  have hmark : (Pool.initial m blockSize root).mark = ⟨root, 0⟩ := by
    rw [mark_of_some (b := root) rfl, hroot, Block.new_head]
  have hshape : Shape (Pool.initial m blockSize root) [root] [] := by
    refine ⟨⟨rfl, ?_⟩, rfl, fun b hb => ?_, fun b hb => ?_, rfl, rfl, fun _ hlb => (by cases hlb),
      fun _ hlb => (by cases hlb), List.nodup_singleton root⟩
    · show Pool.next _ root = none
      rw [Pool.next, hroot, Block.new_next]
    · obtain rfl := List.mem_singleton.mp hb
      exact hlive
    · obtain rfl := List.mem_singleton.mp hb
      rw [hroot, Block.new_data]
  refine ⟨[root], [], hfits, hshape, ⟨?_, fun c hc => ?_, ?_⟩, fun _ ha => (by cases ha),
    fun _ ha => (by cases ha), List.Pairwise.nil, trivial⟩
  · exact List.mem_singleton_self root
  · have hc : Behind ([] ++ root :: []) root c := hc
    cases (behind_iff hshape.nodup).mp hc
  · show (Pool.initial m blockSize root).mark.head ≤ _
    rw [hmark]
    exact Nat.zero_le _

/-! ## The theorem -/

/-- Allocations in force lie in their blocks and are disjoint; the blocks behind the current one
    are empty, and `last` is the end of the chain. -/
structure NoOverlap (s : State) (blocks larges : List Nat) : Prop where
  chain : Links s.pool.next (some s.pool.root) blocks
  largeChain : Links s.pool.largeNext s.pool.largeRoot larges
  owned : ∀ b ∈ blocks, s.pool.blockRegion b ∈ s.pool.memory.live ∧
    (s.pool.block b).data = b + sizeofBlock
  inside : ∀ a ∈ s.allocs,
    (∃ b ∈ blocks, a.Within ⟨(s.pool.block b).data, s.pool.blockSize⟩) ∨
      ∃ lb ∈ larges, s.pool.largeData lb = a.addr ∧ a.toRegion ∈ s.pool.memory.live
  disjoint : s.allocs.Pairwise fun a a' => a.Disjoint a'.toRegion
  empty : ∀ b c, s.pool.current = some b → Behind blocks b c → (s.pool.block c).head = 0
  last : blocks.getLast? = some s.pool.last

theorem Inv.noOverlap (h : Inv s blocks larges) : NoOverlap s blocks larges := by
  refine ⟨h.shape.chain, h.shape.largeChain, fun b hb => ⟨h.shape.live b hb, h.shape.data b hb⟩,
    fun a ha => ?_, h.disjoint, fun b c hcurrent hc => ?_, h.shape.last⟩
  · cases h.under a ha with
    | before b hb hin =>
      have hmem := hb.subset List.mem_cons_self
      exact .inl ⟨b, hmem, by rw [h.shape.data b hmem]; exact hin⟩
    | below hin =>
      exact .inl ⟨_, h.front.mem, by rw [h.shape.data _ h.front.mem]; exact hin⟩
    | large lb hlb hdata hlive => exact .inr ⟨lb, hlb, hdata, hlive⟩
  · have hempty := h.front.empty
    rw [mark_of_some hcurrent] at hempty
    exact hempty c hc

/-- Any sequence of calls. -/
def Any (_ : State) (_ : Action) : Prop := True

instance (s : State) (action : Action) : Decidable (Any s action) := isTrue trivial

/-- No restore goes back behind `depth` snapshots. -/
def Above (depth : Nat) (s : State) : Action → Prop
  | .restore => depth < s.pool.snapshots.length
  | _ => True

/-- A call that is not a restore takes nothing back. -/
theorem allocs_step {action : Action} (hstep : step A s action = some s')
    (hnot : action ≠ .restore) (ha : a ∈ s.allocs) : a ∈ s'.allocs := by
  have hallocated : ∀ size result, a ∈ (s.allocated size result).allocs := by
    rintro size ⟨p', _ | addr⟩
    · exact ha
    · exact List.mem_cons_of_mem _ ha
  cases action with
  | palloc size =>
    simp only [step, Option.ite_none_right_eq_some, Option.some.injEq] at hstep
    exact hstep.2 ▸ hallocated _ _
  | pcalloc num size =>
    simp only [step, Option.ite_none_right_eq_some, Option.some.injEq] at hstep
    exact hstep.2 ▸ hallocated _ _
  | align align =>
    simp only [step, Option.ite_none_right_eq_some, Option.some.injEq] at hstep
    exact hstep.2 ▸ ha
  | save =>
    simp only [step, Option.ite_none_right_eq_some, Option.some.injEq] at hstep
    exact hstep.2 ▸ ha
  | restore => exact absurd rfl hnot

/-- A restore takes back what was made behind its snapshot. -/
theorem allocs_restore (hstep : step A s .restore = some s') :
    a ∈ s'.allocs ↔ a ∈ s.allocs ∧ a.depth < s.pool.snapshots.length := by
  unfold step at hstep
  dsimp only at hstep
  split at hstep
  · cases hstep
  · next snapshot snapshots hsnapshots =>
    obtain rfl := Option.some.inj hstep
    rw [hsnapshots, List.mem_filter, decide_eq_true_eq, List.length_cons, Nat.lt_succ_iff]

/-- **Pool memory never overlaps**: from `cpool_init`, whatever the allocator answers. The
    allocations in force lie in their blocks and are disjoint; and a restore, however many
    calls lie between, keeps what was in force at the matching save. A block with its header
    has to be the size of an object; the callers take 1024 and 4096 bytes. -/
theorem no_overlap (A : Allocator) (blockSize : Nat) (hfits : sizeofBlock + blockSize ≤ ptrdiffMax)
    (p : Pool) (hinit : cpoolInit A blockSize = some p) (s : State)
    (h : Reach (step A) Any (start p) s) :
    (∃ blocks larges, NoOverlap s blocks larges) ∧
      ∀ s₁ s₂ s₃, step A s .save = some s₁ →
        Reach (step A) (Above s₁.pool.snapshots.length) s₁ s₂ →
        s₂.pool.snapshots.length = s₁.pool.snapshots.length →
        step A s₂ .restore = some s₃ → ∀ a ∈ s.allocs, a ∈ s₃.allocs := by
  obtain ⟨blocks, larges, hinv⟩ : ∃ blocks larges, Inv s blocks larges :=
    h.invariant (fun s => ∃ blocks larges, Inv s blocks larges) (inv_start hfits hinit)
      fun _ _ _ ⟨_, _, hs⟩ _ hstep => inv_step hs hstep
  refine ⟨⟨blocks, larges, hinv.noOverlap⟩, fun s₁ s₂ s₃ hsave hreach hdepth hrestore a ha => ?_⟩
  have hmade := hinv.depth a ha
  have hsaved := allocs_step hsave (by simp) ha
  simp only [step, Option.ite_none_right_eq_some, Option.some.injEq] at hsave
  obtain ⟨-, rfl⟩ := hsave
  have hlt : a.depth < s.pool.cpoolSave.snapshots.length := Nat.lt_succ_of_le hmade
  -- no restore between the two goes back behind the save
  have hkept : a ∈ s₂.allocs := by
    refine hreach.invariant (fun t => a ∈ t.allocs) hsaved fun t action t' ht habove hstep => ?_
    by_cases haction : action = .restore
    · subst haction
      exact (allocs_restore hstep).mpr ⟨ht, hlt.trans habove⟩
    · exact allocs_step hstep haction ht
  exact (allocs_restore hrestore).mpr ⟨hkept, hdepth ▸ hlt⟩

/-! ## A run -/

theorem bump_fresh (live : List Region) (_ size addr : Nat)
    (h : some (1 + (live.map fun r => r.addr + r.size).sum) = some addr) (r : Region)
    (hr : r ∈ live) : Region.Apart ⟨addr, size⟩ r := by
  have hle := List.single_le_sum (fun _ _ => Nat.zero_le _) _
    (List.mem_map_of_mem (f := fun r : Region => r.addr + r.size) hr)
  have haddr := Option.some.inj h
  constructor
  · dsimp only
    omega
  · exact .inr (by dsimp only; omega)

/-- An allocator that goes on behind everything in use. -/
def bump : Allocator where
  answer live _ _ := some (1 + (live.map fun r => r.addr + r.size).sum)
  fresh := bump_fresh

/-- A block is filled, and what follows a save, a large block among it, is taken back. -/
def filled : List Action :=
  [.palloc 1000, .align 8, .palloc 24, .save, .palloc 5000, .pcalloc 10 10, .align 16, .restore,
    .palloc 1]

/-- `no_overlap` behind these calls: three allocations are in force. -/
theorem no_overlap_filled :
    ∃ p s blocks larges, cpoolInit bump 1024 = some p ∧ s.allocs.length = 3 ∧
      NoOverlap s blocks larges := by
  obtain ⟨p, hinit, hrun⟩ := Option.bind_eq_some_iff.mp
    (show ((cpoolInit bump 1024).bind fun p =>
      (exec (guarded (step bump) Any) (start p) filled).map fun s => s.allocs.length) = some 3 by
        decide +kernel)
  obtain ⟨s, hreach, hlength⟩ := Reach.of_exec_map hrun
  obtain ⟨⟨blocks, larges, hall⟩, -⟩ := no_overlap bump 1024 (by decide) p hinit s hreach
  exact ⟨p, s, blocks, larges, hinit, hlength, hall⟩

end Foxtails.Cpool
