/-
  Strings in the pool.

  Model (read this before the theorems). A `Heap` is a pool with the byte at every address.
  `pstrdup` and `pstrndup` take memory from the pool, as `step` does, and copy a string and its
  NUL to it. A call is `none` where an assertion fails, and where it is given NULL to write to.

  A snapshot that is restored takes memory back, and it is handed out again. `Kept d` is what
  the functions that save and restore rely on: what was made behind at most `d` snapshots is
  still there, with its bytes.

  * `Pool.palloc_snapshots`, `Pool.cpoolRestore_snapshots`: only a save and a restore change the
    number of snapshots.
  * `Pool.palloc_some`: where `malloc` refuses nothing, `palloc` does not either.
  * `Sound.pstrndup`, `Sound.save`, `Sound.restore`: what the calls do.
  * `Sound.write`: a string that is written to keeps the others.
  * `sound_of_reached`: every pool that calls have made of that of `cpool_init` is in order.
-/
import Foxtails.Cpool.NoOverlap

namespace Foxtails.Cpool

open Foxtails.Lib.Chain Foxtails.Lib.Libc Foxtails.Lib.Malloc Foxtails.Lib.Run

/-! ## The snapshots -/

namespace Pool

variable (A : Allocator) (p : Pool) (size : Nat)

theorem malloc_snapshots : (p.malloc A size).1.snapshots = p.snapshots := rfl

theorem initBlock_snapshots : (p.initBlock A).1.snapshots = p.snapshots := by
  have hmalloc := p.malloc_snapshots A ((sizeofBlock + p.blockSize) % SIZE)
  unfold initBlock
  split
  · next heq =>
    rw [heq] at hmalloc
    exact hmalloc
  · next heq =>
    rw [heq] at hmalloc
    exact hmalloc

theorem appendBlock_snapshots : (p.appendBlock A).1.snapshots = p.snapshots := by
  have hinit := p.initBlock_snapshots A
  unfold appendBlock
  split
  · next heq =>
    rw [heq] at hinit
    exact hinit
  · next heq =>
    rw [heq] at hinit
    exact hinit

theorem setLink_snapshots (lb : Option Nat) (link : Link) :
    (p.setLink lb link).snapshots = p.snapshots := by
  cases link <;> rfl

theorem allocLargeBlock_snapshots : (p.allocLargeBlock A size).1.snapshots = p.snapshots := by
  have hmalloc := p.malloc_snapshots A sizeofLargeBlock
  unfold allocLargeBlock
  dsimp only
  split
  · next q heq =>
    rw [heq] at hmalloc
    exact (q.setLink_snapshots none p.link).trans hmalloc
  · next q lb heq =>
    rw [heq] at hmalloc
    have hdata := ((q.setLink (some lb) p.link).malloc_snapshots A size).trans
      ((q.setLink_snapshots (some lb) p.link).trans hmalloc)
    split
    · next r hr =>
      rw [hr] at hdata
      exact ((r.free lb).setLink_snapshots none p.link).trans hdata
    · next r data hr =>
      rw [hr] at hdata
      exact hdata

theorem blockFor_snapshots : (p.blockFor A size).1.snapshots = p.snapshots := by
  unfold blockFor
  split
  · exact p.appendBlock_snapshots A
  · split_ifs
    · split
      · rfl
      · exact p.appendBlock_snapshots A
    · rfl

theorem take_snapshots (b : Nat) : (p.take b size).1.snapshots = p.snapshots := by
  unfold Pool.take
  dsimp only
  split_ifs <;> rfl

theorem palloc_snapshots : (p.palloc A size).1.snapshots = p.snapshots := by
  have hblock := p.blockFor_snapshots A size
  unfold palloc
  split_ifs
  · exact p.allocLargeBlock_snapshots A size
  · split
    · next heq =>
      rw [heq] at hblock
      exact hblock
    · next q b heq =>
      rw [heq] at hblock
      exact (q.take_snapshots size b).trans hblock

theorem pcalloc_snapshots (num : Nat) : (p.pcalloc A num size).1.snapshots = p.snapshots := by
  unfold pcalloc
  split_ifs
  · rfl
  · exact p.palloc_snapshots A _

theorem cpoolRestore_snapshots (snapshot : Snapshot) :
    (p.cpoolRestore snapshot).snapshots = p.snapshots := by
  have hblocks : (p.restoreBlocks snapshot).snapshots = p.snapshots := by
    unfold Pool.restoreBlocks Pool.clear
    dsimp only
    obtain ⟨block, heq, -⟩ := clear_spec (walk _ _ _) (p.setHead _ _ _)
    rw [heq]
    rfl
  have hlarge : ∀ q : Pool, (q.restoreLarge snapshot).snapshots = q.snapshots := by
    intro q
    unfold Pool.restoreLarge Pool.freeLarge
    dsimp only
    obtain ⟨memory, large, heq, -⟩ := freeLarge_spec (walk _ _ _) q
    rw [heq]
    cases snapshot.largeCurrent <;> rfl
  exact (hlarge _).trans hblocks

end Pool

/-! ## Allocations that succeed -/

namespace Pool

variable {A : Allocator} (hA : A.Answers) (p : Pool) (size : Nat)

theorem pcalloc_one {num : Nat} (hnum : num < SIZE) : p.pcalloc A num 1 = p.palloc A num := by
  have hover : ¬ Overflows num 1 := by
    rintro ⟨hzero, hgt⟩
    have hle := (Nat.le_div_iff_mul_le (Nat.pos_of_ne_zero hzero)).mpr
      (show 1 * num ≤ SIZE - 1 by simp only [SIZE] at hnum ⊢; omega)
    exact absurd hgt (not_lt.mpr hle)
  rw [Pool.pcalloc, if_neg hover, Nat.one_mul, Nat.mod_eq_of_lt hnum]

include hA

theorem malloc_some : ∃ memory addr, p.malloc A size = ({ p with memory }, some addr) := by
  obtain ⟨memory, addr, hmalloc⟩ := hA.malloc p.memory size
  exact ⟨memory, addr, by rw [Pool.malloc, hmalloc]⟩

theorem appendBlock_some : ∃ p' b, p.appendBlock A = (p', some b) := by
  obtain ⟨memory, b, hmalloc⟩ := p.malloc_some hA ((sizeofBlock + p.blockSize) % SIZE)
  unfold Pool.appendBlock Pool.initBlock
  rw [hmalloc]
  exact ⟨_, b, rfl⟩

theorem allocLargeBlock_some : ∃ p' addr, p.allocLargeBlock A size = (p', some addr) := by
  obtain ⟨memory, lb, hlb⟩ := p.malloc_some hA sizeofLargeBlock
  obtain ⟨memory', data, hdata⟩ :=
    (({ p with memory } : Pool).setLink (some lb) p.link).malloc_some hA size
  unfold Pool.allocLargeBlock
  rw [hlb]
  dsimp only
  rw [hdata]
  exact ⟨_, data, rfl⟩

theorem blockFor_some : ∃ p' b, p.blockFor A size = (p', some b) := by
  unfold Pool.blockFor
  split
  · exact p.appendBlock_some hA
  · next b hcurrent =>
    split_ifs
    · split
      · exact ⟨_, _, rfl⟩
      · exact p.appendBlock_some hA
    · exact ⟨p, b, rfl⟩

/-- Where `malloc` refuses nothing, `palloc` does not either. -/
theorem palloc_some : ∃ p' addr, p.palloc A size = (p', some addr) := by
  unfold Pool.palloc
  split_ifs
  · exact p.allocLargeBlock_some hA size
  · obtain ⟨p', b, hblock⟩ := p.blockFor_some hA size
    rw [hblock]
    exact ⟨_, _, rfl⟩

end Pool

/-! ## The bytes -/

structure Heap where
  state : State
  bytes : Nat → Byte

namespace Heap

variable (A : Allocator) (h : Heap)

/-- A call that does not allocate. -/
def act (action : Action) : Option Heap :=
  (step A h.state action).map fun state => { h with state }

def save : Option Heap := h.act A .save

def restore : Option Heap := h.act A .restore

/-- The bytes of an object are written to. -/
def write (addr : Nat) (obj : Bytes) : Heap := { h with bytes := store h.bytes addr obj }

/-- The copy of a string to the memory that was asked for. -/
def copyTo (str : Bytes) : Option State → Option Nat → Option (Heap × Nat)
  | some state, some addr => some (({ h with state } : Heap).write addr (str ++ [NUL]), addr)
  | _, _ => none

/-- `pstrdup`. -/
def pstrdup (str : Bytes) : Option (Heap × Nat) :=
  h.copyTo str (step A h.state (.palloc (str.length + 1)))
    (h.state.pool.palloc A (str.length + 1)).2

/-- `pstrndup`, with the string that `strnlen` has measured. -/
def pstrndup (str : Bytes) : Option (Heap × Nat) :=
  h.copyTo str (step A h.state (.pcalloc (str.length + 1) 1))
    (h.state.pool.pcalloc A (str.length + 1) 1).2

/-- The same where NULL is a result like any other. -/
def pstrndupOrNull (str : Bytes) : Option (Heap × Option Nat) :=
  match h.pstrndup A str with
  | some (h, addr) => some (h, some addr)
  | none => (h.act A (.pcalloc (str.length + 1) 1)).map fun h => (h, none)

end Heap

/-! ## What is kept -/

variable {A : Allocator} {h h' h'' : Heap} {d d' addr : Nat} {str obj : Bytes}

/-- The pool is in order, with `d` snapshots. -/
structure Sound (h : Heap) (d : Nat) : Prop where
  inv : ∃ blocks larges, Inv h.state blocks larges
  depth : h.state.pool.snapshots.length = d

/-- What was made behind at most `d` snapshots is still in force, with its bytes. -/
def Kept (d : Nat) (h h' : Heap) : Prop :=
  ∀ a ∈ h.state.allocs, a.depth ≤ d →
    a ∈ h'.state.allocs ∧ load h'.bytes a.addr a.size = load h.bytes a.addr a.size

theorem Kept.trans (hkept : Kept d h h') (hkept' : Kept d h' h'') : Kept d h h'' := by
  intro a ha hdepth
  obtain ⟨hmem, hload⟩ := hkept a ha hdepth
  obtain ⟨hmem', hload'⟩ := hkept' a hmem hdepth
  exact ⟨hmem', hload'.trans hload⟩

/-- The string is at `addr`, in memory that was taken behind `d` snapshots. -/
def Holds (d : Nat) (h : Heap) (addr : Nat) (str : Bytes) : Prop :=
  (⟨⟨addr, str.length + 1⟩, d⟩ : Alloc) ∈ h.state.allocs ∧
    load h.bytes addr (str.length + 1) = str ++ [NUL]

theorem Holds.mono (hholds : Holds d h addr str) (hkept : Kept d' h h') (hle : d ≤ d') :
    Holds d h' addr str := by
  obtain ⟨hmem, hload⟩ := hholds
  obtain ⟨hmem', hload'⟩ := hkept _ hmem hle
  exact ⟨hmem', hload'.trans hload⟩

/-- Memory in force has no address in common with other memory in force. -/
theorem Sound.disjoint (hsound : Sound h d) {a a' : Alloc} (ha : a ∈ h.state.allocs)
    (ha' : a' ∈ h.state.allocs) (hne : a ≠ a') : a.Disjoint a'.toRegion := by
  obtain ⟨blocks, larges, hinv⟩ := hsound.inv
  have hsymm : Std.Symm fun a a' : Alloc => a.Disjoint a'.toRegion := ⟨fun _ _ h => h.symm⟩
  exact hinv.disjoint.forall ha ha' hne

/-- There is one string at an address. -/
theorem Holds.unique {str' : Bytes} (hsound : Sound h d') (hholds : Holds d h addr str)
    (hholds' : Holds d h addr str') : str = str' := by
  have hlen : str.length = str'.length := by
    by_contra hne
    have hdisjoint := hsound.disjoint hholds.1 hholds'.1 fun heq => hne (by simpa using heq)
    unfold Region.Disjoint at hdisjoint
    dsimp only at hdisjoint
    omega
  have hload := hholds.2.symm
  rw [hlen, hholds'.2] at hload
  exact List.append_cancel_right hload

/-- The memory of a string that was made behind more than `d` snapshots is written to. -/
theorem Sound.write (hsound : Sound h d') (hholds : Holds d' h addr str) (hlt : d < d')
    (hlen : obj.length = str.length + 1) :
    Sound (h.write addr obj) d' ∧ Kept d h (h.write addr obj) := by
  refine ⟨⟨hsound.inv, hsound.depth⟩, fun a ha hdepth => ⟨ha, ?_⟩⟩
  have hne : a ≠ ⟨⟨addr, str.length + 1⟩, d'⟩ := by
    rintro rfl
    exact absurd hdepth (not_le.mpr hlt)
  apply load_store_disjoint
  rw [hlen]
  exact hsound.disjoint ha hholds.1 hne

theorem Sound.save (hsound : Sound h d) (hd : d < maxSaveDepth) :
    ∃ h', h.save A = some h' ∧ Sound h' (d + 1) ∧ ∀ d', Kept d' h h' := by
  obtain ⟨⟨blocks, larges, hinv⟩, rfl⟩ := hsound
  have hstep : step A h.state .save = some { h.state with pool := h.state.pool.cpoolSave } :=
    if_pos hd
  refine ⟨⟨_, h.bytes⟩, ?_, ⟨⟨blocks, larges, hinv.save⟩, rfl⟩, fun d' a ha _ => ⟨ha, rfl⟩⟩
  unfold Heap.save Heap.act
  rw [hstep]
  rfl

theorem Sound.restore (hsound : Sound h (d + 1)) :
    ∃ h', h.restore A = some h' ∧ Sound h' d ∧ Kept d h h' := by
  obtain ⟨⟨blocks, larges, hinv⟩, hdepth⟩ := hsound
  cases hsnapshots : h.state.pool.snapshots with
  | nil =>
    rw [hsnapshots] at hdepth
    cases hdepth
  | cons snapshot snapshots =>
    rw [hsnapshots, List.length_cons] at hdepth
    obtain rfl := Nat.succ.inj hdepth
    obtain ⟨older, hinv'⟩ := hinv.restore hsnapshots
    refine ⟨⟨_, h.bytes⟩, ?_, ⟨⟨blocks, older, hinv'⟩, ?_⟩, fun a ha hle => ⟨?_, rfl⟩⟩
    · unfold Heap.restore Heap.act step
      dsimp only
      rw [hsnapshots]
      rfl
    · show (Pool.cpoolRestore _ _).snapshots.length = _
      rw [Pool.cpoolRestore_snapshots]
    · exact List.mem_filter.mpr ⟨ha, decide_eq_true hle⟩

theorem mem_allocated {s : State} {a : Alloc} {size : Nat} {result : Pool × Option Nat}
    (ha : a ∈ s.allocs) : a ∈ (s.allocated size result).allocs := by
  unfold State.allocated
  dsimp only
  split
  · exact ha
  · exact List.mem_cons_of_mem _ ha

/-- A call that allocates, or is refused. -/
theorem Sound.allocated {size : Nat} {result : Pool × Option Nat} (hsound : Sound h d)
    (hinv : ∃ blocks larges, Inv (h.state.allocated size result) blocks larges)
    (hsnapshots : result.1.snapshots = h.state.pool.snapshots) (bytes : Nat → Byte) :
    Sound ⟨h.state.allocated size result, bytes⟩ d :=
  ⟨hinv, (congrArg List.length hsnapshots).trans hsound.depth⟩

theorem Sound.palloc {size : Nat} (hsound : Sound h d) (hact : h.act A (.palloc size) = some h') :
    Sound h' d := by
  obtain ⟨state, hstep, rfl⟩ := Option.map_eq_some_iff.mp hact
  obtain ⟨blocks, larges, hinv⟩ := hsound.inv
  obtain ⟨-, hstate⟩ := Option.ite_none_right_eq_some.mp hstep
  obtain rfl := Option.some.inj hstate
  exact hsound.allocated (hinv.palloc A size) (Pool.palloc_snapshots ..) h.bytes

theorem Sound.pcalloc {num size : Nat} (hsound : Sound h d)
    (hact : h.act A (.pcalloc num size) = some h') : Sound h' d := by
  obtain ⟨state, hstep, rfl⟩ := Option.map_eq_some_iff.mp hact
  obtain ⟨blocks, larges, hinv⟩ := hsound.inv
  obtain ⟨⟨⟨hnum, -⟩, -⟩, hstate⟩ := Option.ite_none_right_eq_some.mp hstep
  obtain rfl := Option.some.inj hstate
  exact hsound.allocated (hinv.pcalloc A hnum) (Pool.pcalloc_snapshots ..) h.bytes

/-- A string is copied to the memory that `p` gives. -/
theorem Sound.copyTo {p : Pool} (hsound : Sound h d)
    (hinv : ∃ blocks larges,
      Inv (h.state.allocated (str.length + 1) (p, some addr)) blocks larges)
    (hsnapshots : p.snapshots = h.state.pool.snapshots) :
    ∃ h', h.copyTo str (some (h.state.allocated (str.length + 1) (p, some addr))) (some addr) =
        some (h', addr) ∧ Sound h' d ∧ Holds d h' addr str ∧ ∀ d', Kept d' h h' := by
  have hsound' := hsound.allocated hinv hsnapshots (store h.bytes addr (str ++ [NUL]))
  obtain rfl := hsound.depth
  refine ⟨_, rfl, hsound', ⟨List.mem_cons_self, ?_⟩,
    fun d' a ha _ => ⟨List.mem_cons_of_mem _ ha, ?_⟩⟩
  · have hself := load_store_self h.bytes addr (str ++ [NUL])
    rw [List.length_append, List.length_singleton] at hself
    exact hself
  · obtain ⟨blocks, larges, hinv⟩ := hinv
    have hdisjoint := (List.pairwise_cons.mp hinv.disjoint).1 a ha
    refine load_store_disjoint h.bytes (Region.Disjoint.symm ?_)
    rw [List.length_append, List.length_singleton]
    exact hdisjoint

theorem step_pcalloc (A : Allocator) (h : Heap) (hlen : str.length + 1 < SIZE) :
    step A h.state (.pcalloc (str.length + 1) 1) =
      some (h.state.allocated (str.length + 1) (h.state.pool.palloc A (str.length + 1))) := by
  have hstep : step A h.state (.pcalloc (str.length + 1) 1) = some _ :=
    if_pos ⟨⟨Nat.succ_pos _, hlen⟩, by decide, by decide⟩
  rw [hstep, Pool.pcalloc_one _ hlen, Nat.one_mul]

/-- `pstrndup` where `palloc` gives memory. -/
theorem Sound.pstrndup_of_palloc {p : Pool} (hsound : Sound h d) (hlen : str.length + 1 < SIZE)
    (hpalloc : h.state.pool.palloc A (str.length + 1) = (p, some addr)) :
    ∃ h', h.pstrndup A str = some (h', addr) ∧ Sound h' d ∧ Holds d h' addr str ∧
      ∀ d', Kept d' h h' := by
  obtain ⟨blocks, larges, hinv⟩ := hsound.inv
  have hinv' := hinv.palloc A (str.length + 1)
  have hsnapshots := h.state.pool.palloc_snapshots A (str.length + 1)
  rw [hpalloc] at hinv' hsnapshots
  obtain ⟨h', hcopy, hspec⟩ := hsound.copyTo hinv' hsnapshots
  refine ⟨h', ?_, hspec⟩
  unfold Heap.pstrndup
  rw [step_pcalloc A h hlen, Pool.pcalloc_one _ hlen, hpalloc]
  exact hcopy

/-- The string is copied, or memory is refused. -/
theorem Sound.pstrndup_cases (A : Allocator) (hsound : Sound h d) (hlen : str.length + 1 < SIZE) :
    (h.pstrndup A str = none ∧ ¬ A.Answers) ∨
      ∃ h' addr, h.pstrndup A str = some (h', addr) ∧ Sound h' d ∧ Holds d h' addr str ∧
        ∀ d', Kept d' h h' := by
  rcases hpalloc : h.state.pool.palloc A (str.length + 1) with ⟨p, result⟩
  cases result with
  | some addr =>
    obtain ⟨h', hspec⟩ := hsound.pstrndup_of_palloc hlen hpalloc
    exact .inr ⟨h', addr, hspec⟩
  | none =>
    refine .inl ⟨?_, fun hA => ?_⟩
    · unfold Heap.pstrndup
      rw [step_pcalloc A h hlen, Pool.pcalloc_one _ hlen, hpalloc]
      rfl
    · obtain ⟨q, addr, hq⟩ := h.state.pool.palloc_some hA (str.length + 1)
      rw [hpalloc] at hq
      cases hq

theorem Sound.pstrndup (hA : A.Answers) (hsound : Sound h d) (hlen : str.length + 1 < SIZE) :
    ∃ h' addr, h.pstrndup A str = some (h', addr) ∧ Sound h' d ∧ Holds d h' addr str ∧
      ∀ d', Kept d' h h' :=
  (hsound.pstrndup_cases A hlen).resolve_left fun hrefused => hrefused.2 hA

/-- `pstrdup` is `pstrndup` with the length of the string. -/
theorem pstrdup_eq (A : Allocator) (h : Heap) (hlen : str.length + 1 < SIZE) :
    h.pstrdup A str = h.pstrndup A str := by
  unfold Heap.pstrdup Heap.pstrndup
  rw [step_pcalloc A h hlen, Pool.pcalloc_one _ hlen]
  exact congrArg (h.copyTo str · _) (if_pos ⟨Nat.succ_pos _, hlen⟩)

/-- Whatever `malloc` answers: a string, or NULL. -/
theorem Sound.pstrndupOrNull (hsound : Sound h d) (hlen : str.length + 1 < SIZE) :
    ∃ h' r, h.pstrndupOrNull A str = some (h', r) ∧ Sound h' d ∧ (∀ d', Kept d' h h') ∧
      (∀ addr, r = some addr → h.pstrndup A str = some (h', addr) ∧ Holds d h' addr str) ∧
      (A.Answers → r ≠ none) := by
  unfold Heap.pstrndupOrNull
  rcases hsound.pstrndup_cases A hlen with
    ⟨hnull, hrefused⟩ | ⟨h', addr, hdup, hsound', hholds, hkept⟩
  · obtain ⟨blocks, larges, hinv⟩ := hsound.inv
    have hsound' := hsound.allocated (hinv.palloc A (str.length + 1))
      (h.state.pool.palloc_snapshots A (str.length + 1)) h.bytes
    have hact : h.act A (.pcalloc (str.length + 1) 1) =
        some ⟨h.state.allocated (str.length + 1) (h.state.pool.palloc A (str.length + 1)),
          h.bytes⟩ := by
      unfold Heap.act
      rw [step_pcalloc A h hlen]
      rfl
    rw [hnull, hact]
    exact ⟨_, none, rfl, hsound', fun d' a ha _ => ⟨mem_allocated ha, rfl⟩,
      fun addr haddr => (by cases haddr), fun hA => absurd hA hrefused⟩
  · rw [hdup]
    refine ⟨h', some addr, rfl, hsound', hkept, fun addr' haddr => ?_,
      fun _ => Option.some_ne_none addr⟩
    obtain rfl := Option.some.inj haddr
    exact ⟨rfl, hholds⟩

/-! ## The pools of a program -/

/-- How many snapshots there are. -/
def Heap.depth (h : Heap) : Nat := h.state.pool.snapshots.length

/-- Calls have led to this pool from that of `cpool_init`. -/
def Heap.Reached (A : Allocator) (h : Heap) : Prop :=
  ∃ blockSize p, sizeofBlock + blockSize ≤ ptrdiffMax ∧ cpoolInit A blockSize = some p ∧
    Reach (step A) Any (start p) h.state

theorem sound_of_reached (hreached : h.Reached A) : Sound h h.depth := by
  obtain ⟨blockSize, p, hfits, hinit, hrun⟩ := hreached
  exact ⟨hrun.invariant (fun s => ∃ blocks larges, Inv s blocks larges) (inv_start hfits hinit)
    fun _ _ _ ⟨_, _, hs⟩ _ hstep => inv_step hs hstep, rfl⟩

/-- There is no snapshot in the pool of `cpool_init`. -/
theorem sound_start {blockSize : Nat} {p : Pool} (hfits : sizeofBlock + blockSize ≤ ptrdiffMax)
    (hinit : cpoolInit A blockSize = some p) (bytes : Nat → Byte) : Sound ⟨start p, bytes⟩ 0 := by
  refine ⟨inv_start hfits hinit, ?_⟩
  have hsize : sizeofBlock + blockSize < SIZE := by
    simp only [ptrdiffMax, SIZE] at hfits ⊢
    omega
  obtain ⟨m, root, -, rfl⟩ := cpoolInit_eq hsize hinit
  rfl

end Foxtails.Cpool
