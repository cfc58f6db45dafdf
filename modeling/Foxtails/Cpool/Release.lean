/-
  What a pool gives back.

  Model (read this before the theorems). `cpool_reset` and `cpool_uninit` join the calls of
  `Cpool.Blocks`. A `checked…` function is the one of the same name with every `CPOOL_FREE`
  checked: the address has to be one that `CPOOL_ALLOC` gave and that is still in use, or there
  is no result. `cpool_uninit` has this check only. The pool's own address is the argument
  `pool`; `cpool_init` that fails leaves no pool and is left out.

  * `Accounts`: what a pool has of the allocator is its own structure, the blocks of its chain,
    and its large blocks with their data, each once.
  * `accounts_step`: every call keeps this, and every address it frees is in use.
  * `memory_accounted`: so it is in every run, and `cpool_uninit` leaves nothing in use.
-/
import Foxtails.Cpool.NoOverlap

namespace Foxtails.Cpool

open Foxtails.Lib.Chain Foxtails.Lib.Libc Foxtails.Lib.Malloc Foxtails.Lib.Run

namespace Pool

variable (A : Allocator) (p : Pool)

/-! ## Freeing -/

/-- `CPOOL_FREE` of an address in use. -/
def checkedFree (addr : Nat) : Option Pool :=
  (p.memory.release addr).map fun memory => { p with memory }

/-- A round of a loop that frees large blocks: the data, a write to the node, the node. -/
def freeNode (write : LargeBlock → LargeBlock) (p : Pool) (lb : Nat) : Pool :=
  ((p.free (p.large lb).data).setLarge lb (write (p.large lb))).free lb

def checkedFreeNode (write : LargeBlock → LargeBlock) (p : Pool) (lb : Nat) : Option Pool :=
  (p.checkedFree (p.large lb).data).bind fun q =>
    (q.setLarge lb (write (p.large lb))).checkedFree lb

/-- `cpool_reset` on the blocks: its loop empties each and leaves `last` at the last. -/
def resetBlocks : Pool :=
  { p.clear (some p.root) with current := some p.root, last := p.lastFrom p.root }

/-- `cpool_reset` on the large blocks. -/
def resetLarge : Pool :=
  let p := (walk p.largeNext p.rounds p.largeRoot).foldl
    (freeNode fun lb => { lb with data := 0 }) p
  { p with largeRoot := none, largeLast := none }

/-- `cpool_reset`. -/
def cpoolReset : Pool := { p.resetBlocks.resetLarge with snapshots := [] }

/-- `cpool_uninit`: what is left in use. -/
def cpoolUninit (pool : Nat) : Option Memory :=
  ((walk p.next p.rounds (some p.root)).foldlM Memory.release p.memory).bind fun memory =>
    ((walk p.largeNext p.rounds p.largeRoot).foldlM
      (fun (memory : Memory) lb =>
        (memory.release (p.large lb).data).bind fun memory => memory.release lb)
      memory).bind fun memory => memory.release pool

/-! ## Calls with their frees checked -/

def checkedAllocLargeBlock (size : Nat) : Option (Pool × Option Nat) :=
  let link := p.link
  match p.malloc A sizeofLargeBlock with
  | (p, none) => some (p.setLink none link, none)
  | (p, some lb) =>
    match (p.setLink (some lb) link).malloc A size with
    | (p, none) => (p.checkedFree lb).map fun p => (p.setLink none link, none)
    | (p, some data) =>
      some ({ p.setLarge lb { data, next := none } with largeLast := some lb }, some data)

def checkedPalloc (size : Nat) : Option (Pool × Option Nat) :=
  if size > p.blockSize then p.checkedAllocLargeBlock A size else some (p.palloc A size)

def checkedPcalloc (num size : Nat) : Option (Pool × Option Nat) :=
  if Overflows num size then some (p, none) else p.checkedPalloc A (size * num % SIZE)

def checkedFreeLarge (lb : Option Nat) : Option Pool :=
  (walk p.largeNext p.rounds lb).foldlM (checkedFreeNode fun lb => { lb with next := none }) p

def checkedRestoreLarge (snapshot : Snapshot) : Option Pool :=
  (p.checkedFreeLarge (match snapshot.largeCurrent with
    | none => p.largeRoot
    | some lb => (p.large lb).next)).map fun p =>
    let p := { p with largeLast := snapshot.largeCurrent }
    match snapshot.largeCurrent with
    | none => { p with largeRoot := none }
    | some lb => p.setLarge lb { p.large lb with next := none }

def checkedRestore (snapshot : Snapshot) : Option Pool :=
  ((p.restoreBlocks snapshot).checkedRestoreLarge snapshot).map fun p =>
    { p with last := p.lastFrom snapshot.last }

def checkedResetLarge : Option Pool :=
  ((walk p.largeNext p.rounds p.largeRoot).foldlM
    (checkedFreeNode fun lb => { lb with data := 0 }) p).map fun p =>
    { p with largeRoot := none, largeLast := none }

def checkedReset : Option Pool :=
  p.resetBlocks.checkedResetLarge.map fun p => { p with snapshots := [] }

end Pool

/-! ## Runs with resets -/

inductive LifeAction where
  | call (action : Action)
  | reset

/-- A reset takes back all allocations. -/
def lifeStep (A : Allocator) (s : State) : LifeAction → Option State
  | .call action => step A s action
  | .reset => some { pool := s.pool.cpoolReset, allocs := [] }

/-- The same with the frees checked. -/
def checkedStep (A : Allocator) (s : State) : LifeAction → Option State
  | .call (.palloc size) =>
    if 0 < size ∧ size < SIZE then (s.pool.checkedPalloc A size).map (s.allocated size) else none
  | .call (.pcalloc num size) =>
    if (0 < num ∧ num < SIZE) ∧ 0 < size ∧ size < SIZE then
      (s.pool.checkedPcalloc A num size).map (s.allocated (size * num))
    else none
  | .call .restore =>
    match s.pool.snapshots with
    | [] => none
    | snapshot :: snapshots =>
      ({ s.pool with snapshots }.checkedRestore snapshot).map fun pool =>
        { pool, allocs := s.allocs.filter fun a => a.depth ≤ snapshots.length }
  | .call action => step A s action
  | .reset => s.pool.checkedReset.map fun pool => { pool, allocs := [] }

variable {A : Allocator} {p p' : Pool} {pool : Nat} {blocks larges : List Nat} {s s' : State}

/-! ## The loops that free -/

/-- The addresses of large blocks and of their data, in the order in which they are freed. -/
def Pool.largeAddrs (p : Pool) (lbs : List Nat) : List Nat :=
  lbs.flatMap fun lb => [p.largeData lb, lb]

theorem Pool.largeAddrs_congr {lbs : List Nat} (h : ∀ lb ∈ lbs, p'.largeData lb = p.largeData lb) :
    p'.largeAddrs lbs = p.largeAddrs lbs := by
  induction lbs with
  | nil => rfl
  | cons lb lbs ih =>
    have hrest := ih fun x hx => h x (List.mem_cons_of_mem lb hx)
    unfold Pool.largeAddrs at hrest ⊢
    rw [List.flatMap_cons, List.flatMap_cons, h lb List.mem_cons_self, hrest]

theorem Pool.checkedFree_of_perm {addr : Nat} {rest : List Nat}
    (h : p.memory.addrs.Perm (addr :: rest)) :
    p.checkedFree addr = some (p.free addr) ∧ (p.free addr).memory.addrs.Perm rest := by
  obtain ⟨hfree, hrest⟩ := Memory.release_of_perm h
  refine ⟨?_, hrest⟩
  rw [Pool.checkedFree, hfree]
  rfl

/-- **A loop that frees large blocks** frees each of their addresses once, and nothing else. -/
theorem freeNodes_of_perm (write : LargeBlock → LargeBlock) {lbs rest : List Nat}
    (hnodup : lbs.Nodup) (h : p.memory.addrs.Perm (p.largeAddrs lbs ++ rest)) :
    ∃ memory large,
      lbs.foldlM (Pool.checkedFreeNode write) p = some { p with memory, large } ∧
      lbs.foldl (Pool.freeNode write) p = { p with memory, large } ∧
      memory.addrs.Perm rest ∧ (∀ x, x ∉ lbs → large x = p.large x) ∧
      ∀ r ∈ p.memory.live, r.addr ∉ p.largeAddrs lbs → r ∈ memory.live := by
  induction lbs generalizing p with
  | nil => exact ⟨p.memory, p.large, rfl, rfl, h, fun _ _ => rfl, fun _ hr _ => hr⟩
  | cons lb lbs ih =>
    obtain ⟨hlb, hnodup⟩ := List.nodup_cons.mp hnodup
    have haddrs : p.largeAddrs (lb :: lbs) = p.largeData lb :: lb :: p.largeAddrs lbs := rfl
    rw [haddrs] at h
    obtain ⟨hdata, h₁⟩ := Pool.checkedFree_of_perm h
    obtain ⟨hnode, h₂⟩ := Pool.checkedFree_of_perm
      (p := (p.free (p.largeData lb)).setLarge lb (write (p.large lb))) h₁
    have hround : Pool.checkedFreeNode write p lb = some (Pool.freeNode write p lb) := by
      unfold Pool.checkedFreeNode
      show (p.checkedFree (p.largeData lb)).bind _ = _
      rw [hdata, Option.bind_some]
      exact hnode
    -- the node's own data no longer counts, and the others' is as before
    have hsame : ∀ x, x ≠ lb → (Pool.freeNode write p lb).large x = p.large x := fun x hx =>
      Function.update_of_ne hx ..
    have hothers : (Pool.freeNode write p lb).largeAddrs lbs = p.largeAddrs lbs := by
      apply Pool.largeAddrs_congr
      intro x hx
      unfold Pool.largeData
      rw [hsame x fun heq => hlb (heq ▸ hx)]
    obtain ⟨memory, large, hchecked, hplain, hrest, hlarge, hlive⟩ :=
      ih (p := Pool.freeNode write p lb) hnodup (by rw [hothers]; exact h₂)
    refine ⟨memory, large, ?_, hplain, hrest, fun x hx => ?_, fun r hr hne => ?_⟩
    · rw [List.foldlM_cons, hround]
      exact hchecked
    · rw [hlarge x fun hmem => hx (List.mem_cons_of_mem lb hmem)]
      exact hsame x fun heq => hx (heq ▸ List.mem_cons_self)
    · rw [haddrs] at hne
      simp only [List.mem_cons, not_or] at hne
      refine hlive r ?_ (by rw [hothers]; exact hne.2.2)
      exact Memory.live_free.mpr ⟨Memory.live_free.mpr ⟨hr, hne.1⟩, hne.2.1⟩

/-! ## What a pool has -/

/-- Besides its own structure a pool has its blocks, and its large blocks with their data. -/
structure Accounts (pool : Nat) (p : Pool) (blocks larges : List Nat) : Prop where
  shape : Shape p blocks larges
  addrs : p.memory.addrs.Perm (pool :: (blocks ++ p.largeAddrs larges))

theorem Shape.unique {blocks' larges' : List Nat} (h : Shape p blocks larges)
    (h' : Shape p blocks' larges') : blocks' = blocks ∧ larges' = larges :=
  ⟨h'.chain.unique h.chain, h'.largeChain.unique h.largeChain⟩

namespace Accounts

/-- The lists, their nodes and the memory are as before. -/
theorem same (h : Accounts pool p blocks larges) (hshape : Shape p' blocks larges)
    (hmemory : p'.memory.live = p.memory.live) (hlarge : p'.large = p.large) :
    Accounts pool p' blocks larges := by
  refine ⟨hshape, ?_⟩
  have haddrs : p'.largeAddrs larges = p.largeAddrs larges :=
    Pool.largeAddrs_congr fun lb _ => congrArg LargeBlock.data (congrFun hlarge lb)
  rw [haddrs, Memory.addrs, hmemory]
  exact h.addrs

variable (h : Accounts pool p blocks larges)

include h

theorem setHead (b head : Nat) (full : Bool) :
    Accounts pool (p.setHead b head full) blocks larges :=
  h.same (h.shape.setBlock rfl rfl) rfl rfl

theorem setCurrent (current : Option Nat) : Accounts pool { p with current } blocks larges :=
  h.same { h.shape with } rfl rfl

theorem appendBlock (A : Allocator) (hsize : sizeofBlock + p.blockSize < SIZE) :
    (∃ blocks', Accounts pool (p.appendBlock A).1 blocks' larges) ∧
      (p.appendBlock A).1.blockSize = p.blockSize := by
  rcases h.shape.appendBlock_cases A hsize with ⟨m, hm, heq⟩ | ⟨m, b, hm, hfresh, heq⟩
  · rw [heq]
    exact ⟨⟨blocks, h.same (h.shape.withMemory hm) hm rfl⟩, rfl⟩
  · rw [heq]
    refine ⟨⟨blocks ++ [b], h.shape.append hm hfresh, ?_⟩, rfl⟩
    have haddrs : (p.appended m b).memory.addrs = b :: p.memory.addrs := by
      show m.live.map Region.addr = _
      rw [hm]
      rfl
    have hlarge : (p.appended m b).largeAddrs larges = p.largeAddrs larges := rfl
    rw [haddrs, hlarge, List.append_assoc]
    calc (b :: p.memory.addrs).Perm (b :: pool :: (blocks ++ p.largeAddrs larges)) :=
          h.addrs.cons b
      _ |>.Perm (pool :: b :: (blocks ++ p.largeAddrs larges)) := List.Perm.swap ..
      _ |>.Perm (pool :: (blocks ++ ([b] ++ p.largeAddrs larges))) :=
          List.perm_middle.symm.cons pool

theorem take (b size : Nat) : Accounts pool (p.take b size).1 blocks larges := by
  unfold Pool.take
  dsimp only
  split_ifs
  · exact ((h.setHead _ _ _).setHead _ _ _).setCurrent _
  · exact h.setHead _ _ _

theorem blockFor (A : Allocator) (hsize : sizeofBlock + p.blockSize < SIZE) (size : Nat) :
    ∃ blocks', Accounts pool (p.blockFor A size).1 blocks' larges := by
  have happend := (h.appendBlock A hsize).1
  unfold Pool.blockFor
  split
  · exact happend
  · split_ifs
    · split
      · exact ⟨blocks, h.setCurrent _⟩
      · exact happend
    · exact ⟨blocks, h⟩

omit h in
/-- The one free of `__alloc_large_block` is that of the node it has just been given. -/
theorem checkedAllocLargeBlock_eq (A : Allocator) (p : Pool) (size : Nat) :
    p.checkedAllocLargeBlock A size = some (p.allocLargeBlock A size) := by
  unfold Pool.checkedAllocLargeBlock Pool.allocLargeBlock Pool.malloc
  rcases Memory.malloc_cases A p.memory sizeofLargeBlock with heq | ⟨lb, hfresh, heq⟩
  · rw [heq]
  · rw [heq]
    dsimp only
    have hmemory : (Pool.setLink { p with memory := p.memory.add _ hfresh } (some lb)
        p.link).memory = p.memory.add _ hfresh := by
      cases p.link <;> rfl
    rw [hmemory]
    rcases Memory.malloc_cases A (p.memory.add _ hfresh) size with heq | ⟨data, hfresh', heq⟩
    · rw [heq]
      have hlb : lb ∈ (p.memory.add _ hfresh).refuse.addrs := List.mem_cons_self
      dsimp only
      rw [Pool.checkedFree, Memory.release, if_pos hlb]
      rfl
    · rw [heq]

theorem allocLargeBlock (A : Allocator) (size : Nat) :
    ∃ larges', Accounts pool (p.allocLargeBlock A size).1 blocks larges' := by
  rcases h.shape.allocLargeBlock_cases A size with
    ⟨m, hm, heq⟩ | ⟨m, lb, data, hm, hlb, hdata, heq⟩
  · rw [heq]
    exact ⟨larges, h.same (h.shape.withMemory hm) hm rfl⟩
  · rw [heq]
    have hshape := h.shape.appendLarge hm hlb hdata
    refine ⟨larges ++ [lb], hshape, ?_⟩
    have haddrs : (p.appendedLarge m lb data).memory.addrs = data :: lb :: p.memory.addrs := by
      show m.live.map Region.addr = _
      rw [hm]
      rfl
    have hold : (p.appendedLarge m lb data).largeAddrs larges = p.largeAddrs larges := by
      apply Pool.largeAddrs_congr
      intro x hx
      refine (Shape.appendedLarge_of_ne ?_).1
      rintro rfl
      exact h.shape.fresh hlb (List.mem_append_right _ (List.mem_append_left _ hx))
    have hnew : (p.appendedLarge m lb data).largeAddrs (larges ++ [lb]) =
        p.largeAddrs larges ++ [data, lb] := by
      unfold Pool.largeAddrs at hold ⊢
      rw [List.flatMap_append, hold, List.flatMap_singleton, Pool.largeData,
        Shape.appendedLarge_self]
    rw [haddrs, hnew, ← List.append_assoc]
    calc (data :: lb :: p.memory.addrs).Perm
          (data :: lb :: pool :: (blocks ++ p.largeAddrs larges)) := (h.addrs.cons lb).cons data
      _ |>.Perm ((pool :: (blocks ++ p.largeAddrs larges)) ++ [data, lb]) :=
          @List.perm_append_comm _ [data, lb] _

/-- `palloc` frees only what is in use. -/
theorem palloc (A : Allocator) (hsize : sizeofBlock + p.blockSize < SIZE) (size : Nat) :
    (∃ blocks' larges', Accounts pool (p.palloc A size).1 blocks' larges') ∧
      p.checkedPalloc A size = some (p.palloc A size) := by
  unfold Pool.checkedPalloc
  by_cases hlarge : size > p.blockSize
  · have heq : p.palloc A size = p.allocLargeBlock A size := if_pos hlarge
    rw [if_pos hlarge, heq, checkedAllocLargeBlock_eq]
    exact ⟨⟨blocks, h.allocLargeBlock A size⟩, rfl⟩
  · rw [if_neg hlarge]
    obtain ⟨blocks', hblock⟩ := h.blockFor A hsize size
    refine ⟨⟨blocks', larges, ?_⟩, rfl⟩
    unfold Pool.palloc
    rw [if_neg hlarge]
    cases hresult : p.blockFor A size with
    | mk p' b =>
      rw [hresult] at hblock
      cases b with
      | none => exact hblock
      | some b => exact hblock.take b size

theorem pcalloc (A : Allocator) (hsize : sizeofBlock + p.blockSize < SIZE) (num size : Nat) :
    (∃ blocks' larges', Accounts pool (p.pcalloc A num size).1 blocks' larges') ∧
      p.checkedPcalloc A num size = some (p.pcalloc A num size) := by
  unfold Pool.checkedPcalloc Pool.pcalloc
  split_ifs
  · exact ⟨⟨blocks, larges, h⟩, rfl⟩
  · exact h.palloc A hsize _

theorem cpoolAlign (A : Allocator) (hsize : sizeofBlock + p.blockSize < SIZE) (align : Nat) :
    ∃ blocks', Accounts pool (p.cpoolAlign A align).1 blocks' larges := by
  obtain ⟨hblock, hblockSize⟩ :
      (∃ blocks', Accounts pool (p.currentBlock A).1 blocks' larges) ∧
        (p.currentBlock A).1.blockSize = p.blockSize := by
    unfold Pool.currentBlock
    split
    · exact h.appendBlock A hsize
    · exact ⟨⟨blocks, h⟩, rfl⟩
  obtain ⟨blocks', hblock⟩ := hblock
  unfold Pool.cpoolAlign
  cases hresult : p.currentBlock A with
  | mk p' b =>
    rw [hresult] at hblock hblockSize
    have hsize' : sizeofBlock + p'.blockSize < SIZE := lt_of_eq_of_lt (by rw [hblockSize]) hsize
    cases b with
    | none => exact ⟨blocks', hblock⟩
    | some b =>
      dsimp only
      split_ifs
      · exact (((hblock.setHead _ _ _).setHead _ _ _).appendBlock A hsize').1
      · exact ⟨blocks', hblock.setHead _ _ _⟩

/-! ## Restoring and resetting -/

omit h in
/-- The large blocks behind those of a snapshot, as the loop of a restore finds them. -/
theorem walk_behind {older rest : List Nat} {snapshot : Snapshot} {fuel : Nat}
    (hchain : Links p.largeNext p.largeRoot (older ++ rest)) (hlen : rest.length ≤ fuel)
    (holder : older.getLast? = snapshot.largeCurrent) :
    walk p.largeNext fuel (match snapshot.largeCurrent with
      | none => p.largeRoot
      | some lb => (p.large lb).next) = rest := by
  rw [← holder]
  cases hlast : older.getLast? with
  | none =>
    obtain rfl : older = [] := List.getLast?_eq_none_iff.mp hlast
    exact hchain.walk_eq hlen
  | some lb =>
    obtain ⟨front, rfl⟩ := List.getLast?_eq_some_iff.mp hlast
    rw [List.append_assoc, List.singleton_append] at hchain
    exact hchain.behind.walk_eq hlen

/-- What is freed, and what is kept. -/
theorem addrs_split {older rest : List Nat} (hlarges : larges = older ++ rest) :
    p.memory.addrs.Perm (p.largeAddrs rest ++ (pool :: (blocks ++ p.largeAddrs older))) := by
  have hsplit : p.largeAddrs larges = p.largeAddrs older ++ p.largeAddrs rest := by
    rw [hlarges, Pool.largeAddrs, List.flatMap_append]
    rfl
  calc p.memory.addrs.Perm (pool :: (blocks ++ p.largeAddrs larges)) := h.addrs
    _ = (pool :: (blocks ++ p.largeAddrs older)) ++ p.largeAddrs rest := by
        rw [hsplit, List.cons_append, List.append_assoc]
    _ |>.Perm (p.largeAddrs rest ++ (pool :: (blocks ++ p.largeAddrs older))) :=
        List.perm_append_comm

theorem restore {snapshot : Snapshot} {pre post older rest : List Nat}
    (hsplit : blocks = pre ++ snapshot.current.getD snapshot.last :: post)
    (hlast : snapshot.last ∈ blocks) (hlarges : larges = older ++ rest)
    (holder : older.getLast? = snapshot.largeCurrent) :
    Accounts pool (p.cpoolRestore snapshot) blocks older ∧
      p.checkedRestore snapshot = some (p.cpoolRestore snapshot) := by
  obtain ⟨hshape, hrestored⟩ := h.shape.restore hsplit hlast hlarges holder
  obtain ⟨block, hblocks, -⟩ := h.shape.restoreBlocks_spec rfl hsplit
  have hlen : rest.length ≤ p.rounds := by
    refine le_trans ?_ h.shape.large_length_le_rounds
    rw [hlarges, List.length_append]
    exact Nat.le_add_left ..
  have hchain := h.shape.largeChain
  rw [hlarges] at hchain
  have hwalk : walk (p.restoreBlocks snapshot).largeNext (p.restoreBlocks snapshot).rounds
      (match snapshot.largeCurrent with
        | none => (p.restoreBlocks snapshot).largeRoot
        | some lb => ((p.restoreBlocks snapshot).large lb).next) = rest := by
    rw [hblocks]
    exact walk_behind hchain hlen holder
  have haddrs : (p.restoreBlocks snapshot).memory.addrs.Perm
      ((p.restoreBlocks snapshot).largeAddrs rest ++ (pool :: (blocks ++ p.largeAddrs older))) := by
    rw [hblocks]
    exact h.addrs_split hlarges
  obtain ⟨memory, large, hchecked, hplain, hperm, -⟩ :=
    freeNodes_of_perm (fun lb => { lb with next := none }) hchain.nodup.of_append_right haddrs
  have hlarge : (p.restoreBlocks snapshot).checkedFreeLarge (match snapshot.largeCurrent with
      | none => (p.restoreBlocks snapshot).largeRoot
      | some lb => ((p.restoreBlocks snapshot).large lb).next) =
      some ((p.restoreBlocks snapshot).freeLarge (match snapshot.largeCurrent with
        | none => (p.restoreBlocks snapshot).largeRoot
        | some lb => ((p.restoreBlocks snapshot).large lb).next)) := by
    unfold Pool.checkedFreeLarge Pool.freeLarge
    rw [hwalk, hchecked]
    exact congrArg some hplain.symm
  have hmemory : (p.cpoolRestore snapshot).memory = memory := by
    have hloop := congrArg Pool.memory hplain
    rw [← hwalk] at hloop
    unfold Pool.cpoolRestore Pool.restoreLarge Pool.freeLarge
    cases hcurrent : snapshot.largeCurrent with
    | none =>
      rw [hcurrent] at hloop
      exact hloop
    | some lb =>
      rw [hcurrent] at hloop
      exact hloop
  refine ⟨⟨hshape, ?_⟩, ?_⟩
  · rw [hmemory, Pool.largeAddrs_congr hrestored.largeData]
    exact hperm
  · rw [Pool.checkedRestore, Pool.checkedRestoreLarge, hlarge]
    rfl

omit h in
theorem root_mem (h : Shape p blocks larges) : p.root ∈ blocks := by
  have hchain := h.chain
  cases blocks with
  | nil => exact absurd hchain (by simp [Links])
  | cons b blocks =>
    rw [Option.some.inj hchain.1]
    exact List.mem_cons_self

/-- A reset empties the blocks, goes back to the root, and frees all large blocks. -/
theorem reset :
    p.checkedReset = some p.cpoolReset ∧ Accounts pool p.cpoolReset blocks [] ∧
      p.cpoolReset.current = some p.root ∧ p.cpoolReset.blockSize = p.blockSize ∧
      p.cpoolReset.snapshots = [] ∧ ∀ b ∈ blocks, (p.cpoolReset.block b).head = 0 := by
  obtain ⟨block, hclear, hlinks, -, hempty⟩ := clear_spec blocks p
  have hwalk : walk p.next p.rounds (some p.root) = blocks :=
    h.shape.chain.walk_eq h.shape.length_le_rounds
  have hlast : p.lastFrom p.root = p.last := h.shape.lastFrom_eq (root_mem h.shape)
  have hlarges : walk p.largeNext p.rounds p.largeRoot = larges :=
    h.shape.largeChain.walk_eq h.shape.large_length_le_rounds
  have hblocks : p.resetBlocks = { p with block, current := some p.root } := by
    rw [Pool.resetBlocks, Pool.clear, hwalk, hclear, hlast]
  have haddrs : p.resetBlocks.memory.addrs.Perm
      (p.resetBlocks.largeAddrs larges ++ (pool :: (blocks ++ []))) := by
    rw [hblocks]
    exact h.addrs_split (List.nil_append larges).symm
  have hloop : walk p.resetBlocks.largeNext p.resetBlocks.rounds p.resetBlocks.largeRoot =
      larges := by
    rw [hblocks]
    exact hlarges
  obtain ⟨memory, large, hchecked, hplain, hperm, -, hlive⟩ :=
    freeNodes_of_perm (fun lb => { lb with data := 0 }) h.shape.largeChain.nodup haddrs
  have heq : p.cpoolReset =
      { p with
        memory, block, large
        current := some p.root
        largeRoot := none
        largeLast := none
        snapshots := [] } := by
    rw [Pool.cpoolReset, Pool.resetLarge, hloop, hplain, hblocks]
  have hchecked' : p.checkedReset = some p.cpoolReset := by
    rw [heq, Pool.checkedReset, Pool.checkedResetLarge, hloop, hchecked, hblocks]
    rfl
  rw [hblocks] at hlive
  refine ⟨hchecked', ?_⟩
  rw [heq]
  have hkept : ∀ b ∈ blocks, p.blockRegion b ∈ memory.live := by
    intro b hb
    refine hlive _ (h.shape.live b hb) fun hmem => ?_
    obtain ⟨lb, hlb, hx⟩ := List.mem_flatMap.mp hmem
    have hdisjoint := List.disjoint_of_nodup_append h.shape.distinct hb
    simp only [List.mem_cons, List.not_mem_nil, or_false] at hx
    rcases hx with hx | hx
    · exact hdisjoint (List.mem_append_right _ (List.mem_map.mpr ⟨lb, hlb, hx.symm⟩))
    · have hblb : b = lb := hx
      exact hdisjoint (List.mem_append_left _ (hblb ▸ hlb))
  refine ⟨⟨⟨?_, h.shape.last, hkept, fun b hb => ?_, rfl, rfl, ?_, ?_, ?_⟩, ?_⟩, rfl, rfl, rfl,
    hempty⟩
  · exact h.shape.chain.congr fun b _ => (hlinks b).1
  · exact ((hlinks b).2).trans (h.shape.data b hb)
  · exact fun _ hlb => absurd hlb List.not_mem_nil
  · exact fun _ hlb => absurd hlb List.not_mem_nil
  · simpa using h.shape.nodup
  · exact hperm

end Accounts

/-! ## Runs -/

theorem inv_reset (h : Inv s blocks larges) (haccounts : Accounts pool s.pool blocks larges) :
    Inv { pool := s.pool.cpoolReset, allocs := [] } blocks [] := by
  obtain ⟨-, haccounts', hcurrent, hblockSize, hsnapshots, hempty⟩ := haccounts.reset
  have hroot := Accounts.root_mem h.shape
  have hmark : s.pool.cpoolReset.mark = ⟨s.pool.root, 0⟩ := by
    rw [mark_of_some hcurrent, hempty _ hroot]
  refine ⟨?_, haccounts'.shape, ⟨?_, fun b hb => ?_, ?_⟩, fun _ ha => absurd ha List.not_mem_nil,
    fun _ ha => absurd ha List.not_mem_nil, List.Pairwise.nil, ?_⟩
  · show sizeofBlock + s.pool.cpoolReset.blockSize ≤ ptrdiffMax
    rw [hblockSize]
    exact h.fits
  · rw [hmark]
    exact hroot
  · exact hempty b (hb.subset (List.mem_cons_of_mem _ List.mem_cons_self))
  · rw [hmark]
    exact Nat.zero_le _
  · show Saves _ blocks [] [] s.pool.cpoolReset.snapshots
    rw [hsnapshots]
    trivial

/-- **Every call keeps the account**, and every address it frees is in use. -/
theorem accounts_step (h : Inv s blocks larges) (haccounts : Accounts pool s.pool blocks larges)
    (action : LifeAction) :
    checkedStep A s action = lifeStep A s action ∧ ∀ s', lifeStep A s action = some s' →
      ∃ blocks' larges', Inv s' blocks' larges' ∧ Accounts pool s'.pool blocks' larges' := by
  -- the two invariants speak of the same lists
  have hjoin : ∀ {a : Action} {s' : State}, lifeStep A s (.call a) = some s' →
      (∃ blocks' larges', Accounts pool s'.pool blocks' larges') →
      ∃ blocks' larges', Inv s' blocks' larges' ∧ Accounts pool s'.pool blocks' larges' := by
    intro a s' hstep ⟨blocks₁, larges₁, haccounts₁⟩
    obtain ⟨blocks₂, larges₂, hinv⟩ := inv_step h hstep
    obtain ⟨rfl, rfl⟩ := haccounts₁.shape.unique hinv.shape
    exact ⟨blocks₂, larges₂, hinv, haccounts₁⟩
  cases action with
  | reset =>
    obtain ⟨hchecked, haccounts', -⟩ := haccounts.reset
    refine ⟨by rw [checkedStep, hchecked]; rfl, fun s' hstep => ?_⟩
    obtain rfl := Option.some.inj hstep
    exact ⟨blocks, [], inv_reset h haccounts, haccounts'⟩
  | call action =>
    cases action with
    | palloc size =>
      obtain ⟨hnext, hchecked⟩ := haccounts.palloc A h.size_lt size
      refine ⟨by rw [checkedStep, hchecked]; rfl, fun s' hstep => hjoin hstep ?_⟩
      simp only [lifeStep, step, Option.ite_none_right_eq_some, Option.some.injEq] at hstep
      obtain ⟨-, rfl⟩ := hstep
      exact hnext
    | pcalloc num size =>
      obtain ⟨hnext, hchecked⟩ := haccounts.pcalloc A h.size_lt num size
      refine ⟨by rw [checkedStep, hchecked]; rfl, fun s' hstep => hjoin hstep ?_⟩
      simp only [lifeStep, step, Option.ite_none_right_eq_some, Option.some.injEq] at hstep
      obtain ⟨-, rfl⟩ := hstep
      exact hnext
    | align align =>
      refine ⟨rfl, fun s' hstep => hjoin hstep ?_⟩
      simp only [lifeStep, step, Option.ite_none_right_eq_some, Option.some.injEq] at hstep
      obtain ⟨-, rfl⟩ := hstep
      obtain ⟨blocks', hnext⟩ := haccounts.cpoolAlign A h.size_lt align
      exact ⟨blocks', larges, hnext⟩
    | save =>
      refine ⟨rfl, fun s' hstep => hjoin hstep ?_⟩
      simp only [lifeStep, step, Option.ite_none_right_eq_some, Option.some.injEq] at hstep
      obtain ⟨-, rfl⟩ := hstep
      exact ⟨blocks, larges, haccounts.same { haccounts.shape with } rfl rfl⟩
    | restore =>
      have hpopped : ∀ snapshots, Accounts pool { s.pool with snapshots } blocks larges :=
        fun snapshots => haccounts.same { haccounts.shape with } rfl rfl
      cases hsnapshots : s.pool.snapshots with
      | nil =>
        have hnone : lifeStep A s (.call .restore) = none := by
          simp only [lifeStep, step, hsnapshots]
        refine ⟨?_, fun s' hstep => ?_⟩
        · rw [hnone]
          simp only [checkedStep, hsnapshots]
        · rw [hnone] at hstep
          cases hstep
      | cons snapshot snapshots =>
        have hsaves := h.saves
        rw [hsnapshots] at hsaves
        obtain ⟨older, ⟨rest, hlarges⟩, hsaved, -⟩ := hsaves
        obtain ⟨pre, post, hsplit⟩ := List.append_of_mem hsaved.block
        obtain ⟨hnext, hchecked⟩ :=
          (hpopped snapshots).restore hsplit hsaved.last hlarges.symm hsaved.largeCurrent
        have hsome : lifeStep A s (.call .restore) = some
            { pool := { s.pool with snapshots }.cpoolRestore snapshot
              allocs := s.allocs.filter fun a => a.depth ≤ snapshots.length } := by
          simp only [lifeStep, step, hsnapshots]
        refine ⟨?_, fun s' hstep => hjoin hstep ?_⟩
        · rw [hsome]
          simp only [checkedStep, hsnapshots, hchecked, Option.map_some]
        · rw [hsome] at hstep
          obtain rfl := Option.some.inj hstep
          exact ⟨blocks, older, hnext⟩

/-- The loop of `cpool_uninit` over the large blocks. -/
theorem release_large (p : Pool) (lbs : List Nat) (m : Memory) :
    lbs.foldlM (fun (memory : Memory) lb =>
      (memory.release (p.large lb).data).bind fun memory => memory.release lb) m =
      (p.largeAddrs lbs).foldlM Memory.release m := by
  induction lbs generalizing m with
  | nil => rfl
  | cons lb lbs ih =>
    have haddrs : p.largeAddrs (lb :: lbs) = p.largeData lb :: lb :: p.largeAddrs lbs := rfl
    simp only [haddrs, List.foldlM_cons, Option.bind_eq_bind, Option.bind_assoc, ih]
    rfl

/-- `cpool_uninit` gives everything back, each address once. -/
theorem Accounts.cpoolUninit (h : Accounts pool p blocks larges) :
    ∃ m, p.cpoolUninit pool = some m ∧ m.live = [] := by
  have hwalk : walk p.next p.rounds (some p.root) = blocks :=
    h.shape.chain.walk_eq h.shape.length_le_rounds
  have hlarges : walk p.largeNext p.rounds p.largeRoot = larges :=
    h.shape.largeChain.walk_eq h.shape.large_length_le_rounds
  have hperm : p.memory.addrs.Perm (blocks ++ (p.largeAddrs larges ++ [pool])) := by
    rw [← List.append_assoc]
    exact h.addrs.trans (List.perm_append_singleton pool _).symm
  obtain ⟨m₁, hblocks, hm₁⟩ := Memory.releaseAll_of_perm hperm
  obtain ⟨m₂, hdata, hm₂⟩ := Memory.releaseAll_of_perm hm₁
  obtain ⟨hpool, hm₃⟩ := Memory.release_of_perm hm₂
  refine ⟨m₂.free pool, ?_, Memory.addrs_eq_nil_iff.mp hm₃.eq_nil⟩
  rw [Pool.cpoolUninit, hwalk, hblocks, Option.bind_some, hlarges, release_large, hdata,
    Option.bind_some, hpool]

theorem addrs_cpoolInit {blockSize : Nat} (hsize : sizeofBlock + blockSize < SIZE)
    (hpool : (Memory.empty.malloc A sizeofPool).2 = some pool)
    (hinit : cpoolInit A blockSize = some p) :
    ∃ m root, m.addrs = [root, pool] ∧ p = Pool.initial m blockSize root := by
  unfold cpoolInit Pool.initBlock Pool.malloc at hinit
  rcases Memory.malloc_cases A Memory.empty sizeofPool with heq | ⟨addr, hfresh, heq⟩
  · rw [heq] at hpool
    cases hpool
  rw [heq] at hpool hinit
  obtain rfl : addr = pool := Option.some.inj hpool
  dsimp only at hinit
  rw [Nat.mod_eq_of_lt hsize] at hinit
  rcases Memory.malloc_cases A (Memory.empty.add _ hfresh) (sizeofBlock + blockSize) with
    heq | ⟨root, hroot, heq⟩
  · rw [heq] at hinit
    cases hinit
  · rw [heq] at hinit
    exact ⟨_, root, rfl, (Option.some.inj hinit).symm⟩

/-- The pool `cpool_init` gives has its structure and one block. -/
theorem accounts_start {blockSize : Nat} (hfits : sizeofBlock + blockSize ≤ ptrdiffMax)
    (hpool : (Memory.empty.malloc A sizeofPool).2 = some pool)
    (hinit : cpoolInit A blockSize = some p) :
    ∃ blocks larges, Inv (start p) blocks larges ∧ Accounts pool p blocks larges := by
  obtain ⟨blocks, larges, hinv⟩ := inv_start hfits hinit
  refine ⟨blocks, larges, hinv, hinv.shape, ?_⟩
  have hsize : sizeofBlock + blockSize < SIZE := by
    simp only [ptrdiffMax, SIZE] at hfits ⊢
    omega
  obtain ⟨m, root, haddrs, rfl⟩ := addrs_cpoolInit hsize hpool hinit
  have hnext : (Pool.initial m blockSize root).next root = none := by
    simp only [Pool.next, Pool.initial, Function.update_self, Block.new_next]
  have hchain : Links (Pool.initial m blockSize root).next (some root) [root] := ⟨rfl, hnext⟩
  obtain rfl := hinv.shape.chain.unique hchain
  obtain rfl : larges = [] := hinv.shape.largeChain.nil_iff.mpr rfl
  show m.addrs.Perm [pool, root]
  rw [haddrs]
  exact List.Perm.swap ..

/-- Any sequence of calls and resets. -/
def AnyLife (_ : State) (_ : LifeAction) : Prop := True

instance (s : State) (action : LifeAction) : Decidable (AnyLife s action) := isTrue trivial

theorem accounted {blockSize : Nat} (hfits : sizeofBlock + blockSize ≤ ptrdiffMax)
    (hpool : (Memory.empty.malloc A sizeofPool).2 = some pool)
    (hinit : cpoolInit A blockSize = some p) (h : Reach (lifeStep A) AnyLife (start p) s) :
    ∃ blocks larges, Inv s blocks larges ∧ Accounts pool s.pool blocks larges :=
  h.invariant (fun s => ∃ blocks larges, Inv s blocks larges ∧ Accounts pool s.pool blocks larges)
    (accounts_start hfits hpool hinit) fun _ action s' ⟨_, _, hinv, haccounts⟩ _ hstep =>
      (accounts_step hinv haccounts action).2 s' hstep

/-- **All memory is accounted for**: from `cpool_init`, whatever the allocator answers, resets
    among the calls. What the pool has of the allocator is its structure, the blocks of its
    chain and its large blocks with their data, each once, and its allocations are in them and
    do not overlap; every address that a call frees was allocated and is in use; and
    `cpool_uninit` frees only what is in use, and leaves nothing. -/
theorem memory_accounted (A : Allocator) (blockSize : Nat)
    (hfits : sizeofBlock + blockSize ≤ ptrdiffMax) (pool : Nat) (p : Pool)
    (hpool : (Memory.empty.malloc A sizeofPool).2 = some pool)
    (hinit : cpoolInit A blockSize = some p) (s : State)
    (h : Reach (lifeStep A) AnyLife (start p) s) :
    (∃ blocks larges, NoOverlap s blocks larges ∧
      s.pool.memory.addrs.Perm (pool :: (blocks ++ s.pool.largeAddrs larges))) ∧
    (∀ action, checkedStep A s action = lifeStep A s action) ∧
    ∃ m, s.pool.cpoolUninit pool = some m ∧ m.live = [] := by
  obtain ⟨blocks, larges, hinv, haccounts⟩ := accounted hfits hpool hinit h
  exact ⟨⟨blocks, larges, hinv.noOverlap, haccounts.addrs⟩,
    fun action => (accounts_step hinv haccounts action).1, haccounts.cpoolUninit⟩

/-- A large block before a save and one behind it, a restore, a reset, and another block. -/
def lifetime : List LifeAction :=
  [.call (.palloc 5000), .call .save, .call (.palloc 1000), .call (.palloc 2000), .call .restore,
    .reset, .call (.palloc 1024), .call (.palloc 1)]

/-- `memory_accounted` behind these calls: the pool has two blocks. -/
theorem memory_accounted_lifetime :
    ∃ (pool : Nat) (p : Pool) (s : State), cpoolInit bump 1024 = some p ∧
      s.pool.memory.live.length = 3 ∧ ∃ m, s.pool.cpoolUninit pool = some m ∧ m.live = [] := by
  obtain ⟨pool, hpool⟩ := Option.isSome_iff_exists.mp
    (show (Memory.empty.malloc bump sizeofPool).2.isSome = true by decide +kernel)
  obtain ⟨p, hinit, hrun⟩ := Option.bind_eq_some_iff.mp
    (show ((cpoolInit bump 1024).bind fun p =>
      (exec (guarded (lifeStep bump) AnyLife) (start p) lifetime).map fun s =>
        s.pool.memory.live.length) = some 3 by decide +kernel)
  obtain ⟨s, hreach, hlength⟩ := Reach.of_exec_map hrun
  obtain ⟨-, -, hleft⟩ := memory_accounted bump 1024 (by decide) pool p hpool hinit s hreach
  exact ⟨pool, p, s, hinit, hlength, hleft⟩

end Foxtails.Cpool
