/-
  The pool of `include/cpool.h`: a chain of blocks that are filled from the front, a list of
  large blocks with one allocation each, and a stack of snapshots.

  Model (read this before the theorems). A pointer is an address, or `none` for NULL; `block`
  and `large` are what the two kinds of node hold at an address. `root` and `last` are never
  NULL: `cpool_init` gives no pool without a root. The bytes of the allocations are left out,
  as is `errno`. `size_t` arithmetic is done modulo `SIZE`.

  `State` records the allocations that are in force, which the source does not keep. `depth`
  is the number of snapshots an allocation was made behind; a restore takes back those that
  were made behind the snapshot it restores. Runs align to at most `blockAlign`.
-/
import Foxtails.Lib.Chain
import Foxtails.Lib.Libc
import Foxtails.Lib.Malloc

namespace Foxtails.Cpool

open Foxtails.Lib.Chain Foxtails.Lib.Libc Foxtails.Lib.Malloc

/-! ## Data -/

/-- `CPOOL_MAX_SAVE_DEPTH`. -/
abbrev maxSaveDepth : Nat := 8

/-- The alignment `malloc` gives a block, and so its data. -/
abbrev blockAlign : Nat := 16

/-- `sizeof(struct __cpool)`. -/
abbrev sizeofPool : Nat := 376

/-- `sizeof(struct __cpool_block)`. -/
abbrev sizeofBlock : Nat := 32

/-- `sizeof(struct __cpool_large_block)`. -/
abbrev sizeofLargeBlock : Nat := 16

/-- `struct __cpool_block`. -/
structure Block where
  data : Nat
  next : Option Nat
  full : Bool
  head : Nat
  deriving DecidableEq

/-- A block as `__init_block` sets it up. -/
def Block.new (b : Nat) : Block :=
  { data := b + sizeofBlock, next := none, full := false, head := 0 }

@[simp] theorem Block.new_data (b : Nat) : (Block.new b).data = b + sizeofBlock := rfl

@[simp] theorem Block.new_next (b : Nat) : (Block.new b).next = none := rfl

@[simp] theorem Block.new_head (b : Nat) : (Block.new b).head = 0 := rfl

/-- `struct __cpool_large_block`. -/
structure LargeBlock where
  data : Nat
  next : Option Nat
  deriving DecidableEq

/-- `struct __cpool_snapshot`. -/
structure Snapshot where
  head : Nat
  full : Bool
  current : Option Nat
  last : Nat
  largeCurrent : Option Nat
  deriving DecidableEq

/-- `struct __cpool`, with the memory it lives in. -/
structure Pool where
  memory : Memory
  block : Nat → Block
  large : Nat → LargeBlock
  root : Nat
  current : Option Nat
  last : Nat
  blockSize : Nat
  largeRoot : Option Nat
  largeLast : Option Nat
  /-- `snapshots[0 .. snapshot_end)`, the latest first. -/
  snapshots : List Snapshot

namespace Pool

variable (A : Allocator) (p : Pool)

/-- The `next` of the blocks. -/
def next (b : Nat) : Option Nat := (p.block b).next

/-- The `next` of the large blocks. -/
def largeNext (lb : Nat) : Option Nat := (p.large lb).next

/-- `CPOOL_ALLOC`. -/
def malloc (size : Nat) : Pool × Option Nat :=
  let (memory, addr) := p.memory.malloc A size
  ({ p with memory }, addr)

/-- `CPOOL_FREE`. -/
def free (addr : Nat) : Pool := { p with memory := p.memory.free addr }

def setBlock (b : Nat) (x : Block) : Pool := { p with block := Function.update p.block b x }

def setLarge (lb : Nat) (x : LargeBlock) : Pool :=
  { p with large := Function.update p.large lb x }

/-- `b->head = head` and `b->full = full`. -/
def setHead (b head : Nat) (full : Bool) : Pool := p.setBlock b { p.block b with head, full }

@[simp] theorem setBlock_self (b : Nat) (x : Block) : (p.setBlock b x).block b = x :=
  Function.update_self ..

@[simp] theorem setHead_self (b head : Nat) (full : Bool) :
    (p.setHead b head full).block b = { p.block b with head, full } := setBlock_self ..

@[simp] theorem setHead_blockSize (b head : Nat) (full : Bool) :
    (p.setHead b head full).blockSize = p.blockSize := rfl

theorem setBlock_of_ne {b c : Nat} (h : c ≠ b) (x : Block) :
    (p.setBlock b x).block c = p.block c := Function.update_of_ne h ..

/-! ## Blocks -/

/-- `__init_block`. -/
def initBlock : Pool × Option Nat :=
  match p.malloc A ((sizeofBlock + p.blockSize) % SIZE) with
  | (p, none) => (p, none)
  | (p, some b) => (p.setBlock b (.new b), some b)

/-- `__append_block`: the block, or NULL for ENOMEM. -/
def appendBlock : Pool × Option Nat :=
  match p.initBlock A with
  | (p, none) => (p.setBlock p.last { p.block p.last with next := none }, none)
  | (p, some b) =>
    let p := p.setBlock p.last { p.block p.last with next := some b }
    ({ p with last := b, current := some b }, some b)

/-- What `lb` points to in `__alloc_large_block`. -/
inductive Link where
  | largeRoot
  | next (lb : Nat)

def link : Link :=
  match p.largeRoot, p.largeLast with
  | some _, some lb => .next lb
  | _, _ => .largeRoot

def setLink (lb : Option Nat) : Link → Pool
  | .largeRoot => { p with largeRoot := lb }
  | .next last => p.setLarge last { p.large last with next := lb }

/-- `__alloc_large_block`. -/
def allocLargeBlock (size : Nat) : Pool × Option Nat :=
  let link := p.link
  match p.malloc A sizeofLargeBlock with
  | (p, none) => (p.setLink none link, none)
  | (p, some lb) =>
    match (p.setLink (some lb) link).malloc A size with
    | (p, none) => ((p.free lb).setLink none link, none)
    | (p, some data) =>
      ({ p.setLarge lb { data, next := none } with largeLast := some lb }, some data)

/-! ## Allocating -/

/-- The block `palloc` takes `size` bytes of, or NULL. -/
def blockFor (size : Nat) : Pool × Option Nat :=
  match p.current with
  | none => p.appendBlock A
  | some b =>
    if ((p.block b).head + size) % SIZE > p.blockSize then
      match (p.block b).next with
      | some b => ({ p with current := some b }, some b)
      | none => p.appendBlock A
    else (p, some b)

/-- The end of `palloc`, with `b` the current block. -/
def take (b size : Nat) : Pool × Nat :=
  let addr := (p.block b).data + (p.block b).head
  let p := p.setHead b (((p.block b).head + size) % SIZE) (p.block b).full
  if (p.block b).head = p.blockSize then
    let p := p.setHead b (p.block b).head true
    ({ p with current := (p.block b).next }, addr)
  else (p, addr)

/-- `palloc`, for a size other than 0. -/
def palloc (size : Nat) : Pool × Option Nat :=
  if size > p.blockSize then p.allocLargeBlock A size
  else
    match p.blockFor A size with
    | (p, none) => (p, none)
    | (p, some b) =>
      let (p, addr) := p.take b size
      (p, some addr)

/-- The test of `pcalloc`: the product does not fit a `size_t`. -/
def Overflows (num size : Nat) : Prop := num ≠ 0 ∧ size > (SIZE - 1) / num

instance (num size : Nat) : Decidable (Overflows num size) :=
  inferInstanceAs (Decidable (_ ∧ _))

/-- `pcalloc`, for a product other than 0. -/
def pcalloc (num size : Nat) : Pool × Option Nat :=
  if Overflows num size then (p, none) else p.palloc A (size * num % SIZE)

/-- `(head + align - 1) & ~(align - 1)`. -/
def alignUp (head align : Nat) : Nat := (head + align - 1) % SIZE &&& SIZE - align

/-- The block `cpool_align` rounds up in, or NULL. -/
def currentBlock : Pool × Option Nat :=
  match p.current with
  | none => p.appendBlock A
  | some b => (p, some b)

/-- `cpool_align`, with true for ENOMEM. -/
def cpoolAlign (align : Nat) : Pool × Bool :=
  match p.currentBlock A with
  | (p, none) => (p, true)
  | (p, some b) =>
    let p := p.setHead b (alignUp (p.block b).head align) (p.block b).full
    if (p.block b).head ≥ p.blockSize then
      let p := p.setHead b (p.block b).head true
      let (p, b) := p.appendBlock A
      (p, b.isNone)
    else (p, false)

/-! ## Snapshots -/

/-- `cpool_save`. -/
def cpoolSave : Pool :=
  let b := p.current.getD p.last
  let snapshot : Snapshot :=
    { head := (p.block b).head, full := (p.block b).full, current := p.current, last := p.last,
      largeCurrent := p.largeLast }
  { p with snapshots := snapshot :: p.snapshots }

/-- As many rounds as a loop over blocks can take: one for each region in use. -/
def rounds : Nat := p.memory.live.length

/-- The loop that empties the blocks from `b` on. -/
def clear (b : Option Nat) : Pool :=
  (walk p.next p.rounds b).foldl (fun p b => p.setHead b 0 false) p

/-- The loop that frees the large blocks from `lb` on. -/
def freeLarge (lb : Option Nat) : Pool :=
  (walk p.largeNext p.rounds lb).foldl
    (fun p lb =>
      ((p.free (p.large lb).data).setLarge lb { p.large lb with next := none }).free lb) p

/-- The loop that finds the last block from `b` on. -/
def lastFrom (b : Nat) : Nat := (walk p.next p.rounds (some b)).getLast?.getD b

/-- `cpool_restore` on the blocks. -/
def restoreBlocks (snapshot : Snapshot) : Pool :=
  let b := snapshot.current.getD snapshot.last
  let p := p.setHead b snapshot.head snapshot.full
  let p := p.clear (p.block b).next
  { p with current := some b, last := snapshot.last }

/-- `cpool_restore` on the large blocks. -/
def restoreLarge (snapshot : Snapshot) : Pool :=
  let p := p.freeLarge (match snapshot.largeCurrent with
    | none => p.largeRoot
    | some lb => (p.large lb).next)
  let p := { p with largeLast := snapshot.largeCurrent }
  match snapshot.largeCurrent with
  | none => { p with largeRoot := none }
  | some lb => p.setLarge lb { p.large lb with next := none }

/-- `cpool_restore`, with the snapshot that has been popped. -/
def cpoolRestore (snapshot : Snapshot) : Pool :=
  let p := (p.restoreBlocks snapshot).restoreLarge snapshot
  { p with last := p.lastFrom snapshot.last }

end Pool

/-- `cpool_init`: the pool, or NULL. -/
def cpoolInit (A : Allocator) (blockSize : Nat) : Option Pool :=
  let (memory, pool) := Memory.empty.malloc A sizeofPool
  match pool with
  | none => none
  | some _ =>
    let p : Pool :=
      { memory, block := fun _ => ⟨0, none, false, 0⟩, large := fun _ => ⟨0, none⟩, root := 0,
        current := none, last := 0, blockSize, largeRoot := none, largeLast := none,
        snapshots := [] }
    match p.initBlock A with
    | (_, none) => none
    | (p, some root) => some { p with root, current := some root, last := root }

/-! ## Runs -/

/-- An allocation in force, made behind `depth` snapshots. -/
structure Alloc extends Region where
  depth : Nat
  deriving DecidableEq

structure State where
  pool : Pool
  allocs : List Alloc

inductive Action where
  | palloc (size : Nat)
  | pcalloc (num size : Nat)
  | align (align : Nat)
  | save
  | restore

namespace State

/-- The state behind a call that asked for `size` bytes. -/
def allocated (s : State) (size : Nat) (result : Pool × Option Nat) : State :=
  { pool := result.1
    allocs := match result.2 with
      | none => s.allocs
      | some addr => ⟨⟨addr, size⟩, s.pool.snapshots.length⟩ :: s.allocs }

end State

/-- The state after a call, or `none` where an assertion fails. An alignment above `blockAlign`,
    which the assertion of `cpool_align` lets through, has no step either: `head` is an offset, and
    is not rounded to more than the data itself. -/
def step (A : Allocator) (s : State) : Action → Option State
  | .palloc size =>
    if 0 < size ∧ size < SIZE then some (s.allocated size (s.pool.palloc A size)) else none
  | .pcalloc num size =>
    if (0 < num ∧ num < SIZE) ∧ 0 < size ∧ size < SIZE then
      some (s.allocated (size * num) (s.pool.pcalloc A num size))
    else none
  | .align align =>
    if 0 < align ∧ align &&& (align - 1) = 0 ∧ align ≤ blockAlign then
      some { s with pool := (s.pool.cpoolAlign A align).1 }
    else none
  | .save =>
    if s.pool.snapshots.length < maxSaveDepth then some { s with pool := s.pool.cpoolSave }
    else none
  | .restore =>
    match s.pool.snapshots with
    | [] => none
    | snapshot :: snapshots =>
      some { pool := { s.pool with snapshots }.cpoolRestore snapshot
             allocs := s.allocs.filter fun a => a.depth ≤ snapshots.length }

/-- The pool of `cpool_init`; nothing is allocated. -/
def start (p : Pool) : State := { pool := p, allocs := [] }

end Foxtails.Cpool
