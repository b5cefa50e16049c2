import Mathlib.Data.Int.Notation
import OsPi.Errors
import OsPi.Lib.Comp
import OsPi.Lib.DList

/-!
# The Block Cache

A model of `fs/caches/lru_cache.c` and of `read_block` and `write_block` of `fs/disk.c`.
The cache is a doubly linked list of nodes in kernel memory, with a head, a tail and a
recorded size; every node holds the data of one file-system block, a dirty flag and its
block number. Blocks have an arbitrary type of contents: the cache only copies them.

The device below the cache is a map of sectors. Each device operation asks `fails` whether
it fails, so a theorem for every `fails` is a theorem for every pattern of failures; a
failing operation leaves the sectors as they are. `kmalloc` always succeeds and returns an
address that is not in use. The statistics counters of the source are left out: nothing
reads them here.
-/

namespace OsPi

/-- `MAX_SIZE`: the number of blocks the cache may hold. -/
def maxSize : ℕ := 12

/-- What a cache node holds besides its two links. -/
structure BlockNode (β : Type) where
  data : β
  dirty : Bool
  block : ℕ

/-- The block device with the file-system region on it: `base` is `fs_get_base_block()`,
`count` is `fs_get_block_count()`. The `n`-th device operation fails when `fails n`. -/
structure BlockDev (β : Type) where
  base : ℕ
  count : ℕ
  sector : ℕ → β
  fails : ℕ → Bool
  ios : ℕ

/-- The contents of file-system block `num` on the device. -/
def BlockDev.block {β : Type} (d : BlockDev β) (num : ℕ) : β :=
  d.sector (d.base + num)

/-- The state of the block cache: the device, the linked list of nodes, the recorded
size, and the next address `kmalloc` hands out. -/
structure Lru (β : Type) where
  dev : BlockDev β
  list : DList (BlockNode β)
  size : ℤ
  brk : ℕ

/-- The computations of the block cache. -/
abbrev LruM (β : Type) := Comp (Lru β) Err

variable {β : Type}

/-- The empty cache over a device. -/
def Lru.init (dev : BlockDev β) : Lru β :=
  { dev, list := ⟨fun _ => none, none, none⟩, size := 0, brk := 0 }

/-! ### Device access -/

def mapFsBlockToDiskBlock (dev : BlockDev β) (num : ℕ) : Except Err ℕ :=
  if dev.count = 0 ∨ dev.count ≤ num then .error .invalidArgs else .ok (dev.base + num)

def readBlockData (num : ℕ) : LruM β β := do
  let s ← get
  match mapFsBlockToDiskBlock s.dev num with
  | .error _ => throw .fileReadError
  | .ok diskBlock =>
    set { s with dev := { s.dev with ios := s.dev.ios + 1 } }
    if s.dev.fails s.dev.ios then throw .fileReadError else pure (s.dev.sector diskBlock)

def writeBlockData (data : β) (num : ℕ) : LruM β Unit := do
  let s ← get
  match mapFsBlockToDiskBlock s.dev num with
  | .error _ => throw .fileWriteError
  | .ok diskBlock =>
    if s.dev.fails s.dev.ios then
      set { s with dev := { s.dev with ios := s.dev.ios + 1 } }
      throw .fileWriteError
    else
      set { s with dev := { s.dev with
        ios := s.dev.ios + 1, sector := Function.update s.dev.sector diskBlock data } }

/-! ### The list of nodes -/

/-- The address of a fresh node. -/
def kmallocNode : LruM β ℕ := do
  let s ← get
  set { s with brk := s.brk + 1 }
  pure s.brk

def lruCacheRemoveNode (node : ℕ) : LruM β Unit :=
  modify fun s => { s with list := s.list.unlink node, size := s.size - 1 }

/-- The tail of `lru_cache_add_to_front` and `lru_cache_update_data`: link the node in
front and count it. -/
def linkFront (node : ℕ) : LruM β Unit :=
  modify fun s => { s with list := s.list.pushFront node, size := s.size + 1 }

/-- The loop of `lru_cache_get_block`: at most `n` nodes from `curr` on. -/
def getBlockLoop (heap : ℕ → Option (Cell (BlockNode β))) (num : ℕ) :
    ℕ → Option ℕ → Except Err (Option ℕ)
  | 0, _ => .ok none
  | _ + 1, none => .error .fault
  | n + 1, some p =>
    match heap p with
    | none => .error .fault
    | some c => if c.val.block = num then .ok (some p) else getBlockLoop heap num n c.next

def lruCacheGetBlock (num : ℕ) : LruM β (Option ℕ) := do
  let s ← get
  match getBlockLoop s.list.heap num s.size.toNat s.list.head with
  | .ok r => pure r
  | .error e => throw e

def lruCacheRemoveBack : LruM β Unit := do
  let s ← get
  match s.list.tail with
  | none => throw .fault
  | some toRemove =>
    match s.list.heap toRemove with
    | none => throw .fault
    | some c =>
      lruCacheRemoveNode toRemove
      -- the node is released whether or not its data could be written back
      let r ← Comp.attempt (if c.val.dirty then writeBlockData c.val.data c.val.block
        else pure ())
      modify fun s => { s with list := s.list.free toRemove }
      match r with
      | .error e => throw e
      | .ok _ => pure ()

/-- `if (size > MAX_SIZE) lru_cache_remove_back()`. -/
def evictIfFull : LruM β Unit := do
  let s ← get
  if s.size > maxSize then lruCacheRemoveBack else pure ()

def lruCacheAddToFront (num : ℕ) : LruM β ℕ := do
  let found ← lruCacheGetBlock num
  let toAdd ← match found with
    | some p => do
      lruCacheRemoveNode p
      pure p
    | none => do
      let p ← kmallocNode
      let data ← readBlockData num
      modify fun s => { s with list := s.list.alloc p ⟨⟨data, false, num⟩, none, none⟩ }
      pure p
  linkFront toAdd
  evictIfFull
  pure toAdd

/-- The first half of `lru_cache_update_data`: the node to fill, either the cached one,
taken out of the list, or a fresh one. -/
def nodeToUpdate (num : ℕ) : LruM β ℕ := do
  match ← lruCacheGetBlock num with
  | some p =>
    lruCacheRemoveNode p
    pure p
  | none => kmallocNode

def lruCacheUpdateData (data : β) (num : ℕ) : LruM β Unit := do
  let toUpdate ← nodeToUpdate num
  modify fun s => { s with list := s.list.alloc toUpdate ⟨⟨data, false, num⟩, none, none⟩ }
  -- write through; on failure the node is dropped from the cache
  match ← Comp.attempt (writeBlockData data num) with
  | .error e =>
    modify fun s => { s with list := s.list.free toUpdate }
    throw e
  | .ok _ =>
    linkFront toUpdate
    evictIfFull

/-- The loop of `lru_cache_empty`, for at most `n` rounds. -/
def lruCacheEmptyLoop : ℕ → LruM β Unit
  | 0 => throw .fault
  | n + 1 => do
    let s ← get
    if s.list.tail = none then pure ()
    else
      lruCacheRemoveBack
      lruCacheEmptyLoop n

/-- `lru_cache_empty`. Addresses are handed out in order, so `brk` bounds the number of
nodes and with it the number of rounds. -/
def lruCacheEmpty : LruM β Unit := do
  let s ← get
  lruCacheEmptyLoop (s.brk + 1)

/-! ### The interface -/

def Lru.readBlock (num : ℕ) : LruM β β := do
  let node ← lruCacheAddToFront num
  let s ← get
  match s.list.heap node with
  | none => throw .fault
  | some c => pure c.val.data

def Lru.writeBlock (data : β) (num : ℕ) : LruM β Unit :=
  lruCacheUpdateData data num

/-- A call of the interface. -/
inductive BlockCall (β : Type)
  | read (num : ℕ)
  | write (data : β) (num : ℕ)
  | empty

/-- Perform a call; only a read returns data. -/
def BlockCall.exec : BlockCall β → LruM β (Option β)
  | .read num => some <$> Lru.readBlock num
  | .write data num => do Lru.writeBlock data num; pure none
  | .empty => do lruCacheEmpty; pure none

/-- Perform calls in order; a failing call does not stop the ones after it. The result is
the list of calls with their outcomes, and the state reached. -/
def runCalls : List (BlockCall β) → Lru β → List (BlockCall β × Except Err (Option β)) × Lru β
  | [], s => ([], s)
  | c :: cs, s =>
    let (r, s') := c.exec.eval s
    let (rs, s'') := runCalls cs s'
    ((c, r) :: rs, s'')

end OsPi
