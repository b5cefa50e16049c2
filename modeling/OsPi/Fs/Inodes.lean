import OsPi.Fs.Bitmap
import OsPi.Fs.InodeCache

/-!
# Inodes

A model of `fs/inodes.c`: allocating inodes and blocks, the block pointers of an inode and
the single, double and triple pointer blocks behind them, and the three routines that give
blocks back. Arrays of block numbers are read from and written to the bytes of a block, four
bytes an entry; a new pointer block holds whatever the buffer it was built in held.
-/

namespace OsPi

open Comp

variable (env : Env)

/-! ### Allocation -/

/-- `set_block_allocated`. -/
def setBlockAllocated (blockNum : ℕ) (allocated : Bool) : FsM Unit := do
  let s ← get
  setBitInBitmapRange env s.layout.blockBitmapStart s.layout.blockBitmapBlocks
    s.layout.totalBlocks blockNum allocated

/-- `set_inode_allocated`. -/
def setInodeAllocated (inodeId : ℕ) (allocated : Bool) : FsM Unit := do
  if inodeId = 0 then throw .invalidArgs
  let s ← get
  setBitInBitmapRange env s.layout.inodeBitmapStart s.layout.inodeBitmapBlocks
    s.layout.inodeCapacity (inodeId - 1) allocated

/-- `find_free_block`. -/
def findFreeBlock (updateTaken : Bool) : FsM ℕ := do
  let s ← get
  findFreeFromBitmapRange env s.layout.blockBitmapStart s.layout.blockBitmapBlocks
    s.layout.totalBlocks updateTaken

/-- `find_free_inode`. -/
def findFreeInode (updateTaken : Bool) : FsM ℕ := do
  let s ← get
  let bit ← findFreeFromBitmapRange env s.layout.inodeBitmapStart s.layout.inodeBitmapBlocks
    s.layout.inodeCapacity updateTaken
  pure (bit + 1)

/-! ### Metadata -/

/-- `INODE_EDIT_TYPE` and the other flags of `update_inode_metadata`. -/
def editType : ℕ := 0x01
def editPerm : ℕ := 0x02
def andPerm : ℕ := 0x04
def editMtime : ℕ := 0x08
def editRefCount : ℕ := 0x10

/-- The changes `update_inode_metadata` makes. -/
def updateMetadata (flags : ℕ) (type perm : UInt8) (refCount : ℕ) (now : UInt64)
    (n : Inode) : Inode :=
  let n := if flags &&& editType ≠ 0 then { n with type } else n
  let n :=
    if flags &&& editPerm ≠ 0 then
      { n with perm := if flags &&& andPerm ≠ 0 then n.perm &&& perm else n.perm ||| perm }
    else n
  let n := if flags &&& editMtime ≠ 0 then { n with mtime := now } else n
  if flags &&& editRefCount ≠ 0 then { n with linksCount := UInt16.ofNat refCount } else n

/-- `update_inode_metadata`. -/
def updateInodeMetadata (id flags : ℕ) (type perm : UInt8) (refCount : ℕ) : FsM Unit := do
  if id = 0 then throw .invalidArgs
  getInodeFromCache env id
  onCachedInode id (modifyInode (updateMetadata flags type perm refCount (env.ticks id)))
  markDirty id
  let _ ← attempt (removeRefFromCache env id)

/-- `set_inode_metadata`. -/
def setInodeMetadata (id : ℕ) (metadata : Attributes) : FsM Unit := do
  if id = 0 then throw .invalidArgs
  getInodeFromCache env id
  markDirty id
  onCachedInode id (modifyInode fun n => { n with toAttributes := metadata })
  let _ ← attempt (removeRefFromCache env id)

/-! ### Block lookup -/

/-- The `i`-th entry of a pointer block. -/
def ptrAt (data i : ℕ) : ℕ := Bytes.read data (4 * i) 4

/-- Assign the `i`-th entry of a pointer block. -/
def setPtrAt (data i v : ℕ) : ℕ := Bytes.write data (4 * i) 4 v

/-- `get_block_num_from_inode`, where `ptr` reads one entry of a pointer block. The double
and triple cases divide by the size of the whole range a pointer block covers. -/
def blockNumWith {m : Type → Type} [Monad m] (ptr : ℕ → ℕ → m ℕ) (l : Layout) (n : Inode)
    (blockNum : ℕ) : m ℕ :=
  if n.iBlocks.toNat ≤ blockNum then pure 0
  else if blockNum < 12 ∨ n.iBlocks.toNat ≤ 15 then pure (n.blk blockNum)
  else if blockNum < 12 + l.blocksInSinglePtr then ptr (n.blk 12) (blockNum - 12)
  else if blockNum < 12 + l.blocksInSinglePtr + l.blocksInDoublePtr then do
    let doublePtrWithBlock := blockNum - l.blocksInSinglePtr - 12
    let ptrWithBlock := doublePtrWithBlock % l.blocksInDoublePtr
    let doublePtrWithBlock := doublePtrWithBlock / l.blocksInDoublePtr
    let singlePtrBlock ← ptr (n.blk 13) doublePtrWithBlock
    ptr singlePtrBlock ptrWithBlock
  else do
    let triplePtrWithBlock := blockNum - l.blocksInDoublePtr - l.blocksInSinglePtr - 12
    let doublePtrWithBlock := triplePtrWithBlock % l.blocksInTriplePtr
    let triplePtrWithBlock := triplePtrWithBlock / l.blocksInTriplePtr
    let ptrWithBlock := doublePtrWithBlock % l.blocksInDoublePtr
    let doublePtrWithBlock := doublePtrWithBlock / l.blocksInDoublePtr
    let doublePtrBlock ← ptr (n.blk 14) triplePtrWithBlock
    let ptrBlock ← ptr doublePtrBlock doublePtrWithBlock
    ptr ptrBlock ptrWithBlock

/-- `get_block_num_from_disk_ptr`. A failing read is not noticed, nor is an index past the
end of the block. -/
def getBlockNumFromDiskPtr (ptrBlockNum desiredBlockIdx : ℕ) : FsM ℕ := do
  let s ← get
  match ← attempt (readBlock env ptrBlockNum) with
  | .ok data =>
    if desiredBlockIdx < s.layout.blocksInSinglePtr then pure (ptrAt data desiredBlockIdx)
    else pure (env.wild ptrBlockNum desiredBlockIdx % 2 ^ 32)
  | .error _ => pure (env.wild ptrBlockNum desiredBlockIdx % 2 ^ 32)

/-- `get_block_num_from_inode`. -/
def getBlockNumFromInode (n : Inode) (blockNum : ℕ) : FsM ℕ := do
  let s ← get
  blockNumWith (getBlockNumFromDiskPtr env) s.layout n blockNum

/-- `get_block_num_from_inode_with_id`. -/
def getBlockNumFromInodeWithId (id index : ℕ) : FsM ℕ := do
  match ← attempt (getInodeFromCache env id) with
  | .error _ => pure 0
  | .ok _ => do
    let snapshot ← cachedInode id
    let block ← getBlockNumFromInode env snapshot index
    let _ ← attempt (removeRefFromCache env id)
    pure block

/-! ### Appending a block -/

/-- The most blocks an inode can have. -/
def Layout.maxFileBlocks (l : Layout) : ℕ :=
  12 + l.blocksInSinglePtr + l.blocksInDoublePtr + l.blocksInTriplePtr

/-- Append to the single pointer block; it is created with the sixteenth block. -/
def appendSingle (blockWasAlloc : ℕ) : InodeM Unit := do
  let n ← theInode
  let ptrData ←
    if n.iBlocks.toNat = 15 then do
      let ptrBlock ← onFs (findFreeBlock env true)
      let data := setPtrAt (env.junk ptrBlock) 0 (n.blk 12)
      let data := setPtrAt data 1 (n.blk 13)
      let data := setPtrAt data 2 (n.blk 14)
      modifyInode fun n => n.setBlk 12 ptrBlock
      pure data
    else onFs (readBlock env (n.blk 12))
  let n ← theInode
  onFs (writeBlock env (setPtrAt ptrData (n.iBlocks.toNat - 12) blockWasAlloc) (n.blk 12))

/-- Append below the double pointer block. -/
def appendDouble (blockWasAlloc : ℕ) : InodeM Unit := do
  let n ← theInode
  let (_, s) ← get
  let numInDoublePtr := n.iBlocks.toNat - 12 - s.layout.blocksInSinglePtr
  let indexInSinglePtr := numInDoublePtr % s.layout.blocksInSinglePtr
  let singlePtrIdxInDoublePtr := numInDoublePtr / s.layout.blocksInSinglePtr
  let (ptrData, singlePtrBlock) ←
    if indexInSinglePtr = 0 then do
      let singlePtrBlock ← onFs (findFreeBlock env true)
      let doublePtrData ←
        if singlePtrIdxInDoublePtr = 0 then do
          let doublePtrBlock ← onFs (findFreeBlock env true)
          modifyInode fun n => n.setBlk 13 doublePtrBlock
          pure (env.junk doublePtrBlock)
        else onFs (readBlock env (n.blk 13))
      let n ← theInode
      onFs (writeBlock env (setPtrAt doublePtrData singlePtrIdxInDoublePtr singlePtrBlock)
        (n.blk 13))
      pure (env.junk singlePtrBlock, singlePtrBlock)
    else do
      let doublePtrData ← onFs (readBlock env (n.blk 13))
      let singlePtrBlock := ptrAt doublePtrData singlePtrIdxInDoublePtr
      let ptrData ← onFs (readBlock env singlePtrBlock)
      pure (ptrData, singlePtrBlock)
  onFs (writeBlock env (setPtrAt ptrData indexInSinglePtr blockWasAlloc) singlePtrBlock)

/-- Append below the triple pointer block. A failing write of the double pointer block is
not noticed. -/
def appendTriple (blockWasAlloc : ℕ) : InodeM Unit := do
  let n ← theInode
  let (_, s) ← get
  let numInTriplePtr :=
    n.iBlocks.toNat - 12 - s.layout.blocksInSinglePtr - s.layout.blocksInDoublePtr
  let indexInDoublePtr := numInTriplePtr % s.layout.blocksInDoublePtr
  let doublePtrIdxInTriplePtr := numInTriplePtr / s.layout.blocksInDoublePtr
  let indexInSinglePointer := indexInDoublePtr % s.layout.blocksInSinglePtr
  let singlePtrIdxInDoublePtr := indexInDoublePtr / s.layout.blocksInSinglePtr
  let (ptrData, singlePtrBlock) ←
    if indexInSinglePointer = 0 then do
      let singlePtrBlock ← onFs (findFreeBlock env true)
      let (doublePtrData, doublePtrBlock) ←
        if singlePtrIdxInDoublePtr = 0 then do
          let doublePtrBlock ← onFs (findFreeBlock env true)
          let triplePtrData ←
            if doublePtrIdxInTriplePtr = 0 then do
              let triplePtrBlock ← onFs (findFreeBlock env true)
              modifyInode fun n => n.setBlk 14 triplePtrBlock
              pure (env.junk triplePtrBlock)
            else onFs (readBlock env (n.blk 14))
          let n ← theInode
          onFs (writeBlock env (setPtrAt triplePtrData doublePtrIdxInTriplePtr doublePtrBlock)
            (n.blk 14))
          pure (env.junk doublePtrBlock, doublePtrBlock)
        else do
          let triplePtrData ← onFs (readBlock env (n.blk 14))
          let doublePtrBlock := ptrAt triplePtrData doublePtrIdxInTriplePtr
          let doublePtrData ← onFs (readBlock env doublePtrBlock)
          pure (doublePtrData, doublePtrBlock)
      let _ ← attempt (onFs (writeBlock env
        (setPtrAt doublePtrData singlePtrIdxInDoublePtr singlePtrBlock) doublePtrBlock))
      pure (env.junk singlePtrBlock, singlePtrBlock)
    else do
      let triplePtrData ← onFs (readBlock env (n.blk 14))
      let doublePtrBlock := ptrAt triplePtrData doublePtrIdxInTriplePtr
      let doublePtrData ← onFs (readBlock env doublePtrBlock)
      let singlePtrBlock := ptrAt doublePtrData singlePtrIdxInDoublePtr
      let ptrData ← onFs (readBlock env singlePtrBlock)
      pure (ptrData, singlePtrBlock)
  onFs (writeBlock env (setPtrAt ptrData indexInSinglePointer blockWasAlloc) singlePtrBlock)

/-- `allocate_block_for_file_inode`. -/
def allocateBlockForFileInode : InodeM ℕ := do
  let n ← theInode
  let (_, s) ← get
  if n.iBlocks.toNat = s.layout.maxFileBlocks then throw .inodeFull
  let blockWasAlloc ← onFs (findFreeBlock env true)
  if n.iBlocks.toNat < 15 then
    modifyInode fun n => n.setBlk n.iBlocks.toNat blockWasAlloc
  else if n.iBlocks.toNat < 12 + s.layout.blocksInSinglePtr then
    appendSingle env blockWasAlloc
  else if n.iBlocks.toNat < 12 + s.layout.blocksInSinglePtr + s.layout.blocksInDoublePtr then
    appendDouble env blockWasAlloc
  else appendTriple env blockWasAlloc
  modifyInode fun n => { n with iBlocks := n.iBlocks + 1 }
  pure blockWasAlloc

/-- `allocate_block_for_file_inode_from_id`. -/
def allocateBlockForFileInodeFromId (id : ℕ) : FsM ℕ := do
  match ← attempt (getInodeFromCache env id) with
  | .error _ => throw .fileWriteError
  | .ok _ => do
    let r ← attempt (onCachedInode id (allocateBlockForFileInode env))
    markDirty id
    let r2 ← attempt (removeRefFromCache env id)
    match r with
    | .error e => throw e
    | .ok block =>
      match r2 with
      | .error e => throw e
      | .ok _ => pure block

/-! ### Giving blocks back -/

/-- The loop of `free_from_single_ptr` over the given entries. The error `-1` says that all
blocks of the inode have been freed, and is also what a failing device write returns. -/
def freeEntries (data iBlocks : ℕ) : List ℕ → ℕ → FsM ℕ
  | [], totalRemoved => pure totalRemoved
  | i :: rest, totalRemoved => do
    setBlockAllocated env (ptrAt data i) false
    if totalRemoved + 1 = iBlocks then throw .fileWriteError
    freeEntries data iBlocks rest (totalRemoved + 1)

/-- `free_from_single_ptr`; it returns the new count of removed blocks. -/
def freeFromSinglePtr (iBlocks singleBlock totalRemoved : ℕ) : FsM ℕ := do
  setBlockAllocated env singleBlock false
  let data ← readBlock env singleBlock
  let s ← get
  freeEntries env data iBlocks (List.range s.layout.blocksInSinglePtr) totalRemoved

/-- The loop of `free_from_double_ptr` and `free_from_triple_ptr`: free below each of the
given entries. -/
def freeBelow (free : ℕ → ℕ → FsM ℕ) (data : ℕ) : List ℕ → ℕ → FsM ℕ
  | [], totalRemoved => pure totalRemoved
  | i :: rest, totalRemoved => do
    let totalRemoved ← free (ptrAt data i) totalRemoved
    freeBelow free data rest totalRemoved

/-- `free_from_double_ptr`. -/
def freeFromDoublePtr (iBlocks doubleBlock totalRemoved : ℕ) : FsM ℕ := do
  setBlockAllocated env doubleBlock false
  let data ← readBlock env doubleBlock
  let s ← get
  freeBelow (freeFromSinglePtr env iBlocks) data (List.range s.layout.blocksInSinglePtr)
    totalRemoved

/-- `free_from_triple_ptr`. -/
def freeFromTriplePtr (iBlocks tripleBlock totalRemoved : ℕ) : FsM ℕ := do
  setBlockAllocated env tripleBlock false
  let data ← readBlock env tripleBlock
  let s ← get
  freeBelow (freeFromDoublePtr env iBlocks) data (List.range s.layout.blocksInSinglePtr)
    totalRemoved

/-- The loop of `clamp_kept_blocks`. -/
def clampLoop (n : Inode) : ℕ → ℕ
  | 0 => 0
  | keep + 1 => if n.blk keep = 0 then clampLoop n keep else keep + 1

/-- `clamp_kept_blocks`. -/
def clampKeptBlocks (n : Inode) (keepBlocks : ℕ) : ℕ :=
  clampLoop n (min keepBlocks n.iBlocks.toNat)

/-- The loop of `clear_blocks_of_inode` over the given direct blocks; it returns the new
count of removed blocks. -/
def freeDirect (n : Inode) : List ℕ → ℕ → FsM ℕ
  | [], totalRemoved => pure totalRemoved
  | i :: rest, totalRemoved => do
    setBlockAllocated env (n.blk i) false
    freeDirect n rest (totalRemoved + 1)

/-- Every exit of `clear_blocks_of_inode` with `SUCCESS`. -/
def keepFirst (skipFirst : ℕ) : InodeM Unit :=
  modifyInode fun n =>
    { n with iBlocks := UInt32.ofNat (clampKeptBlocks n skipFirst), size := 0 }

/-- `clear_blocks_of_inode`: free every block but the first `skipFirst`. -/
def clearBlocksOfInode (skipFirst : ℕ) : InodeM Unit := do
  let n ← theInode
  let totalBlocks := n.iBlocks.toNat
  if totalBlocks ≤ skipFirst then keepFirst skipFirst
  else do
    let directBlocks := if totalBlocks < 16 then totalBlocks else 12
    let totalRemoved ← onFs (freeDirect env n
      ((List.range directBlocks).drop skipFirst) skipFirst)
    if totalRemoved = totalBlocks then keepFirst skipFirst
    else
      match ← attempt (onFs (freeFromSinglePtr env totalBlocks (n.blk 12) totalRemoved)) with
      | .error .fileWriteError => keepFirst skipFirst
      | .error e => throw e
      | .ok totalRemoved =>
        match ← attempt
            (onFs (freeFromDoublePtr env totalBlocks (n.blk 13) totalRemoved)) with
        | .error .fileWriteError => keepFirst skipFirst
        | .error e => throw e
        | .ok totalRemoved =>
          match ← attempt
              (onFs (freeFromTriplePtr env totalBlocks (n.blk 14) totalRemoved)) with
          | .error .fileWriteError => keepFirst skipFirst
          | .error e => throw e
          | .ok _ => keepFirst skipFirst

/-- `free_file_inode`: drop a link, and free the inode and its blocks with the last one. -/
def freeFileInode (id : ℕ) : FsM Unit := do
  onCachedInode id (modifyInode fun n => { n with linksCount := n.linksCount - 1 })
  markDirty id
  let n ← cachedInode id
  if 0 < n.linksCount then pure ()
  else do
    setInodeAllocated env id false
    onCachedInode id (clearBlocksOfInode env 0)

/-- `add_new_file_inode`. -/
def addNewFileInode (type perm : UInt8) (fops : UInt64) : FsM ℕ := do
  let inodeNum ← findFreeInode env true
  let s ← get
  let data ← readBlock env (s.layout.inodeBlock inodeNum)
  let newNode : Inode := { Inode.zero with type, perm, mtime := env.ticks inodeNum, fops }
  writeBlock env (storeInode data (s.layout.inodeIndex inodeNum) newNode)
    (s.layout.inodeBlock inodeNum)
  pure inodeNum

/-! ### Removing the last block -/

/-- The last block is a direct one. -/
def removeLastDirect (blockIdx : ℕ) : InodeM Unit := do
  let n ← theInode
  let blockToRemove := n.blk blockIdx
  if blockToRemove = 0 then throw .illegalBlockNo
  onFs (setBlockAllocated env blockToRemove false)
  modifyInode fun n => n.setBlk blockIdx 0

/-- The sixteenth block: the single pointer block goes with it, and the three blocks it
still lists become direct ones again. -/
def removeLastSixteenth (blockIdx : ℕ) : InodeM Unit := do
  let n ← theInode
  let singlePtr := n.blk 12
  let singlePtrData ← onFs (readBlock env singlePtr)
  let blockToRemove := ptrAt singlePtrData (blockIdx - 12)
  if blockToRemove = 0 then throw .illegalBlockNo
  onFs (setBlockAllocated env blockToRemove false)
  modifyInode fun n => n.setBlk 12 (ptrAt singlePtrData 0)
  modifyInode fun n => n.setBlk 13 (ptrAt singlePtrData 1)
  modifyInode fun n => n.setBlk 14 (ptrAt singlePtrData 2)
  onFs (setBlockAllocated env singlePtr false)

/-- The last block is listed in the single pointer block. -/
def removeLastSingle (blockIdx : ℕ) : InodeM Unit := do
  let n ← theInode
  let singlePtr := n.blk 12
  let singlePtrData ← onFs (readBlock env singlePtr)
  let indexInSinglePtr := blockIdx - 12
  let blockToRemove := ptrAt singlePtrData indexInSinglePtr
  if blockToRemove = 0 then throw .illegalBlockNo
  onFs (setBlockAllocated env blockToRemove false)
  onFs (writeBlock env (setPtrAt singlePtrData indexInSinglePtr 0) singlePtr)

/-- The last block is below the double pointer block. -/
def removeLastDouble (blockIdx : ℕ) : InodeM Unit := do
  let n ← theInode
  let (_, s) ← get
  let numInDoublePtr := blockIdx - 12 - s.layout.blocksInSinglePtr
  let indexInSinglePtr := numInDoublePtr % s.layout.blocksInSinglePtr
  let singlePtrIdxInDoublePtr := numInDoublePtr / s.layout.blocksInSinglePtr
  let doublePtr := n.blk 13
  let doublePtrData ← onFs (readBlock env doublePtr)
  let singlePtr := ptrAt doublePtrData singlePtrIdxInDoublePtr
  let singlePtrData ← onFs (readBlock env singlePtr)
  let blockToRemove := ptrAt singlePtrData indexInSinglePtr
  if blockToRemove = 0 then throw .illegalBlockNo
  onFs (setBlockAllocated env blockToRemove false)
  if indexInSinglePtr = 0 then do
    onFs (setBlockAllocated env singlePtr false)
    if singlePtrIdxInDoublePtr = 0 then do
      onFs (setBlockAllocated env doublePtr false)
      modifyInode fun n => n.setBlk 13 0
    else onFs (writeBlock env (setPtrAt doublePtrData singlePtrIdxInDoublePtr 0) doublePtr)
  else onFs (writeBlock env (setPtrAt singlePtrData indexInSinglePtr 0) singlePtr)

/-- The last block is below the triple pointer block. -/
def removeLastTriple (blockIdx : ℕ) : InodeM Unit := do
  let n ← theInode
  let (_, s) ← get
  let numInTriplePtr := blockIdx - 12 - s.layout.blocksInSinglePtr - s.layout.blocksInDoublePtr
  let indexInDoublePtr := numInTriplePtr % s.layout.blocksInDoublePtr
  let doublePtrIdxInTriplePtr := numInTriplePtr / s.layout.blocksInDoublePtr
  let indexInSinglePtr := indexInDoublePtr % s.layout.blocksInSinglePtr
  let singlePtrIdxInDoublePtr := indexInDoublePtr / s.layout.blocksInSinglePtr
  let triplePtr := n.blk 14
  let triplePtrData ← onFs (readBlock env triplePtr)
  let doublePtr := ptrAt triplePtrData doublePtrIdxInTriplePtr
  let doublePtrData ← onFs (readBlock env doublePtr)
  let singlePtr := ptrAt doublePtrData singlePtrIdxInDoublePtr
  let singlePtrData ← onFs (readBlock env singlePtr)
  let blockToRemove := ptrAt singlePtrData indexInSinglePtr
  if blockToRemove = 0 then throw .illegalBlockNo
  onFs (setBlockAllocated env blockToRemove false)
  if indexInSinglePtr = 0 then do
    onFs (setBlockAllocated env singlePtr false)
    if singlePtrIdxInDoublePtr = 0 then do
      onFs (setBlockAllocated env doublePtr false)
      if doublePtrIdxInTriplePtr = 0 then do
        onFs (setBlockAllocated env triplePtr false)
        modifyInode fun n => n.setBlk 14 0
      else onFs (writeBlock env (setPtrAt triplePtrData doublePtrIdxInTriplePtr 0) triplePtr)
    else onFs (writeBlock env (setPtrAt doublePtrData singlePtrIdxInDoublePtr 0) doublePtr)
  else onFs (writeBlock env (setPtrAt singlePtrData indexInSinglePtr 0) singlePtr)

/-- The part of `remove_last_block_inode` that works on the cached inode. -/
def removeLastBlockOfInode : InodeM Unit := do
  let n ← theInode
  let (_, s) ← get
  let oldBlocks := n.iBlocks.toNat
  if oldBlocks = 0 then throw .illegalBlockNo
  let blockIdx := oldBlocks - 1
  if oldBlocks ≤ 15 then removeLastDirect env blockIdx
  else if oldBlocks = 16 then removeLastSixteenth env blockIdx
  else if blockIdx < 12 + s.layout.blocksInSinglePtr then removeLastSingle env blockIdx
  else if blockIdx < 12 + s.layout.blocksInSinglePtr + s.layout.blocksInDoublePtr then
    removeLastDouble env blockIdx
  else removeLastTriple env blockIdx
  modifyInode fun n => { n with iBlocks := UInt32.ofNat (oldBlocks - 1) }

/-- `remove_last_block_inode`. -/
def removeLastBlockInode (id : ℕ) : FsM Unit := do
  getInodeFromCache env id
  markDirty id
  let r ← attempt (onCachedInode id (removeLastBlockOfInode env))
  let refErr ← attempt (removeRefFromCache env id)
  match r with
  | .error e => throw e
  | .ok _ =>
    match refErr with
    | .error e => throw e
    | .ok _ => pure ()

end OsPi
