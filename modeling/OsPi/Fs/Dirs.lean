import OsPi.Fs.FileIo

/-!
# Directories

A model of the functions of `fs/dirs.c` on one directory. A directory is a file of entries
of 64 bytes; an entry with an empty name ends it, unless the last block is full. The loops of
the source visit the blocks of the directory by their index until the block number is zero.
-/

namespace OsPi

variable (env : Env)

/-! ### Entries in a block -/

/-- The `i`-th entry of a block. -/
def direntAt (data i : ℕ) : Dirent := Bytes.read data (direntSize * i) direntSize

/-- Assign the `i`-th entry of a block. -/
def setDirentAt (data i : ℕ) (d : Dirent) : ℕ := Bytes.write data (direntSize * i) direntSize d

/-- What the scan of a block for a name comes to. -/
inductive Scan
  /-- The entry has an empty name. -/
  | endMark (i : ℕ)
  /-- The entry has the name. -/
  | found (i : ℕ)
  /-- Neither is in the block. -/
  | absent
  deriving DecidableEq, Repr

/-- Scan the given entries of a block for a name. -/
def scanDirents (data : ℕ) (name : Str) : List ℕ → Scan
  | [] => .absent
  | i :: rest =>
    if (direntAt data i).name = [] then .endMark i
    else if (direntAt data i).name = name then .found i
    else scanDirents data name rest

/-- Scan a block for a name. -/
def Layout.scan (l : Layout) (data : ℕ) (name : Str) : Scan :=
  scanDirents data name (List.range l.direntsPerBlock)

/-! ### Lookup -/

/-- The loop of `dir_lookup` over the blocks of a directory, from the given one on. The index
is an `int`. -/
def dirLookupLoop (fName : Str) (dir : ℕ) : ℕ → ℕ → ℕ → FsM (Option Dirent)
  | 0, _, _ => throw .fault
  | fuel + 1, index, block => do
    if block = 0 then pure none
    else do
      let data ← readBlock env block
      let s ← get
      match s.layout.scan data fName with
      | .endMark _ => pure none
      | .found i => pure (some (direntAt data i))
      | .absent => do
        let block ← getIthBlockOfFileById env dir (index + 1)
        dirLookupLoop fName dir fuel (index + 1) block

/-- `dir_lookup`. -/
def dirLookup (fName : Str) (currDir : ℕ) : FsM Dirent := do
  let s ← get
  match if currDir = rootIno then s.rootMount? fName else none with
  | some m => pure (Dirent.emit m.name m.rootIno)
  | none => do
    let block ← getFirstBlock env currDir
    match ← dirLookupLoop env fName currDir (2 ^ 32) 0 block with
    | some d => pure d
    | none => if currDir = rootIno then vfsLookupRootMount fName else throw .fileNotFound

/-! ### Adding an entry -/

/-- The last part of `add_dirent`: one more link of the inode. -/
def addLink (inoId : ℕ) : FsM Unit := do
  let metadata ← getInodeMetadata env inoId
  updateInodeMetadata env inoId editRefCount 0 0 (metadata.linksCount.toNat + 1)

/-- Put a new entry at the end mark of a block, and the end mark after it. -/
def putDirent (block data i : ℕ) (d : Dirent) : FsM Unit := do
  let s ← get
  let data := setDirentAt data i d
  writeBlock env data block
  if i + 1 < s.layout.direntsPerBlock then writeBlock env (setDirentAt data (i + 1) 0) block

/-- The new block of a directory whose blocks are all full. -/
def addDirentBlock (d : Dirent) (inoId currDir : ℕ) : FsM Unit := do
  let block ← allocateNewBlockForFileFromId env currDir
  writeBlock env (setDirentAt (setDirentAt (env.junk block) 0 d) 1 0) block
  let metadata ← getInodeMetadata env inoId
  let _ ← tryErr
    (updateInodeMetadata env inoId editRefCount 0 0 (metadata.linksCount.toNat + 1))

/-- The loop of `add_dirent` over the blocks of a directory, from the given one on. -/
def addDirentLoop (name : Str) (inoId currDir : ℕ) : ℕ → ℕ → ℕ → FsM Unit
  | 0, _, _ => throw .fault
  | fuel + 1, index, block => do
    if block = 0 then addDirentBlock env (Dirent.make name inoId) inoId currDir
    else
      match ← tryErr (readBlock env block) with
      | .error _ => throw .fileReadError
      | .ok data => do
        let s ← get
        match s.layout.scan data name with
        | .endMark i => do
          putDirent env block data i (Dirent.make name inoId)
          addLink env inoId
        | .found _ => throw .fileAlreadyExists
        | .absent => do
          let block ← getIthBlockOfFileById env currDir (index + 1)
          addDirentLoop name inoId currDir fuel (index + 1) block

/-- `add_dirent`. -/
def addDirent (name : Str) (inoId currDir : ℕ) : FsM Unit := do
  let block ← getFirstBlock env currDir
  addDirentLoop env name inoId currDir (2 ^ 32) 0 block

/-! ### Removing an entry -/

/-- How the inner loop of `remove_dirent_by_f_name` leaves a block. -/
inductive RemoveScan
  /-- It has returned: the end of the directory was in this block. -/
  | done
  /-- It goes on with the next block, with the block as changed so far and whether the name
  has been found. -/
  | next (data : ℕ) (found : Bool)

/-- The entry that takes the place of the `i`-th one of a block: the one after it, which for
the last one of the block is the first one of the next block. -/
def followingDirent (parentDir index data i : ℕ) : FsM Dirent := do
  let s ← get
  if i + 1 = s.layout.direntsPerBlock then do
    let nextBlock ← getIthBlockOfFileById env parentDir (index + 1)
    if nextBlock = 0 then throw .fileNotFound
    let nextData ← readBlock env nextBlock
    pure (direntAt nextData 0)
  else pure (direntAt data (i + 1))

/-- The inner loop of `remove_dirent_by_f_name` over the given entries of a block. -/
def removeScan (fName : Str) (parentDir index block : ℕ) :
    List ℕ → ℕ → Bool → FsM RemoveScan
  | [], data, found => pure (.next data found)
  | i :: rest, data, found => do
    if (direntAt data i).name = [] then do
      writeBlock env data block
      if found ∧ i = 1 then removeLastBlock env parentDir
      pure .done
    else do
      let _ ← getInodeMetadata env (direntAt data i).ino
      let found := found || decide ((direntAt data i).name = fName)
      if found then do
        let d ← followingDirent env parentDir index data i
        removeScan fName parentDir index block rest (setDirentAt data i d) found
      else removeScan fName parentDir index block rest data found

/-- The loop of `remove_dirent_by_f_name` over the blocks of a directory, from the given one
on. -/
def removeDirentLoop (fName : Str) (parentDir : ℕ) : ℕ → ℕ → ℕ → Bool → FsM Unit
  | 0, _, _, _ => throw .fault
  | fuel + 1, index, block, found => do
    if block = 0 then throw .fileNotFound
    else do
      let data ← readBlock env block
      let s ← get
      match ← removeScan env fName parentDir index block (List.range s.layout.direntsPerBlock)
          data found with
      | .done => pure ()
      | .next data found => do
        if found then writeBlock env data block
        let block ← getIthBlockOfFileById env parentDir (index + 1)
        removeDirentLoop fName parentDir fuel (index + 1) block found

/-- `remove_dirent_by_f_name`. -/
def removeDirentByFName (fName : Str) (parentDir : ℕ) : FsM Unit := do
  let block ← getFirstBlock env parentDir
  removeDirentLoop env fName parentDir (2 ^ 32) 0 block false

/-! ### Opening and closing a directory -/

/-- Assign the offset of an open directory. -/
def Fs.setDir (s : Fs) (dir : UInt64) (offset : ℕ) : Fs :=
  { s with dirs := (dir, offset) :: s.dirs.filter fun d => d.1 ≠ dir }

/-- Free the state of an open directory. -/
def Fs.freeDir (s : Fs) (dir : UInt64) : Fs :=
  { s with dirs := s.dirs.filter fun d => d.1 ≠ dir }

/-- `metadata.i_dir->offset`. An address that is not one of a `struct dir_st`, such as one read
back from the disk, is a dangling pointer. -/
def dirOffset (dir : UInt64) : FsM ℕ := do
  let s ← get
  match s.dirs.lookup dir with
  | none => throw .fault
  | some offset => pure offset

/-- `opendir`: the offset into a directory is kept in memory, and its address in the inode. -/
def opendir (ino : ℕ) : FsM Unit := do
  let metadata ← getInodeMetadata env ino
  if metadata.type ≠ directoryType then throw .invalidArgs
  let iDir ←
    if metadata.iDir = 0 then
      if env.dirPtr = 0 then throw .noFreeBlocks else pure env.dirPtr
    else do
      let _ ← dirOffset metadata.iDir
      pure metadata.iDir
  modify fun s => s.setDir iDir 0
  setInodeMetadata env ino { metadata with iDir }

/-- `closedir`. -/
def closedir (ino : ℕ) : FsM Unit := do
  let metadata ← getInodeMetadata env ino
  if metadata.iDir ≠ 0 then do
    let _ ← dirOffset metadata.iDir
    modify fun s => s.freeDir metadata.iDir
  setInodeMetadata env ino { metadata with iDir := 0 }

end OsPi
