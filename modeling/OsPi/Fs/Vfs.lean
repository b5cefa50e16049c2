import OsPi.Fs.Inodes

/-!
# Virtual File Systems and Access by Inode Number

A model of `fs/virtual_fs.c` and of the functions at the end of `fs/disk.c` that the rest of
the file system reaches inodes and their blocks through. The two virtual file systems are
mounted in the root directory and answer for inode numbers of their own; every other number
is looked up in the inode cache.
-/

namespace OsPi

variable (env : Env)

/-! ### Root mounts -/

/-- The mount of the given name in the root directory. -/
def Fs.rootMount? (s : Fs) (name : Str) : Option RootMount :=
  s.rootMounts.find? fun m => m.name = name

/-- `vfs_lookup_root_mount`. -/
def vfsLookupRootMount (name : Str) : FsM Dirent := do
  let s ← get
  match s.rootMount? name with
  | none => throw .fileNotFound
  | some m => pure (Dirent.emit m.name m.rootIno)

/-- `procfs_is_virtual_inode`: the root directory, fifteen files in it, and for each of the 256
processes a directory with five files. -/
def procfsIsVirtualInode (ino : ℕ) : Bool :=
  ino = 0xF0000000 || 0xF0001000 ≤ ino && ino < 0xF0001000 + 15 ||
    0xF0002000 ≤ ino && ino < 0xF0002000 + 256 ||
    0xF0003000 ≤ ino && ino < 0xF0003000 + 256 * 5

/-- `devfs_is_virtual_inode`: the root directory and at most 64 devices in it. -/
def devfsIsVirtualInode (ino : ℕ) : Bool :=
  ino = 0xE0000000 || 0xE0001000 ≤ ino && ino < 0xE0001000 + 64

/-- The operation `is_inode` of a virtual file system. -/
def VirtualFs.isInode : VirtualFs → ℕ → Bool
  | .proc => procfsIsVirtualInode
  | .dev => devfsIsVirtualInode

/-- The virtual file systems answer for their own inode numbers. -/
def Env.Numbered (env : Env) : Prop := ∀ v, (env.virtualOps v).isInode = v.isInode

/-- `vfs_ops_for_inode`. -/
def Fs.opsForInode (s : Fs) (ino : ℕ) : Option VirtualOps :=
  (s.rootMounts.find? fun m => (env.virtualOps m.ops).isInode ino).map fun m =>
    env.virtualOps m.ops

/-- `vfs_get_inode`. A virtual inode is made of its metadata. -/
def vfsGetInode (ino : ℕ) : FsM Unit := do
  if ino = 0 then throw .invalidArgs
  let s ← get
  match s.opsForInode env ino with
  | some ops => do
    let _ ← ofExcept (ops.getMetadata ino)
  | none => getInodeFromCache env ino

/-- `vfs_put_inode`. -/
def vfsPutInode (ino : ℕ) : FsM Unit := do
  let s ← get
  match s.opsForInode env ino with
  | some _ => pure ()
  | none => do
    let _ ← Comp.attempt (removeRefFromCache env ino)

/-- `vfs_get_metadata`, also called `get_inode_metadata`. -/
def getInodeMetadata (ino : ℕ) : FsM Attributes := do
  if ino = 0 then throw .invalidArgs
  let s ← get
  match s.opsForInode env ino with
  | some ops => ofExcept (ops.getMetadata ino)
  | none => do
    getInodeFromCache env ino
    let n ← cachedInode ino
    let _ ← Comp.attempt (removeRefFromCache env ino)
    pure n.toAttributes

/-- `vfs_format_path`. -/
def vfsFormatPath (ino size : ℕ) : FsM Str := do
  if size = 0 ∨ ino = 0 then throw .invalidArgs
  let s ← get
  match s.opsForInode env ino with
  | none => throw .fileNotFound
  | some ops => ofExcept (ops.formatPath ino)

/-! ### The blocks of a file -/

/-- `get_ith_block_of_file_by_id`. -/
def getIthBlockOfFileById (id blockNum : ℕ) : FsM ℕ :=
  getBlockNumFromInodeWithId env id blockNum

/-- `get_first_block`. -/
def getFirstBlock (id : ℕ) : FsM ℕ :=
  getBlockNumFromInodeWithId env id 0

/-- `get_ith_block_of_file`, for the cached inode of an open file. -/
def getIthBlockOfFile (ino blockNum : ℕ) : FsM ℕ := do
  let snapshot ← cachedInode ino
  getBlockNumFromInode env snapshot blockNum

/-- `allocate_new_block_for_file`, for the cached inode of an open file. -/
def allocateNewBlockForFile (ino : ℕ) : FsM ℕ := do
  markDirty ino
  onCachedInode ino (allocateBlockForFileInode env)

/-- `allocate_new_block_for_file_from_id`. -/
def allocateNewBlockForFileFromId (id : ℕ) : FsM ℕ :=
  allocateBlockForFileInodeFromId env id

/-- `clear_blocks_of_file`, for the cached inode of an open file. -/
def clearBlocksOfFile (ino : ℕ) : FsM Unit := do
  markDirty ino
  onCachedInode ino (clearBlocksOfInode env 1)

/-- `clear_blocks_of_file_by_id`. -/
def clearBlocksOfFileById (id : ℕ) : FsM Unit := do
  match ← Comp.attempt (getInodeFromCache env id) with
  | .error _ => throw .fileWriteError
  | .ok _ => do
    markDirty id
    let toRet ← Comp.attempt (onCachedInode id (clearBlocksOfInode env 1))
    removeRefFromCache env id
    ofExcept toRet

/-- `remove_last_block`. -/
def removeLastBlock (id : ℕ) : FsM Unit :=
  removeLastBlockInode env id

/-- `add_new_file_with_id`. -/
def addNewFileWithId (fileType perm : UInt8) (fops : UInt64) : FsM ℕ :=
  addNewFileInode env fileType perm fops

/-- `get_file_size`, as an unsigned number. -/
def getFileSize (ino : ℕ) : FsM ℕ := do
  let n ← cachedInode ino
  pure n.size.toNat

/-- `update_file_size`. -/
def updateFileSize (ino newSize : ℕ) : FsM Unit := do
  markDirty ino
  onCachedInode ino (modifyInode fun n => { n with size := UInt32.ofNat newSize })

end OsPi
