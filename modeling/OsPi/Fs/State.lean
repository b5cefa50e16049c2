import OsPi.Errors
import OsPi.Lib.Bytes
import OsPi.Lib.Comp

/-!
# Formats and State of the File System

The on-disk formats of `fs/inodes.h` and `fs/dirs.h` and the module-level state of
`fs/disk.c`, `fs/caches/inode_cache.c`, `fs/oft.c` and `fs/virtual_fs.c`.

A block is the number its bytes spell (`Bytes`). The blocks of the file-system region are
held in one list, which is what `read_block` and `write_block` show their callers: the
block cache between them and the device is transparent (`blockCache_transparent`). Block
numbers and inode numbers are natural numbers; the fields of an inode have the widths of
the C structure.

What an operation takes from outside the file system is its environment `Env`: which
device operations fail, the ticks of the timer, the bytes uninitialised memory holds, the
current directory, the room on the kernel stack and the virtual file systems. Theorems hold for every environment
unless they say otherwise, and every operation of a run may have its own.
-/

namespace OsPi

/-! ### Strings -/

/-- A C string: the bytes before the terminating NUL. -/
abbrev Str := List UInt8

/-- The bytes of a string constant. -/
def str (s : String) : Str := s.toByteArray.data.toList

/-- The byte `'/'`. -/
def slash : UInt8 := 47

/-- Bytes as the number they spell. -/
def ofBytes : List UInt8 → ℕ
  | [] => 0
  | c :: cs => c.toNat + 256 * ofBytes cs

/-- The `len` bytes of `b` from `off` on. -/
def toBytes (b off len : ℕ) : List UInt8 :=
  (List.range len).map fun i => UInt8.ofNat (Bytes.read b (off + i) 1)

/-- The C string that starts at byte `off`, of at most `n` bytes. -/
def cstr (b off : ℕ) : ℕ → Str
  | 0 => []
  | n + 1 =>
    if Bytes.read b off 1 = 0 then []
    else UInt8.ofNat (Bytes.read b off 1) :: cstr b (off + 1) n

/-! ### Constants -/

/-- `ROOT_INO`. -/
def rootIno : ℕ := 1

def directoryType : UInt8 := 0
def fileType : UInt8 := 1
def symlinkType : UInt8 := 2

def pipeType : UInt8 := 4

/-- The addresses of the four operation tables an inode on disk can refer to. Only that
they are distinct and not null matters. -/
def defaultFops : UInt64 := 1
def defaultDirFops : UInt64 := 2
def symlinkFops : UInt64 := 3
def pipeFops : UInt64 := 4

/-! ### Inodes -/

/-- `attributes_t`: the metadata of an inode. The union of in-memory pointers is one
field. -/
structure Attributes where
  linksCount : UInt16
  type : UInt8
  perm : UInt8
  size : UInt32
  iBlocks : UInt32
  mtime : UInt64
  rdevMajor : UInt16
  rdevMinor : UInt16
  fops : UInt64
  iDir : UInt64
  deriving DecidableEq, Repr

/-- `struct inode_st`. -/
structure Inode extends Attributes where
  blocks : Vector UInt32 15
  deriving DecidableEq, Repr

/-- `sizeof(struct inode_st)`. -/
def inodeSize : ℕ := 112

/-- The `i`-th entry of the array `blocks`. -/
def Inode.blk (n : Inode) (i : ℕ) : ℕ :=
  (n.blocks[i]?.getD 0).toNat

/-- Assign the `i`-th entry of the array `blocks`. -/
def Inode.setBlk (n : Inode) (i v : ℕ) : Inode :=
  { n with blocks := n.blocks.setIfInBounds i (UInt32.ofNat v) }

/-- All bytes zero. -/
def Inode.zero : Inode where
  linksCount := 0
  type := 0
  perm := 0
  size := 0
  iBlocks := 0
  mtime := 0
  rdevMajor := 0
  rdevMinor := 0
  fops := 0
  iDir := 0
  blocks := Vector.replicate 15 0

/-- The bytes of an inode in the inode table; padding is zero. -/
def Inode.encode (n : Inode) : ℕ :=
  Bytes.cat [(2, n.linksCount.toNat), (1, n.type.toNat), (1, n.perm.toNat),
    (4, n.size.toNat), (4, n.iBlocks.toNat), (4, 0), (8, n.mtime.toNat),
    (2, n.rdevMajor.toNat), (2, n.rdevMinor.toNat), (4, 0), (8, n.fops.toNat),
    (8, n.iDir.toNat), (60, Bytes.pack 4 n.blk 15), (4, 0)]

/-- The inode its bytes spell. -/
def Inode.decode (b : ℕ) : Inode where
  linksCount := UInt16.ofNat (Bytes.read b 0 2)
  type := UInt8.ofNat (Bytes.read b 2 1)
  perm := UInt8.ofNat (Bytes.read b 3 1)
  size := UInt32.ofNat (Bytes.read b 4 4)
  iBlocks := UInt32.ofNat (Bytes.read b 8 4)
  mtime := UInt64.ofNat (Bytes.read b 16 8)
  rdevMajor := UInt16.ofNat (Bytes.read b 24 2)
  rdevMinor := UInt16.ofNat (Bytes.read b 26 2)
  fops := UInt64.ofNat (Bytes.read b 32 8)
  iDir := UInt64.ofNat (Bytes.read b 40 8)
  blocks := Vector.ofFn fun i => UInt32.ofNat (Bytes.read b (48 + 4 * i) 4)

/-! ### Directory entries -/

/-- `sizeof(struct fs_dirent)`. -/
def direntSize : ℕ := 64

/-- `struct fs_dirent`, as its 64 bytes: the name, the inode number at byte 32. -/
abbrev Dirent := ℕ

/-- The name of an entry, as string functions see it. -/
def Dirent.name (d : Dirent) : Str := cstr d 0 direntSize

/-- The inode number of an entry. -/
def Dirent.ino (d : Dirent) : ℕ := Bytes.read d 32 4

/-- An entry whose inode number is set before `strcpy` stores the name: a name of 32 bytes
or more runs over the inode number. -/
def Dirent.make (name : Str) (ino : ℕ) : Dirent :=
  Bytes.write (Bytes.write 0 32 4 ino) 0 (name.length + 1) (ofBytes name)

/-- An entry that `memset` clears, where the name is stored before the inode number. -/
def Dirent.emit (name : Str) (ino : ℕ) : Dirent :=
  Bytes.write (ofBytes name) 32 4 ino

/-! ### Layout and state -/

/-- The layout variables of `disk.c`. -/
structure Layout where
  bytesPerBlock : ℕ
  totalBlocks : ℕ
  blockBitmapStart : ℕ
  blockBitmapBlocks : ℕ
  inodeBitmapStart : ℕ
  inodeBitmapBlocks : ℕ
  inodeTableStart : ℕ
  numTableBlocks : ℕ
  dataStartBlock : ℕ
  deriving DecidableEq, Repr

namespace Layout

/-- `INODES_PER_BLOCK`. -/
def inodesPerBlock (l : Layout) : ℕ := l.bytesPerBlock / inodeSize

/-- `BLOCKS_IN_SINGLE_PTR`. -/
def blocksInSinglePtr (l : Layout) : ℕ := l.bytesPerBlock / 4

/-- `BLOCKS_IN_DOUBLE_PTR`. -/
def blocksInDoublePtr (l : Layout) : ℕ := l.blocksInSinglePtr * l.blocksInSinglePtr

/-- `BLOCKS_IN_TRIPLE_PTR`. -/
def blocksInTriplePtr (l : Layout) : ℕ := l.blocksInDoublePtr * l.blocksInSinglePtr

/-- The number of directory entries in a block. -/
def direntsPerBlock (l : Layout) : ℕ := l.bytesPerBlock / direntSize

def bitsPerBlock (l : Layout) : ℕ := l.bytesPerBlock * 8

/-- `get_inode_capacity`. -/
def inodeCapacity (l : Layout) : ℕ := l.numTableBlocks * l.inodesPerBlock % 2 ^ 32

/-- The block of the inode table an inode lies in. -/
def inodeBlock (l : Layout) (id : ℕ) : ℕ :=
  (id + 2 ^ 32 - 1) % 2 ^ 32 / l.inodesPerBlock + l.inodeTableStart

/-- The place of an inode in its block of the inode table. -/
def inodeIndex (l : Layout) (id : ℕ) : ℕ :=
  (id + 2 ^ 32 - 1) % 2 ^ 32 % l.inodesPerBlock

end Layout

/-- A node of the inode cache. -/
structure CacheNode where
  id : ℕ
  numRefs : ℕ
  dirty : Bool
  inode : Inode
  deriving DecidableEq, Repr

/-- `struct oft_entry`. The cached inode it points to is the cache node of its inode
number, or the inode a virtual file system made for it. -/
structure OftEntry where
  mode : UInt8
  cursor : UInt32
  refCount : UInt16
  inoId : ℕ
  deriving DecidableEq, Repr

/-- The virtual file systems the kernel registers. -/
inductive VirtualFs
  | proc
  | dev
  deriving DecidableEq, Repr

/-- `struct virtual_root_mount`. -/
structure RootMount where
  name : Str
  rootIno : ℕ
  ops : VirtualFs
  deriving DecidableEq, Repr

/-- `struct pipe_st`: its open ends, and the bytes in its ring buffer. -/
structure Pipe where
  numReaders : ℤ
  numWriters : ℤ
  buffer : List UInt8
  deriving DecidableEq, Repr

/-- The state of the file system. -/
structure Fs where
  /-- `block_get_size()`: the block size of the device. -/
  deviceBlockSize : ℕ
  /-- `fs_get_block_count()`: the number of blocks of the file-system region. -/
  blockCount : ℕ
  /-- The blocks of the region. -/
  disk : List ℕ
  /-- The number of device operations so far. -/
  ios : ℕ
  layout : Layout
  /-- The inode cache, from head to tail. -/
  icache : List CacheNode
  /-- The open file table. -/
  oft : List (Option OftEntry)
  oftInitialized : Bool
  isMounted : Bool
  rootMounts : List RootMount
  /-- The static variable `next` of `strtok`: the string it points to. -/
  strtokNext : Option Str
  /-- The offsets of open directories, by the address of their `struct dir_st`. -/
  dirs : List (UInt64 × ℕ)
  /-- The pipes, by the address of their `struct pipe_st`. -/
  pipes : List (UInt64 × Pipe)
  deriving DecidableEq, Repr

/-- The computations of the file system. -/
abbrev FsM := Comp Fs Err

/-- Run a computation whose error code the caller looks at. -/
def tryErr {σ α : Type} (m : Comp σ Err α) : Comp σ Err (Except Err α) := do
  match ← Comp.attempt m with
  | .error e => if e.fatal then throw e else pure (.error e)
  | .ok a => pure (.ok a)

/-- Return what a function outside the file system returned. -/
def ofExcept {α : Type} : Except Err α → FsM α
  | .error e => throw e
  | .ok a => pure a

/-! ### Environment -/

/-- What a virtual file system answers. -/
structure VirtualOps where
  isInode : ℕ → Bool
  getMetadata : ℕ → Except Err Attributes
  /-- The operation `lookup` of the inode, when its table has one. -/
  lookup : ℕ → Option (Str → Except Err Dirent)
  /-- The entries the operation `readdir` of the inode returns one after the other, when its
  table has one. -/
  dirents : ℕ → Option (List Dirent)
  /-- The operation `open` of the inode, when its table has one. -/
  openInode : ℕ → Option (Except Err Unit)
  /-- The operation `close` of the inode, when its table has one. -/
  closeInode : ℕ → Option (Except Err Unit)
  /-- What the operation `read` of the inode returns, when its table has one. -/
  read : ℕ → Option (Except Err ℕ)
  /-- What the operation `write` of the inode returns, when its table has one. -/
  write : ℕ → Option (Except Err ℕ)
  formatPath : ℕ → Except Err Str

/-- What an operation takes from outside the file system. -/
structure Env where
  /-- `none` when every device operation succeeds; otherwise, which ones fail. -/
  fails : Option (ℕ → Bool)
  /-- The ticks read when the given inode is stamped. -/
  ticks : ℕ → UInt64
  /-- The bytes of a new buffer that is later written to the given block. -/
  junk : ℕ → ℕ
  /-- The words found past the end of a buffer, or in a buffer no block was read into. -/
  wild : ℕ → ℕ → ℕ
  /-- The current directory of the process, zero when there is none. -/
  cwd : ℕ
  /-- The number of nested path resolutions the kernel stack has room for. -/
  depth : ℕ
  /-- What an uninitialised `struct fs_dirent` on the stack holds. -/
  stackDirent : Dirent
  /-- What an uninitialised inode number on the stack holds. -/
  stackIno : ℕ
  /-- The address `kmalloc` returns for the state of an open directory or of a pipe. -/
  dirPtr : UInt64
  virtualOps : VirtualFs → VirtualOps

/-! ### Blocks -/

/-- The contents of a block. -/
def Fs.block (s : Fs) (num : ℕ) : ℕ := s.disk.getD num 0

/-- Replace the contents of a block. -/
def Fs.setBlock (s : Fs) (num data : ℕ) : Fs := { s with disk := s.disk.set num data }

/-- Whether the next device operation fails. -/
def deviceFails (env : Env) : FsM Bool :=
  match env.fails with
  | none => pure false
  | some f => do
    let s ← get
    set { s with ios := s.ios + 1 }
    pure (f s.ios)

/-- `read_block`. -/
def readBlock (env : Env) (num : ℕ) : FsM ℕ := do
  let s ← get
  if s.blockCount ≤ num then throw .fileReadError
  if ← deviceFails env then throw .fileReadError
  pure (s.block num)

/-- `write_block`. -/
def writeBlock (env : Env) (data num : ℕ) : FsM Unit := do
  let s ← get
  if s.blockCount ≤ num then throw .fileWriteError
  if ← deviceFails env then throw .fileWriteError
  modify fun s => s.setBlock num data

end OsPi
