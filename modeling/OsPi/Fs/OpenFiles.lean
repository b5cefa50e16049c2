import OsPi.Fs.Paths

/-!
# Open Files

A model of `fs/oft.c` and of the operations of `fs/kapi.c` on open files. An entry of the
open file table refers to an inode by its number and holds one reference to its node in the
inode cache, or to an inode a virtual file system made.
-/

namespace OsPi

variable (env : Env)

/-! ### The open file table -/

/-- `entry_deletor`. -/
def entryDeletor (entry : OftEntry) : FsM Unit :=
  if 0 < entry.inoId then vfsPutInode env entry.inoId else pure ()

/-- The loop of `vec_destroy` over the entries of the table. -/
def deleteEntries : List (Option OftEntry) → FsM Unit
  | [] => pure ()
  | none :: rest => deleteEntries rest
  | some entry :: rest => do
    entryDeletor env entry
    deleteEntries rest

/-- `empty_oft`. -/
def emptyOft : FsM Unit := do
  let s ← get
  if s.oftInitialized then do
    deleteEntries env s.oft
    modify fun s => { s with oft := [], oftInitialized := false }
  else pure ()

/-- `initialize_oft`. -/
def initializeOft : FsM Unit := do
  emptyOft env
  modify fun s => { s with oft := [], oftInitialized := true }

/-- `get_oft_entry_by_fd`. -/
def getOftEntryByFd (fd : ℕ) : FsM OftEntry := do
  let s ← get
  match s.oft[fd]? with
  | some (some entry) => pure entry
  | _ => throw .oftFdDoesNotExist

/-- Assign an entry of the table. -/
def setOftEntry (fd : ℕ) (entry : Option OftEntry) : FsM Unit :=
  modify fun s => { s with oft := s.oft.set fd entry }

/-- The place for a new entry, as `find_file_in_table` finds it: the first empty one, or the
end of the table. -/
def Fs.freeFd (s : Fs) : ℕ := s.oft.findIdx fun e => e.isNone

/-- Put a new entry in the table. -/
def pushOftEntry (entry : OftEntry) : FsM ℕ := do
  let s ← get
  if s.freeFd = s.oft.length then modify fun s => { s with oft := s.oft ++ [some entry] }
  else setOftEntry s.freeFd (some entry)
  pure s.freeFd

/-- `add_new_file`: the number of the new inode, and whether a reference to it could be
taken. -/
def addNewFile (fileType perm : UInt8) (fops : UInt64) : FsM (ℕ × Bool) := do
  let ino ← addNewFileInode env fileType perm fops
  let held ← tryErr (getInodeFromCache env ino)
  -- the number is returned as an `int` and taken for an error when it is negative; which error
  -- does not matter to the callers
  if toInt32 ino < 0 then throw .fileOpenError
  pure (ino, held.isOk)

/-- The part of `oft_open_file` that creates a file. -/
def oftCreateFile (fileName : Str) (dirBlock : ℕ) : FsM ℕ := do
  match ← tryErr (getDirentByFName env env.depth fileName dirBlock) with
  | .ok _ => throw .fileReadError
  | .error _ => do
    let (ino, held) ← addNewFile env fileType 6 defaultFops
    match ← tryErr (addDirent env fileName ino dirBlock) with
    | .error e => do
      let _ ← Comp.attempt (removeRefFromCache env ino)
      throw e
    | .ok _ => if held then pure ino else throw .fileReadError

/-- `oft_open_file`. -/
def oftOpenFile (mode : UInt8) (fileName : Str) (inoId dirBlock : ℕ) : FsM ℕ := do
  let inoId ←
    if inoId = 0 then oftCreateFile env fileName dirBlock
    else do
      vfsGetInode env inoId
      pure inoId
  pushOftEntry ⟨mode, 0, 1, inoId⟩

/-- `oft_close_file`: the last reference to an entry empties its place, or shortens the table
when it is the last one. -/
def oftCloseFile (fd : ℕ) : FsM Unit := do
  let entry ← getOftEntryByFd fd
  let refCount := entry.refCount - 1
  if refCount = 0 then do
    modify fun s => { s with
      oft := if s.oft.length = fd + 1 then s.oft.dropLast else s.oft.set fd none }
    entryDeletor env entry
  else setOftEntry fd (some { entry with refCount })

/-! ### Pipes -/

/-- `PIPE_CAPACITY`. -/
def pipeCapacity : ℕ := 4096

/-- `SYS_EAGAIN` and `SYS_EINVAL`, which the callers take for the errors with the same codes. -/
def sysEagain : Err := .oftFdDoesNotExist
def sysEinval : Err := .fileAlreadyExists

/-- Assign a pipe. -/
def Fs.setPipe (s : Fs) (ptr : UInt64) (pipe : Pipe) : Fs :=
  { s with pipes := (ptr, pipe) :: s.pipes.filter fun p => p.1 ≠ ptr }

/-- `pipe_free`. -/
def Fs.freePipe (s : Fs) (ptr : UInt64) : Fs :=
  { s with pipes := s.pipes.filter fun p => p.1 ≠ ptr }

/-- The pipe an inode in use refers to. Its pointer shares a field with that of a directory. -/
def pipeOf (ino : ℕ) : FsM (UInt64 × Pipe) := do
  let n ← cachedInode ino
  if n.iDir = 0 then throw sysEinval
  let s ← get
  match s.pipes.lookup n.iDir with
  | none => throw .fault
  | some pipe => pure (n.iDir, pipe)

/-- `pipe_open`. -/
def pipeOpen (mode : UInt8) (ino : ℕ) : FsM Unit := do
  let (ptr, pipe) ← pipeOf ino
  let pipe :=
    if mode &&& oRdonly ≠ 0 then { pipe with numReaders := pipe.numReaders + 1 } else pipe
  let pipe :=
    if mode &&& oWronly ≠ 0 then { pipe with numWriters := pipe.numWriters + 1 } else pipe
  modify fun s => s.setPipe ptr pipe

/-- `produce_ring_buffer`. -/
def Pipe.produce (pipe : Pipe) (next : UInt8) : Option Pipe :=
  if pipe.buffer.length = pipeCapacity then none
  else some { pipe with buffer := pipe.buffer ++ [next] }

/-- `consume_ring_buffer`. -/
def Pipe.consume (pipe : Pipe) : Option (UInt8 × Pipe) :=
  match pipe.buffer with
  | [] => none
  | next :: buffer => some (next, { pipe with buffer })

/-- `pipe_close`: the last writer puts the end of the transmission in the buffer. When that is
full the counts stay changed. -/
def pipeClose (mode : UInt8) (ino : ℕ) : FsM Unit := do
  let (ptr, pipe) ← pipeOf ino
  let pipe :=
    if mode &&& oRdonly ≠ 0 then { pipe with numReaders := pipe.numReaders - 1 } else pipe
  let pipe :=
    if mode &&& oWronly ≠ 0 then { pipe with numWriters := pipe.numWriters - 1 } else pipe
  modify fun s => s.setPipe ptr pipe
  if mode &&& oWronly ≠ 0 ∧ pipe.numWriters = 0 then
    match pipe.produce 4 with
    | none => throw sysEagain
    | some pipe => modify fun s => s.setPipe ptr pipe
  if pipe.numReaders = 0 ∧ pipe.numWriters = 0 then modify fun s => s.freePipe ptr

/-! ### Opening and closing -/

/-- `default_open`. -/
def defaultOpen (fd : ℕ) : FsM Unit := do
  let entry ← getOftEntryByFd fd
  if entry.mode &&& oTrunc ≠ 0 then do
    clearBlocksOfFile env entry.inoId
    setOftEntry fd (some { entry with mode := entry.mode &&& ~~~oTrunc })

/-- The operation `open` of the inode a symbolic link leads to. -/
def openTarget (mode : UInt8) (fops : Fops) (ino : ℕ) : FsM Unit :=
  match fops with
  | .null => pure ()
  | .default => if mode &&& oTrunc ≠ 0 then clearBlocksOfFile env ino else pure ()
  | .defaultDir => opendir env ino
  | .symlink => throw .fault
  | .pipe => pipeOpen mode ino
  | .virtual ops =>
    match ops.openInode ino with
    | none => pure ()
    | some ret => ofExcept ret

/-- `symlink_open`: the entry is made to refer to the inode the link leads to. -/
def symlinkOpen (fd : ℕ) : FsM Unit := do
  let entry ← getOftEntryByFd fd
  match env.depth with
  | 0 => throw .stackOverflow
  | depth + 1 => do
    let target ← symlinkResolveTarget env depth entry.inoId
    let fops ← fopsInUse env target
    match ← tryErr (openTarget env entry.mode fops target) with
    | .error e => do
      vfsPutInode env target
      throw e
    | .ok _ => do
      setOftEntry fd (some { entry with inoId := target })
      vfsPutInode env entry.inoId

/-- The operation `open` of an entry of the table. -/
def openOp (fd : ℕ) : FsM Unit := do
  let entry ← getOftEntryByFd fd
  match ← fopsInUse env entry.inoId with
  | .null => pure ()
  | .default => defaultOpen env fd
  | .defaultDir => opendir env entry.inoId
  | .symlink => symlinkOpen env fd
  | .pipe => pipeOpen entry.mode entry.inoId
  | .virtual ops =>
    match ops.openInode entry.inoId with
    | none => pure ()
    | some ret => ofExcept ret

/-- The characters `k_open` accepts in a path. -/
def validChar (c : UInt8) : Bool :=
  (97 ≤ c && c ≤ 122) || (65 ≤ c && c ≤ 90) || (48 ≤ c && c ≤ 57) ||
    c = 46 || c = 45 || c = 95 || c = slash

/-- What `k_open` checks of an inode that exists. -/
def openPermitted (mode : UInt8) (metadata : Attributes) : Option Err :=
  if metadata.perm &&& 4 = 0 ∧ mode &&& oRdonly ≠ 0 then some .invalidPermissions
  else if metadata.perm &&& 2 = 0 ∧ mode &&& (oWronly ||| oAppend) ≠ 0 then
    some .invalidPermissions
  else if metadata.type = directoryType ∧ mode &&& (oWronly ||| oAppend ||| oTrunc) ≠ 0 then
    some .isADirectory
  else none

/-- The number of the inode `k_open` opens, zero for a file that is to be created. -/
def openIno (mode : UInt8) (out : PathOut) : FsM ℕ :=
  match out.err with
  | none => do
    let metadata ← getInodeMetadata env out.dirent.ino
    match openPermitted mode metadata with
    | some e => throw e
    | none => pure out.dirent.ino
  | some .fileNotCreated => if mode &&& oCreat = 0 then throw .fileNotFound else pure 0
  | some e => throw e

/-- `k_open`. -/
def kOpen (fname : Str) (mode : UInt8) : FsM ℕ := do
  let s ← get
  if !s.isMounted then throw .fsNotMounted
  if !fname.all validChar then throw .invalidFileName
  let out ← getDirentByPath env env.depth fname (.uninitialised env)
  let ino ← openIno env mode out
  let fd ← oftOpenFile env mode (out.actualName.getD []) ino out.parentDir
  match ← tryErr (openOp env fd) with
  | .ok _ => pure fd
  | .error e => do
    let _ ← Comp.attempt (oftCloseFile env fd)
    throw e

/-- The operation `close` of an entry of the table. -/
def closeOp (entry : OftEntry) : FsM Unit := do
  match ← fopsInUse env entry.inoId with
  | .null | .default | .symlink => pure ()
  | .defaultDir => closedir env entry.inoId
  | .pipe => pipeClose entry.mode entry.inoId
  | .virtual ops =>
    match ops.closeInode entry.inoId with
    | none => pure ()
    | some ret => ofExcept ret

/-- `k_close`. -/
def kClose (fd : ℕ) : FsM Unit := do
  let entry ← getOftEntryByFd fd
  let s ← get
  if !s.isMounted then throw .fsNotMounted
  closeOp env entry
  oftCloseFile env fd

/-! ### Reading, writing and seeking -/

/-- What `k_read` returns: the count, and the pieces copied from blocks of the disk. -/
structure Read where
  count : ℤ
  chunks : List Chunk

/-- Reading or writing a virtual file, with the operation of its table when there is one. -/
def virtualIo (ops : VirtualOps) (op : Option (Except Err ℕ)) (ino : ℕ) : FsM ℤ :=
  match op with
  | some ret => do
    let count ← ofExcept ret
    pure count
  | none => do
    let metadata ← ofExcept (ops.getMetadata ino)
    if metadata.type = directoryType then throw .isADirectory else pure 0

/-- `k_read`, for an entry that is not one of a pipe: a thread that reads a pipe may have to
wait. -/
def kRead (fd n : ℕ) : FsM Read := do
  let entry ← getOftEntryByFd fd
  let s ← get
  if !s.isMounted then throw .fsNotMounted
  if entry.mode &&& oRdonly = 0 then throw .invalidPermissions
  match ← fopsInUse env entry.inoId with
  | .null => do
    let metadata ← cachedInode entry.inoId
    if metadata.type = directoryType then throw .isADirectory else pure ⟨0, []⟩
  | .defaultDir => throw .isADirectory
  | .default => do
    let out ← defaultRead env entry.inoId entry.cursor.toNat n
    setOftEntry fd (some { entry with cursor := UInt32.ofNat out.cursor })
    let count ← ofExcept out.ret
    pure ⟨count, out.chunks⟩
  | .symlink | .pipe => throw .fault
  | .virtual ops => do
    let count ← virtualIo ops (ops.read entry.inoId) entry.inoId
    pure ⟨count, []⟩

/-- `k_write` of the first `n` bytes of a buffer, for an entry that is not one of a pipe. -/
def kWrite (fd buf n : ℕ) : FsM ℤ := do
  let entry ← getOftEntryByFd fd
  let s ← get
  if !s.isMounted then throw .fsNotMounted
  if entry.mode &&& oWronly = 0 then throw .invalidPermissions
  match ← fopsInUse env entry.inoId with
  | .null => do
    let metadata ← cachedInode entry.inoId
    if metadata.type = directoryType then throw .isADirectory else pure 0
  | .defaultDir => throw .isADirectory
  | .default => do
    let out ← defaultWrite env entry.inoId entry.mode entry.cursor.toNat buf n
    setOftEntry fd (some { entry with cursor := UInt32.ofNat out.cursor })
    ofExcept out.ret
  | .symlink | .pipe => throw .fault
  | .virtual ops => virtualIo ops (ops.write entry.inoId) entry.inoId

/-- `F_SEEK_SET`, `F_SEEK_CUR` and `F_SEEK_END`. -/
inductive Whence
  | set
  | cur
  | fromEnd
  deriving DecidableEq, Repr

/-- The cursor `k_lseek` moves to. -/
def seekTarget (cursor fileSize : ℕ) (offset : ℤ) : Whence → ℕ
  | .set => toUint32 offset
  | .cur => toUint32 (cursor + offset)
  | .fromEnd => toUint32 (toInt32 fileSize + offset)

/-- The part of `k_lseek` that fills the rest of the last block: it reads and writes the block
after the last one. -/
def fillLastBlock (fileSize : ℕ) (offset : ℤ) (block : ℕ) : FsM Unit := do
  let s ← get
  let bs := s.layout.bytesPerBlock
  let data ← readBlock env block
  let stop := min (toInt32 (offset + toInt32 fileSize)) bs
  let len := (stop - fileSize).toNat
  writeBlock env (Bytes.write data fileSize len 0) block

/-- The loop of `k_lseek` that appends blocks of zeros. -/
def fillBlocks (ino bs : ℕ) : ℕ → ℤ → FsM Unit
  | 0, _ => pure ()
  | fuel + 1, offset =>
    if offset ≤ 0 then pure ()
    else do
      let block ← allocateNewBlockForFile env ino
      let _ ← Comp.attempt (writeBlock env 0 block)
      fillBlocks ino bs fuel (offset - bs)

/-- `k_lseek`, for an entry whose inode is not a virtual one. -/
def kLseek (fd : ℕ) (offset : ℤ) (whence : Whence) : FsM ℕ := do
  if offset < 0 then throw .fileSeekError
  let s ← get
  if !s.isMounted then throw .fsNotMounted
  let entry ← getOftEntryByFd fd
  let ino := entry.inoId
  let bs := s.layout.bytesPerBlock
  let fileSize ← getFileSize ino
  let cursor := seekTarget entry.cursor.toNat fileSize offset whence
  setOftEntry fd (some { entry with cursor := UInt32.ofNat cursor })
  let difUntilNewBlock := (toInt32 fileSize).tmod bs
  let offset := toInt32 (cursor - fileSize)
  let blockIndex := toUint32 ((toInt32 (toInt32 fileSize + bs - 1)).tdiv bs)
  let block ← getIthBlockOfFile env ino blockIndex
  let fills := 0 < offset ∧ difUntilNewBlock ≠ 0
  if fills then fillLastBlock env fileSize offset block
  let offset := if fills then toInt32 (offset - difUntilNewBlock) else offset
  fillBlocks env ino bs offset.toNat offset
  if fileSize < cursor then updateFileSize ino cursor
  pure cursor

end OsPi
