import OsPi.Fs.Mkfs
import OsPi.Memory.Addresses

/-!
# Reading Directories and the Other Calls

A model of `readdir` and `list_dirents` of `fs/dirs.c` and of the remaining operations of
`fs/kapi.c`: the mode, the times and the attributes of a file, the current directory, listing a
directory, and one more reference to an open file.

The offset of an open directory is kept in one `struct dir_st` for the inode, whoever has opened
it.
-/

namespace OsPi

variable (env : Env)

/-! ### Reading a directory -/

/-- The number of entries among the given ones of a block, and whether the end of the directory
is among them. -/
def countDirents (data : ℕ) : List ℕ → ℕ × Bool
  | [] => (0, false)
  | i :: rest =>
    if (direntAt data i).name = [] then (0, true)
    else ((countDirents data rest).1 + 1, (countDirents data rest).2)

/-- The loop of `dir_physical_entry_count` over the blocks of a directory, from the given one
on. -/
def physicalEntryLoop (ino : ℕ) : ℕ → ℕ → ℕ → FsM ℕ
  | 0, _, _ => throw .fault
  | fuel + 1, blockIndex, count => do
    let block ← getIthBlockOfFileById env ino blockIndex
    if block = 0 then pure count
    else do
      let data ← readBlock env block
      let s ← get
      let (entries, ended) := countDirents data (List.range s.layout.direntsPerBlock)
      let count := (count + entries) % 2 ^ 32
      if ended then pure count else physicalEntryLoop ino fuel (blockIndex + 1) count

/-- `dir_physical_entry_count`. -/
def dirPhysicalEntryCount (ino : ℕ) : FsM ℕ := do
  let s ← get
  if s.layout.direntsPerBlock = 0 then throw .invalidArgs
  physicalEntryLoop env ino (2 ^ 32) 0 0

/-- `vfs_root_mount_readdir`. -/
def vfsRootMountReaddir (offset : ℕ) : FsM Dirent := do
  let s ← get
  match s.rootMounts[offset]? with
  | none => throw .fileNotFound
  | some m => pure (Dirent.emit m.name m.rootIno)

/-- `root_mount_readdir_after_physical`. -/
def rootMountReaddirAfterPhysical (ino offset : ℕ) : FsM Dirent := do
  if ino ≠ rootIno then throw .fileNotFound
  let physicalEntries ← dirPhysicalEntryCount env ino
  if offset < physicalEntries then throw .fileNotFound
  vfsRootMountReaddir (offset - physicalEntries)

/-- `metadata.i_dir->offset++`, and the metadata are stored again. -/
def advanceDir (ino : ℕ) (metadata : Attributes) (offset : ℕ) : FsM Unit := do
  modify fun s => s.setDir metadata.iDir ((offset + 1) % 2 ^ 32)
  setInodeMetadata env ino metadata

/-- The attributes of a directory that has been opened, or is opened now. -/
def openedDir (ino : ℕ) : FsM Attributes := do
  let metadata ← getInodeMetadata env ino
  if metadata.type ≠ directoryType then throw .invalidArgs
  if metadata.iDir ≠ 0 then pure metadata
  else do
    opendir env ino
    getInodeMetadata env ino

/-- The entries of the mounted file systems, which follow those of the root directory. -/
def readdirMounts (ino : ℕ) (metadata : Attributes) (offset : ℕ) : FsM Dirent := do
  let d ← rootMountReaddirAfterPhysical env ino offset
  advanceDir env ino metadata offset
  pure d

/-- `readdir`. An entry of the root directory with the name of a mount is passed over. -/
def readdir (ino : ℕ) : ℕ → FsM Dirent
  | 0 => throw .stackOverflow
  | depth + 1 => do
    let metadata ← openedDir env ino
    let s ← get
    let entriesPerBlock := s.layout.direntsPerBlock
    if entriesPerBlock = 0 then throw .invalidArgs
    let offset ← dirOffset metadata.iDir
    let block ← getIthBlockOfFileById env ino (offset / entriesPerBlock)
    if block = 0 then readdirMounts env ino metadata offset
    else do
      let data ← readBlock env block
      let d := direntAt data (offset % entriesPerBlock)
      if d.name = [] then readdirMounts env ino metadata offset
      else if ino = rootIno ∧ (s.rootMount? d.name).isSome then do
        advanceDir env ino metadata offset
        readdir ino depth
      else do
        advanceDir env ino metadata offset
        pure d

/-! ### Listing a directory -/

/-- `format_chmod_str`. -/
def formatChmodStr (perm : UInt8) : Str :=
  [if perm &&& 1 ≠ 0 then 120 else 45, if perm &&& 4 ≠ 0 then 114 else 45,
    if perm &&& 2 ≠ 0 then 119 else 45]

/-- `list_one_dirent`. The line is shorter than the buffer of `fprintf`. -/
def listOneDirent (outFd : ℕ) (d : Dirent) : FsM Unit := do
  let metadata ← getInodeMetadata env d.ino
  let line := str (toString d.ino ++ " ") ++ formatChmodStr metadata.perm ++
    str (" " ++ toString metadata.size ++ " tick=" ++ toString (metadata.mtime.toNat % 2 ^ 32) ++
      " ") ++ d.name ++ [10]
  let _ ← kWrite env outFd (ofBytes line) line.length

/-- The operation `open` of an entry outside of the table: the inode number it refers to
afterwards. -/
def openLocal (fops : Fops) (ino : ℕ) : FsM ℕ :=
  match fops with
  | .symlink =>
    match env.depth with
    | 0 => throw .stackOverflow
    | depth + 1 => do
      let target ← symlinkResolveTarget env depth ino
      let fops ← fopsInUse env target
      match ← tryErr (openTarget env oRdonly fops target) with
      | .error e => do
        vfsPutInode env target
        throw e
      | .ok _ => do
        vfsPutInode env ino
        pure target
  | fops => do
    openTarget env oRdonly fops ino
    pure ino

/-- The operation `close` of an entry outside of the table. -/
def closeLocal (ino : ℕ) : FsM Unit := closeOp env ⟨oRdonly, 0, 1, ino⟩

/-- Whether a table has the operation `readdir`. -/
def Fops.hasReaddir : Fops → ℕ → Bool
  | .defaultDir, _ | .symlink, _ => true
  | .virtual ops, ino => (ops.dirents ino).isSome
  | _, _ => false

/-- Whether a table has the operation `lookup`. -/
def Fops.hasLookup : Fops → ℕ → Bool
  | .defaultDir, _ | .symlink, _ => true
  | .virtual ops, ino => (ops.lookup ino).isSome
  | _, _ => false

/-- The loop of `list_dirents` over a directory on the disk; it returns the error that ends it. -/
def listLoop (outFd ino : ℕ) : ℕ → FsM Err
  | 0 => throw .fault
  | fuel + 1 => do
    match ← tryErr (readdir env ino (2 ^ 32)) with
    | .error e => pure e
    | .ok d => do
      listOneDirent env outFd d
      listLoop outFd ino fuel

/-- The same for the entries of a virtual directory. -/
def listEach (outFd : ℕ) : List Dirent → FsM Err
  | [] => pure .fileNotFound
  | d :: rest => do
    listOneDirent env outFd d
    listEach outFd rest

/-- List the directory an entry refers to. -/
def listEntries (outFd ino : ℕ) (fops : Fops) : FsM Err :=
  match fops with
  | .virtual ops => listEach env outFd ((ops.dirents ino).getD [])
  | _ => listLoop env outFd ino (2 ^ 32)

/-- The part of `list_dirents` after the directory has been opened; its reference to the inode is
dropped whatever happens. -/
def listOpened (outFd ino : ℕ) : FsM Unit := do
  let fops ← fopsInUse env ino
  if !fops.hasReaddir ino then do
    let _ ← tryErr (closeLocal env ino)
    vfsPutInode env ino
    throw .notADirectory
  match ← tryErr (listEntries env outFd ino fops) with
  | .error e => do
    let _ ← tryErr (closeLocal env ino)
    vfsPutInode env ino
    throw e
  | .ok e => do
    let closeErr ← tryErr (closeLocal env ino)
    vfsPutInode env ino
    if e ≠ .fileNotFound then throw e
    ofExcept closeErr

/-- `list_dirents`. -/
def listDirents (ino outFd : ℕ) : FsM Unit := do
  vfsGetInode env ino
  let fops ← fopsInUse env ino
  if !fops.hasReaddir ino then do
    vfsPutInode env ino
    throw .notADirectory
  match ← tryErr (openLocal env fops ino) with
  | .error e => do
    vfsPutInode env ino
    throw e
  | .ok ino => listOpened env outFd ino

/-- `k_ls`. -/
def kLs (fileName : Option Str) (outFd : ℕ) : FsM Unit := do
  let s ← get
  if !s.isMounted then throw .fsNotMounted
  match fileName with
  | none => listDirents env env.cwd outFd
  | some path => do
    let out ← getDirentByPath env env.depth path (.uninitialised env)
    match out.err with
    | some e => throw e
    | none => listDirents env out.dirent.ino outFd

/-! ### Attributes -/

/-- What `k_chmod` does with the permissions. -/
inductive ChmodFlag
  | assign
  | remove
  | add
  deriving DecidableEq, Repr

/-- `k_chmod`. -/
def kChmod (fileName : Str) (newPerms : UInt8) (flag : ChmodFlag) : FsM Unit := do
  let s ← get
  if !s.isMounted then throw .fsNotMounted
  let out ← getDirentByPath env env.depth fileName (.uninitialised env)
  match out.err with
  | some e => throw e
  | none =>
    match flag with
    | .assign => do
      updateInodeMetadata env out.dirent.ino (editPerm ||| andPerm) 0 0 0
      updateInodeMetadata env out.dirent.ino editPerm 0 newPerms 0
    | .remove => updateInodeMetadata env out.dirent.ino (editPerm ||| andPerm) 0 (~~~newPerms) 0
    | .add => updateInodeMetadata env out.dirent.ino editPerm 0 newPerms 0

/-- `k_update_file_time`. It passes no flag, so that no time is updated. -/
def kUpdateFileTime (fileName : Str) : FsM Unit := do
  let s ← get
  if !s.isMounted then throw .fsNotMounted
  let out ← getDirentByPath env env.depth fileName (.uninitialised env)
  match out.err with
  | some e => throw e
  | none => updateInodeMetadata env out.dirent.ino 0 0 0 0

/-- `k_stat`. -/
def kStat (path : Str) : FsM (ℕ × Attributes) := do
  let s ← get
  if !s.isMounted then throw .fsNotMounted
  if path = [] then throw .invalidArgs
  let out ← getDirentByPath env env.depth path (.uninitialised env)
  match out.err with
  | some e => throw e
  | none => do
    let metadata ← getInodeMetadata env out.dirent.ino
    pure (out.dirent.ino, metadata)

/-- `k_readlink`. -/
def kReadlink (path : Str) (count : ℕ) : FsM Str := do
  let s ← get
  if !s.isMounted then throw .fsNotMounted
  let out ← getDirentByPath env env.depth path (.uninitialised env)
  match out.err with
  | some .fileNotCreated => throw .fileNotFound
  | some e => throw e
  | none => do
    let metadata ← getInodeMetadata env out.dirent.ino
    if metadata.type ≠ symlinkType then throw .invalidArgs
    let targetPath ← symlinkReadTargetPath env out.dirent.ino
    pure (targetPath.take count)

/-! ### The current directory -/

/-- `k_change_directory`: the inode number of the new current directory. -/
def kChangeDirectory (path : Str) : FsM ℕ := do
  let s ← get
  if !s.isMounted then throw .fsNotMounted
  let out ← getDirentByPath env env.depth path (.uninitialised env)
  match out.err with
  | some .fileNotCreated => throw .fileNotFound
  | some e => throw e
  | none => do
    let ino := out.dirent.ino
    vfsGetInode env ino
    let fops ← fopsInUse env ino
    if !fops.hasLookup ino then do
      vfsPutInode env ino
      throw .notADirectory
    match ← tryErr (openLocal env fops ino) with
    | .error e => do
      vfsPutInode env ino
      throw e
    | .ok ino => do
      let fops ← fopsInUse env ino
      let closeErr ← tryErr (closeLocal env ino)
      vfsPutInode env ino
      if !fops.hasLookup ino then throw .notADirectory
      ofExcept closeErr
      pure ino

/-! ### One more reference to an open file -/

/-- `oft_add_reference`. -/
def oftAddReference (fd : ℕ) : FsM Unit := do
  let entry ← getOftEntryByFd fd
  setOftEntry fd (some { entry with refCount := entry.refCount + 1 })

/-- `k_file_add_reference`. -/
def kFileAddReference (fd : ℕ) : FsM Unit := do
  let s ← get
  if !s.isMounted then throw .fsNotMounted
  oftAddReference fd
  match ← tryErr (openOp env fd) with
  | .ok _ => pure ()
  | .error e => do
    let _ ← Comp.attempt (oftCloseFile env fd)
    throw e

/-! ### Pipes -/

/-- What a thread has read from a pipe or written to it so far, and whether it waits. -/
structure PipeIo where
  bytes : Str
  waits : Bool
  deriving DecidableEq, Repr

/-- The loop of `pipe_read`, up to the point where the thread returns or has to wait. -/
def Pipe.read (pipe : Pipe) : ℕ → PipeIo × Pipe
  | 0 => (⟨[], false⟩, pipe)
  | count + 1 =>
    match pipe.consume with
    | none => (⟨[], pipe.numWriters ≠ 0⟩, pipe)
    | some (next, pipe) =>
      if next = 4 then (⟨[], false⟩, pipe)
      else
        let (io, pipe) := pipe.read count
        (⟨next :: io.bytes, io.waits⟩, pipe)

/-- The loop of `pipe_write`, up to the point where the thread returns or has to wait. -/
def Pipe.write (pipe : Pipe) : Str → PipeIo × Pipe
  | [] => (⟨[], false⟩, pipe)
  | next :: rest =>
    match pipe.produce next with
    | none => (⟨[], true⟩, pipe)
    | some pipe =>
      let (io, pipe) := pipe.write rest
      (⟨next :: io.bytes, io.waits⟩, pipe)

/-- The common part of `pipe_read` and `pipe_write`: work on the pipe of an open file. -/
def onPipe (fd : ℕ) (flag : UInt8) (io : Pipe → PipeIo × Pipe) : FsM PipeIo := do
  let entry ← getOftEntryByFd fd
  let s ← get
  if !s.isMounted then throw .fsNotMounted
  if entry.mode &&& flag = 0 then throw .invalidPermissions
  match ← fopsInUse env entry.inoId with
  | .pipe => do
    let n ← cachedInode entry.inoId
    let s ← get
    match s.pipes.lookup n.iDir with
    | none => throw .fault
    | some pipe => do
      modify fun s => s.setPipe n.iDir (io pipe).2
      pure (io pipe).1
  | _ => throw .fault

/-- `k_read` for an entry of a pipe. A thread that waits calls it again for the rest. -/
def kReadPipe (fd count : ℕ) : FsM PipeIo := onPipe env fd oRdonly fun pipe => pipe.read count

/-- `k_write` for an entry of a pipe. -/
def kWritePipe (fd : ℕ) (bytes : Str) : FsM PipeIo :=
  onPipe env fd oWronly fun pipe => pipe.write bytes

/-- The first part of `pipe`: the new inode and the two entries of the table that refer to it.
There is no pipe behind the inode yet, so that closing an entry fails. -/
def pipeEntries : FsM (ℕ × ℕ × ℕ) := do
  if env.dirPtr = 0 then throw .noFreeBlocks
  modify fun s => s.setPipe env.dirPtr ⟨1, 1, []⟩
  match ← tryErr (addNewFileInode env pipeType 7 pipeFops) with
  | .error e => do
    modify fun s => s.freePipe env.dirPtr
    throw e
  | .ok ino =>
    match ← tryErr (oftOpenFile env oRdonly [] ino 0) with
    | .error e => do
      modify fun s => s.freePipe env.dirPtr
      throw e
    | .ok readFd =>
      match ← tryErr (oftOpenFile env oWronly [] ino 0) with
      | .error e => do
        let _ ← tryErr (kClose env readFd)
        modify fun s => s.freePipe env.dirPtr
        throw e
      | .ok writeFd => pure (ino, readFd, writeFd)

/-- The last part of `pipe`: the inode is made to refer to the pipe. -/
def pipeAttach (ino readFd writeFd : ℕ) : FsM Unit := do
  match ← tryErr (do
      let metadata ← getInodeMetadata env ino
      setInodeMetadata env ino { metadata with iDir := env.dirPtr }) with
  | .ok _ => pure ()
  | .error e => do
    let _ ← tryErr (kClose env readFd)
    let _ ← tryErr (kClose env writeFd)
    modify fun s => s.freePipe env.dirPtr
    throw e

/-! ### Mapping a file -/

/-- `MAP_SHARED`, `MAP_PRIVATE`, `MAP_FIXED` and `MAP_ANONYMOUS`. -/
structure MapFlags where
  shared : Bool
  priv : Bool
  fixed : Bool
  anonymous : Bool
  deriving DecidableEq, Repr

/-- The arguments of `mmap`; no address is the null pointer, and no descriptor is `-1`. -/
structure MmapArgs where
  addr : Option ℕ
  length : ℕ
  prot : ℤ
  flags : MapFlags
  fd : Option ℕ
  offset : ℕ
  deriving DecidableEq, Repr

/-- What `mmap` passes on to `add_vm_region`: the inode, if it maps a file, and how much of it. -/
structure MmapRegion where
  ino : Option ℕ
  fileOffset : ℕ
  fileSize : ℕ
  length : ℕ
  deriving DecidableEq, Repr

/-- The length `mmap` rounds up, if the arguments pass the checks that come first. -/
def MmapArgs.check (a : MmapArgs) : Option ℕ :=
  if a.addr.isSome ∧ ¬a.flags.fixed then none
  else if a.length = 0 then none
  else if a.offset % pageSize ≠ 0 then none
  else if a.prot > 7 ∨ a.prot < 0 then none
  else if a.flags.priv = a.flags.shared then none
  else some ((a.length + pageSize - 1) / pageSize * pageSize % 2 ^ 64)

/-- The size of the file an entry refers to. -/
def entrySize (entry : OftEntry) : FsM ℕ := do
  let s ← get
  match s.opsForInode env entry.inoId with
  | some ops => do
    let metadata ← ofExcept (ops.getMetadata entry.inoId)
    pure metadata.size.toNat
  | none => getFileSize entry.inoId

/-- The part of `mmap` that looks at the file: what is to be mapped, if anything. -/
def mmapFile (a : MmapArgs) (length fd : ℕ) : FsM (Option MmapRegion) := do
  match ← tryErr (getOftEntryByFd fd) with
  | .error _ => pure none
  | .ok entry => do
    let fileSize ← entrySize env entry
    if fileSize < a.offset then do
      let _ ← Comp.attempt (removeRefFromCache env entry.inoId)
      pure none
    else pure (some ⟨some entry.inoId, a.offset, min length (fileSize - a.offset), length⟩)

/-- `mmap`, up to the call of `add_vm_region`. -/
def mmap (a : MmapArgs) : FsM (Option MmapRegion) :=
  match a.check with
  | none => pure none
  | some length =>
    if a.flags.anonymous then
      if a.fd.isSome ∨ a.offset ≠ 0 then pure none else pure (some ⟨none, 0, 0, length⟩)
    else
      match a.fd with
      | none => pure none
      | some fd => mmapFile env a length fd

end OsPi
