import OsPi.Fs.OpenFiles

/-!
# Operations on Names

A model of the operations of `fs/kapi.c` that create, link, move and remove names, of
`free_file` of `fs/disk.c` and of `getcwd` of `fs/cmds.c`. A pointer that has not been set
when it is used is a fault.
-/

namespace OsPi

variable (env : Env)

/-! ### Removing -/

/-- The part of `free_file` before the inode is freed: the inode, to which a reference has been
taken, and the name and the directory of its entry. -/
def freeFileTarget (fName : Str) : FsM (ℕ × Str × ℕ) := do
  let out ← getDirentByPath env env.depth fName (.uninitialised env)
  match out.err with
  | some .fileNotFound | some .fileNotCreated => throw .fileNotFound
  | some e => throw e
  | none => do
    let ino := out.dirent.ino
    match ← tryErr (getInodeMetadata env ino), out.actualName with
    | _, none => throw .fault
    | .error e, some _ => throw e
    | .ok metadata, some actualName => do
      if metadata.type = directoryType then throw .isADirectory
      match ← tryErr (getInodeFromCache env ino) with
      | .error _ => throw .fault
      | .ok _ => pure (ino, actualName, out.parentDir)

/-- `free_file`. The inode number is not zero, as an inode with this number has no metadata. -/
def freeFile (fName : Str) : FsM Unit := do
  let (ino, actualName, parentDir) ← freeFileTarget env fName
  freeFileInode env ino
  let _ ← Comp.attempt (removeRefFromCache env ino)
  removeDirentByFName env actualName parentDir

/-- `k_unlink`. -/
def kUnlink (fname : Str) : FsM Unit := do
  let s ← get
  if !s.isMounted then throw .fsNotMounted
  freeFile env fname

/-! ### Moving -/

/-- `k_mv_file`. -/
def kMvFile (srcPath destPath : Str) : FsM Unit := do
  let s ← get
  if !s.isMounted then throw .fsNotMounted
  let old ← getDirentByPath env env.depth srcPath (.uninitialised env)
  match old.err with
  | some e => throw e
  | none => do
    let new ← getDirentByPath env env.depth destPath (.uninitialised env)
    match new.err, new.actualName with
    | some .fileNotCreated, some name | none, some name => do
      addDirent env name old.dirent.ino new.parentDir
      removeDirentByFName env old.dirent.name old.parentDir
    | some .fileNotCreated, none | none, none => throw .fault
    | some e, _ => throw e

/-! ### Creating -/

/-- `k_make_directory`. -/
def kMakeDirectory (fPath : Str) : FsM Unit := do
  let s ← get
  if !s.isMounted then throw .fsNotMounted
  addDirentByPath env fPath directoryType 7

/-- The loop of `find_child_name_in_dir` over the blocks of a directory, from the given one
on. -/
def findChildLoop (parent child : ℕ) : ℕ → ℕ → ℕ → FsM Str
  | 0, _, _ => throw .fault
  | fuel + 1, index, block => do
    if block = 0 then throw .fileNotFound
    else do
      let data ← readBlock env block
      let s ← get
      match childName data child (List.range s.layout.direntsPerBlock) with
      | .inl true => throw .fileNotFound
      | .inl false => do
        let block ← getIthBlockOfFileById env parent (index + 1)
        findChildLoop parent child fuel (index + 1) block
      | .inr name => pure name
where
  /-- The name of the child among the given entries of a block; otherwise, whether the end of
  the directory is among them. -/
  childName (data child : ℕ) : List ℕ → Bool ⊕ Str
    | [] => .inl false
    | i :: rest =>
      let d := direntAt data i
      if d.name = [] then .inl true
      else if d.ino = child ∧ d.name ≠ str "." ∧ d.name ≠ str ".." then .inr d.name
      else childName data child rest

/-- The loop of `getcwd`: the names on the way to the root directory, innermost first. -/
def getcwdLoop : ℕ → ℕ → FsM (List Str)
  | 0, curr => if curr = rootIno then pure [] else throw .invalidArgs
  | fuel + 1, curr =>
    if curr = rootIno then pure []
    else do
      let parent ← getDirentByFName env env.depth (str "..") curr
      let block ← getFirstBlock env parent.ino
      let name ← findChildLoop env parent.ino curr (2 ^ 32) 0 block
      let names ← getcwdLoop fuel parent.ino
      pure (name :: names)

/-- `getcwd`, into a buffer of the given size. -/
def getcwd (size : ℕ) : FsM Str := do
  let s ← get
  if !s.isMounted then throw .fsNotMounted
  if env.cwd = 0 then throw .pidNotFound
  if env.cwd = rootIno then pure [slash]
  else do
    match ← tryErr (vfsFormatPath env env.cwd size) with
    | .ok path => pure path
    | .error _ => do
      let names ← getcwdLoop env 32 env.cwd
      let path := slash :: (List.intersperse [slash] names.reverse).flatten
      if size ≤ path.length + 1 then throw .invalidArgs
      pure path

/-- `make_absolute_path`. -/
def makeAbsolutePath (path : Str) : FsM Str := do
  if path = [] then throw .invalidArgs
  if path.head? = some slash then pure path
  else do
    let cwd ← getcwd env 1024
    pure (cwd ++ (if cwd = [slash] then [] else [slash]) ++ path)

/-- `write_symlink_target`. -/
def writeSymlinkTarget (ino : ℕ) (targetPath : Str) : FsM Unit := do
  getInodeFromCache env ino
  let out ← defaultWrite env ino oWronly 0 (ofBytes targetPath) targetPath.length
  let _ ← Comp.attempt (removeRefFromCache env ino)
  let written ← ofExcept out.ret
  if written ≠ targetPath.length then throw .fileWriteError

/-- `createlink`. The entry found for the original path and the one of the new path are the
same variable. -/
def createlink (createPath origPath : Str) (isSoft : Bool) : FsM Unit := do
  let orig ← getDirentByPath env env.depth origPath (.uninitialised env)
  match orig.err with
  | some e => throw e
  | none => do
    let origMetadata ← getInodeMetadata env orig.dirent.ino
    let out ← getDirentByPath env env.depth createPath
      ⟨none, orig.dirent, env.stackIno, none⟩
    match out.err with
    | none => throw .fileAlreadyExists
    | some .fileNotCreated => do
      let newIno ←
        if isSoft then do
          let absoluteOrigPath ← makeAbsolutePath env origPath
          let newIno ← addNewFileInode env symlinkType origMetadata.perm symlinkFops
          writeSymlinkTarget env newIno absoluteOrigPath
          pure newIno
        else pure out.dirent.ino
      addDirent env (out.actualName.getD []) newIno out.parentDir
    | some e => throw e

end OsPi
