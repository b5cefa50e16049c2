import OsPi.Fs.Dirs

/-!
# Path Resolution

A model of `get_dirent_by_path` and `add_dirent_by_path` of `fs/dirs.c`, of the lookups of
`fs/symlink.c` and of `strtok`, whose position is one static variable for every walk.

Looking up a name in a symbolic link resolves the path the link holds, which can meet
symbolic links again. The functions are defined by recursion on the number of resolutions
that may still be nested; when there is none left the kernel stack has overflowed.
-/

namespace OsPi

variable (env : Env)

/-! ### Tokens -/

/-- `strtok` with the delimiter `"/"`. -/
def strtok (str : Option Str) : FsM (Option Str) := do
  let s ← get
  match str <|> s.strtokNext with
  | none => pure none
  | some next => do
    match next.dropWhile (· = slash) with
    | [] => do
      set { s with strtokNext := none }
      pure none
    | rest => do
      set { s with strtokNext := (rest.dropWhile (· ≠ slash)).tail? }
      pure (some (rest.takeWhile (· ≠ slash)))

/-! ### The walk -/

/-- What `get_dirent_by_path` leaves: the code it returns, which is `none` for `SUCCESS`, and
the variables its arguments point to. -/
structure PathOut where
  err : Option Err
  dirent : Dirent
  parentDir : ℕ
  actualName : Option Str
  deriving DecidableEq, Repr

/-- The loop of `get_dirent_by_path`, where `lookup` is `get_dirent_by_f_name`. Every round
uses up a token. -/
def pathLoop (lookup : Str → ℕ → FsM Dirent) :
    ℕ → Option Str → Option Str → ℕ → PathOut → FsM PathOut
  | 0, _, _, _, _ => throw .fault
  | fuel + 1, token, nextToken, startDir, out => do
    match token with
    | none => pure { out with err := none, actualName := nextToken <|> out.actualName }
    | some name => do
      let out := { out with parentDir := startDir }
      match ← tryErr (lookup name startDir) with
      | .error _ =>
        match nextToken with
        | none => pure { out with err := some .fileNotCreated, actualName := some name }
        | some _ => pure { out with err := some .fileNotFound }
      | .ok dirent => do
        let out := { out with dirent }
        match nextToken with
        | none => pathLoop lookup fuel none (some name) dirent.ino out
        | some next => do
          let nextToken ← strtok none
          pathLoop lookup fuel (some next) nextToken dirent.ino out

/-- `get_dirent_by_path`, where `lookup` is `get_dirent_by_f_name` and `out` holds what the
variables held before the call. -/
def getDirentByPathWith (lookup : Str → ℕ → FsM Dirent) (fPath : Str) (out : PathOut) :
    FsM PathOut := do
  if fPath = [] then pure { out with err := some .invalidFileName }
  else if fPath = [slash] then
    pure { out with
      err := none, dirent := Dirent.emit [slash] rootIno, parentDir := rootIno }
  else do
    let startDir := if fPath.head? = some slash then rootIno else env.cwd
    let token ← strtok (some fPath)
    let nextToken ← strtok none
    pathLoop lookup (fPath.length + 2) token nextToken startDir out

/-- The variables of a caller that has not initialised them. -/
def PathOut.uninitialised : PathOut := ⟨none, env.stackDirent, env.stackIno, none⟩

/-! ### Symbolic links -/

/-- `symlink_read_target_path`. -/
def symlinkReadTargetPath (ino : ℕ) : FsM Str := do
  getInodeFromCache env ino
  let fileSize ← getFileSize ino
  if toInt32 fileSize ≤ 0 then do
    let _ ← Comp.attempt (removeRefFromCache env ino)
    throw .fileNotFound
  else do
    let out ← defaultRead env ino 0 fileSize
    let _ ← Comp.attempt (removeRefFromCache env ino)
    let bytes ← ofExcept out.ret
    if bytes < 0 then throw .fault
    let path := out.chunks.flatMap fun c => toBytes c.data 0 c.len
    pure (path.takeWhile (· ≠ 0))

/-- `SYMLINK_MAX_FOLLOW_DEPTH`. -/
def symlinkMaxFollowDepth : ℕ := 8

/-- The loop of `symlink_resolve_target`, where `walk` is `get_dirent_by_path`. It returns the
inode number the link leads to, with a reference to the inode taken. -/
def symlinkResolveLoop (walk : Str → FsM PathOut) : ℕ → ℕ → FsM ℕ
  | 0, _ => throw .fileNotFound
  | follow + 1, current => do
    let targetPath ← symlinkReadTargetPath env current
    let out ← walk targetPath
    match out.err with
    | some .fileNotCreated => throw .fileNotFound
    | some e => throw e
    | none => do
      let metadata ← getInodeMetadata env out.dirent.ino
      if metadata.type = symlinkType then symlinkResolveLoop walk follow out.dirent.ino
      else do
        vfsGetInode env out.dirent.ino
        pure out.dirent.ino

/-- The table of operations of an inode. -/
inductive Fops
  | null
  | default
  | defaultDir
  | symlink
  | pipe
  | virtual (ops : VirtualOps)

/-- The table of operations an inode refers to; every other address is not one of a table. -/
def fopsOf (ino : ℕ) (fops : UInt64) : FsM Fops := do
  let s ← get
  match s.opsForInode env ino with
  | some ops => pure (.virtual ops)
  | none =>
    if fops = 0 then pure .null
    else if fops = defaultFops then pure .default
    else if fops = defaultDirFops then pure .defaultDir
    else if fops = symlinkFops then pure .symlink
    else if fops = pipeFops then pure .pipe
    else throw .fault

/-- The table of operations of an inode that is in use. -/
def fopsInUse (ino : ℕ) : FsM Fops := do
  let s ← get
  match s.opsForInode env ino with
  | some ops => pure (.virtual ops)
  | none => do
    let n ← cachedInode ino
    fopsOf env ino n.fops

/-- The operation `lookup` of a table: for a symbolic link, `symlink_lookup`, which finds out
where the link leads and looks the name up there. -/
def lookupOp : ℕ → Fops → Str → ℕ → FsM Dirent
  | _, .null, _, _ => throw .notADirectory
  | _, .default, _, _ => throw .notADirectory
  | _, .pipe, _, _ => throw .notADirectory
  | _, .defaultDir, fName, currDir => dirLookup env fName currDir
  | _, .virtual ops, fName, currDir =>
    match ops.lookup currDir with
    | none => throw .notADirectory
    | some lookup => ofExcept (lookup fName)
  | 0, .symlink, _, _ => throw .stackOverflow
  | depth + 1, .symlink, fName, currDir => do
    let byFName : Str → ℕ → FsM Dirent := fun name dir => do
      let metadata ← getInodeMetadata env dir
      let fops ← fopsOf env dir metadata.fops
      lookupOp depth fops name dir
    let walk := fun path => getDirentByPathWith env byFName path (.uninitialised env)
    let target ← symlinkResolveLoop env walk symlinkMaxFollowDepth currDir
    let fops ← fopsInUse env target
    let ret ← tryErr (lookupOp depth fops fName target)
    vfsPutInode env target
    ofExcept ret

/-- `get_dirent_by_f_name`. -/
def getDirentByFName (depth : ℕ) (fName : Str) (currDir : ℕ) : FsM Dirent := do
  let metadata ← getInodeMetadata env currDir
  let fops ← fopsOf env currDir metadata.fops
  lookupOp env depth fops fName currDir

/-- `get_dirent_by_path`. -/
def getDirentByPath (depth : ℕ) (fPath : Str) (out : PathOut) : FsM PathOut :=
  getDirentByPathWith env (getDirentByFName env depth) fPath out

/-- `symlink_resolve_target`. -/
def symlinkResolveTarget (depth linkIno : ℕ) : FsM ℕ :=
  symlinkResolveLoop env (fun path => getDirentByPath env depth path (.uninitialised env))
    symlinkMaxFollowDepth linkIno

/-! ### Creating by path -/

/-- The loop of `add_dirent_by_path` that walks to the directory of the last token. -/
def addPathLoop (lookup : Str → ℕ → FsM Dirent) :
    ℕ → Option Str → Option Str → ℕ → FsM (Option Str × ℕ)
  | 0, _, _, _ => throw .fault
  | fuel + 1, token, nextToken, startDir => do
    match nextToken with
    | none => pure (token, startDir)
    | some next => do
      match ← tryErr (lookup (token.getD []) startDir) with
      | .error _ => throw .fileNotFound
      | .ok dirent => do
        let nextToken ← strtok none
        addPathLoop lookup fuel (some next) nextToken dirent.ino

/-- `add_dirent_by_path`. -/
def addDirentByPath (fPath : Str) (fileType perm : UInt8) : FsM Unit := do
  if fPath = [] then throw .invalidFileName
  let absolute := fPath.head? = some slash
  let startDir := if absolute then rootIno else env.cwd
  let token ← strtok (some (if absolute then fPath.tail else fPath))
  let nextToken ← strtok none
  let lookup := getDirentByFName env env.depth
  let (token, startDir) ← addPathLoop lookup (fPath.length + 2) token nextToken startDir
  match token with
  | none => throw .invalidFileName
  | some name => do
    match ← tryErr (lookup name startDir) with
    | .ok _ => throw .fileAlreadyExists
    | .error .fileNotFound => do
      let fops := if fileType = directoryType then defaultDirFops else defaultFops
      let block ← addNewFileWithId env fileType perm fops
      addDirent env name block startDir
      if fileType = directoryType then do
        addDirent env (str ".") block block
        addDirent env (str "..") startDir block
    | .error e => throw e

end OsPi
