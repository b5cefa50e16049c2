import OsPi.Fs.State

/-!
# The Inode Cache

A model of `fs/caches/inode_cache.c` and of the two functions of `fs/inodes.c` it loads
and flushes inodes with. The cache is the list of its nodes from head to tail; a node
holds one inode, the number of its users and a dirty flag. The locks of the source and the
flag for a load in progress concern other processors and are left out.
-/

namespace OsPi

variable (env : Env)

/-- `normalize_default_inode_fops`. -/
def normalizeDefaultInodeFops (n : Inode) : Inode :=
  if n.type = directoryType then { n with fops := defaultDirFops }
  else if n.type = fileType then { n with fops := defaultFops }
  else n

/-- The inode at the given place of a block of the inode table. -/
def inodeAt (data index : ℕ) : Inode :=
  Inode.decode (Bytes.read data (inodeSize * index) inodeSize)

/-- Store an inode at the given place of a block of the inode table. -/
def storeInode (data index : ℕ) (n : Inode) : ℕ :=
  Bytes.write data (inodeSize * index) inodeSize n.encode

/-- `get_inode_raw`. -/
def getInodeRaw (id : ℕ) : FsM Inode := do
  let s ← get
  let data ← readBlock env (s.layout.inodeBlock id)
  pure (normalizeDefaultInodeFops (inodeAt data (s.layout.inodeIndex id)))

/-- `write_inode`. -/
def writeInode (node : Inode) (id : ℕ) : FsM Unit := do
  let s ← get
  let data ← readBlock env (s.layout.inodeBlock id)
  writeBlock env (storeInode data (s.layout.inodeIndex id) node) (s.layout.inodeBlock id)

/-- `find_inode_in_cache`. -/
def Fs.node? (s : Fs) (id : ℕ) : Option CacheNode :=
  s.icache.find? fun c => c.id = id

/-- Apply a change to the first node of an inode. -/
def modifyNode (id : ℕ) (f : CacheNode → CacheNode) : List CacheNode → List CacheNode
  | [] => []
  | c :: cs => if c.id = id then f c :: cs else c :: modifyNode id f cs

/-- `unlink_cache_inode_locked`, for the first node of an inode. -/
def unlinkNode (id : ℕ) : List CacheNode → List CacheNode
  | [] => []
  | c :: cs => if c.id = id then cs else c :: unlinkNode id cs

/-- Apply a change to the cache node of an inode. -/
def Fs.modifyNode (s : Fs) (id : ℕ) (f : CacheNode → CacheNode) : Fs :=
  { s with icache := OsPi.modifyNode id f s.icache }

/-- `get_inode_from_cache`: take a reference to the node of an inode, loading it when
there is none. A node whose load fails does not stay. -/
def getInodeFromCache (id : ℕ) : FsM Unit := do
  let s ← get
  match s.node? id with
  | some _ => set (s.modifyNode id fun c => { c with numRefs := c.numRefs + 1 })
  | none =>
    match ← Comp.attempt (getInodeRaw env id) with
    | .error _ => throw .fileReadError
    | .ok inode => modify fun s => { s with icache := s.icache ++ [⟨id, 1, false, inode⟩] }

/-- `flush_and_free_cache_inode`. -/
def flushAndFreeCacheInode (node : CacheNode) : FsM Unit :=
  if node.dirty then writeInode env node.inode node.id else pure ()

/-- `remove_ref_from_cache`: drop a reference; the node without references is flushed and
released. -/
def removeRefFromCache (id : ℕ) : FsM Unit := do
  let s ← get
  match s.node? id with
  | none => throw .fileNotFound
  | some c =>
    if c.numRefs ≤ 1 then
      set { s with icache := unlinkNode id s.icache }
      flushAndFreeCacheInode env c
    else set (s.modifyNode id fun c => { c with numRefs := c.numRefs - 1 })

/-- The loop of `empty_inode_cache` over the nodes in the cache. -/
def emptyInodeCacheLoop : List CacheNode → FsM Unit
  | [] => pure ()
  | c :: cs => do
    modify fun s => { s with icache := cs }
    flushAndFreeCacheInode env c
    emptyInodeCacheLoop cs

/-- `empty_inode_cache`. -/
def emptyInodeCache : FsM Unit := do
  let s ← get
  emptyInodeCacheLoop env s.icache

/-! ### Changing a cached inode -/

/-- A computation that works on a `struct inode_st *`: the inode is part of the state, so
that what was assigned before an error stays assigned. -/
abbrev InodeM := Comp (Inode × Fs) Err

/-- The inode being worked on. -/
def theInode : InodeM Inode := do
  let s ← get
  pure s.1

/-- Assign to the inode being worked on. -/
def modifyInode (f : Inode → Inode) : InodeM Unit :=
  modify fun s => (f s.1, s.2)

/-- A computation of the file system as part of one on an inode, or on other state beside it. -/
def onFs {σ α : Type} (m : FsM α) : Comp (σ × Fs) Err α :=
  ExceptT.mk fun s => ((m.eval s.2).1, (s.1, (m.eval s.2).2))

/-- Work on the cached inode `id`. Without a cache node the pointer is null. -/
def onCachedInode {α : Type} (id : ℕ) (m : InodeM α) : FsM α :=
  ExceptT.mk fun s =>
    match s.node? id with
    | none => (.error .fault, s)
    | some c =>
      ((m.eval (c.inode, s)).1, (m.eval (c.inode, s)).2.2.modifyNode id fun c' =>
          { c' with inode := (m.eval (c.inode, s)).2.1 })

/-- Set the dirty flag of a cached inode. -/
def markDirty (id : ℕ) : FsM Unit :=
  modify fun s => s.modifyNode id fun c => { c with dirty := true }

/-- Read the cached inode `id`. -/
def cachedInode (id : ℕ) : FsM Inode := do
  let s ← get
  match s.node? id with
  | none => throw .fault
  | some c => pure c.inode

end OsPi
