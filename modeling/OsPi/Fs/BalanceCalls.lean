import OsPi.Fs.Balance

/-!
# References Are Balanced: Files, Directories and Paths

The functions between the inode cache and the open file table. Looking things up leaves the state
as it is; what creates, changes or removes something leaves the references as they are. A function
that returns an inode of a symbolic link's target hands a reference to it to its caller.
-/

open Std.Do

namespace OsPi

set_option mvcgen.warning false

variable (env : Env) (s₀ : Fs)

/-! ### Inodes -/

@[spec] theorem onCachedInode_modifyInode_returns (id : ℕ) (f : Inode → Inode) :
    Returns Fs.Same (onCachedInode id (modifyInode f)) s₀ := by
  rintro s rfl
  rw [Comp.wp_eq]
  cases hc : s.node? id with
  | none =>
    rw [onCachedInode_eval_none _ hc]
    exact ⟨rfl, Fs.Same.refl s⟩
  | some c =>
    rw [onCachedInode_eval _ hc]
    exact Fs.Same.modifyNode (fun _ => rfl) fun _ => rfl

@[spec] theorem onCachedInode_allocate_steady (id : ℕ) :
    Steady Fs.Same (onCachedInode id (allocateBlockForFileInode env)) s₀ :=
  onCachedInode_steady id (allocateBlockForFileInode_steady env) s₀

@[spec] theorem onCachedInode_clear_steady (id skipFirst : ℕ) :
    Steady Fs.Same (onCachedInode id (clearBlocksOfInode env skipFirst)) s₀ :=
  onCachedInode_steady id (fun s => clearBlocksOfInode_steady env s skipFirst) s₀

@[spec] theorem onCachedInode_removeLast_steady (id : ℕ) :
    Steady Fs.Same (onCachedInode id (removeLastBlockOfInode env)) s₀ :=
  onCachedInode_steady id (removeLastBlockOfInode_steady env) s₀

@[spec] theorem updateInodeMetadata_balanced (id flags : ℕ) (type perm : UInt8) (refCount : ℕ) :
    Balanced Fs.Same (updateInodeMetadata env id flags type perm refCount) s₀ := by
  mvcgen [updateInodeMetadata]
  all_goals grind -linarith

@[spec] theorem setInodeMetadata_balanced (id : ℕ) (metadata : Attributes) :
    Balanced Fs.Same (setInodeMetadata env id metadata) s₀ := by
  mvcgen [setInodeMetadata]
  all_goals grind -linarith

@[spec] theorem getBlockNumFromDiskPtr_returns (ptrBlockNum desiredBlockIdx : ℕ) :
    Returns Fs.Quiet (getBlockNumFromDiskPtr env ptrBlockNum desiredBlockIdx) s₀ := by
  mvcgen [getBlockNumFromDiskPtr]
  all_goals grind -linarith

@[spec] theorem getBlockNumFromInode_returns (n : Inode) (blockNum : ℕ) :
    Returns Fs.Quiet (getBlockNumFromInode env n blockNum) s₀ := by
  refine .of fun P hP => ?_
  mvcgen [getBlockNumFromInode, blockNumWith]
  all_goals grind -linarith

@[spec] theorem getBlockNumFromInodeWithId_balanced (id index : ℕ) :
    Balanced Fs.Quiet (getBlockNumFromInodeWithId env id index) s₀ := by
  mvcgen [getBlockNumFromInodeWithId]
  all_goals grind -linarith

@[spec] theorem allocateBlockForFileInodeFromId_steady (id : ℕ) :
    Steady Fs.Same (allocateBlockForFileInodeFromId env id) s₀ := by
  mvcgen [allocateBlockForFileInodeFromId]
  all_goals grind -linarith

@[spec] theorem freeFileInode_balanced (id : ℕ) : Balanced Fs.Same (freeFileInode env id) s₀ := by
  mvcgen [freeFileInode]
  all_goals grind -linarith

@[spec] theorem addNewFileInode_steady (type perm : UInt8) (fops : UInt64) :
    ⦃fun s => ⌜s = s₀⌝⦄ addNewFileInode env type perm fops
    ⦃post⟨fun id s => ⌜s₀.Same s ∧ id ≠ 0 ∧ id ≤ s₀.layout.inodeCapacity⌝,
      fun _ s => ⌜s₀.Same s⌝⟩⦄ := by
  mvcgen [addNewFileInode]
  all_goals grind -linarith

@[spec] theorem removeLastBlockInode_steady (id : ℕ) :
    Steady Fs.Same (removeLastBlockInode env id) s₀ := by
  mvcgen [removeLastBlockInode]
  all_goals grind -linarith

/-! ### Virtual file systems -/

namespace Fs

/-- Whether an inode number belongs to a virtual file system. -/
def isVirtual (env : Env) (s : Fs) (ino : ℕ) : Bool := (s.opsForInode env ino).isSome

/-- A reference to an inode has been taken, if it is not a virtual one. -/
def Took (env : Env) (id : ℕ) (s s' : Fs) : Prop :=
  if s.isVirtual env id then s.Quiet s' else s.Lent id s'

/-- A reference to an inode has been dropped, if it is not a virtual one. -/
def Gave (env : Env) (id : ℕ) (s s' : Fs) : Prop :=
  if s.isVirtual env id then s.Quiet s' else s.Returned id s'

/-- A reference to an inode is held for its caller, if it is not a virtual one. -/
def Keeps (env : Env) (id : ℕ) (s s' : Fs) : Prop :=
  if s.isVirtual env id then s.Same s' else s.Held id s'

/-- A reference to an inode is gone, if it is not a virtual one. -/
def Loses (env : Env) (id : ℕ) (s s' : Fs) : Prop :=
  if s.isVirtual env id then s.Same s' else s.Dropped id s'

variable {env : Env} {s s' s'' : Fs} {id : ℕ} {ops : VirtualOps}

theorem isVirtual_of_frame (h : s'.frame = s.frame) : s'.isVirtual env id = s.isVirtual env id := by
  have hmounts : s'.rootMounts = s.rootMounts := congrArg Frame.rootMounts h
  rw [isVirtual, isVirtual, opsForInode, opsForInode, hmounts]

theorem isVirtual_of_some (h : s.opsForInode env id = some ops) : s.isVirtual env id = true := by
  rw [isVirtual, h]
  rfl

theorem isVirtual_of_none (h : s.opsForInode env id = none) : s.isVirtual env id = false := by
  rw [isVirtual, h]
  rfl

@[grind →] theorem Quiet.took_of_virtual (h : s.Quiet s') (hv : s.opsForInode env id = some ops) :
    s.Took env id s' := by
  rwa [Took, isVirtual_of_some hv, if_pos rfl]

@[grind →] theorem Lent.took (h : s.Lent id s') (hv : s.opsForInode env id = none) :
    s.Took env id s' := by
  rwa [Took, isVirtual_of_none hv, if_neg Bool.false_ne_true]

@[grind →] theorem gave_of_virtual (hv : s.opsForInode env id = some ops) : s.Gave env id s := by
  rw [Gave, isVirtual_of_some hv, if_pos rfl]
  exact Quiet.refl s

@[grind →] theorem Returned.gave (h : s.Returned id s') (hv : s.opsForInode env id = none) :
    s.Gave env id s' := by
  rwa [Gave, isVirtual_of_none hv, if_neg Bool.false_ne_true]

theorem Took.frame (h : s.Took env id s') : s'.frame = s.frame := by
  unfold Took at h
  split_ifs at h
  · exact Quiet.frame h
  · exact Lent.frame h

@[grind →] theorem Quiet.took (h : s.Quiet s') (h' : s'.Took env id s'') : s.Took env id s'' := by
  unfold Took at h' ⊢
  rw [isVirtual_of_frame h.frame] at h'
  split_ifs at h' ⊢
  · exact h.trans h'
  · exact h.lent h'

@[grind →] theorem Took.quiet (h : s.Took env id s') (h' : s'.Quiet s'') : s.Took env id s'' := by
  unfold Took at h ⊢
  split_ifs at h ⊢
  · exact h.trans h'
  · exact h.quiet h'

@[grind →] theorem Took.gave (h : s.Took env id s') (h' : s'.Gave env id s'') : s.Quiet s'' := by
  unfold Gave at h'
  rw [isVirtual_of_frame h.frame] at h'
  unfold Took at h
  split_ifs at h h'
  · exact h.trans h'
  · exact h.returned h'

@[grind →] theorem Took.keeps (h : s.Took env id s') : s.Keeps env id s' := by
  unfold Took at h
  unfold Keeps
  split_ifs at h ⊢
  · exact h.same
  · exact h.held

@[grind →] theorem Gave.loses (h : s.Gave env id s') : s.Loses env id s' := by
  unfold Gave at h
  unfold Loses
  split_ifs at h ⊢
  · exact h.same
  · exact h.dropped

theorem Keeps.frame (h : s.Keeps env id s') : s'.frame = s.frame := by
  unfold Keeps at h
  split_ifs at h <;> exact Shift.frame h

@[grind →] theorem Keeps.same (h : s.Keeps env id s') (h' : s'.Same s'') : s.Keeps env id s'' := by
  unfold Keeps at h ⊢
  split_ifs at h ⊢
  · exact h.trans h'
  · exact h.same h'

@[grind →] theorem Same.loses (h : s.Same s') (h' : s'.Loses env id s'') : s.Loses env id s'' := by
  unfold Loses at h' ⊢
  rw [isVirtual_of_frame h.frame] at h'
  split_ifs at h' ⊢
  · exact h.trans h'
  · exact h.dropped h'

@[grind →] theorem Keeps.loses (h : s.Keeps env id s') (h' : s'.Loses env id s'') : s.Same s'' := by
  unfold Loses at h'
  rw [isVirtual_of_frame h.frame] at h'
  unfold Keeps at h
  split_ifs at h h'
  · exact h.trans h'
  · exact h.dropped h'

end Fs

@[spec] theorem vfsLookupRootMount_steady (name : Str) :
    Steady Fs.Quiet (vfsLookupRootMount name) s₀ := by
  mvcgen [vfsLookupRootMount]
  all_goals grind -linarith

@[spec] theorem vfsGetInode_took (ino : ℕ) :
    ⦃fun s => ⌜s = s₀⌝⦄ vfsGetInode env ino
    ⦃post⟨fun _ s => ⌜s₀.Took env ino s ∧ ino ≠ 0⌝, fun _ s => ⌜s₀.Quiet s⌝⟩⦄ := by
  mvcgen [vfsGetInode]
  all_goals grind -linarith

@[spec] theorem vfsPutInode_gave (ino : ℕ) :
    ⦃fun s => ⌜s = s₀⌝⦄ vfsPutInode env ino
    ⦃post⟨fun _ s => ⌜s₀.Gave env ino s⌝, fun _ _ => ⌜False⌝⟩⦄ := by
  mvcgen [vfsPutInode]
  all_goals grind -linarith

@[spec] theorem getInodeMetadata_balanced (ino : ℕ) :
    Balanced Fs.Quiet (getInodeMetadata env ino) s₀ := by
  mvcgen [getInodeMetadata]
  all_goals grind -linarith

@[spec] theorem vfsFormatPath_steady (ino size : ℕ) :
    Steady Fs.Quiet (vfsFormatPath env ino size) s₀ := by
  mvcgen [vfsFormatPath]
  all_goals grind -linarith

/-! ### The blocks of a file -/

@[spec] theorem getIthBlockOfFileById_balanced (id blockNum : ℕ) :
    Balanced Fs.Quiet (getIthBlockOfFileById env id blockNum) s₀ := by
  mvcgen [getIthBlockOfFileById]

@[spec] theorem getFirstBlock_balanced (id : ℕ) : Balanced Fs.Quiet (getFirstBlock env id) s₀ := by
  mvcgen [getFirstBlock]

@[spec] theorem getIthBlockOfFile_returns (ino blockNum : ℕ) :
    Returns Fs.Quiet (getIthBlockOfFile env ino blockNum) s₀ := by
  refine .of fun P hP => ?_
  mvcgen [getIthBlockOfFile]
  all_goals grind -linarith

@[spec] theorem allocateNewBlockForFile_steady (ino : ℕ) :
    Steady Fs.Same (allocateNewBlockForFile env ino) s₀ := by
  refine .of fun P hP => ?_
  mvcgen [allocateNewBlockForFile]
  all_goals grind -linarith

@[spec] theorem allocateNewBlockForFileFromId_steady (id : ℕ) :
    Steady Fs.Same (allocateNewBlockForFileFromId env id) s₀ := by
  mvcgen [allocateNewBlockForFileFromId]

@[spec] theorem clearBlocksOfFile_steady (ino : ℕ) :
    Steady Fs.Same (clearBlocksOfFile env ino) s₀ := by
  refine .of fun P hP => ?_
  mvcgen [clearBlocksOfFile]
  all_goals grind -linarith

@[spec] theorem removeLastBlock_steady (id : ℕ) : Steady Fs.Same (removeLastBlock env id) s₀ := by
  mvcgen [removeLastBlock]

@[spec] theorem addNewFileWithId_steady (fileType perm : UInt8) (fops : UInt64) :
    Steady Fs.Same (addNewFileWithId env fileType perm fops) s₀ := by
  mvcgen [addNewFileWithId]
  all_goals grind -linarith

@[spec] theorem getFileSize_returns (ino : ℕ) : Returns Fs.Quiet (getFileSize ino) s₀ := by
  mvcgen [getFileSize]
  all_goals grind -linarith

@[spec] theorem updateFileSize_returns (ino newSize : ℕ) :
    Returns Fs.Same (updateFileSize ino newSize) s₀ := by
  refine .of fun P hP => ?_
  mvcgen [updateFileSize]
  all_goals grind -linarith

/-! ### Reading and writing -/

@[spec] theorem defaultReadLoop_returns (ino : ℕ) (size : ℤ) (fuel : ℕ) (v : ReadVars) :
    Returns Fs.Quiet (defaultReadLoop env ino size fuel v) s₀ := by
  induction fuel generalizing v s₀ with
  | zero =>
    mvcgen [defaultReadLoop]
    all_goals grind -linarith
  | succ fuel ih =>
    refine .of fun P hP => ?_
    mvcgen [defaultReadLoop, ih]
    all_goals grind -linarith

@[spec] theorem defaultRead_returns (ino cursor n : ℕ) :
    Returns Fs.Quiet (defaultRead env ino cursor n) s₀ := by
  refine .of fun P hP => ?_
  unfold defaultRead
  -- what the conversion computes does not matter, and the generator would unfold it
  generalize toUint32 = uint32
  mvcgen
  all_goals grind -linarith

@[spec] theorem getOrAllocateBlock_steady (ino blockIndex : ℕ) :
    Steady Fs.Same (getOrAllocateBlock env ino blockIndex) s₀ := by
  refine .of fun P hP => ?_
  mvcgen [getOrAllocateBlock]
  all_goals grind -linarith

@[spec] theorem writePiece_steady (buf : ℕ) (v : WriteVars) :
    Steady Fs.Same (writePiece env buf v) s₀ := by
  refine .of fun P hP => ?_
  mvcgen [writePiece]
  all_goals grind -linarith

@[spec] theorem defaultWriteLoop_returns (ino buf fuel : ℕ) (v : WriteVars) :
    Returns Fs.Same (defaultWriteLoop env ino buf fuel v) s₀ := by
  induction fuel generalizing v s₀ with
  | zero =>
    mvcgen [defaultWriteLoop]
    all_goals grind -linarith
  | succ fuel ih =>
    refine .of fun P hP => ?_
    mvcgen [defaultWriteLoop, ih]
    all_goals grind -linarith

@[spec] theorem defaultWrite_returns (ino : ℕ) (mode : UInt8) (cursor buf n : ℕ) :
    Returns Fs.Same (defaultWrite env ino mode cursor buf n) s₀ := by
  refine .of fun P hP => ?_
  mvcgen [defaultWrite]
  all_goals grind -linarith

/-! ### Directories -/

@[spec] theorem dirLookupLoop_balanced (fName : Str) (dir fuel index block : ℕ) :
    Balanced Fs.Quiet (dirLookupLoop env fName dir fuel index block) s₀ := by
  induction fuel generalizing index block s₀ with
  | zero => exact .throw rfl
  | succ fuel ih =>
    refine .of fun P E hP hE => ?_
    mvcgen [dirLookupLoop, ih]
    all_goals grind -linarith

@[spec] theorem dirLookup_balanced (fName : Str) (currDir : ℕ) :
    Balanced Fs.Quiet (dirLookup env fName currDir) s₀ := by
  mvcgen [dirLookup]
  all_goals grind -linarith

@[spec] theorem addLink_balanced (inoId : ℕ) : Balanced Fs.Same (addLink env inoId) s₀ := by
  refine .of fun P E hP hE => ?_
  mvcgen [addLink]
  all_goals grind -linarith

@[spec] theorem putDirent_steady (block data i : ℕ) (d : Dirent) :
    Steady Fs.Same (putDirent env block data i d) s₀ := by
  refine .of fun P hP => ?_
  mvcgen [putDirent]
  all_goals grind -linarith

@[spec] theorem addDirentBlock_balanced (d : Dirent) (inoId currDir : ℕ) :
    Balanced Fs.Same (addDirentBlock env d inoId currDir) s₀ := by
  mvcgen [addDirentBlock]
  all_goals grind -linarith

@[spec] theorem addDirentLoop_balanced (name : Str) (inoId currDir fuel index block : ℕ) :
    Balanced Fs.Same (addDirentLoop env name inoId currDir fuel index block) s₀ := by
  induction fuel generalizing index block s₀ with
  | zero => exact .throw rfl
  | succ fuel ih =>
    refine .of fun P E hP hE => ?_
    mvcgen [addDirentLoop, ih]
    all_goals grind -linarith

@[spec] theorem addDirent_balanced (name : Str) (inoId currDir : ℕ) :
    Balanced Fs.Same (addDirent env name inoId currDir) s₀ := by
  refine .of fun P E hP hE => ?_
  mvcgen [addDirent]
  all_goals grind -linarith

@[spec] theorem followingDirent_balanced (parentDir index data i : ℕ) :
    Balanced Fs.Quiet (followingDirent env parentDir index data i) s₀ := by
  mvcgen [followingDirent]
  all_goals grind -linarith

@[spec] theorem removeScan_balanced (fName : Str) (parentDir index block : ℕ)
    (entries : List ℕ) (data : ℕ) (found : Bool) :
    Balanced Fs.Same (removeScan env fName parentDir index block entries data found) s₀ := by
  induction entries generalizing data found s₀ with
  | nil =>
    mvcgen [removeScan]
    all_goals grind -linarith
  | cons i rest ih =>
    refine .of fun P E hP hE => ?_
    mvcgen [removeScan, ih]
    all_goals grind -linarith

@[spec] theorem removeDirentLoop_balanced (fName : Str)
    (parentDir fuel index block : ℕ) (found : Bool) :
    Balanced Fs.Same (removeDirentLoop env fName parentDir fuel index block found) s₀ := by
  induction fuel generalizing index block found s₀ with
  | zero => exact .throw rfl
  | succ fuel ih =>
    refine .of fun P E hP hE => ?_
    mvcgen [removeDirentLoop, ih]
    all_goals grind -linarith

@[spec] theorem removeDirentByFName_balanced (fName : Str) (parentDir : ℕ) :
    Balanced Fs.Same (removeDirentByFName env fName parentDir) s₀ := by
  refine .of fun P E hP hE => ?_
  mvcgen [removeDirentByFName]
  all_goals grind -linarith

@[grind →] theorem Fs.Same.of_setDir {s s' : Fs} {dir : UInt64} {offset : ℕ}
    (h : (s.setDir dir offset).Same s') : s.Same s' :=
  have hset : s.Same (s.setDir dir offset) := Fs.Same.of_icache rfl rfl rfl
  hset.trans h

@[grind →] theorem Fs.Same.of_freeDir {s s' : Fs} {dir : UInt64} (h : (s.freeDir dir).Same s') :
    s.Same s' :=
  have hfree : s.Same (s.freeDir dir) := Fs.Same.of_icache rfl rfl rfl
  hfree.trans h

@[spec] theorem dirOffset_steady (dir : UInt64) : Steady Fs.Quiet (dirOffset dir) s₀ := by
  mvcgen [dirOffset]
  all_goals grind -linarith

@[spec] theorem opendir_balanced (ino : ℕ) : Balanced Fs.Same (opendir env ino) s₀ := by
  refine .of fun P E hP hE => ?_
  mvcgen [opendir]
  all_goals grind -linarith

@[spec] theorem closedir_balanced (ino : ℕ) : Balanced Fs.Same (closedir env ino) s₀ := by
  refine .of fun P E hP hE => ?_
  mvcgen [closedir]
  all_goals grind -linarith

/-! ### Paths -/

@[spec] theorem strtok_steady (str : Option Str) : Steady Fs.Quiet (strtok str) s₀ := by
  refine .of fun P hP => ?_
  mvcgen [strtok]
  all_goals
    subst_vars
    exact hP _ (Fs.Quiet.of_still rfl)

section Walk

variable {lookup : Str → ℕ → FsM Dirent}
  (hlookup : ∀ name dir s, Balanced Fs.Quiet (lookup name dir) s)
  {walk : Str → FsM PathOut} (hwalk : ∀ path s, Balanced Fs.Quiet (walk path) s)

include hlookup in
theorem pathLoop_balanced (fuel : ℕ) (token nextToken : Option Str) (startDir : ℕ) (out : PathOut) :
    Balanced Fs.Quiet (pathLoop lookup fuel token nextToken startDir out) s₀ := by
  induction fuel generalizing token nextToken startDir out s₀ with
  | zero => exact .throw rfl
  | succ fuel ih =>
    refine .of fun P E hP hE => ?_
    mvcgen [pathLoop, ih, hlookup]
    all_goals grind -linarith

include hlookup in
theorem getDirentByPathWith_balanced (fPath : Str) (out : PathOut) :
    Balanced Fs.Quiet (getDirentByPathWith env lookup fPath out) s₀ := by
  have hloop := fun s => pathLoop_balanced s hlookup
  refine .of fun P E hP hE => ?_
  mvcgen [getDirentByPathWith, hloop]
  all_goals grind -linarith

@[spec] theorem symlinkReadTargetPath_balanced (ino : ℕ) :
    Balanced Fs.Quiet (symlinkReadTargetPath env ino) s₀ := by
  unfold symlinkReadTargetPath
  generalize toInt32 = int32
  mvcgen
  all_goals grind -linarith

/-- What a resolved link hands to its caller: a reference to the inode it leads to. -/
abbrev Resolves (m : FsM ℕ) (s₀ : Fs) : Prop :=
  ⦃fun s => ⌜s = s₀⌝⦄ m
  ⦃post⟨fun target s => ⌜s₀.Took env target s ∧ target ≠ 0⌝, fun e s => ⌜e.fatal ∨ s₀.Quiet s⌝⟩⦄

theorem resolves_of {m : FsM ℕ}
    (h : ∀ (P : ℕ → Fs → Prop) (E : Err → Fs → Prop),
      (∀ id s, s₀.Took env id s → id ≠ 0 → P id s) → (∀ e s, e.fatal ∨ s₀.Quiet s → E e s) →
      ⦃fun s => ⌜s = s₀⌝⦄ m ⦃post⟨fun id s => ⌜P id s⌝, fun e s => ⌜E e s⌝⟩⦄) :
    Resolves env m s₀ :=
  h _ _ (fun _ _ h h' => ⟨h, h'⟩) fun _ _ h => h

include hwalk in
theorem symlinkResolveLoop_resolves (follow current : ℕ) :
    Resolves env (symlinkResolveLoop env walk follow current) s₀ := by
  induction follow generalizing current s₀ with
  | zero =>
    refine resolves_of env s₀ fun P E hP hE => ?_
    mvcgen [symlinkResolveLoop]
    all_goals grind -linarith
  | succ follow ih =>
    refine resolves_of env s₀ fun P E hP hE => ?_
    mvcgen [symlinkResolveLoop, ih, hwalk]
    all_goals grind -linarith

end Walk

@[spec] theorem fopsOf_returns (ino : ℕ) (fops : UInt64) :
    Returns Fs.Quiet (fopsOf env ino fops) s₀ := by
  mvcgen [fopsOf]
  all_goals grind -linarith

@[spec] theorem fopsInUse_returns (ino : ℕ) : Returns Fs.Quiet (fopsInUse env ino) s₀ := by
  refine .of fun P hP => ?_
  mvcgen [fopsInUse]
  all_goals grind -linarith

section Depth

variable {depth : ℕ}
  (hop : ∀ fops fName currDir s, Balanced Fs.Quiet (lookupOp env depth fops fName currDir) s)

include hop in
theorem getDirentByFName_balanced_of (fName : Str) (currDir : ℕ) :
    Balanced Fs.Quiet (getDirentByFName env depth fName currDir) s₀ := by
  refine .of fun P E hP hE => ?_
  mvcgen [getDirentByFName, hop]
  all_goals grind -linarith

include hop in
theorem symlinkResolveTarget_resolves_of (linkIno : ℕ) :
    Resolves env (symlinkResolveTarget env depth linkIno) s₀ :=
  symlinkResolveLoop_resolves env s₀ (fun path s => getDirentByPathWith_balanced env s
    (fun fName dir s => getDirentByFName_balanced_of env s hop fName dir) path _) _ _

end Depth

theorem lookupOp_symlink (depth : ℕ) (fName : Str) (currDir : ℕ) :
    lookupOp env (depth + 1) .symlink fName currDir = (do
      let target ← symlinkResolveTarget env depth currDir
      let fops ← fopsInUse env target
      let ret ← tryErr (lookupOp env depth fops fName target)
      vfsPutInode env target
      ofExcept ret) := rfl

@[spec] theorem lookupOp_balanced (depth : ℕ) (fops : Fops) (fName : Str) (currDir : ℕ) :
    Balanced Fs.Quiet (lookupOp env depth fops fName currDir) s₀ := by
  induction depth generalizing fops fName currDir s₀ with
  | zero =>
    cases fops
    all_goals
      mvcgen [lookupOp]
    all_goals grind -linarith
  | succ depth ih =>
    cases fops with
    | symlink =>
      have htarget := fun linkIno s => symlinkResolveTarget_resolves_of env s
        (fun fops fName dir s => ih s fops fName dir) linkIno
      rw [lookupOp_symlink]
      mvcgen [ih, htarget]
      all_goals grind -linarith
    | _ =>
      mvcgen [lookupOp]
      all_goals grind -linarith

@[spec] theorem getDirentByFName_balanced (depth : ℕ) (fName : Str) (currDir : ℕ) :
    Balanced Fs.Quiet (getDirentByFName env depth fName currDir) s₀ := by
  refine .of fun P E hP hE => ?_
  mvcgen [getDirentByFName]
  all_goals grind -linarith

@[spec] theorem getDirentByPath_balanced (depth : ℕ) (fPath : Str) (out : PathOut) :
    Balanced Fs.Quiet (getDirentByPath env depth fPath out) s₀ :=
  getDirentByPathWith_balanced env s₀
    (fun fName dir s => getDirentByFName_balanced env s depth fName dir) fPath out

@[spec] theorem symlinkResolveTarget_resolves (depth linkIno : ℕ) :
    Resolves env (symlinkResolveTarget env depth linkIno) s₀ :=
  symlinkResolveTarget_resolves_of env s₀ (fun fops fName dir s =>
    lookupOp_balanced env s depth fops fName dir) linkIno

theorem addPathLoop_balanced {lookup : Str → ℕ → FsM Dirent}
    (hlookup : ∀ name dir s, Balanced Fs.Quiet (lookup name dir) s) (fuel : ℕ)
    (token nextToken : Option Str) (startDir : ℕ) :
    Balanced Fs.Quiet (addPathLoop lookup fuel token nextToken startDir) s₀ := by
  induction fuel generalizing token nextToken startDir s₀ with
  | zero => exact .throw rfl
  | succ fuel ih =>
    refine .of fun P E hP hE => ?_
    mvcgen [addPathLoop, ih, hlookup]
    all_goals grind -linarith

@[spec] theorem addDirentByPath_balanced (fPath : Str) (fileType perm : UInt8) :
    Balanced Fs.Same (addDirentByPath env fPath fileType perm) s₀ := by
  have hloop := fun s => addPathLoop_balanced s fun fName dir s =>
    getDirentByFName_balanced env s env.depth fName dir
  refine .of fun P E hP hE => ?_
  mvcgen [addDirentByPath, hloop]
  all_goals grind -linarith

end OsPi
