import OsPi.Fs.BalanceCalls
import OsPi.Fs.Calls

/-!
# References Are Balanced: Names, Attributes and Directories

The operations of `fs/kapi.c` that do not concern open files, and what opening and closing a file
does to its inode. None of them touches the open file table.
-/

open Std.Do

namespace OsPi

set_option mvcgen.warning false

variable (env : Env) (s₀ : Fs)

/-! ### Pipes -/

theorem Fs.same_setPipe (s : Fs) (ptr : UInt64) (pipe : Pipe) : s.Same (s.setPipe ptr pipe) :=
  Fs.Same.of_icache rfl rfl rfl

theorem Fs.same_freePipe (s : Fs) (ptr : UInt64) : s.Same (s.freePipe ptr) :=
  Fs.Same.of_icache rfl rfl rfl

grind_pattern Fs.same_setPipe => s.setPipe ptr pipe

grind_pattern Fs.same_freePipe => s.freePipe ptr

@[spec] theorem pipeOf_balanced (ino : ℕ) : Balanced Fs.Quiet (pipeOf ino) s₀ := by
  mvcgen [pipeOf]
  all_goals grind -linarith

@[spec] theorem pipeOpen_balanced (mode : UInt8) (ino : ℕ) :
    Balanced Fs.Same (pipeOpen mode ino) s₀ := by
  mvcgen [pipeOpen]
  all_goals grind -linarith

@[spec] theorem pipeClose_balanced (mode : UInt8) (ino : ℕ) :
    Balanced Fs.Same (pipeClose mode ino) s₀ := by
  mvcgen [pipeClose]
  all_goals grind -linarith

/-! ### Opening and closing an inode -/

@[spec] theorem openTarget_balanced (mode : UInt8) (fops : Fops) (ino : ℕ) :
    Balanced Fs.Same (openTarget env mode fops ino) s₀ := by
  mvcgen [openTarget]
  all_goals grind -linarith

@[spec] theorem closeOp_balanced (entry : OftEntry) : Balanced Fs.Same (closeOp env entry) s₀ := by
  refine .of fun P E hP hE => ?_
  mvcgen [closeOp]
  all_goals grind -linarith

/-! ### Names -/

@[spec] theorem freeFileTarget_lent (fName : Str) :
    ⦃fun s => ⌜s = s₀⌝⦄ freeFileTarget env fName
    ⦃post⟨fun r s => ⌜s₀.Lent r.1 s⌝, fun e s => ⌜e.fatal ∨ s₀.Quiet s⌝⟩⦄ := by
  mvcgen [freeFileTarget]
  all_goals grind -linarith

@[spec] theorem findChildLoop_balanced (parent child fuel index block : ℕ) :
    Balanced Fs.Quiet (findChildLoop env parent child fuel index block) s₀ := by
  induction fuel generalizing index block s₀ with
  | zero => exact .throw rfl
  | succ fuel ih =>
    refine .of fun P E hP hE => ?_
    mvcgen [findChildLoop, ih]
    all_goals grind -linarith

@[spec] theorem getcwdLoop_balanced (fuel curr : ℕ) :
    Balanced Fs.Quiet (getcwdLoop env fuel curr) s₀ := by
  induction fuel generalizing curr s₀ with
  | zero =>
    mvcgen [getcwdLoop]
    all_goals grind -linarith
  | succ fuel ih =>
    mvcgen [getcwdLoop, ih]
    all_goals grind -linarith

@[spec] theorem getcwd_balanced (size : ℕ) : Balanced Fs.Quiet (getcwd env size) s₀ := by
  mvcgen [getcwd]
  all_goals grind -linarith

@[spec] theorem makeAbsolutePath_balanced (path : Str) :
    Balanced Fs.Quiet (makeAbsolutePath env path) s₀ := by
  mvcgen [makeAbsolutePath]
  all_goals grind -linarith

@[spec] theorem writeSymlinkTarget_balanced (ino : ℕ) (targetPath : Str) :
    Balanced Fs.Same (writeSymlinkTarget env ino targetPath) s₀ := by
  mvcgen [writeSymlinkTarget]
  all_goals grind -linarith

@[spec] theorem createlink_balanced (createPath origPath : Str) (isSoft : Bool) :
    Balanced Fs.Same (createlink env createPath origPath isSoft) s₀ := by
  refine .of fun P E hP hE => ?_
  mvcgen [createlink]
  all_goals grind -linarith

@[spec] theorem kMvFile_balanced (srcPath destPath : Str) :
    Balanced Fs.Same (kMvFile env srcPath destPath) s₀ := by
  refine .of fun P E hP hE => ?_
  mvcgen [kMvFile]
  all_goals grind -linarith

@[spec] theorem kMakeDirectory_balanced (fPath : Str) :
    Balanced Fs.Same (kMakeDirectory env fPath) s₀ := by
  mvcgen [kMakeDirectory]
  all_goals grind -linarith

/-! ### Attributes and the current directory -/

@[spec] theorem kChmod_balanced (fileName : Str) (newPerms : UInt8) (flag : ChmodFlag) :
    Balanced Fs.Same (kChmod env fileName newPerms flag) s₀ := by
  refine .of fun P E hP hE => ?_
  mvcgen [kChmod]
  all_goals grind -linarith

@[spec] theorem kUpdateFileTime_balanced (fileName : Str) :
    Balanced Fs.Same (kUpdateFileTime env fileName) s₀ := by
  refine .of fun P E hP hE => ?_
  mvcgen [kUpdateFileTime]
  all_goals grind -linarith

@[spec] theorem kStat_balanced (path : Str) : Balanced Fs.Quiet (kStat env path) s₀ := by
  mvcgen [kStat]
  all_goals grind -linarith

@[spec] theorem kReadlink_balanced (path : Str) (count : ℕ) :
    Balanced Fs.Quiet (kReadlink env path count) s₀ := by
  mvcgen [kReadlink]
  all_goals grind -linarith

@[spec] theorem kCheckIfExists_balanced (fName : Str) :
    Balanced Fs.Quiet (kCheckIfExists env fName) s₀ := by
  mvcgen [kCheckIfExists]
  all_goals grind -linarith

/-! ### Reading directories -/

@[spec] theorem physicalEntryLoop_balanced (ino fuel blockIndex count : ℕ) :
    Balanced Fs.Quiet (physicalEntryLoop env ino fuel blockIndex count) s₀ := by
  induction fuel generalizing blockIndex count s₀ with
  | zero => exact .throw rfl
  | succ fuel ih =>
    refine .of fun P E hP hE => ?_
    mvcgen [physicalEntryLoop, ih]
    all_goals grind -linarith

@[spec] theorem dirPhysicalEntryCount_balanced (ino : ℕ) :
    Balanced Fs.Quiet (dirPhysicalEntryCount env ino) s₀ := by
  mvcgen [dirPhysicalEntryCount]
  all_goals grind -linarith

@[spec] theorem vfsRootMountReaddir_steady (offset : ℕ) :
    Steady Fs.Quiet (vfsRootMountReaddir offset) s₀ := by
  mvcgen [vfsRootMountReaddir]
  all_goals grind -linarith

@[spec] theorem rootMountReaddirAfterPhysical_balanced (ino offset : ℕ) :
    Balanced Fs.Quiet (rootMountReaddirAfterPhysical env ino offset) s₀ := by
  mvcgen [rootMountReaddirAfterPhysical]
  all_goals grind -linarith

@[spec] theorem advanceDir_balanced (ino : ℕ) (metadata : Attributes) (offset : ℕ) :
    Balanced Fs.Same (advanceDir env ino metadata offset) s₀ := by
  refine .of fun P E hP hE => ?_
  mvcgen [advanceDir]
  all_goals grind -linarith

@[spec] theorem openedDir_balanced (ino : ℕ) : Balanced Fs.Same (openedDir env ino) s₀ := by
  mvcgen [openedDir]
  all_goals grind -linarith

@[spec] theorem readdirMounts_balanced (ino : ℕ) (metadata : Attributes) (offset : ℕ) :
    Balanced Fs.Same (readdirMounts env ino metadata offset) s₀ := by
  mvcgen [readdirMounts]
  all_goals grind -linarith

@[spec] theorem readdir_balanced (ino depth : ℕ) : Balanced Fs.Same (readdir env ino depth) s₀ := by
  induction depth generalizing s₀ with
  | zero => exact .throw rfl
  | succ depth ih =>
    refine .of fun P E hP hE => ?_
    mvcgen [readdir, ih]
    all_goals grind -linarith

end OsPi
