import OsPi.Fs.MkfsLayout
import OsPi.Fs.TableCalls

/-!
# Runs of File-System Operations

The operations of the kernel on a mounted file system, one after the other, each in an environment
of its own, in which devices may fail. Between any two of them the inode cache holds one node for
an inode at most, and the entries of the open file table hold every reference, unless an operation
was an `mmap` past the end of a file or an unlink that could not free the inode.
-/

open Std.Do

namespace OsPi

open Comp List Option

set_option mvcgen.warning false

/-! ### The numbers of virtual inodes -/

/-- The numbers of virtual inodes are negative as an `int`. -/
theorem VirtualFs.le_of_isInode {v : VirtualFs} {ino : ℕ} (h : v.isInode ino) : 2 ^ 31 ≤ ino := by
  cases v
  · simp only [isInode, procfsIsVirtualInode, Bool.or_eq_true, Bool.and_eq_true,
      decide_eq_true_eq] at h
    omega
  · simp only [isInode, devfsIsVirtualInode, Bool.or_eq_true, Bool.and_eq_true,
      decide_eq_true_eq] at h
    omega

namespace Fs

variable {env env' : Env} {s s' : Fs} {id : ℕ} {loans : List ℕ} {c : CacheNode}

/-- Whether an inode number belongs to a virtual file system that is mounted. -/
def ofVirtualFs (s : Fs) (ino : ℕ) : Bool := s.rootMounts.any fun m => m.ops.isInode ino

theorem isVirtual_eq (h : env.Numbered) : s.isVirtual env id = s.ofVirtualFs id := by
  have hops : ∀ m : RootMount, (env.virtualOps m.ops).isInode = m.ops.isInode := fun m => h m.ops
  rw [isVirtual, opsForInode, isSome_map, ofVirtualFs]
  simp only [hops]
  rw [Bool.eq_iff_iff, find?_isSome, List.any_eq_true]

theorem le_of_ofVirtualFs (h : s.ofVirtualFs id) : 2 ^ 31 ≤ id := by
  obtain ⟨m, -, hm⟩ := List.any_eq_true.mp h
  exact VirtualFs.le_of_isInode hm

/-- The ledger does not depend on the environment. -/
theorem Ledger.congr (h : s.Ledger env loans) (he : env.Numbered) (he' : env'.Numbered) :
    s.Ledger env' loans := by
  refine ⟨h.counted, fun id => ?_, h.ino, h.inodes, fun id hv => ?_⟩
  · rw [isVirtual_eq he', ← isVirtual_eq he]
    exact h.refs id
  · rw [isVirtual_eq he', ← isVirtual_eq he] at hv
    exact h.high id hv

/-! ### Writing back -/

/-- The inode in its place of the inode table. -/
def tableInode (s : Fs) (id : ℕ) : Inode :=
  inodeAt (s.block (s.layout.inodeBlock id)) (s.layout.inodeIndex id)

/-- A dirty node is written to the inode table when its last reference is dropped, unless the
device fails. -/
def WritesBack (s : Fs) : Prop :=
  ∀ env c, env.Reliable → c ∈ s.icache → c.numRefs = 1 → c.dirty →
    ((removeRefFromCache env c.id).eval s).2.tableInode c.id = c.inode

theorem Counted.node?_eq (h : s.Counted) (hc : c ∈ s.icache) : s.node? c.id = some c := by
  have hsome : (s.icache.find? fun d => d.id = c.id).isSome :=
    find?_isSome.mpr ⟨c, hc, decide_eq_true rfl⟩
  obtain ⟨d, hd⟩ := isSome_iff_exists.mp hsome
  have hid : d.id = c.id := by simpa using find?_some hd
  have hdc : d = c := inj_on_of_nodup_map h.nodup (mem_of_find?_eq_some hd) hc hid
  rw [node?, hd, hdc]

theorem Counted.writesBack (h : s.Counted) : s.WritesBack := by
  intro env c hr hc h1 hd
  have hnode := h.node?_eq hc
  have hb := h.loaded c.id c hnode
  have hlen : s.layout.inodeBlock c.id < s.disk.length := h.disk ▸ hb
  have heval : (removeRefFromCache env c.id).eval s = (.ok (),
      Fs.setBlock { s with icache := unlinkNode c.id s.icache } (s.layout.inodeBlock c.id)
        (storeInode (s.block (s.layout.inodeBlock c.id)) (s.layout.inodeIndex c.id) c.inode)) := by
    have hread : (readBlock env (s.layout.inodeBlock c.id)).eval
        { s with icache := unlinkNode c.id s.icache } = (.ok (s.block (s.layout.inodeBlock c.id)),
          { s with icache := unlinkNode c.id s.icache }) := readBlock_eval hr hb
    have hwrite : ∀ data, (writeBlock env data (s.layout.inodeBlock c.id)).eval
        { s with icache := unlinkNode c.id s.icache } =
        (.ok (), Fs.setBlock { s with icache := unlinkNode c.id s.icache }
          (s.layout.inodeBlock c.id) data) := fun data => writeBlock_eval hr hb
    simp [removeRefFromCache, eval_bind, hnode, h1, flushAndFreeCacheInode, hd, writeInode,
      hread, hwrite]
  rw [heval]
  have hblock : Fs.block (Fs.setBlock { s with icache := unlinkNode c.id s.icache }
      (s.layout.inodeBlock c.id) (storeInode (s.block (s.layout.inodeBlock c.id))
        (s.layout.inodeIndex c.id) c.inode)) (s.layout.inodeBlock c.id) =
      storeInode (s.block (s.layout.inodeBlock c.id)) (s.layout.inodeIndex c.id) c.inode :=
    block_setBlock_self hlen
  rw [tableInode]
  change inodeAt (Fs.block _ (s.layout.inodeBlock c.id)) (s.layout.inodeIndex c.id) = c.inode
  rw [hblock, inodeAt_storeInode, if_pos rfl]

/-! ### The ledger after an operation -/

/-- The ledger still balances. -/
def Ledgered (env : Env) (s s' : Fs) : Prop := ∀ loans, s.Ledger env loans → s'.Ledger env loans

section Ledgered

variable {fd : ℕ} {s'' : Fs}

@[grind →] theorem Ledgered.trans (h : s.Ledgered env s') (h' : s'.Ledgered env s'') :
    s.Ledgered env s'' :=
  fun loans hl => h' loans (h loans hl)

@[grind ←] theorem Same.ledgered (h : s.Same s') : s.Ledgered env s' := fun _ hl => hl.same h

@[grind →] theorem Ledgered.same (h : s.Ledgered env s') (h' : s'.Same s'') :
    s.Ledgered env s'' :=
  h.trans h'.ledgered

@[grind →] theorem Same.trans_ledgered (h : s.Same s') (h' : s'.Ledgered env s'') :
    s.Ledgered env s'' :=
  h.ledgered.trans h'

/-- No reference to a virtual inode is dropped. -/
theorem Quiet.returned_virtual (h : s.Quiet s') (hv : s.isVirtual env id)
    (h' : s'.Returned id s'') : s.Ledgered env s'' := by
  intro loans hl
  refine hl.same (h.same.dropped_of_refs (fun _ => ?_) h'.gone)
  rw [hl.refs, if_pos hv]

@[grind →] theorem Kept.ledgered (h : s.Kept env s') : s.Ledgered env s' := h.ledger

@[grind →] theorem Opened.ledgered (h : s.Opened env fd s') : s.Ledgered env s' := h.2.ledger

@[grind →] theorem Closed.ledgered (h : s.Closed env fd s') : s.Ledgered env s' := h.ledger

@[grind →] theorem Shared.ledgered (h : s.Shared env fd s') : s.Ledgered env s' := h.ledger

@[grind →] theorem Retracted.ledgered (h : s.Retracted env fd s') : s.Ledgered env s' := h.ledger

end Ledgered

end Fs

/-! ### Operations -/

/-- The operations of the kernel that concern the file system. `pin` and `unpin` are what `read`,
`write` and `lseek` do before and after their work. -/
inductive FsCall
  | open (fname : Str) (mode : UInt8)
  | close (fd : ℕ)
  | read (fd n : ℕ)
  | write (fd buf n : ℕ)
  | readPipe (fd count : ℕ)
  | writePipe (fd : ℕ) (bytes : Str)
  | lseek (fd : ℕ) (offset : ℤ) (whence : Whence)
  | pin (fd : ℕ)
  | unpin (fd : ℕ)
  | addReference (fd : ℕ)
  | pipe
  | unlink (fname : Str)
  | mvFile (srcPath destPath : Str)
  | makeDirectory (fPath : Str)
  | createlink (createPath origPath : Str) (isSoft : Bool)
  | chmod (fileName : Str) (newPerms : UInt8) (flag : ChmodFlag)
  | updateFileTime (fileName : Str)
  | stat (path : Str)
  | readlink (path : Str) (count : ℕ)
  | checkIfExists (fName : Str)
  | changeDirectory (path : Str)
  | ls (fileName : Option Str) (outFd : ℕ)
  | getcwd (size : ℕ)
  | mmap (args : MmapArgs)

/-- `pipe`, without the descriptors of the process. -/
def makePipe (env : Env) : FsM Unit := do
  let (ino, readFd, writeFd) ← pipeEntries env
  pipeAttach env ino readFd writeFd

namespace FsCall

/-- Run an operation. -/
def run (env : Env) : FsCall → FsM Unit
  | .open fname mode => do let _ ← kOpen env fname mode
  | .close fd => kClose env fd
  | .read fd n => do let _ ← kRead env fd n
  | .write fd buf n => do let _ ← kWrite env fd buf n
  | .readPipe fd count => do let _ ← kReadPipe env fd count
  | .writePipe fd bytes => do let _ ← kWritePipe env fd bytes
  | .lseek fd offset whence => do let _ ← kLseek env fd offset whence
  | .pin fd => oftAddReference fd
  | .unpin fd => oftCloseFile env fd
  | .addReference fd => kFileAddReference env fd
  | .pipe => makePipe env
  | .unlink fname => kUnlink env fname
  | .mvFile srcPath destPath => kMvFile env srcPath destPath
  | .makeDirectory fPath => kMakeDirectory env fPath
  | .createlink createPath origPath isSoft => OsPi.createlink env createPath origPath isSoft
  | .chmod fileName newPerms flag => kChmod env fileName newPerms flag
  | .updateFileTime fileName => kUpdateFileTime env fileName
  | .stat path => do let _ ← kStat env path
  | .readlink path count => do let _ ← kReadlink env path count
  | .checkIfExists fName => do let _ ← kCheckIfExists env fName
  | .changeDirectory path => do let _ ← kChangeDirectory env path
  | .ls fileName outFd => kLs env fileName outFd
  | .getcwd size => do let _ ← OsPi.getcwd env size
  | .mmap args => do let _ ← OsPi.mmap env args

end FsCall

/-- The size of the file an `mmap` maps is below its offset. The inode is one of the cache. -/
def Fs.PastEnd (env : Env) (s : Fs) (a : MmapArgs) : Prop :=
  ∃ length fd e c, a.check = some length ∧ ¬a.flags.anonymous ∧ a.fd = some fd ∧
    s.oft[fd]? = some (some e) ∧ s.isVirtual env e.inoId = false ∧
    s.node? e.inoId = some c ∧ c.inode.size.toNat < a.offset

/-- When an unlink comes to free the inode, that succeeds. -/
def Fs.FreesInode (env : Env) (s : Fs) (fname : Str) : Prop :=
  ∀ r t e t', (freeFileTarget env fname).eval s = (.ok r, t) →
    (freeFileInode env r.1).eval t = (.error e, t') → e.fatal

/-- The operations after which every reference is still accounted for. -/
def FsCall.Clean (env : Env) (s : Fs) : FsCall → Prop
  | .unlink fname => s.isMounted → s.FreesInode env fname
  | .mmap args => ¬s.PastEnd env args
  | _ => True

section Calls

variable (env : Env) (s₀ : Fs)

@[spec] theorem pipeAttach_ledgered (ino readFd writeFd : ℕ) :
    Balanced (Fs.Ledgered env) (pipeAttach env ino readFd writeFd) s₀ := by
  mvcgen [pipeAttach]
  all_goals grind

@[spec] theorem makePipe_ledgered : Balanced (Fs.Ledgered env) (makePipe env) s₀ := by
  refine .of fun P E hP hE => ?_
  mvcgen [makePipe]
  all_goals grind

theorem kUnlink_balanced (fname : Str) (hfree : s₀.isMounted → s₀.FreesInode env fname) :
    Balanced Fs.Same (kUnlink env fname) s₀ := by
  have htarget := Comp.triple_and_eval (freeFileTarget_lent env s₀ fname)
  have hinode := fun ino s => Comp.triple_and_eval (freeFileInode_balanced env s ino)
  unfold Fs.FreesInode at hfree
  refine .of fun P E hP hE => ?_
  mvcgen [kUnlink, freeFile, htarget, hinode, -freeFileTarget_lent, -freeFileInode_balanced]
  all_goals grind

@[spec] theorem entrySize_spec (e : OftEntry) :
    ⦃fun s => ⌜s = s₀⌝⦄ entrySize env e
    ⦃post⟨fun size s => ⌜s₀.Quiet s ∧ (s₀.isVirtual env e.inoId ∨
      ∃ c, s₀.node? e.inoId = some c ∧ c.inode.size.toNat = size)⌝, fun _ s => ⌜s₀.Quiet s⌝⟩⦄ := by
  mvcgen [entrySize, getFileSize, cachedInode]
  all_goals grind [Fs.isVirtual_of_some]

theorem mmap_ledgered (a : MmapArgs) (hend : ¬s₀.PastEnd env a) :
    Balanced (Fs.Ledgered env) (mmap env a) s₀ := by
  unfold Fs.PastEnd at hend
  mvcgen [mmap, mmapFile]
  all_goals grind [→ Fs.Quiet.returned_virtual]

/-- What one operation does to the ledger. -/
theorem FsCall.run_ledgered (call : FsCall) (hclean : call.Clean env s₀) :
    Balanced (Fs.Ledgered env) (call.run env) s₀ := by
  have hadd := fun s => oftAddReference_spec env s
  cases call with
  | unlink fname =>
    have hunlink := kUnlink_balanced env s₀ fname hclean
    mvcgen [run, hunlink]
    all_goals grind
  | mmap args =>
    have hmmap := mmap_ledgered env s₀ args hclean
    mvcgen [run, hmmap]
  | _ =>
    mvcgen [run, hadd]
    all_goals grind

end Calls

/-! ### Runs -/

/-- A step of the kernel: an operation, whatever it returns. After a fatal error there is no next
state. -/
def FsStep (allowed : Env → Fs → FsCall → Prop) (s s' : Fs) : Prop :=
  ∃ env call r, env.Numbered ∧ allowed env s call ∧ (FsCall.run env call).eval s = (r, s') ∧
    ∀ e, r = .error e → ¬e.fatal

namespace Fs

variable {s s' : Fs}

/-- A mounted file system before anything is opened. No inode number is negative as an `int`. -/
structure Idle (s : Fs) : Prop where
  disk : s.disk.length = s.blockCount
  inodes : s.layout.inodeCapacity < 2 ^ 31
  icache : s.icache = []
  oft : s.oft = []

/-- **The promise of the inode cache** between operations. -/
structure CacheKept (s : Fs) : Prop where
  /-- There is one node for an inode at most. -/
  unique : (s.icache.map CacheNode.id).Nodup
  /-- The references to an inode are those of the entries of the open file table. -/
  refs : ∀ id, s.refs id = if s.ofVirtualFs id then 0 else s.holders id
  writesBack : s.WritesBack

theorem Idle.accounted {env : Env} (h : s.Idle) (he : env.Numbered) : s.Accounted env := by
  have hnone : ∀ id, s.node? id = none := fun id => by rw [node?, h.icache]; rfl
  refine ⟨⟨h.disk, ?_, fun id c hc => ?_, fun id c hc => ?_⟩, fun id => ?_, fun fd e he => ?_,
    h.inodes, fun id hv => ?_⟩
  · rw [h.icache]
    exact nodup_nil
  · exact absurd ((hnone id).symm.trans hc) (some_ne_none c).symm
  · exact absurd ((hnone id).symm.trans hc) (some_ne_none c).symm
  · rw [refs_of_none (hnone id), holders, h.oft]
    split_ifs <;> rfl
  · rw [h.oft] at he
    cases he
  · rw [isVirtual_eq he] at hv
    exact le_of_ofVirtualFs hv

theorem Ledger.cacheKept {env : Env} (h : s.Accounted env) (he : env.Numbered) : s.CacheKept where
  unique := h.counted.nodup
  refs id := by
    rw [h.refs id, isVirtual_eq he]
    simp
  writesBack := h.counted.writesBack

/-- The ledger balances after a step. -/
theorem Ledger.step {env : Env} (h : s.Accounted env) (he : env.Numbered)
    (hstep : FsStep FsCall.Clean s s') : s'.Accounted env := by
  obtain ⟨env', call, r, he', hclean, heval, hfatal⟩ := hstep
  have hrun := eval_of_triple (call.run_ledgered env' s hclean)
  rw [heval] at hrun
  have hledgered : s.Ledgered env' s' := by
    cases r with
    | ok _ => exact hrun
    | error e => exact hrun.resolve_left (hfatal e rfl)
  exact (hledgered [] (h.congr he he')).congr he' he

/-! ### The condition is exact -/

section Exact

variable {env : Env} {id : ℕ}

theorem not_cacheKept_of_shift {f : (ℕ → ℕ) → ℕ → ℕ} (h : s.Accounted env) (he : env.Numbered)
    (hd : s.Shift f s') (id : ℕ) (hne : f s.refs id ≠ s.refs id) : ¬s'.CacheKept := by
  intro hkept
  have hrefs := hkept.refs id
  rw [← isVirtual_eq he, isVirtual_of_frame hd.frame, holders, oft_of_frame hd.frame,
    hd.refs h.counted] at hrefs
  have hs := h.refs id
  rw [count_nil, Nat.add_zero, holders] at hs
  exact hne (hrefs.trans hs.symm)

theorem PastEnd.dropped {a : MmapArgs} (h : s.PastEnd env a) :
    ∃ id c, s.node? id = some c ∧ s.Dropped id ((mmap env a).eval s).2 := by
  obtain ⟨length, fd, e, c, hcheck, hanon, hfd, he, hv, hc, hlt⟩ := h
  refine ⟨e.inoId, c, hc, ?_⟩
  have hops : s.opsForInode env e.inoId = none := by
    rw [isVirtual, isSome_eq_false_iff, isNone_iff_eq_none] at hv
    exact hv
  have heval : (mmap env a).eval s = (.ok none, ((removeRefFromCache env e.inoId).eval s).2) := by
    simp [mmap, hcheck, hanon, hfd, mmapFile, tryErr, getOftEntryByFd, he, entrySize, hops,
      getFileSize, cachedInode, hc, hlt, eval_bind]
  rw [heval]
  have hret := eval_of_triple (removeRefFromCache_returned env s e.inoId)
  rcases hr : (removeRefFromCache env e.inoId).eval s with ⟨r, t⟩
  rw [hr] at hret
  cases r <;> exact hret.dropped

theorem held_of_not_freesInode {fname : Str} (hm : s.isMounted) (h : ¬s.FreesInode env fname) :
    ∃ id e s', (kUnlink env fname).eval s = (.error e, s') ∧ s.Held id s' := by
  unfold FreesInode at h
  push Not at h
  obtain ⟨r, t, e, t', htarget, hinode, hfatal⟩ := h
  have hlent := eval_of_triple (freeFileTarget_lent env s fname)
  rw [htarget] at hlent
  have hsame := eval_of_triple (freeFileInode_balanced env t r.1)
  rw [hinode] at hsame
  refine ⟨r.1, e, t', ?_, hlent.held.same (hsame.resolve_left (by simpa using hfatal))⟩
  simp [kUnlink, hm, freeFile, eval_bind, htarget, hinode]

theorem clean_of_cacheKept {call : FsCall} (h : s.Accounted env) (he : env.Numbered)
    (hkept : ((call.run env).eval s).2.CacheKept) : call.Clean env s := by
  cases call with
  | unlink fname =>
    intro hm
    by_contra hfree
    obtain ⟨id, e, t, heval, hheld⟩ := held_of_not_freesInode hm hfree
    rw [FsCall.run, heval] at hkept
    exact not_cacheKept_of_shift h he hheld id (by simp) hkept
  | mmap args =>
    intro hend
    obtain ⟨id, c, hc, hdropped⟩ := hend.dropped
    have hstate : ((FsCall.run env (.mmap args)).eval s).2 = ((mmap env args).eval s).2 := by
      rw [FsCall.run, eval_bind]
      rcases (mmap env args).eval s with ⟨r, t⟩
      cases r <;> rfl
    have hpos : 1 ≤ s.refs id := by
      rw [refs_of_node? hc]
      exact h.counted.pos id c hc
    rw [hstate] at hkept
    exact not_cacheKept_of_shift h he hdropped id (by simp; omega) hkept
  | _ => exact trivial

/-- The condition is exact: an operation that does not meet it breaks the promise. -/
theorem cacheKept_iff_clean {call : FsCall} {r : Except Err Unit} (h : s.Accounted env)
    (he : env.Numbered) (heval : (call.run env).eval s = (r, s'))
    (hfatal : ∀ e, r = .error e → ¬e.fatal) : s'.CacheKept ↔ call.Clean env s := by
  constructor
  · intro hkept
    exact clean_of_cacheKept h he (by rwa [heval])
  · intro hclean
    exact (h.step he ⟨env, call, r, he, hclean, heval, hfatal⟩).cacheKept he

end Exact

end Fs

/-! ### A small volume -/

/-- An environment in which devices work and the virtual file systems have nothing in them. -/
def Env.calm : Env where
  fails := none
  ticks _ := 0
  junk _ := 0
  wild _ _ := 0
  cwd := rootIno
  depth := 4
  stackDirent := 0
  stackIno := 0
  dirPtr := 64
  virtualOps v :=
    { isInode := v.isInode
      getMetadata := fun _ => .error .fileNotFound
      lookup := fun _ => none
      dirents := fun _ => none
      openInode := fun _ => none
      closeInode := fun _ => none
      read := fun _ => none
      write := fun _ => none
      formatPath := fun _ => .error .fileNotFound }

theorem Env.calm_numbered : Env.calm.Numbered := fun _ => rfl

theorem Env.calm_reliable : Env.calm.Reliable := rfl

/-- An empty file system on 64 blocks of 512 bytes. -/
def Fs.small : Fs :=
  { ((do mkfsChecks 5 1; mkfsInode .calm).eval (Fs.blank 512 64)).2 with
    isMounted := true, oftInitialized := true }

/-- The state after the given operations, in calm environments. -/
def Fs.after (s : Fs) : List FsCall → Fs
  | [] => s
  | call :: rest => ((call.run .calm).eval s).2.after rest

/-- Whether the given operations all succeed, in calm environments. -/
def Fs.succeeds (s : Fs) : List FsCall → Bool
  | [] => true
  | call :: rest =>
    match (call.run .calm).eval s with
    | (.ok _, s') => s'.succeeds rest
    | (.error _, _) => false

theorem Fs.reaches_after {allowed : Env → Fs → FsCall → Prop} {calls : List FsCall} {s : Fs}
    (hall : ∀ s, ∀ call ∈ calls, allowed .calm s call) (h : s.succeeds calls) :
    Relation.ReflTransGen (FsStep allowed) s (s.after calls) := by
  induction calls generalizing s with
  | nil => exact .refl
  | cons call rest ih =>
    rw [succeeds] at h
    rw [after]
    rcases heval : (call.run .calm).eval s with ⟨r, s'⟩
    rw [heval] at h
    cases r with
    | error e => exact absurd h Bool.false_ne_true
    | ok a =>
      have hstep : FsStep allowed s s' :=
        ⟨.calm, call, .ok a, Env.calm_numbered, hall s call (mem_cons_self ..), heval,
          fun _ h => by cases h⟩
      exact .head hstep (ih (fun s c hc => hall s c (mem_cons_of_mem _ hc)) h)

theorem Fs.small_idle : Fs.small.Idle := by
  constructor <;> decide +kernel

/-- A file is created. -/
theorem Fs.cacheKept_iff_clean_create :
    (Fs.small.after [.open (str "f") oCreat]).CacheKept ↔
      FsCall.Clean .calm Fs.small (.open (str "f") oCreat) := by
  have hok : ((FsCall.run .calm (.open (str "f") oCreat)).eval Fs.small).1.isOk := by decide +kernel
  refine Fs.cacheKept_iff_clean (Fs.small_idle.accounted Env.calm_numbered) Env.calm_numbered
    Prod.mk.eta.symm fun e he => ?_
  rw [he] at hok
  cases hok

/-! ### The promise -/

/-- **References to cached inodes are accounted for** after every run of operations that meet the
condition, whatever they return and whichever device operations fail. -/
theorem cache_references_accounted {s₀ s : Fs} (h₀ : s₀.Idle)
    (hrun : Relation.ReflTransGen (FsStep FsCall.Clean) s₀ s) : s.CacheKept := by
  have h : s.Accounted .calm := by
    induction hrun with
    | refl => exact h₀.accounted Env.calm_numbered
    | tail _ hstep ih => exact ih.step Env.calm_numbered hstep
  exact h.cacheKept Env.calm_numbered

/-- A file is created and opened once more. -/
theorem cache_references_accounted_open :
    (Fs.small.after [.open (str "f") (oCreat ||| oWronly), .open (str "f") oRdonly]).refs 2 = 2 ∧
      (Fs.small.after
        [.open (str "f") (oCreat ||| oWronly), .open (str "f") oRdonly]).CacheKept := by
  refine ⟨by decide +kernel, cache_references_accounted Fs.small_idle
    (Fs.reaches_after (fun s call hcall => ?_) (by decide +kernel))⟩
  rcases mem_pair.mp hcall with rfl | rfl <;> exact trivial

/-- An `mmap` of an open file, past its end. -/
def pastEndCalls : List FsCall :=
  [.open (str "f") (oCreat ||| oWronly), .open (str "f") oRdonly,
    .mmap ⟨none, 4096, 1, ⟨false, true, false, false⟩, some 0, 4096⟩]

/-- Two entries of the table refer to an inode with one reference. -/
theorem mmap_past_end_drops_reference : Fs.small.Idle ∧
    Relation.ReflTransGen (FsStep fun _ _ _ => True) Fs.small (Fs.small.after pastEndCalls) ∧
      (Fs.small.after pastEndCalls).holders 2 = 2 ∧ (Fs.small.after pastEndCalls).refs 2 = 1 ∧
      ¬(Fs.small.after pastEndCalls).CacheKept := by
  have hstate : (Fs.small.after pastEndCalls).holders 2 = 2 ∧
      (Fs.small.after pastEndCalls).refs 2 = 1 ∧
      (Fs.small.after pastEndCalls).ofVirtualFs 2 = false := by decide +kernel
  refine ⟨Fs.small_idle, Fs.reaches_after (fun _ _ _ => trivial) (by decide +kernel), hstate.1,
    hstate.2.1, fun hkept => ?_⟩
  have hrefs := hkept.refs 2
  rw [hstate.1, hstate.2.1, hstate.2.2] at hrefs
  exact absurd hrefs (by decide)

end OsPi
