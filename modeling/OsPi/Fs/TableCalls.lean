import OsPi.Fs.BalanceNames
import OsPi.Fs.Ledger

/-!
# The Operations on Open Files Keep the Ledger

What every operation of `fs/oft.c` and `fs/kapi.c` on open files does to the references to inodes
and to the entries of the table, whatever it returns. Two operations do not always leave the ledger
balanced: `mmap` drops a reference it has not taken, and `free_file` keeps one when freeing the
inode fails.
-/

open Std.Do

namespace OsPi

open Function

set_option mvcgen.warning false

variable (env : Env) (s₀ : Fs)

/-! ### The open file table -/

@[spec] theorem getOftEntryByFd_spec (fd : ℕ) :
    ⦃fun s => ⌜s = s₀⌝⦄ getOftEntryByFd fd
    ⦃post⟨fun e s => ⌜s = s₀ ∧ s₀.oft[fd]? = some (some e)⌝,
      fun _ s => ⌜s = s₀ ∧ s₀.entryRefs fd = none⌝⟩⦄ := by
  mvcgen [getOftEntryByFd]
  case vc1 h => exact ⟨‹_›, ‹_ = s₀› ▸ h⟩
  case vc2 s hs x hne hx =>
      subst hs
      refine ⟨rfl, ?_⟩
      rw [Fs.entryRefs, hx]
      rcases x with _ | _ | e
      · rfl
      · rfl
      · exact absurd rfl (hne e)

@[spec] theorem pushOftEntry_spec (e : OftEntry) :
    ⦃fun s => ⌜s = s₀⌝⦄ pushOftEntry e
    ⦃post⟨fun fd s => ⌜fd = s₀.freeFd ∧ s = s₀.pushed e⌝, fun _ _ => ⌜False⌝⟩⦄ := by
  mvcgen [pushOftEntry, setOftEntry]
  all_goals subst_vars
  case vc1 h _ => exact ⟨rfl, by rw [Fs.pushed, if_pos h]⟩
  case vc2 h _ => exact ⟨rfl, by rw [Fs.pushed, if_neg h]⟩

theorem le_of_toInt32_neg {n : ℕ} (h : toInt32 n < 0) : 2 ^ 31 ≤ n := by
  rw [toInt32, Int.bmod_def] at h
  split_ifs at h <;> omega

namespace Fs

variable {env} {s s' s'' : Fs} {id fd : ℕ} {e : OftEntry}

theorem Same.layout_eq (h : s.Same s') : s'.layout = s.layout := layout_of_frame h.frame

theorem Same.refs_eq_zero (h : s.Same s') (hs : s.Counted) (hn : s'.node? id = none) :
    s.refs id = 0 := by
  rw [← h.refs hs, refs_of_none hn]

/-- Dropping a reference that is not held. -/
theorem Same.dropped_of_refs (h : s.Same s') (hz : s.Counted → s.refs id = 0)
    (h' : s'.Dropped id s'') : s.Same s'' := by
  have hd := h.dropped h'
  refine ⟨hd.frame, hd.counted, fun hs => ?_⟩
  have hpred : s.refs id - 1 = s.refs id := by rw [hz hs]
  rw [hd.refs hs, hpred, update_eq_self]

/-- There is no ledger of a volume with so many inodes. -/
theorem Kept.of_frame (h : s'.frame = s.frame) (hcap : 2 ^ 31 ≤ s.layout.inodeCapacity) :
    s.Kept env s' where
  rest := rest_of_frame h
  ledger _ hl := absurd hl.inodes (Nat.not_lt.mpr hcap)
  entryRefs := entryRefs_of_frame h

theorem Held.kept_of_le (h : s.Held id s') (hid : id ≤ s.layout.inodeCapacity) (hle : 2 ^ 31 ≤ id) :
    s.Kept env s' :=
  Kept.of_frame h.frame (hle.trans hid)

theorem Loses.frame (h : s.Loses env id s') : s'.frame = s.frame := by
  unfold Loses at h
  split_ifs at h <;> exact Shift.frame h

/-- The state after an entry of the table has been assigned. -/
def assign (s : Fs) (fd : ℕ) (entry : Option OftEntry) : Fs :=
  { s with oft := s.oft.set fd entry }

theorem Same.assign (h : s.Same s') (he : s.oft[fd]? = some (some e))
    {e' : OftEntry} (hid : e'.inoId = e.inoId) (hrefs : e'.refCount = e.refCount) :
    s.Kept env (s'.assign fd (some e')) :=
  h.kept.set_entry (oft_of_frame h.frame ▸ he) hid hrefs

theorem Same.assign_same (h : s.Same s') (he : s.oft[fd]? = some (some e))
    {e' : OftEntry} (hid : e'.inoId = e.inoId) (hrefs : e'.refCount = e.refCount)
    (h' : (s'.assign fd (some e')).Same s'') : s.Kept env s'' :=
  (h.assign he hid hrefs).same h'

grind_pattern Same.assign => s.Kept env (s'.assign fd (some e')), s.oft[fd]?, some (some e)

grind_pattern Same.assign_same =>
  s.Kept env s'', (s'.assign fd (some e')).Same s'', s.oft[fd]?, some (some e)

theorem Keeps.retarget {target : ℕ} (h : s.Keeps env target s') (ht : target ≠ 0)
    (he : s.oft[fd]? = some (some e))
    (h' : (s'.assign fd (some { e with inoId := target })).Loses env e.inoId s'') :
    s.Kept env s'' := by
  have he' : s'.oft[fd]? = some (some e) := oft_of_frame h.frame ▸ he
  have hrest : s'.rest = s.rest := rest_of_frame h.frame
  refine ⟨(rest_of_frame h'.frame).trans hrest,
    fun loans hl => ((hl.keeps h).retarget ht he').loses h', ?_⟩
  rw [entryRefs_of_frame h'.frame, assign, entryRefs_set he', entryRefs_of_frame h.frame]
  exact update_eq_self_iff.mpr (entryRefs_of_some he).symm

theorem Closed.of_none (h : s.entryRefs fd = none) : s.Closed env fd s := by
  refine ⟨rfl, fun _ hl => hl, ?_⟩
  rw [h]
  exact (update_eq_self_iff.mpr h.symm).symm

theorem Closed.of_set (he : s.oft[fd]? = some (some e)) (h1 : ¬e.refCount - 1 = 0) :
    s.Closed env fd
      { s with oft := s.oft.set fd (some { e with refCount := e.refCount - 1 }) } := by
  refine ⟨rfl, fun loans hl => hl.set_entry he rfl, ?_⟩
  rw [entryRefs_set he, entryRefs_of_some he, dropRef, if_neg h1]

theorem Closed.of_cleared (he : s.oft[fd]? = some (some e)) (h1 : e.refCount - 1 = 0)
    (hf : s'.frame = (s.cleared fd).frame)
    (hl : e.inoId ≠ 0 → (s.cleared fd).Loses env e.inoId s') : s.Closed env fd s' := by
  have hrest : s'.rest = (s.cleared fd).rest := rest_of_frame hf
  refine ⟨hrest, fun loans h => (h.clear he).loses (hl (h.ino fd e he)), ?_⟩
  rw [entryRefs_of_frame hf, entryRefs_cleared he, entryRefs_of_some he, dropRef, if_pos h1]

theorem Shared.of_assign (he : s.oft[fd]? = some (some e)) :
    s.Shared env fd (s.assign fd (some { e with refCount := e.refCount + 1 })) := by
  refine ⟨rfl, fun loans hl => hl.set_entry he rfl, ?_⟩
  rw [assign, entryRefs_set he, entryRefs_of_some he]
  rfl

theorem Opened.of_pushed (hf : s'.frame = s.frame) (h1 : e.refCount = 1)
    (hl : ∀ loans, s.Ledger env loans → s'.Ledger env (e.inoId :: loans)) (h0 : e.inoId ≠ 0) :
    s.Opened env s'.freeFd (s'.pushed e) := by
  have hrest : s'.rest = s.rest := rest_of_frame hf
  refine ⟨?_, hrest, fun loans h => (hl loans h).push h0, ?_⟩
  · rw [← entryRefs_of_frame hf]
    exact entryRefs_freeFd
  · rw [entryRefs_pushed, entryRefs_of_frame hf, h1]

theorem Opened.of_keeps (h : s.Keeps env e.inoId s') (h1 : e.refCount = 1) (h0 : e.inoId ≠ 0) :
    s.Opened env s'.freeFd (s'.pushed e) :=
  Opened.of_pushed h.frame h1 (fun _ hl => hl.keeps h) h0

theorem Opened.of_held (h : s.Held e.inoId s') (h1 : e.refCount = 1) (h0 : e.inoId ≠ 0)
    (hle : e.inoId ≤ s.layout.inodeCapacity) : s.Opened env s'.freeFd (s'.pushed e) := by
  refine Opened.of_pushed h.frame h1 (fun loans hl => hl.keeps ?_) h0
  -- the number of a new inode is not that of a virtual one
  have hv : ¬s.isVirtual env e.inoId := fun hv => by
    have hhigh := hl.high e.inoId hv
    have hcap := hl.inodes
    omega
  rwa [Keeps, if_neg hv]

end Fs

@[spec] theorem addNewFile_spec (fileType perm : UInt8) (fops : UInt64) :
    ⦃fun s => ⌜s = s₀⌝⦄ addNewFile env fileType perm fops
    ⦃post⟨fun r s => ⌜r.1 ≠ 0 ∧ r.1 ≤ s₀.layout.inodeCapacity ∧ if r.2 then s₀.Held r.1 s else
        s₀.Same s ∧ (s₀.Counted → s₀.refs r.1 = 0)⌝, fun _ s => ⌜s₀.Kept env s⌝⟩⦄ := by
  have hneg := fun n => @le_of_toInt32_neg n
  unfold addNewFile
  generalize toInt32 = int32 at *
  mvcgen
  all_goals grind -ring -linarith [Fs.Same.refs_eq_zero, Except.toBool, Fs.Held.kept_of_le, Fs.Same.layout_eq, Fs.Kept.of_frame, Fs.Shift.frame]

@[spec] theorem oftCreateFile_spec (fileName : Str) (dirBlock : ℕ) :
    ⦃fun s => ⌜s = s₀⌝⦄ oftCreateFile env fileName dirBlock
    ⦃post⟨fun ino s => ⌜ino ≠ 0 ∧ ino ≤ s₀.layout.inodeCapacity ∧ s₀.Held ino s⌝,
      fun e s => ⌜e.fatal ∨ s₀.Kept env s⌝⟩⦄ := by
  mvcgen [oftCreateFile]
  all_goals grind [→ Fs.Same.layout_eq, → Fs.Same.dropped_of_refs]

@[spec] theorem oftOpenFile_spec (mode : UInt8) (fileName : Str) (inoId dirBlock : ℕ) :
    ⦃fun s => ⌜s = s₀⌝⦄ oftOpenFile env mode fileName inoId dirBlock
    ⦃post⟨fun fd s => ⌜s₀.Opened env fd s⌝, fun e s => ⌜e.fatal ∨ s₀.Kept env s⌝⟩⦄ := by
  mvcgen [oftOpenFile]
  all_goals subst_vars
  case vc1 h _ _ =>
      rintro rfl rfl
      exact .of_held h.2.2 rfl h.1 h.2.1
  case vc2 => exact fun h => h
  case vc3 h _ _ =>
      rintro rfl rfl
      exact .of_keeps h.1.keeps rfl h.2
  case vc4 => exact fun h => .inr h.same.kept

@[spec] theorem entryDeletor_spec (entry : OftEntry) :
    ⦃fun s => ⌜s = s₀⌝⦄ entryDeletor env entry
    ⦃post⟨fun _ s => ⌜s.frame = s₀.frame ∧ (entry.inoId ≠ 0 → s₀.Loses env entry.inoId s)⌝,
      fun _ _ => ⌜False⌝⟩⦄ := by
  mvcgen [entryDeletor]
  all_goals grind -ring -linarith [Fs.Loses.frame]

@[spec] theorem oftCloseFile_spec (fd : ℕ) :
    ⦃fun s => ⌜s = s₀⌝⦄ oftCloseFile env fd
    ⦃post⟨fun _ s => ⌜s₀.Closed env fd s⌝, fun _ s => ⌜s₀.Closed env fd s ∧ s₀.Kept env s⌝⟩⦄ := by
  mvcgen [oftCloseFile, setOftEntry]
  all_goals subst_vars
  case vc1 h1 _ h _ _ _ =>
      obtain ⟨rfl, he⟩ := h
      exact fun hf hl => .of_cleared he h1 hf hl
  case vc2 h1 _ h _ =>
      obtain ⟨rfl, he⟩ := h
      exact .of_set he h1
  case vc3 =>
      rintro rfl h
      exact ⟨.of_none h, .refl _⟩

@[spec] theorem setOftEntry_spec (fd : ℕ) (entry : Option OftEntry) :
    ⦃fun s => ⌜s = s₀⌝⦄ setOftEntry fd entry
    ⦃post⟨fun _ s => ⌜s = s₀.assign fd entry⌝, fun _ _ => ⌜False⌝⟩⦄ := by
  mvcgen [setOftEntry]
  subst_vars
  rfl

@[spec] theorem defaultOpen_kept (fd : ℕ) : Balanced (Fs.Kept env) (defaultOpen env fd) s₀ := by
  mvcgen [defaultOpen]
  all_goals grind

@[spec] theorem symlinkOpen_kept (fd : ℕ) : Balanced (Fs.Kept env) (symlinkOpen env fd) s₀ := by
  mvcgen [symlinkOpen]
  all_goals grind [→ Fs.Keeps.retarget]

@[spec] theorem openOp_kept (fd : ℕ) : Balanced (Fs.Kept env) (openOp env fd) s₀ := by
  refine .of fun P E hP hE => ?_
  mvcgen [openOp]
  all_goals grind

@[spec] theorem openIno_balanced (mode : UInt8) (out : PathOut) :
    Balanced Fs.Quiet (openIno env mode out) s₀ := by
  mvcgen [openIno]
  all_goals grind

@[spec] theorem kOpen_spec (fname : Str) (mode : UInt8) :
    ⦃fun s => ⌜s = s₀⌝⦄ kOpen env fname mode
    ⦃post⟨fun fd s => ⌜s₀.Opened env fd s⌝, fun e s => ⌜e.fatal ∨ s₀.Kept env s⌝⟩⦄ := by
  mvcgen [kOpen]
  all_goals grind

@[spec] theorem kClose_spec (fd : ℕ) :
    ⦃fun s => ⌜s = s₀⌝⦄ kClose env fd
    ⦃post⟨fun _ s => ⌜s₀.Closed env fd s⌝, fun e s => ⌜e.fatal ∨ s₀.Kept env s⌝⟩⦄ := by
  mvcgen [kClose]
  all_goals grind

@[spec] theorem virtualIo_steady (ops : VirtualOps) (op : Option (Except Err ℕ)) (ino : ℕ) :
    Steady Fs.Quiet (virtualIo ops op ino) s₀ := by
  mvcgen [virtualIo]
  all_goals grind

@[spec] theorem kRead_kept (fd n : ℕ) : Balanced (Fs.Kept env) (kRead env fd n) s₀ := by
  mvcgen [kRead]
  all_goals grind

@[spec] theorem kWrite_kept (fd buf n : ℕ) : Balanced (Fs.Kept env) (kWrite env fd buf n) s₀ := by
  mvcgen [kWrite]
  all_goals grind

@[spec] theorem fillLastBlock_steady (fileSize : ℕ) (offset : ℤ) (block : ℕ) :
    Steady Fs.Same (fillLastBlock env fileSize offset block) s₀ := by
  refine .of fun P hP => ?_
  unfold fillLastBlock
  generalize toInt32 = int32
  mvcgen
  all_goals grind

@[spec] theorem fillBlocks_balanced (ino bs fuel : ℕ) (offset : ℤ) :
    Balanced Fs.Same (fillBlocks env ino bs fuel offset) s₀ := by
  induction fuel generalizing offset s₀ with
  | zero =>
    mvcgen [fillBlocks]
    all_goals grind
  | succ fuel ih =>
    refine .of fun P E hP hE => ?_
    mvcgen [fillBlocks, ih]
    all_goals grind

@[spec] theorem kLseek_kept (fd : ℕ) (offset : ℤ) (whence : Whence) :
    Balanced (Fs.Kept env) (kLseek env fd offset whence) s₀ := by
  unfold kLseek
  generalize toInt32 = int32
  generalize toUint32 = uint32
  mvcgen
  all_goals grind

theorem oftAddReference_spec (fd : ℕ) :
    ⦃fun s => ⌜s = s₀⌝⦄ oftAddReference fd
    ⦃post⟨fun _ s => ⌜s₀.Shared env fd s⌝, fun _ s => ⌜s = s₀ ∧ s₀.entryRefs fd = none⌝⟩⦄ := by
  mvcgen [oftAddReference]
  all_goals grind [Fs.Shared.of_assign]

@[spec] theorem kFileAddReference_spec (fd : ℕ) :
    ⦃fun s => ⌜s = s₀⌝⦄ kFileAddReference env fd
    ⦃post⟨fun _ s => ⌜s₀.Shared env fd s⌝,
      fun e s => ⌜e.fatal ∨ s₀.Kept env s ∨ s₀.Retracted env fd s⌝⟩⦄ := by
  have hadd := fun s => oftAddReference_spec env s fd
  mvcgen [kFileAddReference, hadd]
  all_goals grind

/-! ### Pipes -/

@[spec] theorem onPipe_balanced (fd : ℕ) (flag : UInt8) (io : Pipe → PipeIo × Pipe) :
    Balanced Fs.Same (onPipe env fd flag io) s₀ := by
  mvcgen [onPipe]
  all_goals grind

@[spec] theorem kReadPipe_balanced (fd count : ℕ) :
    Balanced Fs.Same (kReadPipe env fd count) s₀ :=
  onPipe_balanced env s₀ fd oRdonly _

@[spec] theorem kWritePipe_balanced (fd : ℕ) (bytes : Str) :
    Balanced Fs.Same (kWritePipe env fd bytes) s₀ :=
  onPipe_balanced env s₀ fd oWronly _

/-! ### References that are carried over -/

namespace Fs

variable {env} {s s' s'' : Fs} {id : ℕ} {a b c loans : List ℕ}

/-- The loans `a` have become `b`, and the entries of the table are the same. -/
structure Carried (env : Env) (a b : List ℕ) (s s' : Fs) : Prop where
  rest : s'.rest = s.rest
  ledger : ∀ loans, s.Ledger env (a ++ loans) → s'.Ledger env (b ++ loans)
  entryRefs : s'.entryRefs = s.entryRefs

theorem Ledger.perm (h : s.Ledger env a) (hp : a.Perm b) : s.Ledger env b := by
  refine ⟨h.counted, fun i => ?_, h.ino, h.inodes, h.high⟩
  rw [← hp.count_eq]
  exact h.refs i

@[grind →] theorem Carried.trans (h : s.Carried env a b s') (h' : s'.Carried env b c s'') :
    s.Carried env a c s'' where
  rest := h'.rest.trans h.rest
  ledger loans hl := h'.ledger loans (h.ledger loans hl)
  entryRefs := h'.entryRefs.trans h.entryRefs

theorem Kept.carried (h : s.Kept env s') : s.Carried env a a s' :=
  ⟨h.rest, fun _ hl => h.ledger _ hl, h.entryRefs⟩

@[grind →] theorem Carried.kept (h : s.Carried env [] [] s') : s.Kept env s' :=
  ⟨h.rest, fun _ hl => h.ledger _ hl, h.entryRefs⟩

@[grind →] theorem Carried.trans_kept (h : s.Carried env a b s') (h' : s'.Kept env s'') :
    s.Carried env a b s'' :=
  h.trans h'.carried

@[grind →] theorem Kept.trans_carried (h : s.Kept env s') (h' : s'.Carried env a b s'') :
    s.Carried env a b s'' :=
  h.carried.trans h'

@[grind →] theorem Carried.trans_same (h : s.Carried env a b s') (h' : s'.Same s'') :
    s.Carried env a b s'' :=
  h.trans_kept h'.kept

@[grind →] theorem Same.trans_carried (h : s.Same s') (h' : s'.Carried env a b s'') :
    s.Carried env a b s'' :=
  h.kept.trans_carried h'

@[grind →] theorem Keeps.carried (h : s.Keeps env id s') : s.Carried env [] [id] s' :=
  ⟨rest_of_frame h.frame, fun _ hl => hl.keeps h, entryRefs_of_frame h.frame⟩

@[grind →] theorem Loses.carried (h : s.Loses env id s') : s.Carried env [id] [] s' :=
  ⟨rest_of_frame h.frame, fun _ hl => hl.loses h, entryRefs_of_frame h.frame⟩

/-- A loan is taken, and an older one is repaid. -/
theorem Keeps.swap {target : ℕ} (h : s.Keeps env target s') (h' : s'.Loses env id s'') :
    s.Carried env [id] [target] s'' where
  rest := (rest_of_frame h'.frame).trans (rest_of_frame h.frame)
  ledger loans hl := ((hl.keeps h).perm (List.Perm.swap id target loans)).loses h'
  entryRefs := (entryRefs_of_frame h'.frame).trans (entryRefs_of_frame h.frame)

end Fs

/-! ### Directories that are opened for an operation -/

@[spec] theorem closeLocal_balanced (ino : ℕ) : Balanced Fs.Same (closeLocal env ino) s₀ := by
  mvcgen [closeLocal]

@[spec] theorem openLocal_carried (fops : Fops) (ino : ℕ) :
    ⦃fun s => ⌜s = s₀⌝⦄ openLocal env fops ino
    ⦃post⟨fun target s => ⌜s₀.Carried env [ino] [target] s⌝, fun e s => ⌜e.fatal ∨ s₀.Same s⌝⟩⦄ := by
  mvcgen [openLocal]
  all_goals grind [→ Fs.Keeps.swap, Fs.Kept.carried]

@[spec] theorem listOneDirent_kept (outFd : ℕ) (d : Dirent) :
    Balanced (Fs.Kept env) (listOneDirent env outFd d) s₀ := by
  mvcgen [listOneDirent]
  all_goals grind

@[spec] theorem listLoop_kept (outFd ino fuel : ℕ) :
    Balanced (Fs.Kept env) (listLoop env outFd ino fuel) s₀ := by
  induction fuel generalizing s₀ with
  | zero => exact .throw rfl
  | succ fuel ih =>
    refine .of fun P E hP hE => ?_
    mvcgen [listLoop, ih]
    all_goals grind

@[spec] theorem listEach_kept (outFd : ℕ) (entries : List Dirent) :
    Balanced (Fs.Kept env) (listEach env outFd entries) s₀ := by
  induction entries generalizing s₀ with
  | nil =>
    mvcgen [listEach]
    all_goals grind
  | cons d rest ih =>
    refine .of fun P E hP hE => ?_
    mvcgen [listEach, ih]
    all_goals grind

@[spec] theorem listEntries_kept (outFd ino : ℕ) (fops : Fops) :
    Balanced (Fs.Kept env) (listEntries env outFd ino fops) s₀ := by
  mvcgen [listEntries]

@[spec] theorem listOpened_carried (outFd ino : ℕ) :
    ⦃fun s => ⌜s = s₀⌝⦄ listOpened env outFd ino
    ⦃post⟨fun _ s => ⌜s₀.Carried env [ino] [] s⌝,
      fun e s => ⌜e.fatal ∨ s₀.Carried env [ino] [] s⌝⟩⦄ := by
  mvcgen [listOpened]
  all_goals grind

@[spec] theorem listDirents_kept (ino outFd : ℕ) :
    Balanced (Fs.Kept env) (listDirents env ino outFd) s₀ := by
  mvcgen [listDirents]
  all_goals grind

@[spec] theorem kLs_kept (fileName : Option Str) (outFd : ℕ) :
    Balanced (Fs.Kept env) (kLs env fileName outFd) s₀ := by
  refine .of fun P E hP hE => ?_
  mvcgen [kLs]
  all_goals grind

@[spec] theorem kChangeDirectory_kept (path : Str) :
    Balanced (Fs.Kept env) (kChangeDirectory env path) s₀ := by
  mvcgen [kChangeDirectory]
  all_goals grind

@[spec] theorem pipeEntries_spec :
    ⦃fun s => ⌜s = s₀⌝⦄ pipeEntries env
    ⦃post⟨fun r s => ⌜∃ t, s₀.Opened env r.2.1 t ∧ t.Opened env r.2.2 s⌝,
      fun e s => ⌜e.fatal ∨ s₀.Kept env s ∨ ∃ fd, s₀.Opened env fd s⌝⟩⦄ := by
  mvcgen [pipeEntries]
  all_goals grind

end OsPi
