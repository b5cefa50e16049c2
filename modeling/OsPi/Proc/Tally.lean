import OsPi.Proc.Descriptors

/-!
# The References to Open Files

The reference count of an entry of the open file table is the number of descriptor slots that hold
it, over all processes, and of running calls that have taken a reference to it.

`Fs.Tallied n` says that the counts are `n`. A call of a process keeps it, with the number of holders
for `n`, unless closing an entry or adding a reference to it fails where the result is not looked
at, or a count has no room for one more.
-/

open Std.Do

namespace OsPi

open Function List Option

set_option mvcgen.warning false

/-! ### Inodes of the cache -/

namespace Fs

/-- An inode of the cache, not a virtual one. -/
structure InUse (env : Env) (id : ℕ) (s : Fs) : Prop where
  ne_zero : id ≠ 0
  ops : s.opsForInode env id = none
  node : s.node? id ≠ none

variable {env : Env} {s s' : Fs} {id : ℕ}

theorem opsForInode_of_frame (h : s'.frame = s.frame) :
    s'.opsForInode env id = s.opsForInode env id := by
  have hmounts : s'.rootMounts = s.rootMounts := congrArg Frame.rootMounts h
  rw [opsForInode, opsForInode, hmounts]

theorem Counted.refs_pos_iff (hc : s.Counted) : 0 < s.refs id ↔ s.node? id ≠ none := by
  cases hn : s.node? id with
  | none => simp [refs_of_none hn]
  | some c =>
    have hpos := hc.pos id c hn
    rw [refs_of_node? hn]
    simpa [Nat.one_le_iff_ne_zero, Nat.pos_iff_ne_zero] using hpos

theorem InUse.same (h : s.InUse env id) (hc : s.Counted) (hs : s.Same s') : s'.InUse env id := by
  refine ⟨h.ne_zero, (opsForInode_of_frame hs.frame).trans h.ops, ?_⟩
  have hpos := hc.refs_pos_iff.mpr h.node
  rw [← (hs.counted hc).refs_pos_iff, hs.refs hc]
  exact hpos

end Fs

variable (env : Env) (s₀ : Fs)

theorem vfsGetInode_refused (ino : ℕ) :
    ⦃fun s => ⌜s = s₀⌝⦄ vfsGetInode env ino
    ⦃post⟨fun _ s => ⌜s₀.Took env ino s ∧ ino ≠ 0⌝,
      fun _ s => ⌜s₀.Quiet s ∧ ¬s₀.InUse env ino⌝⟩⦄ := by
  unfold vfsGetInode
  mvcgen
  all_goals grind -linarith [Fs.InUse]

theorem setInodeMetadata_inUse (ino : ℕ) (metadata : Attributes) (h : s₀.InUse env ino) :
    ⦃fun s => ⌜s = s₀⌝⦄ setInodeMetadata env ino metadata
    ⦃post⟨fun _ s => ⌜s₀.Same s⌝, fun e _ => ⌜e.fatal⌝⟩⦄ := by
  obtain ⟨h0, hops, hnode⟩ := h
  unfold setInodeMetadata
  mvcgen
  all_goals grind -linarith

theorem getInodeMetadata_inUse (ino : ℕ) (h : s₀.InUse env ino) :
    ⦃fun s => ⌜s = s₀⌝⦄ getInodeMetadata env ino
    ⦃post⟨fun _ s => ⌜s₀.Quiet s⌝, fun e _ => ⌜e.fatal⌝⟩⦄ := by
  obtain ⟨h0, hops, hnode⟩ := h
  unfold getInodeMetadata
  mvcgen
  all_goals grind -linarith

theorem pipeAttach_inUse (ino readFd writeFd : ℕ) (hc : s₀.Counted) (h : s₀.InUse env ino) :
    ⦃fun s => ⌜s = s₀⌝⦄ pipeAttach env ino readFd writeFd
    ⦃post⟨fun _ s => ⌜s₀.Same s⌝, fun e _ => ⌜e.fatal⌝⟩⦄ := by
  have hget := getInodeMetadata_inUse env s₀ ino h
  have hset := fun s metadata (hs : s₀.Quiet s) =>
    setInodeMetadata_inUse env s ino metadata (h.same hc hs.same)
  unfold pipeAttach
  mvcgen [hget, hset, -getInodeMetadata_balanced, -setInodeMetadata_balanced]
  all_goals grind -linarith

theorem oftOpenFile_refused (mode : UInt8) (fileName : Str) (inoId dirBlock : ℕ) (h0 : inoId ≠ 0) :
    ⦃fun s => ⌜s = s₀⌝⦄ oftOpenFile env mode fileName inoId dirBlock
    ⦃post⟨fun fd s => ⌜s₀.Opened env fd s ∧ ∃ e, s.oft[fd]? = some (some e) ∧ e.inoId = inoId⌝,
      fun _ s => ⌜s₀.Kept env s ∧ ¬s₀.InUse env inoId⌝⟩⦄ := by
  have hget := vfsGetInode_refused env
  unfold oftOpenFile
  rw [if_neg h0]
  mvcgen [hget, -vfsGetInode_took]
  all_goals subst_vars
  case vc1 h _ _ =>
      rintro rfl rfl
      refine ⟨.of_keeps h.1.keeps rfl h.2, ⟨mode, 0, 1, inoId⟩, join_eq_some_iff.mp ?_, rfl⟩
      rw [Fs.getElem?_pushed, if_pos rfl]
  case vc2 => exact fun h hn => ⟨h.same.kept, hn⟩

namespace Fs

variable {env} {s s' : Fs} {id fd : ℕ} {e : OftEntry}

/-- The inodes of the inode table are not virtual ones. -/
theorem Ledger.opsForInode_eq_none (h : s.Accounted env) (hid : id ≤ s.layout.inodeCapacity) :
    s.opsForInode env id = none := by
  by_contra hv
  have hhigh := h.high id (isSome_iff_ne_none.mpr hv)
  have hcap := h.inodes
  omega

/-- The inode of an open file is in use. -/
theorem Ledger.inUse (h : s.Accounted env) (he : s.oft[fd]? = some (some e))
    (hid : e.inoId ≤ s.layout.inodeCapacity) : s.InUse env e.inoId := by
  have hops := h.opsForInode_eq_none hid
  have hv : s.isVirtual env e.inoId = false := by rw [isVirtual, hops, isSome_none]
  have hpos : 0 < s.holders e.inoId :=
    countP_pos_iff.mpr ⟨some e, mem_of_getElem? he, by simp⟩
  refine ⟨h.ino fd e he, hops, h.counted.refs_pos_iff.mp ?_⟩
  rw [h.refs, hv]
  simp
  omega

theorem Opened.inUse (hl : s.Accounted env) (h : s.Opened env fd s')
    (he : s'.oft[fd]? = some (some e)) (hid : e.inoId ≤ s.layout.inodeCapacity) :
    s'.InUse env e.inoId := by
  have hlayout : s'.layout = s.layout := congrArg Frame.layout h.2.rest
  exact (h.2.ledger [] hl).inUse he (by rwa [hlayout])

theorem Opened.inUse_opened {s'' : Fs} {fd' : ℕ} (hl : s.Accounted env) (h : s.Opened env fd s')
    (h' : s'.Opened env fd' s'') (he : s''.oft[fd']? = some (some e))
    (hid : e.inoId ≤ s.layout.inodeCapacity) : s''.InUse env e.inoId := by
  have hlayout : s'.layout = s.layout := congrArg Frame.layout h.2.rest
  exact h'.inUse (h.2.ledger [] hl) he (by rwa [hlayout])

end Fs

theorem pipeEntries_made (hl : s₀.Accounted env) :
    ⦃fun s => ⌜s = s₀⌝⦄ pipeEntries env
    ⦃post⟨fun r s => ⌜(∃ t, s₀.Opened env r.2.1 t ∧ t.Opened env r.2.2 s) ∧ s.InUse env r.1⌝,
      fun e s => ⌜e.fatal ∨ s₀.Kept env s⌝⟩⦄ := by
  have hopen := fun s mode name ino dir h0 => oftOpenFile_refused env s mode name ino dir h0
  unfold pipeEntries
  mvcgen [hopen, -oftOpenFile_spec]
  all_goals grind -linarith [→ Fs.Opened.inUse, → Fs.Opened.inUse_opened, Fs.Same.layout_eq]

/-! ### Counting holders -/

namespace Fs

/-- The reference counts of the entries of the table are `n`, and those with no reference are
not there. -/
def Tallied (n : ℕ → ℕ) (s : Fs) : Prop :=
  ∀ kfd, n kfd < 2 ^ 16 ∧
    s.entryRefs kfd = if n kfd = 0 then none else some (UInt16.ofNat (n kfd))

/-- The count of an entry has room for one more reference. -/
def Room (s : Fs) (kfd : ℕ) : Prop := s.entryRefs kfd ≠ some 65535

variable {env} {s s' : Fs} {n n' : ℕ → ℕ} {fd : ℕ}

theorem Tallied.refCount {kfd : ℕ} {e : OftEntry} (h : s.Tallied n)
    (he : s.oft[kfd]? = some (some e)) : e.refCount.toNat = n kfd ∧ 0 < n kfd := by
  obtain ⟨hlt, hrefs⟩ := h kfd
  rw [entryRefs_of_some he] at hrefs
  split_ifs at hrefs with h0
  rw [some.inj hrefs, UInt16.toNat_ofNat_of_lt' hlt]
  exact ⟨rfl, Nat.pos_of_ne_zero h0⟩

theorem Tallied.entry {kfd : ℕ} (h : s.Tallied n) (hpos : 0 < n kfd) :
    ∃ e, s.oft[kfd]? = some (some e) := by
  obtain ⟨-, hrefs⟩ := h kfd
  rw [if_neg (by omega), entryRefs, map_eq_some_iff] at hrefs
  obtain ⟨e, he, -⟩ := hrefs
  exact ⟨e, join_eq_some_iff.mp he⟩

theorem Tallied.kept (h : s.Tallied n) (hk : s.Kept env s') : s'.Tallied n := by
  intro kfd
  rw [hk.entryRefs]
  exact h kfd

theorem Tallied.opened (h : s.Tallied n) (ho : s.Opened env fd s')
    (hn : ∀ k, n' k = n k + if k = fd then 1 else 0) : s'.Tallied n' := by
  intro kfd
  obtain ⟨hlt, hrefs⟩ := h kfd
  have hk := hn kfd
  rw [ho.2.entryRefs, update_apply]
  by_cases hfd : kfd = fd
  · have hzero : n kfd = 0 := by
      by_contra hne
      have hnone := hfd ▸ ho.1
      rw [hrefs, if_neg hne] at hnone
      exact some_ne_none _ hnone
    rw [if_pos hfd, hzero] at hk
    rw [if_pos hfd, hk]
    exact ⟨by decide, rfl⟩
  · rw [if_neg hfd] at hk ⊢
    rw [hrefs, hk]
    exact ⟨hlt, rfl⟩

theorem dropRef_ofNat {c : ℕ} (hc : c + 1 < 2 ^ 16) :
    dropRef (some (UInt16.ofNat (c + 1))) = if c = 0 then none else some (UInt16.ofNat c) := by
  have hsub : UInt16.ofNat (c + 1) - 1 = UInt16.ofNat c := by
    rw [UInt16.ofNat_add]
    exact UInt16.add_sub_cancel _ _
  have hzero : UInt16.ofNat c = 0 ↔ c = 0 := by
    have hlt : c < 2 ^ 16 := by omega
    rw [← UInt16.toNat_inj, UInt16.toNat_ofNat_of_lt' hlt]
    rfl
  rw [dropRef, hsub]
  simp only [hzero]

theorem Tallied.closed (h : s.Tallied n) (hc : s.Closed env fd s')
    (hn : ∀ k, n k = n' k + if k = fd then 1 else 0) : s'.Tallied n' := by
  intro kfd
  obtain ⟨hlt, hrefs⟩ := h kfd
  have hk := hn kfd
  rw [hc.entryRefs, update_apply]
  by_cases hfd : kfd = fd
  · subst hfd
    rw [if_pos rfl] at hk
    refine ⟨by omega, ?_⟩
    rw [if_pos rfl, hrefs, if_neg (by omega), hk, dropRef_ofNat (by omega)]
  · rw [if_neg hfd] at hk ⊢
    rw [hrefs, hk]
    exact ⟨by omega, rfl⟩

theorem Tallied.shared (h : s.Tallied n) (hs : s.Shared env fd s') (hpos : 0 < n fd)
    (hroom : s.Room fd) (hn : ∀ k, n' k = n k + if k = fd then 1 else 0) : s'.Tallied n' := by
  intro kfd
  obtain ⟨hlt, hrefs⟩ := h kfd
  have hk := hn kfd
  rw [hs.entryRefs, update_apply]
  by_cases hfd : kfd = fd
  · subst hfd
    rw [if_pos rfl] at hk
    have hmax : n kfd ≠ 65535 := by
      intro hmax
      rw [Room, hrefs, if_neg (by omega), hmax] at hroom
      exact hroom rfl
    refine ⟨by omega, ?_⟩
    rw [if_pos rfl, hrefs, if_neg (by omega), if_neg (by omega), hk, UInt16.ofNat_add]
    rfl
  · rw [if_neg hfd] at hk ⊢
    rw [hrefs, hk]
    exact ⟨hlt, rfl⟩

theorem Tallied.retracted (h : s.Tallied n) (hr : s.Retracted env fd s') : s'.Tallied n := by
  intro kfd
  obtain ⟨hlt, hrefs⟩ := h kfd
  refine ⟨hlt, ?_⟩
  rw [hr.entryRefs, update_apply]
  split_ifs with hfd h0 h0
  · subst hfd
    rw [hrefs, if_pos h0]
    rfl
  · subst hfd
    have hne : ¬UInt16.ofNat (n kfd) = 0 := by
      rw [← UInt16.toNat_inj, UInt16.toNat_ofNat_of_lt' hlt]
      exact h0
    rw [hrefs, if_neg h0, map_some, dropRef, UInt16.add_sub_cancel, if_neg hne]
  · rw [hrefs, if_pos h0]
  · rw [hrefs, if_neg h0]

end Fs

/-- The number of slots that hold an entry. -/
def Fds.held (fds : Fds) (kfd : ℕ) : ℕ := fds.count (some kfd)

/-- The entry a descriptor stands for, if any. -/
def Fds.slot (fds : Fds) (fd : ℤ) : Option ℕ := if fd < 0 then none else fds[fd.toNat]?.join

namespace Fds

variable {fds : Fds} {fd : ℤ} {i kfd kfd' : ℕ}

@[simp] theorem held_nil (k : ℕ) : Fds.held [] k = 0 := rfl

@[simp] theorem held_none_cons (k : ℕ) : Fds.held (none :: fds) k = fds.held k := by
  simp [held]

@[simp] theorem held_some_cons (k : ℕ) :
    Fds.held (some kfd :: fds) k = fds.held k + if k = kfd then 1 else 0 := by
  rw [held, count_cons, held]
  simp only [beq_iff_eq, some.injEq, eq_comm (a := kfd)]

theorem held_set (h : i < fds.length) (slot : Option ℕ) (k : ℕ) :
    Fds.held (fds.set i slot) k + (if fds[i]?.join = some k then 1 else 0) =
      fds.held k + if slot = some k then 1 else 0 := by
  have hpos : fds[i]?.join = some k → 0 < fds.count (some k) := fun hk =>
    count_pos_iff.mpr (mem_of_getElem? (join_eq_some_iff.mp hk))
  rw [getElem?_eq_getElem h, join_some] at hpos ⊢
  rw [held, count_set h, held]
  simp only [beq_iff_eq]
  split_ifs at hpos ⊢ <;> grind

theorem held_install (fds : Fds) (kfd k : ℕ) :
    (fds.install kfd).held k = fds.held k + if k = kfd then 1 else 0 := by
  rw [install]
  by_cases hfree : fds.free = fds.length
  · rw [if_pos hfree, held, held, count_append, count_singleton]
    simp only [beq_iff_eq, some.injEq]
    split_ifs <;> grind
  · have hlt : fds.free < fds.length := lt_of_le_of_ne findIdx_le_length hfree
    have hnone : fds[fds.free]?.join = none := by
      have hfind := findIdx_getElem (p := fun slot : Option ℕ => slot.isNone) (w := hlt)
      rw [getElem?_eq_getElem hlt, join_some]
      exact isNone_iff_eq_none.mp hfind
    have hset := held_set hlt (some kfd) k
    rw [hnone] at hset
    simp only [reduceCtorEq, if_false, Nat.add_zero, some.injEq, eq_comm (a := kfd)] at hset
    rw [if_neg hfree, hset]

theorem slot_eq_some (h : fds.slot fd = some kfd) :
    fd.toNat < fds.length ∧ fds[fd.toNat]?.join = some kfd := by
  rw [slot] at h
  split_ifs at h
  exact ⟨(List.getElem?_eq_some_iff.mp (join_eq_some_iff.mp h)).1, h⟩

theorem held_clear (h : fds.slot fd = some kfd) (k : ℕ) :
    fds.held k = Fds.held (fds.set fd.toNat none) k + if k = kfd then 1 else 0 := by
  obtain ⟨hlt, hslot⟩ := slot_eq_some h
  have hset := held_set hlt none k
  rw [hslot] at hset
  simp only [some.injEq, reduceCtorEq, if_false, eq_comm (a := kfd)] at hset
  omega

theorem held_pos (h : fds.slot fd = some kfd) : 0 < fds.held kfd := by
  have hclear := held_clear h kfd
  rw [if_pos rfl] at hclear
  omega

theorem held_append_none (fds : Fds) (m k : ℕ) :
    Fds.held (fds ++ List.replicate m none) k = fds.held k := by
  simp [held, count_replicate]

theorem held_assign (fds : Fds) (i kfd k : ℕ) :
    (fds.assign i kfd).held k + (if fds[i]?.join = some k then 1 else 0) =
      fds.held k + if k = kfd then 1 else 0 := by
  have hlen : i < (fds ++ List.replicate (i + 1 - fds.length) none).length := by
    rw [length_append, length_replicate]
    omega
  have hget : (fds ++ List.replicate (i + 1 - fds.length) none)[i]?.join = fds[i]?.join := by
    rw [getElem?_append]
    split_ifs with hlt
    · rfl
    · rw [getElem?_eq_none (Nat.not_lt.mp hlt), getElem?_replicate]
      split_ifs <;> rfl
  have hset := held_set hlen (some kfd) k
  rw [hget, held_append_none] at hset
  rw [assign, hset]
  simp only [some.injEq, eq_comm (a := kfd)]

theorem held_replace {old : ℕ} (h : fds.slot fd = some old) (kfd k : ℕ) :
    held (assign (fds.set fd.toNat none) fd.toNat kfd) k + (if k = old then 1 else 0) =
      fds.held k + if k = kfd then 1 else 0 := by
  have hassign := held_assign (fds.set fd.toNat none) fd.toNat kfd k
  rw [getElem?_set_self (slot_eq_some h).1] at hassign
  simp only [join_some, reduceCtorEq, if_false, Nat.add_zero] at hassign
  rw [hassign, held_clear h k, Nat.add_right_comm]

end Fds

/-! ### Conditions -/

namespace Fs

/-- Closing an entry succeeds. -/
def Closes (env : Env) (s : Fs) (kfd : ℕ) : Prop :=
  ∀ e t, (kClose env kfd).eval s = (.error e, t) → e.fatal

/-- Adding a reference to an entry succeeds. -/
def Shares (env : Env) (s : Fs) (kfd : ℕ) : Prop :=
  ∀ e t, (kFileAddReference env kfd).eval s = (.error e, t) → e.fatal

/-- What `dup2` needs of its two calls when the slot it assigns holds `target`. Where that is the
same entry, the two calls cancel out, and they may also fail both. -/
def Duplicates (env : Env) (s : Fs) (kfd : ℕ) : Option ℕ → Prop
  | none => s.Shares env kfd ∧ s.Room kfd
  | some target =>
    if target = kfd then
      ∀ r t, (kFileAddReference env kfd).eval s = (r, t) →
        match r with
        | .ok _ => t.Closes env kfd
        | .error e => e.fatal ∨ ∀ u, (kClose env kfd).eval t ≠ (.ok (), u)
    else
      s.Shares env kfd ∧ s.Room kfd ∧
        ∀ t, (kFileAddReference env kfd).eval s = (.ok (), t) → t.Closes env target

/-- Adding a reference for each slot succeeds. -/
def SharesAll (env : Env) : Fds → Fs → Prop
  | [], _ => True
  | none :: rest, s => SharesAll env rest s
  | some kfd :: rest, s => s.Shares env kfd ∧ s.Room kfd ∧
      ∀ t, (kFileAddReference env kfd).eval s = (.ok (), t) → SharesAll env rest t

/-- Closing the entry of each slot succeeds. -/
def ClosesAll (env : Env) : Fds → Fs → Prop
  | [], _ => True
  | none :: rest, s => ClosesAll env rest s
  | some kfd :: rest, s => s.Closes env kfd ∧
      ∀ t, (kClose env kfd).eval s = (.ok (), t) → ClosesAll env rest t

end Fs

/-! ### The calls of a process -/

/-- After a call of a process the ledger still balances, and the counts of entries are still the
numbers of their holders, those outside the process among them. -/
structure Settles (env : Env) (s s' : Fds × Fs) : Prop where
  ledger : s.2.Ledgered env s'.2
  tallied : ∀ rest : ℕ → ℕ, s.2.Tallied (fun k => s.1.held k + rest k) →
    s'.2.Tallied fun k => s'.1.held k + rest k

namespace Settles

variable {env} {fds : Fds} {s t u : Fs} {fd : ℤ} {kfd target : ℕ}

@[grind .] theorem refl (s : Fds × Fs) : Settles env s s := ⟨fun _ hl => hl, fun _ h => h⟩

theorem trans {s s' s'' : Fds × Fs} (h : Settles env s s') (h' : Settles env s' s'') :
    Settles env s s'' :=
  ⟨h.ledger.trans h'.ledger, fun rest ht => h'.tallied rest (h.tallied rest ht)⟩

theorem of_kept (h : s.Kept env t) : Settles env (fds, s) (fds, t) :=
  ⟨h.ledger, fun _ ht => ht.kept h⟩

theorem of_closed (hslot : fds.slot fd = some kfd) (h : s.Closed env kfd t) :
    Settles env (fds, s) (fds.set fd.toNat none, t) := by
  refine ⟨h.ledger, fun rest ht => ht.closed h fun k => ?_⟩
  have hclear := Fds.held_clear hslot k
  dsimp only
  omega

theorem of_opened (h : s.Opened env kfd t) : Settles env (fds, s) (fds.install kfd, t) := by
  refine ⟨h.2.ledger, fun rest ht => ht.opened h fun k => ?_⟩
  have hinstall := Fds.held_install fds kfd k
  dsimp only
  omega

/-- A free slot is assigned an entry to which a reference has been added. -/
theorem of_shared (hold : fds.slot fd = some kfd) {i : ℕ} (hnew : fds[i]?.join = none)
    (hroom : s.Room kfd) (h : s.Shared env kfd t) :
    Settles env (fds, s) (fds.assign i kfd, t) := by
  refine ⟨h.ledger, fun rest ht => ht.shared h (Nat.add_pos_left (Fds.held_pos hold) _) hroom fun k => ?_⟩
  have hassign := Fds.held_assign fds i kfd k
  rw [hnew] at hassign
  simp only [reduceCtorEq, if_false, Nat.add_zero] at hassign
  dsimp only
  omega

/-- A slot is assigned the entry it held. -/
theorem of_same (hslot : fds.slot fd = some kfd)
    (hl : s.Ledgered env t) (h : ∀ n, s.Tallied n → t.Tallied n) :
    Settles env (fds, s) (Fds.assign (fds.set fd.toNat none) fd.toNat kfd, t) := by
  refine ⟨hl, fun rest ht => ?_⟩
  have hheld : ∀ k, (Fds.assign (fds.set fd.toNat none) fd.toNat kfd).held k = fds.held k :=
    fun k => Nat.add_right_cancel (Fds.held_replace hslot kfd k)
  simp only [hheld]
  exact h _ ht

/-- A slot is assigned another entry than the one it held. -/
theorem of_shared_closed {oldfd : ℤ} (hold : fds.slot oldfd = some kfd)
    (hslot : fds.slot fd = some target) (hroom : s.Room kfd)
    (h : s.Shared env kfd t) (h' : t.Closed env target u) :
    Settles env (fds, s) (Fds.assign (fds.set fd.toNat none) fd.toNat kfd, u) := by
  refine ⟨fun loans hl => h'.ledger loans (h.ledger loans hl), fun rest ht => ?_⟩
  have hshared := ht.shared h (Nat.add_pos_left (Fds.held_pos hold) _) hroom fun _ => rfl
  refine hshared.closed h' fun k => ?_
  have hreplace := Fds.held_replace hslot kfd k
  dsimp only
  omega

end Settles

section Calls

variable (s₀ : Fds × Fs)

/-- What a call of a process keeps, whatever it returns. -/
abbrev Settled {α : Type} (env : Env) (m : ProcM α) (s₀ : Fds × Fs) : Prop :=
  ⦃fun s => ⌜s = s₀⌝⦄ m
  ⦃post⟨fun _ s => ⌜Settles env s₀ s⌝, fun e s => ⌜e.fatal ∨ Settles env s₀ s⌝⟩⦄

@[spec] theorem installProcessFd_spec (kfd : ℕ) :
    ⦃fun s => ⌜s = s₀⌝⦄ installProcessFd kfd
    ⦃post⟨fun _ s => ⌜s = (s₀.1.install kfd, s₀.2)⌝, fun _ _ => ⌜False⌝⟩⦄ := by
  unfold installProcessFd
  mvcgen
  subst_vars
  rfl

theorem Fds.join_eq_none {slot : Option (Option ℕ)} (h : ∀ kfd, slot = some (some kfd) → False) :
    slot.join = none :=
  eq_none_iff_forall_ne_some.mpr fun kfd hkfd => h kfd (join_eq_some_iff.mp hkfd)

@[spec] theorem slotOf_spec (fd : ℤ) :
    ⦃fun s => ⌜s = s₀⌝⦄ slotOf fd
    ⦃post⟨fun kfd s => ⌜s = s₀ ∧ s₀.1.slot fd = some kfd⌝,
      fun _ s => ⌜s = s₀ ∧ s₀.1.slot fd = none⌝⟩⦄ := by
  unfold slotOf Fds.slot
  mvcgen
  all_goals grind -ring -linarith [Fds.join_eq_none]

@[spec] theorem dupSlot_spec (oldfd newfd : ℤ) :
    ⦃fun s => ⌜s = s₀⌝⦄ Proc.dupSlot oldfd newfd
    ⦃post⟨fun kfd s => ⌜s = s₀ ∧ s₀.1.slot oldfd = some kfd ∧ 0 ≤ newfd⌝, fun _ s => ⌜s = s₀⌝⟩⦄ := by
  unfold Proc.dupSlot Fds.slot
  mvcgen
  all_goals grind -ring -linarith [Fds.join_eq_none]

/-- How `close` ends. -/
@[spec] theorem close_spec (fd : ℤ) :
    ⦃fun s => ⌜s = s₀⌝⦄ Proc.close env fd
    ⦃post⟨fun _ s => ⌜∃ kfd, s₀.1.slot fd = some kfd ∧ s.1 = s₀.1.set fd.toNat none ∧
        s₀.2.Closed env kfd s.2 ∧ (kClose env kfd).eval s₀.2 = (.ok (), s.2)⌝,
      fun e s => ⌜s = s₀ ∧ s₀.1.slot fd = none ∨
        ∃ kfd, s₀.1.slot fd = some kfd ∧ s.1 = s₀.1.set fd.toNat none ∧
          (e.fatal ∨ s₀.2.Kept env s.2) ∧ (kClose env kfd).eval s₀.2 = (.error e, s.2)⌝⟩⦄ := by
  have hclose := fun s kfd => Comp.triple_and_eval (kClose_spec env s kfd)
  unfold Proc.close setSlot
  mvcgen [hclose, -kClose_spec]
  all_goals grind -linarith

theorem close_settled (fd : ℤ)
    (h : ∀ kfd, s₀.1.slot fd = some kfd → s₀.2.Closes env kfd) :
    Settled env (Proc.close env fd) s₀ := by
  refine Comp.triple_of_eval ?_
  have hspec := Comp.eval_of_triple (close_spec env s₀ fd)
  rcases hclose : (Proc.close env fd).eval s₀ with ⟨_ | _, fds, t⟩
  all_goals rw [hclose] at hspec
  · rcases hspec with ⟨rfl, -⟩ | ⟨kfd, hslot, -, -, heval⟩
    · exact .inr (.refl _)
    · exact .inl (h kfd hslot _ _ heval)
  · obtain ⟨kfd, hslot, rfl, hclosed, -⟩ := hspec
    exact .of_closed hslot hclosed

theorem openPath_settled (fname : Str) (mode : UInt8) :
    Settled env (Proc.openPath env fname mode) s₀ := by
  unfold Proc.openPath
  mvcgen
  all_goals subst_vars
  case vc1 hopened _ _ =>
      rintro rfl
      exact .of_opened hopened
  case vc2 => exact fun h => h.imp_right .of_kept

theorem pin_spec (fd : ℤ) :
    ⦃fun s => ⌜s = s₀⌝⦄ Proc.pin fd
    ⦃post⟨fun kfd s => ⌜s₀.1.slot fd = some kfd ∧ s.1 = s₀.1 ∧ s₀.2.Shared env kfd s.2⌝,
      fun _ s => ⌜s = s₀⌝⟩⦄ := by
  have hadd := fun s => oftAddReference_spec env s
  unfold Proc.pin
  mvcgen [hadd]
  all_goals grind -linarith

theorem Fds.getElem?_of_slot {fds : Fds} {fd : ℤ} (h0 : 0 ≤ fd) (h : fds.slot fd = none) :
    fds[fd.toNat]?.join = none := by
  rwa [slot, if_neg (not_lt.mpr h0)] at h

theorem dup2_settled (oldfd newfd : ℤ)
    (h : 0 ≤ newfd → ∀ kfd, s₀.1.slot oldfd = some kfd →
      s₀.2.Duplicates env kfd (s₀.1.slot newfd)) :
    Settled env (Proc.dup2 env oldfd newfd) s₀ := by
  have hadd := fun s kfd => Comp.triple_and_eval (kFileAddReference_spec env s kfd)
  unfold Proc.dup2
  mvcgen [hadd, -kFileAddReference_spec]
  all_goals subst_vars
  -- a fatal error of one of the two calls
  case vc2 | vc4 | vc6 => exact .inl ‹_›
  case vc8 =>
      rintro rfl
      exact .inr (.refl _)
  case vc1 hold _ _ hshared _ _ hclosed _ =>
      obtain ⟨rfl, hold, h0⟩ := hold
      obtain ⟨target, hslot, hfds, hclosed, -⟩ := hclosed
      have hdup := h h0 _ hold
      rw [hslot, Fs.Duplicates] at hdup
      change Settles env _ (Fds.assign _ _ _, _)
      rw [hfds]
      split_ifs at hdup with heq
      · subst heq
        have hback := hshared.1.closed hclosed
        exact .of_same hslot hback.ledger fun n ht => ht.retracted hback
      · exact .of_shared_closed hold hslot hdup.2.1 hshared.1 hclosed
  case vc3 hold _ _ hshared _ hfatal _ hclose _ =>
      obtain ⟨rfl, hold, h0⟩ := hold
      have hdup := h h0 _ hold
      rcases hclose with ⟨rfl, hslot⟩ | ⟨target, hslot, hfds, -, heval⟩
      · rw [hslot] at hdup
        exact .of_shared hold (Fds.getElem?_of_slot h0 hslot) hdup.2 hshared.1
      · rw [hslot, Fs.Duplicates] at hdup
        split_ifs at hdup with heq
        · subst heq
          exact absurd (hdup _ _ hshared.2 _ _ heval) hfatal
        · exact absurd (hdup.2.2 _ hshared.2 _ _ heval) hfatal
  case vc5 hold _ _ hfatal hretracted _ _ hclosed _ =>
      obtain ⟨rfl, hold, h0⟩ := hold
      obtain ⟨target, hslot, hfds, -, heval⟩ := hclosed
      have hdup := h h0 _ hold
      rw [hslot, Fs.Duplicates] at hdup
      split_ifs at hdup with heq
      · subst heq
        exact absurd heval ((hdup _ _ hretracted.2).resolve_left hfatal _)
      · exact absurd (hdup.1 _ _ hretracted.2) hfatal
  case vc7 hold _ _ hfatal hretracted _ hfatal' _ hclose _ =>
      obtain ⟨rfl, hold, h0⟩ := hold
      have hdup := h h0 _ hold
      rcases hclose with ⟨rfl, hslot⟩ | ⟨target, hslot, hfds, hkept, heval⟩
      · rw [hslot] at hdup
        exact absurd (hdup.1 _ _ hretracted.2) hfatal
      · rw [hslot, Fs.Duplicates] at hdup
        change Settles env _ (Fds.assign _ _ _, _)
        rw [hfds]
        split_ifs at hdup with heq
        · subst heq
          have hkept := hkept.resolve_left hfatal'
          refine .of_same hslot (fun loans hl => hkept.ledger loans ?_) fun n ht => ?_
          · rcases hretracted.1.resolve_left hfatal with hr | hr
            · exact hr.ledger loans hl
            · exact hr.ledger loans hl
          · rcases hretracted.1.resolve_left hfatal with hr | hr
            · exact (ht.kept hr).kept hkept
            · exact (ht.retracted hr).kept hkept
        · exact absurd (hdup.1 _ _ hretracted.2) hfatal

theorem pipe_settled (hl : s₀.2.Accounted env) : Settled env (Proc.pipe env) s₀ := by
  have hmade := pipeEntries_made env s₀.2 hl
  have hattach := fun s ino r w hc hu => pipeAttach_inUse env s ino r w hc hu
  unfold Proc.pipe
  mvcgen [hmade, hattach, -pipeEntries_spec, -pipeAttach_ledgered]
  all_goals subst_vars
  case vc1 => rfl
  case vc2 =>
      obtain ⟨⟨t, hread, hwrite⟩, -⟩ := ‹(∃ t, _) ∧ Fs.InUse env _ _›
      exact (hwrite.2.ledger [] (hread.2.ledger [] hl)).counted
  case vc3 => exact ‹(∃ t, _) ∧ Fs.InUse env _ _›.2
  case vc4 =>
      obtain ⟨⟨t, hread, hwrite⟩, -⟩ := ‹(∃ t, _) ∧ Fs.InUse env _ _›
      have hsame := ‹Fs.Same _ _›
      exact ((Settles.of_opened hread).trans (.of_opened hwrite)).trans (.of_kept hsame.kept)
  case vc5 => exact fun hfatal => .inl hfatal
  case vc6 => exact fun h => h.imp_right .of_kept

/-! ### Loops -/

section Loops

variable {env} {fds : Fds} {s s' : Fs} {n : ℕ → ℕ} {r : Except Err Unit}

/-- A loop goes on after a call whose errors are fatal ones, unless it ends with one. -/
theorem tryErr_goes_on {m : FsM Unit} {f : Except Err Unit → FsM Unit}
    (hm : ∀ e t, m.eval s = (.error e, t) → e.fatal)
    (heval : (tryErr m >>= f).eval s = (r, s')) (hr : ∀ e, r = .error e → ¬e.fatal) :
    ∃ t, m.eval s = (.ok (), t) ∧ (f (.ok ())).eval t = (r, s') := by
  rcases hrun : m.eval s with ⟨e | u, t⟩
  · have hfatal := hm e t hrun
    rw [Comp.eval_bind, tryErr_eval_error hrun, if_pos hfatal] at heval
    cases heval
    exact absurd hfatal (hr e rfl)
  · rw [Comp.eval_bind, tryErr_eval_ok hrun] at heval
    exact ⟨t, rfl, heval⟩

/-- After the loop of `fork` the child holds its entries too. -/
theorem addReferences_tallied (h : s.Tallied n) (hpos : ∀ kfd, 0 < fds.held kfd → 0 < n kfd)
    (hall : Fs.SharesAll env fds s) (heval : (Proc.addReferences env fds).eval s = (r, s'))
    (hr : ∀ e, r = .error e → ¬e.fatal) :
    s'.Tallied (fun k => n k + fds.held k) ∧ s.Ledgered env s' := by
  induction fds generalizing s n with
  | nil =>
    cases heval
    exact ⟨h, fun _ hl => hl⟩
  | cons slot rest ih =>
    cases slot with
    | none =>
      simp only [Fds.held_none_cons] at hpos ⊢
      exact ih h hpos hall heval
    | some kfd =>
      simp only [Fds.held_some_cons] at hpos ⊢
      obtain ⟨hshares, hroom, hrest⟩ := hall
      have hspec := Comp.eval_of_triple (kFileAddReference_spec env s kfd)
      obtain ⟨t, hadd, heval⟩ := tryErr_goes_on hshares heval hr
      rw [hadd] at hspec
      have ht := h.shared hspec (hpos kfd (by simp)) hroom fun _ => rfl
      have hpos' : ∀ k, 0 < Fds.held rest k → 0 < n k + if k = kfd then 1 else 0 :=
        fun k hk => Nat.lt_of_lt_of_le (hpos k (by omega)) (Nat.le_add_right ..)
      obtain ⟨htallied, hledger⟩ := ih ht hpos' (hrest t hadd) heval
      refine ⟨?_, fun loans hl => hledger loans (hspec.ledger loans hl)⟩
      have hsum : (fun k => n k + (if k = kfd then 1 else 0) + Fds.held rest k) =
          fun k => n k + (Fds.held rest k + if k = kfd then 1 else 0) :=
        funext fun k => by omega
      rwa [hsum] at htallied

/-- After the loop of `proc_destroy` the process holds nothing. -/
theorem closeAll_tallied (h : s.Tallied fun k => n k + fds.held k)
    (hall : Fs.ClosesAll env fds s) (heval : (Proc.closeAll env fds).eval s = (r, s'))
    (hr : ∀ e, r = .error e → ¬e.fatal) : s'.Tallied n ∧ s.Ledgered env s' := by
  induction fds generalizing s with
  | nil =>
    cases heval
    exact ⟨h, fun _ hl => hl⟩
  | cons slot rest ih =>
    cases slot with
    | none =>
      simp only [Fds.held_none_cons] at h
      exact ih h hall heval
    | some kfd =>
      simp only [Fds.held_some_cons] at h
      obtain ⟨hcloses, hrest⟩ := hall
      have hspec := Comp.eval_of_triple (kClose_spec env s kfd)
      obtain ⟨t, hclose, heval⟩ := tryErr_goes_on hcloses heval hr
      rw [hclose] at hspec
      have ht : t.Tallied fun k => n k + Fds.held rest k := h.closed hspec fun k => by omega
      obtain ⟨htallied, hledger⟩ := ih ht (hrest t hclose) heval
      exact ⟨htallied, fun loans hl => hledger loans (hspec.ledger loans hl)⟩

end Loops

end Calls

end OsPi
