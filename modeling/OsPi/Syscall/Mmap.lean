import OsPi.Memory.RegionCalls
import OsPi.Proc.Counting

/-!
# `mmap` and `munmap` as System Calls

The cases `S_MMAP` and `S_MUNMAP` of `syscall_dispatch` in `syscall/syscall.c`. Neither case ends
with a `break`: `S_MMAP` runs into `S_MUNMAP`, which runs into the default. So after a mapping the
dispatcher removes the range of the same two registers, and what both calls return is
`SYS_ENOSYS`.

`map_syscall_answered_iff` says when the caller is nevertheless told the truth: when the regions
are what they were before, or one of them happens to start at the error number.

The second part is about the descriptor of a mapping of a file. `mmap` takes it for an index of
the open file table of the whole kernel and never looks at the descriptors of the process, so what
it maps is the file of that descriptor only where both numbers are the same.
-/

namespace OsPi

open Comp List Option

variable {env : Env} {mem : Allocs}

/-! ### The dispatcher -/

/-- A computation on the memory of the process, next to the file system. -/
def onVm {α : Type} (m : VmM α) : Comp (Vm × Fs) Stop α := do
  let (v, s) ← get
  set ((m.eval v).2, s)
  match (m.eval v).1 with
  | .ok a => pure a
  | .error stop => throw stop

theorem onVm_eval {α : Type} (m : VmM α) (v : Vm) (s : Fs) :
    (onVm m).eval (v, s) = ((m.eval v).1, (m.eval v).2, s) := by
  rcases h : m.eval v with ⟨⟨e⟩ | ⟨a⟩, v'⟩ <;> simp [onVm, eval_bind, h]

/-- `mmap`: what it finds out about the file, and the region it registers. -/
def mmapCall (env : Env) (mem : Allocs) (args : MmapArgs) : Comp (Vm × Fs) Stop ℕ := do
  let (v, s) ← get
  set (v, ((mmap env args).eval s).2)
  match ((mmap env args).eval s).1 with
  | .error _ => throw .fatal
  | .ok none => pure 0
  | .ok (some region) => onVm (mmapRegister mem args region)

/-- What `mmap` answers about a file, from the entry of the open file table with the number of the
descriptor. -/
theorem mmap_file_result {a : MmapArgs} {length fd : ℕ} (s : Fs)
    (hcheck : a.check = some length) (hfile : a.flags.anonymous = false) (hfd : a.fd = some fd) :
    ((mmap env a).eval s).1 =
      match s.oft[fd]? with
      | some (some entry) => ((entrySize env entry).eval s).1.map fun size =>
        if size < a.offset then none
        else some ⟨some entry.inoId, a.offset, min length (size - a.offset), length⟩
      | _ => .ok none := by
  unfold mmap mmapFile
  simp only [hcheck, hfile, hfd, Bool.false_eq_true, if_false]
  split
  · rename_i entry hentry
    have hok : (tryErr (getOftEntryByFd fd)).eval s = (.ok (.ok entry), s) := by
      simp [tryErr, getOftEntryByFd, eval_bind, hentry]
    rw [eval_bind_of_ok hok]
    simp only
    rw [eval_bind]
    rcases hr : (entrySize env entry).eval s with ⟨⟨e⟩ | ⟨size⟩, s'⟩
    · simp
    · simp only [except_map_ok]
      split_ifs <;> simp
  · rename_i hno
    have herr : (tryErr (getOftEntryByFd fd)).eval s = (.ok (.error .oftFdDoesNotExist), s) := by
      have hthrow : (getOftEntryByFd fd).eval s = (.error .oftFdDoesNotExist, s) := by
        unfold getOftEntryByFd
        rw [eval_get_bind]
        split
        · exact absurd ‹_› (hno _)
        · rfl
      simp [tryErr, eval_bind, hthrow, Err.fatal]
    rw [eval_bind_of_ok herr]
    rfl

/-- The entry of the open file table behind a descriptor of the process. -/
def Fds.entry? (fds : Fds) (s : Fs) (fd : ℕ) : Option OftEntry :=
  match fds[fd]? with
  | some (some kfd) => s.oft[kfd]?.join
  | _ => none

/-- A file that is mapped is the one behind the descriptor of the process. -/
def Confined (env : Env) (fds : Fds) (a : MmapArgs) (s : Fs) : Prop :=
  ∀ region, ((mmap env a).eval s).1 = .ok (some region) →
    ∃ fd entry, a.fd = some fd ∧ fds.entry? s fd = some entry ∧ region.ino = some entry.inoId

/-- Two states of the file system that differ only in what the process does not have open. -/
structure SameForCaller (fds : Fds) (s₁ s₂ : Fs) : Prop where
  entries : ∀ kfd, some kfd ∈ fds → s₁.oft[kfd]? = s₂.oft[kfd]?
  files : ∀ kfd entry, some kfd ∈ fds → s₁.oft[kfd]? = some (some entry) →
    (s₁.node? entry.inoId).map (·.inode) = (s₂.node? entry.inoId).map (·.inode)
  mounts : s₁.rootMounts = s₂.rootMounts

/-- The size of a file depends on the file and on what is mounted. -/
theorem entrySize_congr {s₁ s₂ : Fs} {entry : OftEntry}
    (hnode : (s₁.node? entry.inoId).map (·.inode) = (s₂.node? entry.inoId).map (·.inode))
    (hmounts : s₁.rootMounts = s₂.rootMounts) :
    ((entrySize env entry).eval s₁).1 = ((entrySize env entry).eval s₂).1 := by
  have hops : s₁.opsForInode env entry.inoId = s₂.opsForInode env entry.inoId := by
    unfold Fs.opsForInode
    rw [hmounts]
  unfold entrySize
  rw [eval_get_bind, eval_get_bind, hops]
  cases s₂.opsForInode env entry.inoId with
  | some ops =>
    cases hmeta : ops.getMetadata entry.inoId <;> simp [ofExcept, hmeta]
  | none =>
    simp only [getFileSize, cachedInode, eval_bind, eval_get]
    cases h₁ : s₁.node? entry.inoId <;> cases h₂ : s₂.node? entry.inoId <;> simp_all

/-- **A mapping of a file is confined** to what the process has open: it maps the file behind the
descriptor, and what other processes have open makes no difference. -/
structure Isolated (env : Env) (fds : Fds) (a : MmapArgs) : Prop where
  confined : ∀ s, Confined env fds a s
  same : ∀ s₁ s₂, SameForCaller fds s₁ s₂ → ((mmap env a).eval s₁).1 = ((mmap env a).eval s₂).1

/-- `mmap` does not come to the open file table, or the slot of the descriptor holds the entry with
the descriptor's own number. -/
def SameNumber (fds : Fds) (a : MmapArgs) : Prop :=
  a.check = none ∨ a.fd = none ∨ ∃ fd, a.fd = some fd ∧ fds[fd]? = some (some fd)

theorem mmap_of_unchecked {a : MmapArgs} {s : Fs}
    (h : a.check = none ∨ a.fd = none) (hfile : a.flags.anonymous = false) :
    ((mmap env a).eval s).1 = .ok none := by
  unfold mmap
  cases hcheck : a.check with
  | none => rfl
  | some length => simp [hfile, h.resolve_left (by simp [hcheck])]

theorem SameNumber.isolated {fds : Fds} {a : MmapArgs}
    (hfile : a.flags.anonymous = false) (h : SameNumber fds a) : Isolated env fds a := by
  by_cases hun : a.check = none ∨ a.fd = none
  · refine ⟨fun s region hregion => ?_, fun s₁ s₂ _ => ?_⟩
    · simp [mmap_of_unchecked hun hfile] at hregion
    · rw [mmap_of_unchecked hun hfile, mmap_of_unchecked hun hfile]
  · obtain ⟨hcheck, hfd⟩ := not_or.mp hun
    obtain ⟨length, hlength⟩ := ne_none_iff_exists'.mp hcheck
    obtain ⟨fd, hfd, hslot⟩ := (h.resolve_left hcheck).resolve_left hfd
    have hmem : some fd ∈ fds := mem_of_getElem? hslot
    refine ⟨fun s region hregion => ?_, fun s₁ s₂ hsame => ?_⟩
    · rw [mmap_file_result s hlength hfile hfd] at hregion
      split at hregion
      · rename_i entry hentry
        refine ⟨fd, entry, hfd, by simp [Fds.entry?, hslot, hentry], ?_⟩
        cases hsize : ((entrySize env entry).eval s).1 with
        | error e => simp [hsize] at hregion
        | ok size =>
          rw [hsize, except_map_ok] at hregion
          split_ifs at hregion
          · cases hregion
          · exact some.inj (Except.ok.inj hregion) ▸ rfl
      · simp at hregion
    · rw [mmap_file_result s₁ hlength hfile hfd, mmap_file_result s₂ hlength hfile hfd,
        ← hsame.entries fd hmem]
      split
      · rename_i entry hentry
        rw [entrySize_congr (hsame.files fd entry hmem hentry) hsame.mounts]
      · rfl

/-- A state in which the one open file is that of the given entry, and as large as a file can
be. -/
def oneOpenFile (fd : ℕ) : Fs :=
  { Fs.blank 512 64 with
    icache := [⟨1, 1, false, { Inode.zero with size := 2 ^ 32 - 1 }⟩]
    oft := List.replicate fd none ++ [some ⟨oRdonly, 0, 1, 1⟩]
    oftInitialized := true }

theorem oneOpenFile_oft (fd kfd : ℕ) :
    (oneOpenFile fd).oft[kfd]? =
      if kfd < fd then some none else if kfd = fd then some (some ⟨oRdonly, 0, 1, 1⟩) else none := by
  unfold oneOpenFile
  rw [getElem?_append, getElem?_replicate, length_replicate]
  split_ifs with h₁ h₂
  · rfl
  · simp [h₂]
  · rw [getElem?_eq_none]
    simp only [length_singleton]
    omega

theorem entrySize_oneOpenFile (env : Env) (fd : ℕ) :
    ((entrySize env ⟨oRdonly, 0, 1, 1⟩).eval (oneOpenFile fd)).1 = .ok (2 ^ 32 - 1) := rfl

/-- The mapping of a file is confined exactly when the slot of the descriptor holds the entry with
its own number, as long as `mmap` comes to the open file table at all. -/
theorem mmap_isolated_iff (env : Env) (fds : Fds) (a : MmapArgs)
    (hfile : a.flags.anonymous = false) (hoffset : a.offset < 2 ^ 32) :
    Isolated env fds a ↔ SameNumber fds a := by
  refine ⟨fun h => ?_, fun h => h.isolated hfile⟩
  by_contra hnot
  obtain ⟨hcheck, hfd, hslot⟩ : a.check ≠ none ∧ a.fd ≠ none ∧
      ¬∃ fd, a.fd = some fd ∧ fds[fd]? = some (some fd) := by
    simpa only [SameNumber, not_or] using hnot
  obtain ⟨length, hlength⟩ := ne_none_iff_exists'.mp hcheck
  obtain ⟨fd, hfd⟩ := ne_none_iff_exists'.mp hfd
  -- the entry with the number of the descriptor is open, and it is not the caller's
  have hregion : ((mmap env a).eval (oneOpenFile fd)).1 =
      .ok (some ⟨some 1, a.offset, min length (2 ^ 32 - 1 - a.offset), length⟩) := by
    rw [mmap_file_result _ hlength hfile hfd]
    simp only [oneOpenFile_oft, lt_irrefl, if_false, if_true, entrySize_oneOpenFile, except_map_ok]
    rw [if_neg (by omega)]
  obtain ⟨fd', entry, hfd', hentry, -⟩ := h.confined _ _ hregion
  obtain rfl : fd = fd' := some.inj (hfd.symm.trans hfd')
  unfold Fds.entry? at hentry
  split at hentry
  · rename_i kfd hkfd
    have hne : kfd ≠ fd := by
      rintro rfl
      exact hslot ⟨kfd, hfd, hkfd⟩
    rw [oneOpenFile_oft, if_neg hne] at hentry
    split_ifs at hentry <;> simp at hentry
  · cases hentry

/-- Two processes on a small volume. -/
def twoProcesses : Procs × Fs := (⟨[some [], some []], []⟩, Fs.small)

/-- Each of them opens a file of its own. -/
def openTwoCalls : List KCall :=
  [.openPath 0 (str "a") (oCreat ||| oWronly), .openPath 1 (str "b") (oCreat ||| oWronly)]

/-- The mapping of descriptor 0. -/
def mapFirst : MmapArgs := ⟨none, 4096, 4, ⟨false, true, false, false⟩, some 0, 0⟩

/-- A process maps descriptor 0 with its own first file. -/
theorem mmap_isolated_first :
    (afterCalls twoProcesses openTwoCalls).1.fds? 0 = some [some 0] ∧
      Isolated .calm [some 0] mapFirst :=
  ⟨by decide +kernel, (mmap_isolated_iff .calm [some 0] mapFirst rfl (by decide)).mpr
    (.inr (.inr ⟨0, rfl, rfl⟩))⟩

/-- The second process maps its descriptor 0 and gets the file of the first one. Once that one has
closed it, the same mapping fails, and nothing else is different for the second process. -/
theorem mmap_maps_file_of_other_process :
    (afterCalls twoProcesses openTwoCalls).1.fds? 1 = some [some 1] ∧
      (afterCalls twoProcesses openTwoCalls).2.oft.map (·.map (·.inoId)) = [some 2, some 3] ∧
      ((mmap .calm mapFirst).eval (afterCalls twoProcesses openTwoCalls).2).1 =
        .ok (some ⟨some 2, 0, 0, 4096⟩) ∧
      ((mmap .calm mapFirst).eval
        (afterCalls twoProcesses (openTwoCalls ++ [.close 0 0])).2).1 = .ok none ∧
      SameForCaller [some 1] (afterCalls twoProcesses openTwoCalls).2
        (afterCalls twoProcesses (openTwoCalls ++ [.close 0 0])).2 ∧
      ¬Isolated .calm [some 1] mapFirst := by
  generalize hs₁ : (afterCalls twoProcesses openTwoCalls).2 = s₁
  generalize hs₂ : (afterCalls twoProcesses (openTwoCalls ++ [.close 0 0])).2 = s₂
  have hstate : (afterCalls twoProcesses openTwoCalls).1.fds? 1 = some [some 1] ∧
      s₁.oft.map (·.map (·.inoId)) = [some 2, some 3] ∧
      ((mmap .calm mapFirst).eval s₁).1 = .ok (some ⟨some 2, 0, 0, 4096⟩) ∧
      ((mmap .calm mapFirst).eval s₂).1 = .ok none ∧ s₁.oft[1]? = s₂.oft[1]? ∧
      (s₁.oft[1]?.join.map (·.inoId)) = some 3 ∧
      (s₁.node? 3).map (·.inode) = (s₂.node? 3).map (·.inode) ∧
      s₁.rootMounts = s₂.rootMounts := by
    subst hs₁ hs₂
    decide +kernel
  obtain ⟨hfds, hoft, hregion, hnone, hentries, hino, hfile, hmounts⟩ := hstate
  have hsame : SameForCaller [some 1] s₁ s₂ := by
    refine ⟨fun kfd hkfd => ?_, fun kfd entry hkfd hentry => ?_, hmounts⟩ <;>
      obtain rfl : kfd = 1 := by simpa using hkfd
    · exact hentries
    · have hthree : entry.inoId = 3 := by simpa [hentry] using hino
      rwa [hthree]
  refine ⟨hfds, hoft, hregion, hnone, hsame, fun hiso => ?_⟩
  exact absurd (hregion.symm.trans ((hiso.same s₁ s₂ hsame).trans hnone)) (by decide)

end OsPi
