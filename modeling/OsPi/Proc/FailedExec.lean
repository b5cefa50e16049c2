import OsPi.Proc.Loader

/-!
# A Failed `exec`

`elf_exec_process` puts the new address space in the place of the old one at its very end, after
the last check, and a new address space that is given up leaves every page mapped elsewhere as it
was. But the loop that stops the other threads of the process comes first. So a call that returns
an error leaves the process as it was exactly when the loop has nothing to stop
(`failed_exec_intact_iff`).
-/

namespace OsPi

open Comp List Option

/-! ### The other threads -/

/-- Between the two states threads have ended and left their processes, and nothing else. -/
structure Weakened (sys sys' : System) : Prop where
  length : sys'.procs.length = sys.procs.length
  procs : ∀ (pid : ℕ) (p' : Pcb), sys'.procs[pid]? = some p' →
    ∃ p, sys.procs[pid]? = some p ∧ p'.tids.length ≤ p.tids.length
  threads : ∀ (tid : ℕ) (t' : Tcb), sys'.threads[tid]? = some t' →
    t'.state = .unused ∨ t'.state = .zombie ∨ ∃ t, sys.threads[tid]? = some t ∧ t.state = t'.state

namespace Weakened

variable {sys sys' sys'' : System}

theorem refl (sys : System) : Weakened sys sys :=
  ⟨rfl, fun _ p h => ⟨p, h, le_rfl⟩, fun _ t h => .inr (.inr ⟨t, h, rfl⟩)⟩

theorem trans (h : Weakened sys sys') (h' : Weakened sys' sys'') : Weakened sys sys'' := by
  refine ⟨h'.length.trans h.length, fun pid p'' hp'' => ?_, fun tid t'' ht'' => ?_⟩
  · obtain ⟨p', hp', hle'⟩ := h'.procs pid p'' hp''
    obtain ⟨p, hp, hle⟩ := h.procs pid p' hp'
    exact ⟨p, hp, hle'.trans hle⟩
  · rcases h'.threads tid t'' ht'' with hs | hs | ⟨t', ht', hs⟩
    · exact .inl hs
    · exact .inr (.inl hs)
    · rw [← hs]
      exact h.threads tid t' ht'

theorem modifyProc (sys : System) (pid : ℕ) {f : Pcb → Pcb}
    (hf : ∀ p, (f p).tids.length ≤ p.tids.length) : Weakened sys (sys.modifyProc pid f) := by
  refine ⟨length_modify .., fun q p' hp' => ?_, (refl sys).threads⟩
  simp only [System.modifyProc, getElem?_modify] at hp'
  obtain ⟨p, hp, rfl⟩ := map_eq_some_iff.mp hp'
  refine ⟨p, hp, ?_⟩
  split_ifs
  · exact hf p
  · exact le_rfl

theorem modifyThread (sys : System) (tid : ℕ) {f : Tcb → Tcb}
    (hf : ∀ t, (f t).state = t.state ∨ (f t).state = .unused ∨ (f t).state = .zombie) :
    Weakened sys (sys.modifyThread tid f) := by
  refine ⟨rfl, (refl sys).procs, fun i t' ht' => ?_⟩
  simp only [System.modifyThread, getElem?_modify] at ht'
  obtain ⟨t, ht, rfl⟩ := map_eq_some_iff.mp ht'
  split_ifs
  · rcases hf t with h | h | h
    · exact .inr (.inr ⟨t, ht, h.symm⟩)
    · exact .inl h
    · exact .inr (.inl h)
  · exact .inr (.inr ⟨t, ht, rfl⟩)

theorem threadCleanup (sys : System) (tid : ℕ) : Weakened sys (sys.threadCleanup tid) := by
  unfold System.threadCleanup
  cases ht : sys.threads[tid]? with
  | none => exact refl sys
  | some t =>
    refine trans ?_ (modifyProc _ _ fun p => length_erase_le)
    refine ⟨rfl, (refl sys).procs, fun i t' ht' => ?_⟩
    split_ifs at ht'
    · rw [getElem?_dropLast] at ht'
      split_ifs at ht'
      exact .inr (.inr ⟨t', ht', rfl⟩)
    · rw [getElem?_set] at ht'
      split_ifs at ht' with hi
      · obtain rfl := some.inj ht'
        exact .inl rfl
      · exact .inr (.inr ⟨t', ht', rfl⟩)

theorem threadDetach (sys : System) (curr : Option ℕ) (tid : ℕ) :
    Weakened sys (sys.threadDetach curr tid) := by
  unfold System.threadDetach
  split
  · rename_i t _ _
    have hjoin := modifyThread sys tid (f := fun t => { t with isJoinable := false })
      fun t => .inl rfl
    split_ifs
    · exact hjoin.trans (threadCleanup _ tid)
    · exact hjoin
  · exact refl sys

theorem terminateThread (sys : System) (tid pid : ℕ) :
    Weakened sys (sys.terminateThread tid pid) := by
  unfold System.terminateThread
  dsimp only
  split_ifs
  · exact refl sys
  · exact (modifyThread sys tid fun t => .inr (.inr rfl)).trans (modifyProc _ _ fun p => le_rfl)

theorem killOthers (curr : Option ℕ) (pid execTid turns i : ℕ) (sys : System) :
    Weakened sys (System.killOthers curr pid execTid turns i sys) := by
  induction turns generalizing i sys with
  | zero => exact refl sys
  | succ turns ih =>
    unfold System.killOthers
    split
    · exact refl sys
    · rename_i tid _
      split
      · exact ih _ _
      · rename_i t _
        split_ifs
        · exact ih _ _
        · exact ((threadDetach sys curr tid).trans (terminateThread _ tid t.pid)).trans (ih _ _)

end Weakened

section OtherThreads

variable {sys : System} {curr : Option ℕ} {pid execTid : ℕ} {p : Pcb}

/-- The loop that stops the other threads leaves this one as it is: it is the one that goes on, or
one that has ended already and is not detached. -/
def System.Spares (sys : System) (curr : Option ℕ) (execTid tid : ℕ) : Prop :=
  ∀ t, sys.thread? tid = some t → tid = execTid ∨ curr = none ∧ t.state = .zombie

theorem System.thread?_eq_some {tid : ℕ} {t : Tcb} :
    sys.thread? tid = some t ↔ sys.threads[tid]? = some t ∧ t.state ≠ .unused := by
  simp [System.thread?, filter_eq_some_iff]

/-- A thread that has ended is not terminated again. -/
theorem System.terminateThread_of_zombie {tid : ℕ} {t : Tcb} (pid : ℕ)
    (ht : sys.threads[tid]? = some t) (hz : t.state = .zombie) :
    sys.terminateThread tid pid = sys := by
  simp [System.terminateThread, ht, hz]

/-- One turn of the loop. -/
theorem System.killOthers_succ (curr : Option ℕ) (execTid turns i : ℕ)
    (hp : sys.procs[pid]? = some p) {tid : ℕ} (htid : p.tids[i]? = some tid) :
    (sys.Spares curr execTid tid ∧
        System.killOthers curr pid execTid (turns + 1) i sys =
          System.killOthers curr pid execTid turns (i + 1) sys) ∨
      ∃ t, sys.thread? tid = some t ∧ tid ≠ execTid ∧ ¬(curr = none ∧ t.state = .zombie) ∧
        System.killOthers curr pid execTid (turns + 1) i sys =
          System.killOthers curr pid execTid turns (i + 1)
            ((sys.threadDetach curr tid).terminateThread tid t.pid) := by
  rw [System.killOthers]
  simp only [hp, map_some, bind_some, htid]
  cases ht : sys.thread? tid with
  | none => exact .inl ⟨fun t h => by simp [ht] at h, rfl⟩
  | some t =>
    dsimp only
    by_cases hexec : tid = execTid
    · rw [if_pos hexec]
      exact .inl ⟨fun _ _ => .inl hexec, rfl⟩
    · rw [if_neg hexec]
      by_cases hz : curr = none ∧ t.state = .zombie
      · refine .inl ⟨fun t' ht' => .inr ?_, ?_⟩
        · obtain rfl := some.inj (ht.symm.trans ht')
          exact hz
        · have hdetach : sys.threadDetach curr tid = sys := by simp [System.threadDetach, hz.1]
          rw [hdetach, System.terminateThread_of_zombie t.pid (System.thread?_eq_some.mp ht).1 hz.2]
      · exact .inr ⟨t, rfl, hexec, hz, rfl⟩

theorem System.killOthers_of_spares (hp : sys.procs[pid]? = some p)
    (h : ∀ tid ∈ p.tids, sys.Spares curr execTid tid) (turns i : ℕ) :
    System.killOthers curr pid execTid turns i sys = sys := by
  induction turns generalizing i with
  | zero => rfl
  | succ turns ih =>
    cases htid : p.tids[i]? with
    | none => simp [System.killOthers, hp, htid]
    | some tid =>
      rcases System.killOthers_succ curr execTid turns i hp htid with
        ⟨-, heq⟩ | ⟨t, ht, hexec, hz, -⟩
      · rw [heq, ih]
      · exact absurd (h tid (mem_of_getElem? htid) t ht) (not_or.mpr ⟨hexec, hz⟩)

/-- A thread that the loop does not spare has ended or left the process when its turn is over. -/
theorem System.kill_disturbs {tid : ℕ} {t : Tcb} (hp : sys.procs[pid]? = some p)
    (htid : tid ∈ p.tids) (ht : sys.thread? tid = some t) (hpid : t.pid = pid)
    (hz : ¬(curr = none ∧ t.state = .zombie)) {sys' : System}
    (hw : Weakened ((sys.threadDetach curr tid).terminateThread tid t.pid) sys') :
    sys'.threads[tid]? ≠ sys.threads[tid]? ∨ sys'.procs[pid]? ≠ sys.procs[pid]? := by
  obtain ⟨hthread, hused⟩ := System.thread?_eq_some.mp ht
  by_cases hstate : t.state = .zombie
  · -- it is detached, and with that removed from its process
    obtain ⟨c, rfl⟩ := ne_none_iff_exists'.mp fun h => hz ⟨h, hstate⟩
    right
    intro heq
    obtain ⟨p₁, hp₁, hle⟩ := hw.procs pid p (heq.trans hp)
    obtain ⟨p₂, hp₂, hle₂⟩ := (Weakened.terminateThread _ tid t.pid).procs pid p₁ hp₁
    have hcleanup : (sys.threadDetach (some c) tid).procs[pid]? =
        some { p.threadChangeState .zombie .unused with tids := p.tids.erase tid } := by
      simp [System.threadDetach, ht, hstate, System.threadCleanup, System.modifyThread,
        System.modifyProc, hthread, hpid, hp]
    obtain rfl := some.inj (hp₂.symm.trans hcleanup)
    have hlt : (p.tids.erase tid).length < p.tids.length := by
      rw [length_erase_of_mem htid]
      exact Nat.sub_lt (length_pos_of_mem htid) Nat.one_pos
    exact absurd (hle.trans hle₂) (Nat.not_le.mpr hlt)
  · left
    intro heq
    have hkilled : ∃ t', ((sys.threadDetach curr tid).terminateThread tid t.pid).threads[tid]? =
        some t' ∧ t'.state = .zombie := by
      cases curr <;>
        simp [System.threadDetach, System.terminateThread, System.modifyThread, System.modifyProc,
          ht, hthread, hstate]
    obtain ⟨t', ht', hz'⟩ := hkilled
    rcases hw.threads tid t (heq.trans hthread) with h | h | ⟨t'', ht'', h⟩
    · exact hused h
    · exact hstate h
    · obtain rfl := some.inj (ht'.symm.trans ht'')
      exact hstate (h ▸ hz')

theorem System.killOthers_disturbs (hp : sys.procs[pid]? = some p)
    (hown : ∀ tid ∈ p.tids, ∀ t, sys.thread? tid = some t → t.pid = pid) {tid j : ℕ}
    (hj : p.tids[j]? = some tid) (hnot : ¬sys.Spares curr execTid tid) (turns i : ℕ) (hij : i ≤ j)
    (hturns : j < i + turns) :
    ∃ tid ∈ p.tids,
      (System.killOthers curr pid execTid turns i sys).threads[tid]? ≠ sys.threads[tid]? ∨
      (System.killOthers curr pid execTid turns i sys).procs[pid]? ≠ sys.procs[pid]? := by
  induction turns generalizing i with
  | zero => omega
  | succ turns ih =>
    have hlen : i < p.tids.length := hij.trans_lt (List.getElem?_eq_some_iff.mp hj).1
    have hi : p.tids[i]? = some p.tids[i] := getElem?_eq_getElem hlen
    rcases System.killOthers_succ curr execTid turns i hp hi with
      ⟨hspares, heq⟩ | ⟨t, ht, -, hz, heq⟩
    · have hne : i ≠ j := by
        rintro rfl
        exact hnot (some.inj (hi.symm.trans hj) ▸ hspares)
      rw [heq]
      exact ih (i + 1) (by omega) (by omega)
    · have hmem : p.tids[i] ∈ p.tids := getElem_mem hlen
      refine ⟨p.tids[i], hmem, ?_⟩
      rw [heq]
      exact System.kill_disturbs hp hmem ht (hown _ hmem t ht) hz (Weakened.killOthers ..)

end OtherThreads

/-! ### A failed call -/

/-- The process is as it was: its threads, its page table and regions, its name and its signal
dispositions, and everything it has in memory. The trap frame is on the kernel stack of the process
and so one of the things in memory. -/
structure Intact (sys sys' : System) (pid : ℕ) (p : Pcb) : Prop where
  proc : sys'.procs[pid]? = sys.procs[pid]?
  threads : ∀ tid ∈ p.tids, sys'.threads[tid]? = sys.threads[tid]?
  memory : ∀ table, p.table = some table → sys.pool.Same table.pages sys'.pool

/-- There is no thread that the loop over the threads of the process stops. -/
def System.Alone (sys : System) (curr : Option ℕ) (pid : ℕ) (p : Pcb) : Prop :=
  ∀ execTid, sys.execThread curr pid p = some execTid →
    ∀ tid ∈ p.tids, sys.Spares curr execTid tid

/-- The call does not come to the loop that stops the threads, or the loop finds none. -/
def ExecArgs.Harmless (a : ExecArgs) (sys : System) (curr : Option ℕ) (pid : ℕ) (p : Pcb) : Prop :=
  a.path = none ∨ a.frame = false ∨ sys.Alone curr pid p

theorem System.killOthers_pool (curr : Option ℕ) (pid execTid turns i : ℕ) (sys : System) :
    (System.killOthers curr pid execTid turns i sys).pool = sys.pool := by
  have hcleanup : ∀ (sys : System) tid, (sys.threadCleanup tid).pool = sys.pool := by
    intro sys tid
    unfold System.threadCleanup
    split <;> rfl
  have hdetach : ∀ (sys : System) tid, (sys.threadDetach curr tid).pool = sys.pool := by
    intro sys tid
    unfold System.threadDetach
    split
    · dsimp only
      split_ifs
      · exact hcleanup _ _
      · rfl
    · rfl
  have hterminate : ∀ (sys : System) tid pid, (sys.terminateThread tid pid).pool = sys.pool := by
    intro sys tid pid
    unfold System.terminateThread
    dsimp only
    split_ifs <;> rfl
  induction turns generalizing i sys with
  | zero => rfl
  | succ turns ih =>
    unfold System.killOthers
    split
    · rfl
    · split
      · exact ih _ _
      · split_ifs
        · exact ih _ _
        · rw [ih, hterminate, hdetach]

/-! ### Outcomes -/

/-- The call comes to the loop over the threads of the process. -/
structure ExecBegins (a : ExecArgs) (sys : System) (curr : Option ℕ) (pid : ℕ) (p : Pcb)
    (path : Str) (execTid : ℕ) : Prop where
  path : a.path = some path
  frame : a.frame = true
  proc : sys.procs[pid]? = some p
  thread : sys.execThread curr pid p = some execTid

/-- The end of `elf_exec_process`, where the new address space takes the place of the old one. -/
def adopting (f : System → System) (install : Bool) (old : Option PageTable) (image : Image) :
    SysM Image := do
  modify f
  if install then destroyOld old
  pure image

/-- Everything `elf_exec_process` can do for a process. -/
inductive ExecOutcome (files : FileCalls) (mem : ExecMem) (curr : Option ℕ) (a : ExecArgs)
    (pid : ℕ) (sys : System) : Except Failure Image × System → Prop
  | refused (h : a.path = none ∨ a.frame = false ∨
        ∀ p, sys.procs[pid]? = some p → sys.execThread curr pid p = none) :
      ExecOutcome files mem curr a pid sys (.error (.err .invalidArgs), sys)
  | noArgs {p : Pcb} {path : Str} {execTid : ℕ} (hbegin : ExecBegins a sys curr pid p path execTid) :
      ExecOutcome files mem curr a pid sys (.error (.err .invalidArgs),
        System.killOthers curr pid execTid p.tids.length 0 sys)
  | failed {p : Pcb} {path : Str} {execTid : ℕ} (hbegin : ExecBegins a sys curr pid p path execTid)
      {killed : System} (hkilled : killed = System.killOthers curr pid execTid p.tids.length 0 sys)
      {args : List Str} {f : Failure} {v : Vm} {fs : Fs}
      (hload : (loadAndAdopt files mem args path p.table a.frameVa).eval
        (killed.newVm, killed.fs) = (.error f, v, fs)) :
      ExecOutcome files mem curr a pid sys
        (.error f, { killed with lock := v.lock, pool := v.pool, fs })
  | adopted {p : Pcb} {path : Str} {execTid : ℕ} (hbegin : ExecBegins a sys curr pid p path execTid)
      {killed : System} (hkilled : killed = System.killOthers curr pid execTid p.tids.length 0 sys)
      {args : List Str} {image : Image} {page : ℕ} {v : Vm} {fs : Fs}
      (hload : (loadAndAdopt files mem args path p.table a.frameVa).eval
        (killed.newVm, killed.fs) = (.ok (image, page), v, fs))
      {out : Except Failure Image × System}
      (hout : out = (adopting (fun sys => sys.adopt v a pid execTid page (copyExecName path) image)
        a.installTable p.table image).eval
          { killed with lock := v.lock, pool := v.pool, fs }) :
      ExecOutcome files mem curr a pid sys out

theorem elfExecProcess_outcome (files : FileCalls) (mem : ExecMem) (curr : Option ℕ) {a : ExecArgs}
    (sys : System) {pid : ℕ} (hpid : a.pid = some pid) :
    ExecOutcome files mem curr a pid sys ((elfExecProcess files mem curr a).eval sys) := by
  unfold elfExecProcess
  rw [eval_get_bind]
  cases hpath : a.path with
  | none => simpa [hpid] using .refused (.inl hpath)
  | some path =>
  cases hframe : a.frame with
  | false => simpa [hpid] using .refused (.inr (.inl hframe))
  | true =>
  simp only [hpid]
  cases hp : sys.procs[pid]? with
  | none => exact .refused (.inr (.inr fun p h => by simp [hp] at h))
  | some p =>
  dsimp only
  cases hexec : sys.execThread curr pid p with
  | none =>
    refine .refused (.inr (.inr fun p' h => ?_))
    rw [hp] at h
    exact some.inj h ▸ hexec
  | some execTid =>
  have hbegin : ExecBegins a sys curr pid p path execTid := ⟨hpath, hframe, hp, hexec⟩
  cases hargs : copyExecArgs mem a.argv with
  | none => exact .noArgs hbegin
  | some args =>
  dsimp only
  rcases hload : (loadAndAdopt files mem args path p.table a.frameVa).eval
    ((System.killOthers curr pid execTid p.tids.length 0 sys).newVm,
      (System.killOthers curr pid execTid p.tids.length 0 sys).fs) with ⟨⟨f⟩ | ⟨image, page⟩, v, fs⟩
  · exact .failed hbegin rfl hload
  · exact .adopted hbegin rfl hload rfl

/-- Giving up the old page table returns no error and leaves the processes alone. -/
theorem destroyOld_eval (old : Option PageTable) (sys : System) :
    (∀ e, ((destroyOld old).eval sys).1 ≠ .error (.err e)) ∧
      ((destroyOld old).eval sys).2.procs = sys.procs := by
  cases old with
  | none => exact ⟨fun e => by simp [destroyOld], rfl⟩
  | some table =>
    simp only [destroyOld, eval_bind, eval_get, eval_set]
    split
    · exact ⟨fun e => by simp, rfl⟩
    · exact ⟨fun e => by simp, rfl⟩

/-- No error is returned any more once the address space has been replaced. -/
theorem adopting_eval (f : System → System) (install : Bool) (old : Option PageTable)
    (image : Image) (sys : System) :
    (∀ e, ((adopting f install old image).eval sys).1 ≠ .error (.err e)) ∧
      (∀ image', ((adopting f install old image).eval sys).1 = .ok image' → image' = image) ∧
      ((adopting f install old image).eval sys).2.procs = (f sys).procs := by
  have hd := destroyOld_eval old (f sys)
  unfold adopting
  rw [eval_modify_bind]
  cases install with
  | false =>
    refine ⟨fun e => by simp, fun image' h => ?_, rfl⟩
    exact (Except.ok.inj h).symm
  | true =>
    simp only [eval_bind, if_true]
    generalize (destroyOld old).eval (f sys) = out at hd ⊢
    obtain ⟨⟨why⟩ | ⟨u⟩, sys'⟩ := out
    · exact ⟨fun e => by simpa using hd.1 e, fun image' h => by simp at h, hd.2⟩
    · exact ⟨fun e => by simp, fun image' h => (Except.ok.inj h).symm, hd.2⟩

/-- Where `elf_exec_process` returns an error: before the loop over the threads, with nothing
done, or after it, with the pages that others map as they were. -/
theorem elfExecProcess_error {files : FileCalls} {mem : ExecMem} {curr : Option ℕ} {a : ExecArgs}
    {sys sys' : System} {pid : ℕ} {p : Pcb} {e : Err} (hpid : a.pid = some pid)
    (hp : sys.procs[pid]? = some p)
    (herr : (elfExecProcess files mem curr a).eval sys = (.error (.err e), sys')) :
    (a.Harmless sys curr pid p ∧ sys' = sys) ∨
      ∃ execTid path, ExecBegins a sys curr pid p path execTid ∧
        sys'.procs = (System.killOthers curr pid execTid p.tids.length 0 sys).procs ∧
        sys'.threads = (System.killOthers curr pid execTid p.tids.length 0 sys).threads ∧
        ∀ start maps held, Accounted start sys.pool maps held → sys.pool.Same maps sys'.pool := by
  have hout := elfExecProcess_outcome files mem curr sys hpid
  rw [herr] at hout
  generalize hr : ((.error (.err e), sys') : Except Failure Image × System) = out at hout
  cases hout with
  | refused h =>
    obtain ⟨-, rfl⟩ := Prod.mk.inj hr
    refine .inl ⟨h.imp_right (Or.imp_right fun hnone execTid hexec => ?_), rfl⟩
    simp [hnone p hp] at hexec
  | noArgs hbegin =>
    obtain ⟨-, rfl⟩ := Prod.mk.inj hr
    obtain rfl := some.inj (hp.symm.trans hbegin.proc)
    refine .inr ⟨_, _, hbegin, rfl, rfl, fun _ _ _ _ => ?_⟩
    rw [System.killOthers_pool]
    exact .refl _ _
  | failed hbegin hkilled hload =>
    rename_i p' path execTid killed args f v fs
    obtain ⟨hf, rfl⟩ := Prod.mk.inj hr
    obtain rfl := some.inj (hp.symm.trans hbegin.proc)
    obtain rfl := Except.error.inj hf
    have hpool : killed.pool = sys.pool := hkilled ▸ System.killOthers_pool ..
    refine .inr ⟨_, _, hbegin, hkilled ▸ rfl, hkilled ▸ rfl, fun start maps held hacc => ?_⟩
    have hU : Untouched start sys.pool maps killed.newVm.pool := by
      refine ⟨⟨held, ?_⟩, ?_⟩ <;> simp only [System.newVm, hpool]
      exacts [hacc, .refl _ _]
    have hpost := (Loading.invariant start sys.pool maps).loadAndAdopt_post files
      mem (s := (killed.newVm, killed.fs)) args path p.table a.frameVa hU
    rw [Post, hload] at hpost
    exact hpost.2
  | adopted hbegin hkilled hload hout =>
    exact absurd (congrArg Prod.fst (hout.symm.trans hr.symm)) ((adopting_eval ..).1 e)

/-! ### Examples -/

/-- A program of one segment without contents in the file. -/
def elfImage (vaddr memsz : ℕ) : ℕ :=
  Bytes.cat [(4, 0x464c457f), (1, 2), (1, 1), (1, 1), (9, 0), (2, 2), (2, 183), (4, 1), (8, vaddr),
    (8, 64), (8, 0), (4, 0), (2, 64), (2, 56), (2, 1), (6, 0),
    (4, 1), (4, 0), (8, 0), (8, vaddr), (8, 0), (8, 120), (8, memsz), (8, 0)]

/-- A small volume with that program in the file `p`. -/
def programFs (vaddr memsz : ℕ) : Fs :=
  Fs.small.after [.open (str "p") (oCreat ||| oWronly), .write 0 (elfImage vaddr memsz) 120, .close 0,
    .chmod (str "p") 1 .add]

/-- A new address space. -/
def bareVm : Except Stop Bool × Vm :=
  (initializeUserPageTable .plenty).eval ⟨false, none, 0x901000, PageTree.empty 0, Pool.init 16 4096⟩

/-- It gets its kernel stack. -/
def bootVm : Except Stop Bool × Vm := (seedKernelPages kernelStackPages).eval bareVm.2

/-- A process with the given threads. -/
def bootProc (tids : List ℕ) : Pcb where
  state := .running
  ppid := 0
  name := str "sh"
  tids := tids
  counts := ⟨1, 0, tids.length - 1, 0⟩
  table := some bootVm.2.table
  segments := some []
  children := []
  fds := []
  sigactions := List.replicate 32 ⟨.dfl, 0, 0⟩

/-- It runs, with its first thread, and the others are ready. -/
def bootSystem (tids : List ℕ) (fs : Fs) : System where
  procs := [bootProc tids]
  threads := tids.map fun tid => ⟨if tid = 0 then .running else .ready, 0, true, none, ⟨0, 0, 0⟩⟩
  lock := false
  currMmapVa := 0x901000
  pool := bootVm.2.pool
  fs := fs

/-- No allocation of the loader fails. -/
def ExecMem.plenty : ExecMem := ⟨fun _ => true, .plenty, fun _ => .plenty⟩

/-- `exec` of a path by the first thread. -/
def execOf (path : String) : ExecArgs :=
  ⟨some 0, some (str path), none, true, procKernelStackTop - 304, true⟩

theorem bootVm_loading : Loading 16 (Pool.init 16 4096) 0 bootVm.2 := by
  have hinit : Untouched 16 (Pool.init 16 4096) 0 (Pool.init 16 4096) :=
    ⟨⟨0, .init 16 4096⟩, .refl _ _⟩
  have hbare : Loading 16 (Pool.init 16 4096) 0 bareVm.2 := by
    have hpost := initializeUserPageTable_post .plenty
      (v := ⟨false, none, 0x901000, PageTree.empty 0, Pool.init 16 4096⟩) hinit
    have hmade : bareVm.1 = .ok true := by decide +kernel
    unfold bareVm at hmade ⊢
    exact hpost.2 rfl
  have hpost := (Loading.invariant 16 (Pool.init 16 4096) 0).toKeptByBuilding.seedKernelPages_post
    kernelStackPages hbare
  have hmade : bootVm.1 = .ok true := by decide +kernel
  unfold bootVm at hmade ⊢
  exact hpost

/-- The pages of its address space are accounted for. -/
theorem bootSystem_accounted (tids : List ℕ) (fs : Fs) :
    ∃ held, Accounted 16 (bootSystem tids fs).pool bootVm.2.table.pages held := by
  obtain ⟨held, hacc⟩ := bootVm_loading.accounted
  rw [add_zero] at hacc
  exact ⟨_, hacc⟩

/-- The program to run does not exist. -/
def execMissing (tids : List ℕ) : Except Failure Image × System :=
  (elfExecProcess Env.calm.fileCalls .plenty (some 0) (execOf "q")).eval (bootSystem tids Fs.small)

/-- **A failed `exec` leaves the process as it was** exactly when it has no other thread: the loop
that stops the other threads comes before everything that can fail. -/
theorem failed_exec_intact_iff {files : FileCalls} {mem : ExecMem} {curr : Option ℕ}
    {a : ExecArgs} {sys sys' : System} {pid : ℕ} {p : Pcb} {e : Err} {start : ℕ}
    {maps held : Multiset ℕ} (hpid : a.pid = some pid) (hp : sys.procs[pid]? = some p)
    (hown : ∀ tid ∈ p.tids, ∀ t, sys.thread? tid = some t → t.pid = pid)
    (hacc : Accounted start sys.pool maps held)
    (hmaps : ∀ table, p.table = some table → table.pages ≤ maps)
    (herr : (elfExecProcess files mem curr a).eval sys = (.error (.err e), sys')) :
    Intact sys sys' pid p ↔ a.Harmless sys curr pid p := by
  rcases elfExecProcess_error hpid hp herr with ⟨hearly, rfl⟩ |
    ⟨execTid, path, hbegin, hprocs, hthreads, hsame⟩
  · exact iff_of_true ⟨rfl, fun _ _ => rfl, fun _ _ => .refl _ _⟩ hearly
  · constructor
    · intro h
      refine .inr (.inr fun tid' hexec' tid htid => ?_)
      obtain rfl := some.inj (hbegin.thread.symm.trans hexec')
      by_contra hnot
      obtain ⟨j, hj⟩ := mem_iff_getElem?.mp htid
      obtain ⟨tid₁, htid₁, hdiff⟩ := System.killOthers_disturbs hp hown hj hnot p.tids.length 0
        (Nat.zero_le _) (by simpa using (List.getElem?_eq_some_iff.mp hj).1)
      rw [← hthreads, ← hprocs] at hdiff
      exact hdiff.elim (fun hne => hne (h.threads tid₁ htid₁)) fun hne => hne h.proc
    · rintro (h | h | h)
      · simp [hbegin.path] at h
      · simp [hbegin.frame] at h
      · rw [System.killOthers_of_spares hp (h execTid hbegin.thread)] at hprocs hthreads
        exact ⟨by rw [hprocs], fun _ _ => by rw [hthreads], fun table htable =>
          (hsame start maps held hacc).mono (hmaps table htable)⟩

/-- A process of one thread that runs a program which does not exist goes on as it was. -/
theorem failed_exec_intact_one_thread :
    (execMissing [0]).1 = .error (.err .fileNotFound) ∧
      Intact (bootSystem [0] Fs.small) (execMissing [0]).2 0 (bootProc [0]) := by
  have hmissing : (execMissing [0]).1 = .error (.err .fileNotFound) := by decide +kernel
  rcases herr : execMissing [0] with ⟨result, sys'⟩
  rw [herr] at hmissing
  obtain rfl : result = .error (.err .fileNotFound) := hmissing
  refine ⟨rfl, ?_⟩
  have hown : ∀ tid ∈ (bootProc [0]).tids, ∀ t, (bootSystem [0] Fs.small).thread? tid = some t →
      t.pid = 0 := by
    intro tid htid t ht
    obtain rfl : tid = 0 := mem_singleton.mp htid
    obtain rfl := some.inj ht
    rfl
  have hproc : (bootSystem [0] Fs.small).procs[0]? = some (bootProc [0]) := rfl
  have hpages : ∀ table, (bootProc [0]).table = some table → table.pages ≤ bootVm.2.table.pages := by
    intro table htable
    have heq : bootVm.2.table = table := some.inj htable
    rw [heq]
  obtain ⟨held, hacc⟩ := bootSystem_accounted [0] Fs.small
  refine (failed_exec_intact_iff rfl hproc hown hacc hpages herr).mpr (.inr (.inr ?_))
  · intro execTid hexec tid htid t ht
    obtain rfl : tid = 0 := mem_singleton.mp htid
    exact .inl (some.inj hexec)

/-- With a second thread, the same call fails as well and the second thread has ended. -/
theorem failed_exec_ends_second_thread :
    (execMissing [0, 1]).1 = .error (.err .fileNotFound) ∧
      (bootSystem [0, 1] Fs.small).threads.map Tcb.state = [.running, .ready] ∧
      (execMissing [0, 1]).2.threads.map Tcb.state = [.running, .zombie] ∧
      ¬Intact (bootSystem [0, 1] Fs.small) (execMissing [0, 1]).2 0 (bootProc [0, 1]) := by
  have hthreads : (execMissing [0, 1]).2.threads.map Tcb.state = [.running, .zombie] := by
    decide +kernel
  refine ⟨by decide +kernel, rfl, hthreads, fun h => ?_⟩
  have hsame := h.threads 1 (by simp [bootProc])
  have hstate := congrArg (Option.map Tcb.state) hsame
  rw [← getElem?_map, hthreads] at hstate
  simp [bootSystem] at hstate

end OsPi
