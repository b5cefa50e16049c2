import OsPi.Lib.Family
import OsPi.Sched.Groups
import OsPi.Sched.BalancedCalls

/-!
# The Tree of Processes

The processes are a family with the first process as its root: every process in use other than the
root is once in the list of the children of its parent and in no other list, and a process that is
not in use is in no list. `proc_destroy` takes a process out and then goes through its children,
which are lost until they are destroyed themselves or given to the first process.

A child for whose descriptors there is no memory stays lost: `proc_destroy` has taken it off the
list of its parent and then does nothing.
-/

namespace OsPi

open Comp List

namespace Sched

variable {s s' : Sched} {tid pid ppid cpu depth nest : ℕ} {lost : List ℕ} {flags : BitVec 32}

/-- The processes in use, with their parents and children. -/
def family (s : Sched) : Family ℕ :=
  ⟨s.HasProc, fun pid => (s.procs pid).ppid, fun pid => (s.procs pid).children⟩

/-- The tree of processes is in order, but for processes that are lost. -/
abbrev TreeBut (lost : List ℕ) (s : Sched) : Prop := s.family.AgreesBut 0 lost

theorem SameFamily.treeBut (h : SameFamily s s') (hs : TreeBut lost s) : TreeBut lost s' :=
  hs.congr (fun _ => h.live.hasProc_iff) h.ppid h.children

theorem treeBut_of_procs (h : s'.procs = s.procs) (hs : TreeBut lost s) : TreeBut lost s' := by
  refine hs.congr (fun _ => hasProc_of_procs h) (fun pid => ?_) fun pid => ?_
  · exact congrArg Process.ppid (congrFun h pid)
  · exact congrArg Process.children (congrFun h pid)

theorem tree_zero : TreeBut [] Sched.zero :=
  Family.agrees_of_empty (fun _ h => h.2 rfl) fun _ => rfl

/-! ### Creating a process -/

/-- A process in use creates a child. -/
theorem fillProcess_tree (hs : TreeBut [] s) (hppid : s.HasProc ppid) (hlt : pid < maxProcessCount)
    (hdead : ¬(s.procs pid).Live) : TreeBut [] (s.fillProcess pid ppid) := by
  have hne : ppid ≠ pid := by
    rintro rfl
    exact hdead hppid.2
  have hprocs : ∀ d, (s.fillProcess pid ppid).procs d =
      if d = pid then .fresh ppid (s.procs ppid).pgid
      else if d = ppid then { s.procs d with children := (s.procs d).children ++ [pid] }
      else s.procs d := by
    intro d
    rw [fillProcess, parentOf, if_pos ⟨hne, hppid⟩]
    dsimp only
    rw [procs_modProc, procs_modProc]
    split
    · rfl
    · split
      · rename_i heq
        rw [heq]
      · rfl
  refine Family.Agrees.insert hs hppid (fun h => hdead h.2) (fun d => ?_) (fun d => ?_) fun q => ?_
  · change d < maxProcessCount ∧ ((s.fillProcess pid ppid).procs d).Live ↔
      d < maxProcessCount ∧ (s.procs d).Live ∨ d = pid
    rw [hprocs]
    split
    · rename_i heq
      rw [heq]
      exact ⟨fun _ => .inr rfl, fun _ => ⟨hlt, fun h => by cases h⟩⟩
    · rename_i hdp
      split <;> exact ⟨.inl, fun h => h.resolve_right hdp⟩
  · change ((s.fillProcess pid ppid).procs d).ppid = _
    rw [hprocs]
    split
    · rfl
    · split <;> rfl
  · change ((s.fillProcess pid ppid).procs q).children = _
    rw [hprocs]
    split
    · rfl
    · split <;> rfl

/-- The first process is created. -/
theorem fillProcess_root (hs : TreeBut [] s) (hdead : ¬s.HasProc 0) :
    TreeBut [] (s.fillProcess 0 0) := by
  have hprocs : ∀ d, (s.fillProcess 0 0).procs d = if d = 0 then .fresh 0 0 else s.procs d := by
    intro d
    rw [fillProcess, parentOf, if_neg fun h => h.1 rfl]
    exact procs_modProc
  refine Family.Agrees.plant hs hdead (fun d => ?_) fun q => ?_
  · change d < maxProcessCount ∧ ((s.fillProcess 0 0).procs d).Live ↔
      d < maxProcessCount ∧ (s.procs d).Live ∨ d = 0
    rw [hprocs]
    split
    · rename_i heq
      rw [heq]
      exact ⟨fun _ => .inr rfl, fun _ => ⟨by decide, fun h => by cases h⟩⟩
    · rename_i hd
      exact ⟨.inl, fun h => h.resolve_right hd⟩
  · change ((s.fillProcess 0 0).procs q).children = _
    rw [hprocs]
    split <;> rfl

/-- Whoever may create a process: one in use, or nobody for the first one. -/
def MayCreate (s : Sched) (ppid : ℕ) : Prop := s.HasProc ppid ∨ ppid = 0 ∧ ¬s.HasProc 0

theorem unusedPid_zero (hdead : ¬s.HasProc 0) : s.unusedPid = some 0 := by
  have hzero : ¬(s.procs 0).Live := fun h => hdead ⟨by decide, h⟩
  rw [unusedPid, maxProcessCount, range_succ_eq_map, find?_cons_of_pos]
  exact decide_eq_true hzero

theorem spawn_tree (howned : Owned s) (hs : TreeBut [] s) (hmay : s.MayCreate ppid) :
    Post (spawn depth ppid) s (Returned fun _ s' => Owned s' ∧ TreeBut [] s') := by
  refine spawn_returns (P := fun s => Owned s ∧ TreeBut [] s) ⟨howned, hs⟩ (fun pid hpid => ?_)
    fun s₁ tid ⟨howned₁, h₁⟩ => ?_
  · obtain ⟨hlt, hdead⟩ := unusedPid_spec hpid
    have hfilled : TreeBut [] (s.fillProcess pid ppid) := by
      rcases hmay with hppid | ⟨rfl, hnone⟩
      · exact fillProcess_tree hs hppid hlt hdead
      · rw [unusedPid_zero hnone] at hpid
        cases hpid
        exact fillProcess_root hs hnone
    refine returned_of_post (threadCreate_settled (owned_fillProcess howned hdead)
      (hasProc_fillProcess hlt)) fun tid s₁ h₁ => ⟨owned_addToPgrp h₁.owned, ?_⟩
    exact treeBut_of_procs procs_addToPgrp (h₁.family.treeBut hfilled)
  · have hquiet := Quiet.of_ticked (@sameTables_addThreadLocked s₁ tid).ticked
    exact ⟨hquiet.owned howned₁, hquiet.family.treeBut h₁⟩

/-! ### Destroying processes -/

theorem procs_leaveParent (d : ℕ) : (s.leaveParent pid).procs d =
    if d = pid then { s.procs pid with state := .unused }
    else if s.HasProc (s.procs pid).ppid ∧ d = (s.procs pid).ppid then
      { s.procs d with children := (s.procs d).children.erase pid }
    else s.procs d := by
  have hgone : (s.modProc pid fun p => { p with state := .unused }).procs pid =
      { s.procs pid with state := .unused } := by
    rw [procs_modProc, if_pos rfl]
  rw [leaveParent]
  dsimp only
  rw [hgone]
  by_cases hself : (s.procs pid).ppid = pid
  · -- a process that is its own parent does not take itself off its list
    rw [if_neg, procs_modProc]
    · split
      · rfl
      · rename_i hd
        rw [if_neg fun h => hd (h.2.trans hself)]
    · rw [hself, HasProc, hgone]
      exact fun h => h.2 rfl
  · have hhas : (s.modProc pid fun p => { p with state := .unused }).HasProc (s.procs pid).ppid ↔
        s.HasProc (s.procs pid).ppid := by
      rw [HasProc, HasProc, procs_modProc, if_neg hself]
    by_cases hparent : s.HasProc (s.procs pid).ppid
    · rw [if_pos (hhas.mpr hparent), procs_modProc, procs_modProc, procs_modProc, if_neg hself]
      split
      · rename_i hd
        rw [if_neg fun heq => hself (hd.symm.trans heq), if_pos ⟨hparent, hd⟩, hd]
      · rename_i hd
        rw [if_neg (c := s.HasProc _ ∧ d = _) fun h => hd h.2]
    · rw [if_neg fun h => hparent (hhas.mp h), procs_modProc,
        if_neg (c := s.HasProc _ ∧ d = _) fun h => hparent h.1]

/-- A process gives up its place, and its children are lost. -/
theorem leaveParent_tree (hs : TreeBut lost s) :
    TreeBut ((s.procs pid).children.reverse ++ lost.erase pid)
      ((s.leaveParent pid).modProc pid fun p => { p with children := [] }) := by
  have hprocs : ∀ d, ((s.leaveParent pid).modProc pid fun p => { p with children := [] }).procs d =
      if d = pid then { s.procs pid with state := .unused, children := [] }
      else { s.procs d with children := (s.procs d).children.erase pid } := by
    intro d
    rw [procs_modProc, procs_leaveParent, procs_leaveParent, if_pos rfl]
    split
    · rfl
    · split
      · rfl
      · rename_i hd
        -- the process is in no other list than that of its parent
        have hnot : pid ∉ (s.procs d).children := by
          intro hmem
          obtain ⟨hlive, -, hparent, -⟩ := hs.members d pid hmem
          have hparent' : (s.procs pid).ppid = d := hparent
          exact hd ⟨hparent' ▸ hlive, hparent'.symm⟩
        rw [erase_of_not_mem hnot]
  refine hs.remove (fun d => ?_) (fun d => ?_) ?_ fun d hd => ?_
  · change d < maxProcessCount ∧ (Sched.procs _ d).Live ↔
      (d < maxProcessCount ∧ (s.procs d).Live) ∧ d ≠ pid
    rw [hprocs]
    split
    · rename_i heq
      exact ⟨fun h => absurd rfl h.2, fun h => absurd heq h.2⟩
    · rename_i hd
      exact ⟨fun h => ⟨h, hd⟩, And.left⟩
  · change (Sched.procs _ d).ppid = (s.procs d).ppid
    rw [hprocs]
    split
    · rename_i heq
      rw [heq]
    · rfl
  · change (Sched.procs _ pid).children = []
    rw [hprocs, if_pos rfl]
  · change (Sched.procs _ d).children = (s.procs d).children.erase pid
    rw [hprocs, if_neg hd]

/-- A child that is lost is given to the first process. -/
theorem adopt_tree {child : ℕ} (hs : TreeBut (child :: lost) s) (hroot : s.HasProc 0) :
    TreeBut lost (s.adopt child) := by
  have hne : child ≠ 0 := (hs.orphans child mem_cons_self).2.1
  have hprocs : ∀ d, (s.adopt child).procs d =
      if d = child then { s.procs d with ppid := 0 }
      else if d = 0 then { s.procs d with children := (s.procs d).children ++ [child] }
      else s.procs d := by
    intro d
    rw [adopt, procs_modProc, procs_modProc, procs_modProc, if_neg hne]
    split
    · rename_i heq
      rw [heq]
    · split
      · rename_i heq
        rw [heq]
      · rfl
  refine hs.adopt hroot (fun d => ?_) (fun d => ?_) fun d => ?_
  · change d < maxProcessCount ∧ (Sched.procs _ d).Live ↔ d < maxProcessCount ∧ (s.procs d).Live
    rw [hprocs]
    split
    · rfl
    · split <;> rfl
  · change (Sched.procs _ d).ppid = if d = child then 0 else (s.procs d).ppid
    rw [hprocs]
    split
    · rfl
    · split <;> rfl
  · change (Sched.procs _ d).children = if d = 0 then (s.procs d).children ++ [child]
      else (s.procs d).children
    rw [hprocs]
    split
    · rename_i heq
      rw [if_neg (heq ▸ hne)]
    · split <;> rfl

theorem tree_destroyRule :
    DestroyRule depth (fun pid s => s.HasProc pid) fun lost s => Owned s ∧ TreeBut lost s where
  dead hpid _ := hpid
  threads {_ pid _} h _ := by
    refine returned_of_post (cleanupThreads_settled (owned_removeFromPgrp h.1))
      fun _ s₁ ⟨hsettled, hnil⟩ => ?_
    have htree := hsettled.family.treeBut (treeBut_of_procs procs_removeFromPgrp h.2)
    have hchildren : ((s₁.leaveParent pid).procs pid).children = (s₁.procs pid).children := by
      rw [procs_leaveParent, if_pos rfl]
    refine ⟨owned_modProc (owned_leaveParent hsettled.owned hnil) rfl fun _ h => h, ?_⟩
    rw [hchildren]
    exact leaveParent_tree htree
  skip h hnot := absurd (h.2.orphans _ mem_cons_self).1 hnot
  adopt h hroot := ⟨owned_adopt h.1, adopt_tree h.2 hroot⟩
  unblock h := returned_of_post (sendUnblockEvent_quiet h.1) fun _ _ h₁ =>
    ⟨h₁.owned h.1, h₁.family.treeBut h.2⟩

/-! ### Runs -/

/-- The invariant of the calls. -/
structure Rooted (s : Sched) : Prop where
  owned : Owned s
  tree : TreeBut [] s

theorem Quiet.rooted (h : Quiet s s') (hs : Rooted s) : Rooted s' :=
  ⟨h.owned hs.owned, h.family.treeBut hs.tree⟩

/-- A call that makes no process come or go. -/
theorem ends_of_quiet {α : Type} {m : SchedM α} (hs : Rooted s)
    (h : Post m s fun _ s' => Quiet s s') : Post m s (Ends Rooted) := by
  refine h.mono fun r s' hquiet => ?_
  rcases r with ⟨_ | _⟩ | a
  · exact hquiet.rooted hs
  · trivial
  · exact hquiet.rooted hs

theorem canWaitOnChild_family {p : Process} :
    (canWaitOnChild p flags).2.ppid = p.ppid ∧ (canWaitOnChild p flags).2.children = p.children ∧
      (canWaitOnChild p flags).2.pgid = p.pgid := by
  obtain ⟨_, _, heq⟩ := canWaitOnChild_eq p flags
  rw [heq]
  exact ⟨rfl, rfl, rfl⟩

theorem reportChild_rooted {child : ℕ} (hs : Rooted s) (hchild : child < maxProcessCount) :
    Post (reportChild depth (fun _ => true) flags child) s (Ends Rooted) := by
  have hnote : Quiet s (s.modProc child fun p => (canWaitOnChild p flags).2) := by
    refine .modProc canWaitOnChild_same.1 (.modProc ?_ canWaitOnChild_family.1
      canWaitOnChild_family.2.1 canWaitOnChild_family.2.2)
    rw [Process.Live, Process.Live, canWaitOnChild_same.2.2]
  have hnoted := hnote.rooted hs
  refine .modify_bind (.get_bind (.ite (fun hzombie => ?_) fun _ => hnoted))
  have hlive : ((s.modProc child fun p => (canWaitOnChild p flags).2).procs child).Live := by
    rw [Process.Live, hzombie]
    decide
  exact ends_bind (procDestroy_stays child)
    (tree_destroyRule.procDestroy [] (fun h => Bool.noConfusion h) ⟨hnoted.owned, hnoted.tree⟩
      ⟨hchild, hlive⟩)
    fun _ _ h => ⟨h.1, h.2⟩

theorem beginWait_quiet {waitPid : ℤ} :
    Quiet s (s.beginWait tid waitPid flags) := by
  have hthread : Quiet s (s.modThread tid fun t =>
      { t with waitingForPid := waitPid, waitingForFlags := flags }) := .modThread .rfl rfl
  exact hthread.trans (.modProc rfl (.modProc .rfl rfl rfl rfl))

theorem endWait_quiet : Quiet s (s.endWait tid) := by
  have hthread : Quiet s (s.modThread tid fun t => { t with waitingForPid := -2 }) :=
    .modThread .rfl rfl
  exact hthread.trans (.modProc rfl (.modProc .rfl rfl rfl rfl))

theorem sWaitpid_rooted {waitPid : ℤ} (hs : Rooted s) (hused : (s.threads tid).state ≠ .unused) :
    Post (sWaitpid depth cpu (fun _ => true) tid waitPid flags) s (Ends Rooted) := by
  refine .get_bind (.ite (fun _ => hs) fun _ => ?_)
  cases hdone : s.doneChild (s.threads tid).pid waitPid flags with
  | some child => exact ends_map (reportChild_rooted hs (doneChild_lt hdone))
  | none =>
    have hbegin : Quiet s (s.beginWait tid waitPid flags) := beginWait_quiet
    refine .ite (fun _ => hs) fun _ => .modify_bind (ends_map (ends_of_quiet (hbegin.rooted hs)
      (blockThread_quiet (hbegin.owned hs.owned) ?_)))
    rwa [ne_eq, hbegin.owners.unused]

theorem sWaitpidAgain_rooted (hs : Rooted s) (hused : (s.threads tid).state ≠ .unused) :
    Post (sWaitpidAgain depth cpu (fun _ => true) tid) s (Ends Rooted) := by
  refine .get_bind ?_
  cases hdone : s.doneChild (s.threads tid).pid (s.threads tid).waitingForPid
      (s.threads tid).waitingForFlags with
  | some child =>
    exact .modify_bind (ends_map (reportChild_rooted (endWait_quiet.rooted hs)
      (doneChild_lt hdone)))
  | none => exact ends_map (ends_of_quiet hs (blockThread_quiet hs.owned hused))

/-- What the thread that a CPU runs can do: it creates a process, by `s_spawn` or `fork`, it exits,
it waits for a child or goes on waiting, or it blocks or ends another thread. -/
inductive TreeCall
  | create
  | exit (code : BitVec 32)
  | wait (copied : ℕ → Bool) (pid : ℤ) (flags : BitVec 32)
  | waitAgain (copied : ℕ → Bool)
  | block (state : ThreadState)
  | terminate (tid : ℕ)

/-- What can happen: the first process is made, a CPU picks a thread or the thread makes a call, or
a thread is unblocked. -/
inductive TreeEvent
  | boot
  | tick (cpu : ℕ)
  | call (cpu : ℕ) (call : TreeCall)
  | unblock (tid : ℕ)

/-- The state after a process has been created. -/
def created : Except Leave (Option ℕ) × Sched → Option Sched
  | (.ok (some _), s) => some s
  | _ => none

/-- A call of a thread. A thread goes on waiting only if it waits. -/
def treeCall (depth cpu tid : ℕ) (s : Sched) : TreeCall → Option Sched
  | .create => created ((spawn depth (s.threads tid).pid).eval s)
  | .exit code => outcome ((exitProcess depth cpu tid code).eval s)
  | .wait copied pid flags => outcome ((sWaitpid depth cpu copied tid pid flags).eval s)
  | .waitAgain copied =>
    if tid ∈ (s.procs (s.threads tid).pid).childWaitq then
      outcome ((sWaitpidAgain depth cpu copied tid).eval s)
    else none
  | .block state => outcome ((blockThread depth cpu tid state).eval s)
  | .terminate tid' =>
    if s.HasThread tid' then outcome ((terminateThread depth cpu tid').eval s) else none

/-- The machine. -/
def treeMachine (depth : ℕ) : Machine Sched TreeEvent
  | s, .boot => if s.HasProc 0 then none else created ((spawn depth 0).eval s)
  | s, .tick cpu => some (s.schedulerTick cpu)
  | s, .call cpu c => (s.cpus cpu).bind fun tid => s.treeCall depth cpu tid c
  | s, .unblock tid => outcome ((unblockThread depth tid).eval s)

/-- There is memory for the descriptors of all processes that a call destroys. -/
def TreeCall.Copied : TreeCall → Prop
  | .wait copied _ _ | .waitAgain copied => ∀ pid, copied pid = true
  | _ => True

/-- A call is made by a thread that is in use and finds the memory it needs. -/
def TreeClean (s : Sched) : TreeEvent → Prop
  | .call cpu c => c.Copied ∧ ∀ tid, s.cpus cpu = some tid → (s.threads tid).state ≠ .unused
  | _ => True

theorem created_returned {m : SchedM (Option ℕ)} {P : Sched → Prop}
    (h : Post m s (Returned fun _ s' => P s')) (hcreated : created (m.eval s) = some s') :
    P s' := by
  unfold Post at h
  rcases hm : m.eval s with ⟨_ | _ | pid, s₁⟩ <;> rw [hm] at h hcreated <;> cases hcreated
  exact h

theorem outcome_ends {α : Type} {m : SchedM α} {P : Sched → Prop} (h : Post m s (Ends P))
    (hout : outcome (m.eval s) = some s') : P s' := by
  unfold Post at h
  rcases hm : m.eval s with ⟨⟨_ | _⟩ | a, s₁⟩ <;> rw [hm] at h hout <;> cases hout <;> exact h

theorem rooted_call {c : TreeCall} (hs : Rooted s) (hused : (s.threads tid).state ≠ .unused)
    (hcopied : c.Copied) (hcall : s.treeCall depth cpu tid c = some s') : Rooted s' := by
  cases c with
  | create =>
    have hspawn : Post (spawn depth _) s _ :=
      spawn_tree hs.owned hs.tree (.inl (hs.owned.live tid hused))
    obtain ⟨howned, htree⟩ := created_returned hspawn hcall
    exact ⟨howned, htree⟩
  | exit code => exact outcome_ends (ends_of_quiet hs (exitProcess_quiet hs.owned hused)) hcall
  | wait copied pid flags =>
    obtain rfl : copied = fun _ => true := funext hcopied
    exact outcome_ends (sWaitpid_rooted hs hused) hcall
  | waitAgain copied =>
    obtain rfl : copied = fun _ => true := funext hcopied
    rw [treeCall] at hcall
    split at hcall
    · exact outcome_ends (sWaitpidAgain_rooted hs hused) hcall
    · cases hcall
  | block state => exact outcome_ends (ends_of_quiet hs (blockThread_quiet hs.owned hused)) hcall
  | terminate tid' =>
    rw [treeCall] at hcall
    split at hcall
    · rename_i hhas
      exact outcome_ends (ends_of_quiet hs (terminateThread_quiet hs.owned hhas.2)) hcall
    · cases hcall

theorem rooted_step {e : TreeEvent} (hs : Rooted s) (hclean : s.TreeClean e)
    (hstep : treeMachine depth s e = some s') : Rooted s' := by
  cases e with
  | boot =>
    rw [treeMachine] at hstep
    split at hstep
    · cases hstep
    · rename_i hnone
      obtain ⟨howned, htree⟩ :=
        created_returned (spawn_tree hs.owned hs.tree (.inr ⟨rfl, hnone⟩)) hstep
      exact ⟨howned, htree⟩
  | tick cpu =>
    cases hstep
    exact (Quiet.of_ticked ticked_schedulerTick).rooted hs
  | call cpu c =>
    obtain ⟨tid, hcpu, hcall⟩ := Option.bind_eq_some_iff.mp hstep
    exact rooted_call hs (hclean.2 tid hcpu) hclean.1 hcall
  | unblock tid => exact outcome_ends (ends_of_quiet hs (unblockThread_quiet hs.owned)) hstep

/-- **The tree of processes.** Over all runs whose steps are clean, every process in use other than
the first one is in the list of the children of its parent, once, and in no other list, and its
parent is in use; a process that is not in use is in no list. -/
theorem tree_of_clean_run (hrun : (treeMachine depth).Run TreeClean Sched.zero s) :
    (∀ pid, s.HasProc pid → pid ≠ 0 → s.HasProc (s.procs pid).ppid ∧
      (s.procs (s.procs pid).ppid).children.count pid = 1 ∧
      ∀ other, other ≠ (s.procs pid).ppid → pid ∉ (s.procs other).children) ∧
    ∀ pid, ¬s.HasProc pid → ∀ other, pid ∉ (s.procs other).children := by
  have h : Rooted s := hrun.invariant ⟨owned_zero, tree_zero⟩
    fun _ _ _ hs hclean hstep => rooted_step hs hclean hstep
  exact ⟨fun pid hpid hroot => Family.Agrees.count_eq_one h.tree hpid hroot,
    fun pid hdead => h.tree.not_mem hdead⟩

/-- The first process waits for its child, which has a child of its own and exits. -/
def orphaned : List TreeEvent :=
  [.boot, .tick 0, .call 0 .create, .call 0 (.wait (fun _ => true) (-1) 0), .call 0 .create,
    .call 0 (.exit 0), .tick 0, .call 0 (.waitAgain fun _ => true)]

/-- The child of the child is given to the first process. -/
theorem tree_of_orphan :
    ∃ s, (treeMachine 8).Run TreeClean Sched.zero s ∧ ¬s.HasProc 1 ∧ s.HasProc 2 ∧
      (s.procs 2).ppid = 0 ∧ (s.procs 0).children.count 2 = 1 ∧
      ∀ other, 1 ∉ (s.procs other).children := by
  have hmeets : (treeMachine 8).Meets TreeClean Sched.zero orphaned := by
    have hcall : ∀ (s : Sched) (c : TreeCall) (tid : ℕ), s.cpus 0 = some tid →
        (s.threads tid).state ≠ .unused → c.Copied → s.TreeClean (.call 0 c) := by
      intro s c tid hcpu hused hcopied
      refine ⟨hcopied, fun tid' hcpu' => ?_⟩
      obtain rfl : tid = tid' := Option.some.inj (hcpu.symm.trans hcpu')
      exact hused
    exact ⟨trivial, trivial, hcall _ _ 0 (by decide +kernel) (by decide +kernel) trivial,
      hcall _ _ 0 (by decide +kernel) (by decide +kernel) fun _ => rfl,
      hcall _ _ 1 (by decide +kernel) (by decide +kernel) trivial,
      hcall _ _ 1 (by decide +kernel) (by decide +kernel) trivial, trivial,
      hcall _ _ 0 (by decide +kernel) (by decide +kernel) fun _ => rfl, trivial⟩
  have hrun : (treeMachine 8).Run TreeClean Sched.zero ((treeMachine 8).after _ orphaned) :=
    Machine.run_of_meets (by decide +kernel) hmeets
  have htree := tree_of_clean_run hrun
  have hdead : ¬((treeMachine 8).after Sched.zero orphaned).HasProc 1 := by decide +kernel
  have hlive : ((treeMachine 8).after Sched.zero orphaned).HasProc 2 := by decide +kernel
  have hppid : (((treeMachine 8).after Sched.zero orphaned).procs 2).ppid = 0 := by decide +kernel
  have hcount := (htree.1 2 hlive (by decide)).2.1
  rw [hppid] at hcount
  exact ⟨_, hrun, hdead, hlive, hppid, hcount, htree.2 1 hdead⟩

/-- The child of the child has exited, too, and there is no memory to destroy it. -/
def forsaken : List TreeEvent :=
  [.boot, .tick 0, .call 0 .create, .call 0 (.wait (fun _ => true) (-1) 0), .call 0 .create,
    .tick 0, .call 0 (.exit 0), .call 0 (.exit 0), .call 0 (.waitAgain fun pid => pid ≠ 2)]

/-- A dead process is left that is in no list of children, and its parent is not in use. -/
theorem zombie_lost :
    ∃ s, (treeMachine 8).Run Machine.Any Sched.zero s ∧ s.HasProc 2 ∧ (s.procs 2).state = .zombie ∧
      (s.procs 2).ppid = 1 ∧ ¬s.HasProc 1 ∧ ∀ pid, s.HasProc pid → 2 ∉ (s.procs pid).children := by
  have hlists : ∀ pid < maxProcessCount,
      2 ∉ (((treeMachine 8).after Sched.zero forsaken).procs pid).children := by decide +kernel
  exact ⟨(treeMachine 8).after Sched.zero forsaken, Machine.run_after (by decide +kernel),
    by decide +kernel, by decide +kernel, by decide +kernel, by decide +kernel,
    fun pid hpid => hlists pid hpid.1⟩

end Sched

end OsPi
