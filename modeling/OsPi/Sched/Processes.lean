import OsPi.Sched.Signals

/-!
# Processes

A model of the parts of `scheduler/process.c` that make and remove processes, keep the tree of
parents and children and the groups, and report to a parent what happens to its children; with
`s_exit_impl` of `syscall/syscall.c`.

Creating a process is modelled for when there is memory for it. The one allocation of `proc_destroy`
may fail; it then does nothing.
-/

namespace OsPi

open Function

/-- A process as `proc_create` fills it in. -/
def Process.fresh (ppid : ℕ) (pgid : ℤ) : Process where
  state := .running
  ppid := ppid
  pgid := pgid
  tids := []
  counts := ⟨0, 0, 0, 0⟩
  exitCode := 0
  waitStopPending := false
  waitContPending := false
  children := []
  sigactions := .default
  pending := 0
  childWaitq := []

/-- A group without a process. -/
def Pgrp.without (g : Pgrp) (pid : ℕ) : Pgrp :=
  if pid ∈ g.pids then ⟨g.pids.erase pid, g.refcount - 1⟩ else g

namespace Sched

/-! ### Groups -/

/-- `add_to_pgrp` when there is memory for a group. -/
def addToPgrp (s : Sched) (pid : ℕ) : Sched :=
  if s.HasProc pid then
    match s.pgrps (s.procs pid).pgid with
    | none => { s with pgrps := update s.pgrps (s.procs pid).pgid (some ⟨[pid], 1⟩) }
    | some g =>
      if pid ∈ g.pids then s
      else
        { s with
          pgrps := update s.pgrps (s.procs pid).pgid
            (some ⟨g.pids ++ [pid], g.refcount + 1⟩) }
  else s

/-- `remove_from_pgrp`. -/
def removeFromPgrp (s : Sched) (pid : ℕ) : Sched :=
  if s.HasProc pid then
    match s.pgrps (s.procs pid).pgid with
    | none => s
    | some g =>
      { s with
        pgrps := update s.pgrps (s.procs pid).pgid
          (if (g.without pid).refcount ≤ 0 then none else some (g.without pid)) }
  else s

variable {s : Sched} {pid : ℕ}

theorem addToPgrp_eq : ∃ pgrps, s.addToPgrp pid = { s with pgrps } := by
  rw [addToPgrp]
  split
  · split
    · exact ⟨_, rfl⟩
    · split <;> exact ⟨_, rfl⟩
  · exact ⟨_, rfl⟩

theorem removeFromPgrp_eq : ∃ pgrps, s.removeFromPgrp pid = { s with pgrps } := by
  rw [removeFromPgrp]
  split
  · split <;> exact ⟨_, rfl⟩
  · exact ⟨_, rfl⟩

/-- The process that `setpgrp` is about. -/
def targetOf (s : Sched) (curr : ℕ) (pid : ℤ) : Option ℕ :=
  if pid = 0 then some curr
  else if 0 ≤ pid ∧ s.HasProc pid.toNat then some pid.toNat
  else none

/-- The part of `setpgrp` that moves a process to another group. -/
def moveTo (s : Sched) (pid : ℕ) (pgid : ℤ) : Sched :=
  ((s.removeFromPgrp pid).modProc pid fun p => { p with pgid }).addToPgrp pid

/-- `setpgrp`, called by the process `curr`. -/
def setpgrp (curr : ℕ) (pid pgid : ℤ) : SchedM ℤ := do
  let s ← get
  match s.targetOf curr pid with
  | none => pure esrch
  | some pid => do
    let pgid : ℤ := if pgid = 0 then pid else pgid
    if (s.procs pid).pgid = pgid then pure 0
    else do
      modify fun s => s.moveTo pid pgid
      pure 0

/-! ### Creating a process -/

/-- `get_next_unused_pcb`. -/
def unusedPid (s : Sched) : Option ℕ :=
  (List.range maxProcessCount).find? fun pid => ¬(s.procs pid).Live

/-- The parent of a new process, if there is one. -/
def parentOf (s : Sched) (pid ppid : ℕ) : Option ℕ :=
  if ppid ≠ pid ∧ s.HasProc ppid then some ppid else none

/-- The part of `proc_create` that fills in the process and tells its parent. -/
def fillProcess (s : Sched) (pid ppid : ℕ) : Sched :=
  match s.parentOf pid ppid with
  | none => s.modProc pid fun _ => .fresh ppid pid
  | some parent =>
    (s.modProc parent fun p => { p with children := p.children ++ [pid] }).modProc pid fun _ =>
      .fresh ppid (s.procs parent).pgid

section Calls

variable (depth cpu : ℕ)

/-- `proc_create` when there is memory: the number of the process, unless all are in use. -/
def procCreate (ppid : ℕ) : SchedM (Option ℕ) := do
  let s ← get
  match s.unusedPid with
  | none => pure none
  | some pid => do
    modify fun s => s.fillProcess pid ppid
    let _ ← threadCreate depth pid
    modify fun s => s.addToPgrp pid
    pure (some pid)

/-- `s_spawn` and `fork` as far as the scheduler goes: the thread of the child is put in a queue. -/
def spawn (ppid : ℕ) : SchedM (Option ℕ) := do
  match ← procCreate depth ppid with
  | none => pure none
  | some pid => do
    modify fun s => s.addThreadLocked ((s.procs pid).tids.headD 0)
    pure (some pid)

/-! ### The end of a process -/

/-- The loop of `s_exit_impl`. -/
def terminateOthers (curr : ℕ) : List ℕ → SchedM Unit
  | [] => pure ()
  | tid :: rest => do
    let s ← get
    if s.HasThread tid ∧ tid ≠ curr then terminateThread depth cpu tid
    terminateOthers curr rest

/-- `s_exit_impl`, called by a thread. -/
def exitProcess (tid : ℕ) (code : BitVec 32) : SchedM Unit := do
  let s ← get
  modify fun s => s.modProc (s.threads tid).pid fun p => { p with exitCode := code }
  terminateOthers depth cpu tid (s.procs (s.threads tid).pid).tids
  terminateThread depth cpu tid

/-- The loop of `proc_destroy` over the threads. It takes the first thread of the list and removes
it from the process it belongs to; where that is another one it never ends. -/
def cleanupThreads (pid : ℕ) : ℕ → SchedM Unit
  | 0 => do
    let s ← get
    if (s.procs pid).tids ≠ [] then throw .hang
  | turns + 1 => do
    let s ← get
    match (s.procs pid).tids with
    | [] => pure ()
    | tid :: rest => do
      if s.HasThread tid then threadCleanup depth tid
      else modify fun s => s.modProc pid fun p => { p with tids := rest }
      cleanupThreads pid turns

/-- The part of `proc_destroy` that gives up the place of the process and tells its parent. -/
def leaveParent (s : Sched) (pid : ℕ) : Sched :=
  let s := s.modProc pid fun p => { p with state := .unused }
  if s.HasProc (s.procs pid).ppid then
    s.modProc (s.procs pid).ppid fun p => { p with children := p.children.erase pid }
  else s

/-- A child is given to the first process. -/
def adopt (s : Sched) (child : ℕ) : Sched :=
  (s.modProc 0 fun p => { p with children := p.children ++ [child] }).modProc child fun p =>
    { p with ppid := 0 }

/-- The loop of `proc_destroy` over the children: those that have ended are destroyed, and the
others are given to the first process. Whether there were any of these is returned. -/
def leaveChildren (destroy : ℕ → SchedM Unit) : List ℕ → SchedM Bool
  | [] => pure false
  | child :: rest => do
    let s ← get
    if ¬s.HasProc child then leaveChildren destroy rest
    else if (s.procs child).state = .zombie then do
      destroy child
      leaveChildren destroy rest
    else if ¬s.HasProc 0 then throw .hang
    else do
      modify fun s => s.adopt child
      let _ ← leaveChildren destroy rest
      pure true

/-- `proc_destroy`, which calls itself for children that have ended. Where `copied` says that
there is no memory to copy the descriptors of a process to, nothing is done. -/
def procDestroy (copied : ℕ → Bool) : ℕ → ℕ → SchedM Unit
  | 0, _ => throw .hang
  | nest + 1, pid => do
    if copied pid = false then pure ()
    else do
      modify fun s => s.removeFromPgrp pid
      let s ← get
      cleanupThreads depth pid (s.procs pid).tids.length
      modify fun s => s.leaveParent pid
      let s ← get
      modify fun s => s.modProc pid fun p => { p with children := [] }
      let added ← leaveChildren (procDestroy copied nest) (s.procs pid).children.reverse
      if added then do
        let s ← get
        let _ ← sendUnblockEvent depth ((s.procs 0).tids.headD 0) blockUntilNewChild

/-! ### Waiting for children -/

/-- `WAIT_EXITED`, `WAIT_SIGNALED`, `WAIT_STOPPED` and `WAIT_CONTINUED`. -/
inductive WaitStatus
  | exited
  | signaled
  | stopped
  | continued
  deriving DecidableEq, Repr

/-- `can_wait_on_child`, and the process with its flags afterwards. -/
def canWaitOnChild (p : Process) (flags : BitVec 32) : Bool × Process :=
  if p.state = .zombie then (true, p)
  else if flags &&& wuntraced ≠ 0 ∧ p.waitStopPending then (true, { p with waitStopPending := false })
  else if flags &&& wcontinued ≠ 0 ∧ p.waitContPending then
    (true, { p with waitContPending := false })
  else (false, p)

/-- Only the flags of a child change. -/
theorem canWaitOnChild_eq (p : Process) (flags : BitVec 32) : ∃ stop cont,
    (canWaitOnChild p flags).2 = { p with waitStopPending := stop, waitContPending := cont } := by
  rw [canWaitOnChild]
  split
  · exact ⟨_, _, rfl⟩
  · split
    · exact ⟨_, _, rfl⟩
    · split <;> exact ⟨_, _, rfl⟩

/-- `child_matches_wait`. -/
def ChildMatchesWait (s : Sched) (waitPid : ℤ) (pid : ℕ) : Prop :=
  waitPid = -1 ∨ waitPid < -1 ∧ (s.procs pid).pgid = -waitPid ∨ ¬waitPid < -1 ∧ (pid : ℤ) = waitPid

instance (s : Sched) (waitPid : ℤ) (pid : ℕ) : Decidable (s.ChildMatchesWait waitPid pid) :=
  inferInstanceAs (Decidable (_ ∨ _))

/-- The child that `find_waitable_child` finds. -/
def findWaitableChild (s : Sched) (children : List ℕ) (waitPid : ℤ) (flags : BitVec 32) : Option ℕ :=
  children.find? fun pid =>
    s.HasProc pid ∧ s.ChildMatchesWait waitPid pid ∧ (canWaitOnChild (s.procs pid) flags).1 = true

/-- The status that `s_waitpid_impl` stores for a child. -/
def waitStatus (p : Process) : WaitStatus :=
  match p.state with
  | .zombie => if p.exitCode &&& 128 ≠ 0 then .signaled else .exited
  | .stopped => .stopped
  | _ => .continued

/-- The end of `s_waitpid_impl`: the flags of the child, its status, and the end of a child that
is dead. -/
def reportChild (copied : ℕ → Bool) (flags : BitVec 32) (child : ℕ) : SchedM (ℕ × WaitStatus) := do
  modify fun s => s.modProc child fun p => (canWaitOnChild p flags).2
  let s ← get
  if (s.procs child).state = .zombie then procDestroy depth copied maxProcessCount child
  pure (child, waitStatus (s.procs child))

/-- `has_wait_child`. -/
def HasWaitChild (s : Sched) (children : List ℕ) (waitPid : ℤ) : Prop :=
  ∃ pid ∈ children, s.HasProc pid ∧ s.ChildMatchesWait waitPid pid

instance (s : Sched) (children : List ℕ) (waitPid : ℤ) :
    Decidable (s.HasWaitChild children waitPid) := inferInstanceAs (Decidable (∃ pid ∈ _, _))

/-- Whether a process may wait for a number: it has a child to wait for, or the number is that of
a child. -/
def MayWait (s : Sched) (curr : ℕ) (waitPid : ℤ) : Prop :=
  if waitPid < 0 then s.HasWaitChild (s.procs curr).children waitPid
  else s.HasProc waitPid.toNat ∧ (s.procs waitPid.toNat).ppid = curr

instance (s : Sched) (curr : ℕ) (waitPid : ℤ) : Decidable (s.MayWait curr waitPid) :=
  inferInstanceAs (Decidable (if waitPid < 0 then _ else _))

/-- The child that a pass of `s_waitpid_impl` finds. For the number of a child it looks at the
entry of that number, whatever process that is by then. -/
def doneChild (s : Sched) (curr : ℕ) (waitPid : ℤ) (flags : BitVec 32) : Option ℕ :=
  if waitPid < 0 then s.findWaitableChild (s.procs curr).children waitPid flags
  else if waitPid.toNat < maxProcessCount ∧
      (canWaitOnChild (s.procs waitPid.toNat) flags).1 = true then some waitPid.toNat
  else none

/-- What `waitpid` returns: `SYS_ECHILD`, zero, or a child and its status. -/
inductive WaitResult
  | noChild
  | nothing
  | child (pid : ℕ) (status : WaitStatus)
  deriving DecidableEq, Repr

/-- A thread says what it waits for and joins the queue of its process. -/
def beginWait (s : Sched) (tid : ℕ) (waitPid : ℤ) (flags : BitVec 32) : Sched :=
  (s.modThread tid fun t => { t with waitingForPid := waitPid, waitingForFlags := flags }).modProc
    (s.threads tid).pid fun p => { p with childWaitq := p.childWaitq ++ [tid] }

/-- A thread has found a child and leaves the queue of its process. -/
def endWait (s : Sched) (tid : ℕ) : Sched :=
  (s.modThread tid fun t => { t with waitingForPid := -2 }).modProc (s.threads tid).pid fun p =>
    { p with childWaitq := p.childWaitq.erase tid }

/-- `s_waitpid_impl`, called by a thread, up to where it waits. -/
def sWaitpid (copied : ℕ → Bool) (tid : ℕ) (waitPid : ℤ) (flags : BitVec 32) :
    SchedM WaitResult := do
  let s ← get
  if ¬s.MayWait (s.threads tid).pid waitPid then pure .noChild
  else
    match s.doneChild (s.threads tid).pid waitPid flags with
    | some child => do
      let (pid, status) ← reportChild depth copied flags child
      pure (.child pid status)
    | none =>
      if flags &&& wnohang ≠ 0 then pure .nothing
      else do
        modify fun s => s.beginWait tid waitPid flags
        blockThread depth cpu tid .blockedInterruptable
        pure .nothing

/-- The next pass of `s_waitpid_impl` for a thread that has waited. -/
def sWaitpidAgain (copied : ℕ → Bool) (tid : ℕ) : SchedM WaitResult := do
  let s ← get
  match s.doneChild (s.threads tid).pid (s.threads tid).waitingForPid
      (s.threads tid).waitingForFlags with
  | some child => do
    modify fun s => s.endWait tid
    let (pid, status) ← reportChild depth copied (s.threads tid).waitingForFlags child
    pure (.child pid status)
  | none => do
    blockThread depth cpu tid .blockedInterruptable
    pure .nothing

end Calls

/-- Two processes, the second one a child of the first. The first CPU runs the thread of the first
process. -/
def pair : Sched :=
  ((do
    let _ ← spawn 8 0
    let _ ← spawn 8 0
    modify fun s => s.schedulerTick 0) : SchedM Unit).eval Sched.zero |>.2

end Sched

end OsPi
