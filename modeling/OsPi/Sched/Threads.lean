import OsPi.Sched.Queues

/-!
# Threads

A model of `threading/thread.c`, with `pcb_thread_change_state` of `scheduler/process.c` and
`send_sigchld` of `signals/signals.c`: whenever the state of a thread changes the counters of its
process are changed with it, the parent is told, and a thread of the parent that waits for this is
woken, which is a change of the state of that thread. So these functions call each other, at most
as deep as the kernel stack allows.

A call of the kernel is run by a CPU. It leaves off where the thread that made it gives up the CPU;
what is left of the call is done when the thread runs again.
-/

namespace OsPi

open Comp

/-- Why a call does not go on: its thread has left the CPU, or it never comes to an end. -/
inductive Leave
  | away
  | hang
  deriving DecidableEq, Repr

/-- The calls of the scheduler. -/
abbrev SchedM := Comp Sched Leave

/-! ### What wakes a thread that waits for children -/

/-- `WNOHANG`, `WUNTRACED` and `WCONTINUED`. -/
def wnohang : BitVec 32 := 1

@[inherit_doc wnohang] def wuntraced : BitVec 32 := 2

@[inherit_doc wnohang] def wcontinued : BitVec 32 := 4

/-- Whether the number that a thread waits for is that of a child or of its group. -/
def Thread.WaitsFor (t : Thread) (child : ℕ) (pgid : ℤ) : Prop :=
  t.waitingForPid = -1 ∨ t.waitingForPid = child ∨
    t.waitingForPid < -1 ∧ pgid = -t.waitingForPid

instance (t : Thread) (child : ℕ) (pgid : ℤ) : Decidable (t.WaitsFor child pgid) :=
  inferInstanceAs (Decidable (_ ∨ _))

/-- Whether a thread wants to know of a child in the given state. -/
def Thread.WakesAt (t : Thread) (state : ProcState) : Prop :=
  state = .zombie ∨ state = .stopped ∧ t.waitingForFlags &&& wuntraced ≠ 0 ∨
    state = .running ∧ t.waitingForFlags &&& wcontinued ≠ 0

instance (t : Thread) (state : ProcState) : Decidable (t.WakesAt state) :=
  inferInstanceAs (Decidable (_ ∨ _))

/-- The flag by which `send_sigchld` remembers the state of a child. -/
def Process.noteState (p : Process) : Process :=
  match p.state with
  | .stopped => { p with waitStopPending := true }
  | .running => { p with waitContPending := true }
  | _ => p

/-- The counters and the state of a process when a thread of it changes its state. -/
def Process.changeState (p : Process) (old new : ThreadState) : Process :=
  { p with
    counts := (p.counts.add (-1) old).add 1 new
    state := ((p.counts.add (-1) old).add 1 new).state }

/-- The state in which `continue_thread` leaves a thread. -/
def Thread.continued (t : Thread) : ThreadState :=
  if t.stoppedState = .running then .ready
  else if t.stoppedState.Blocked ∧ t.blockedUntil = 0 then .ready
  else t.stoppedState

/-- A thread as `thread_create` fills it in. -/
def Thread.fresh (pid : ℕ) : Thread where
  state := .ready
  stoppedState := .ready
  pid := pid
  isJoinable := true
  waitingOnThis := []
  pending := 0
  mask := 0
  priority := 1
  blockedUntil := 0
  waitingForPid := -2
  waitingForFlags := 0

/-! ### Changing the state of a thread -/

namespace Sched

/-- The thread that `send_sigchld` unblocks: only the first one that waits for the child counts. -/
def waiter (s : Sched) (child : ℕ) : Option ℕ :=
  if s.HasProc (s.procs child).ppid then
    ((s.procs (s.procs child).ppid).childWaitq.find? fun tid =>
      s.HasThread tid ∧ (s.threads tid).WaitsFor child (s.procs child).pgid).filter fun tid =>
        (s.threads tid).WakesAt (s.procs child).state
  else none

/-- `send_sigchld`, by what unblocks a thread. -/
def sendSigchld (unblock : ℕ → SchedM Unit) (child : ℕ) : SchedM Unit := do
  let s ← get
  if s.HasProc child then do
    modify fun s => s.modProc child Process.noteState
    let s ← get
    match s.waiter child with
    | none => pure ()
    | some tid => unblock tid

/-- `pcb_thread_change_state`, by what unblocks a thread. -/
def changeState (unblock : ℕ → SchedM Unit) (pid : ℕ) (old new : ThreadState) : SchedM Unit := do
  modify fun s => s.modProc pid fun p => p.changeState old new
  let s ← get
  if (s.procs pid).state = .blocked then pure () else sendSigchld unblock pid

/-- `unblock_thread`, which may call itself as deep as the first argument says. The state of the
thread is assigned after its parent has been told. -/
def unblockThread : ℕ → ℕ → SchedM Unit
  | 0, tid => do
    let s ← get
    if (s.threads tid).state.Blocked then throw .hang
  | depth + 1, tid => do
    let s ← get
    if (s.threads tid).state.Blocked then do
      changeState (unblockThread depth) (s.threads tid).pid (s.threads tid).state .ready
      modify fun s => s.modThread tid fun t => { t with state := .ready, blockedUntil := 0 }
      modify fun s => s.addThreadLocked tid

section Calls

variable (depth cpu : ℕ)

/-- `pcb_thread_change_state`. -/
def pcbThreadChangeState (pid : ℕ) (old new : ThreadState) : SchedM Unit :=
  changeState (unblockThread depth) pid old new

/-- `schedule_yield` if the thread is the one that makes the call. -/
def yieldIfCurrent (tid : ℕ) : SchedM Unit := do
  let s ← get
  if s.cpus cpu = some tid then do
    modify fun s => s.schedulerTick cpu
    throw .away

/-- What `stop_thread`, `terminate_thread` and `block_thread` have in common. -/
def enterState (tid : ℕ) (new : ThreadState) : SchedM Unit := do
  let s ← get
  pcbThreadChangeState depth (s.threads tid).pid (s.threads tid).state new
  modify fun s => s.setState tid new
  yieldIfCurrent cpu tid

/-- `stop_thread`. -/
def stopThread (tid : ℕ) : SchedM Unit := do
  let s ← get
  if (s.threads tid).state = .stopped then pure ()
  else do
    modify fun s => s.modThread tid fun t => { t with stoppedState := t.state }
    enterState depth cpu tid .stopped

/-- `terminate_thread`. -/
def terminateThread (tid : ℕ) : SchedM Unit := do
  let s ← get
  if (s.threads tid).state = .zombie then pure () else enterState depth cpu tid .zombie

/-- `block_thread`. -/
def blockThread (tid : ℕ) (blocked : ThreadState) : SchedM Unit :=
  if blocked.Blocked then enterState depth cpu tid blocked else pure ()

/-- `continue_thread`. -/
def continueThread (tid : ℕ) : SchedM Unit := do
  let s ← get
  if (s.threads tid).state = .stopped then do
    pcbThreadChangeState depth (s.threads tid).pid .stopped (s.threads tid).continued
    modify fun s' => s'.modThread tid fun t =>
      { t with state := (s.threads tid).continued, stoppedState := .ready }
    if (s.threads tid).continued = .ready then modify fun s => s.addThreadLocked tid

/-- `send_unblock_event`. -/
def sendUnblockEvent (tid : ℕ) (event : BitVec 32) : SchedM Bool := do
  let s ← get
  if s.HasThread tid ∧ (s.threads tid).state.Blocked ∧ (s.threads tid).blockedUntil &&& event ≠ 0
  then do
    unblockThread depth tid
    pure true
  else pure false

/-! ### Creating and removing threads -/

/-- The first thread that is not in use, or the end of the table. -/
def unusedTid (s : Sched) : ℕ :=
  ((List.range s.threadCount).find? fun tid => (s.threads tid).state = .unused).getD s.threadCount

/-- The part of `thread_create` under the lock of the table. -/
def addThread (s : Sched) (pid : ℕ) : Sched :=
  { s.modThread s.unusedTid fun _ => Thread.fresh pid with
    threadCount := max s.threadCount (s.unusedTid + 1) }.modProc pid fun p =>
      { p with tids := p.tids ++ [s.unusedTid] }

/-- `thread_create` when there is memory for the thread. -/
def threadCreate (pid : ℕ) : SchedM ℕ := do
  let s ← get
  modify fun s => s.addThread pid
  pcbThreadChangeState depth pid .unused .running
  pure s.unusedTid

/-- The part of `thread_cleanup` before the counters. The last thread of the table is freed. -/
def dropThread (s : Sched) (tid : ℕ) : Sched :=
  { (s.removeThread tid).modThread tid fun t => { t with state := .unused, waitingOnThis := [] } with
    threadCount := if tid + 1 = s.threadCount then tid else s.threadCount }.modProc
      (s.threads tid).pid fun p => { p with tids := p.tids.erase tid }

/-- `thread_cleanup`. -/
def threadCleanup (tid : ℕ) : SchedM Unit := do
  let s ← get
  modify fun s => s.dropThread tid
  pcbThreadChangeState depth (s.threads tid).pid .zombie .unused

/-- The wake-up of `thread_exit`, of a mutex and of a semaphore: the state of a thread is
assigned without a word to its process. -/
def wake (s : Sched) (tid : ℕ) : Sched :=
  if s.HasThread tid ∧ (s.threads tid).state = .stopped then
    (s.setState tid .ready).addThreadLocked tid
  else s

/-- `thread_exit`. -/
def threadExit (tid : ℕ) : SchedM Unit := do
  modify fun s => ((s.threads tid).waitingOnThis.foldl wake s).modThread tid fun t =>
    { t with waitingOnThis := [] }
  let s ← get
  pcbThreadChangeState depth (s.threads tid).pid (s.threads tid).state .zombie
  modify fun s => s.setState tid .zombie
  modify fun s => s.schedulerTick cpu
  throw .away

/-- `thread_join` by the thread `curr`, up to where it waits. -/
def threadJoin (curr tid : ℕ) : SchedM ℤ := do
  let s ← get
  if curr = tid ∨ ¬s.HasThread tid ∨ (s.threads tid).isJoinable = false then pure (-1)
  else if (s.threads tid).state = .zombie then do
    threadCleanup depth tid
    pure 0
  else do
    modify fun s => (s.modThread tid fun t =>
      { t with waitingOnThis := t.waitingOnThis ++ [curr] }).setState curr .stopped
    modify fun s => s.schedulerTick cpu
    throw .away

/-- `thread_detach`. -/
def threadDetach (tid : ℕ) : SchedM ℤ := do
  let s ← get
  if ¬s.HasThread tid then pure (-1)
  else do
    modify fun s => s.modThread tid fun t => { t with isJoinable := false }
    if (s.threads tid).state = .zombie then threadCleanup depth tid
    pure 0

end Calls

end Sched

/-! ### What a notification can do -/

/-- A thread that is in the queue of a process for its children. -/
def Sched.Awaits (s : Sched) (tid : ℕ) : Prop := ∃ pid, tid ∈ (s.procs pid).childWaitq

/-- What unblocking threads and telling parents about it can change: counters, states and flags of
processes, and threads among `who` that were blocked and are ready now. -/
structure Woken (who : ℕ → Prop) (s s' : Sched) : Prop where
  threads : ∀ tid, s'.threads tid = s.threads tid ∨
    who tid ∧ (s.threads tid).state.Blocked ∧
      s'.threads tid = { s.threads tid with state := .ready, blockedUntil := 0 }
  procs : ∀ pid, s'.procs pid = { s.procs pid with
    state := (s'.procs pid).state
    counts := (s'.procs pid).counts
    waitStopPending := (s'.procs pid).waitStopPending
    waitContPending := (s'.procs pid).waitContPending }
  threadCount : s'.threadCount = s.threadCount
  pgrps : s'.pgrps = s.pgrps
  cpus : s'.cpus = s.cpus
  timers : s'.timers = s.timers
  now : s'.now = s.now

namespace Woken

variable {who who' : ℕ → Prop} {s s' s'' : Sched} {tid pid : ℕ}

theorem refl (s : Sched) : Woken who s s :=
  ⟨fun _ => .inl rfl, fun _ => rfl, rfl, rfl, rfl, rfl, rfl⟩

theorem trans (h : Woken who s s') (h' : Woken who s' s'') : Woken who s s'' where
  threads tid := by
    rcases h'.threads tid with heq | ⟨hwho, hblocked, heq⟩
    · rw [heq]
      exact h.threads tid
    · rcases h.threads tid with heq' | ⟨-, -, heq'⟩
      · rw [heq'] at hblocked heq
        exact .inr ⟨hwho, hblocked, heq⟩
      · rw [heq'] at hblocked
        exact hblocked.elim
  procs pid := by
    rw [h'.procs pid, h.procs pid]
  threadCount := h'.threadCount.trans h.threadCount
  pgrps := h'.pgrps.trans h.pgrps
  cpus := h'.cpus.trans h.cpus
  timers := h'.timers.trans h.timers
  now := h'.now.trans h.now

theorem mono (h : Woken who s s') (hwho : ∀ tid, who tid → who' tid) : Woken who' s s' :=
  ⟨fun tid => (h.threads tid).imp_right fun h' => ⟨hwho tid h'.1, h'.2⟩, h.procs, h.threadCount,
    h.pgrps, h.cpus, h.timers, h.now⟩

/-- The queues for children stay as they are. -/
theorem awaits_iff (h : Woken who s s') : s'.Awaits tid ↔ s.Awaits tid := by
  have hqueue : ∀ pid, (s'.procs pid).childWaitq = (s.procs pid).childWaitq := fun pid => by
    rw [h.procs pid]
  simp only [Sched.Awaits, hqueue]

/-- A thread that is woken was blocked and is ready, so it is in no other state before or after. -/
theorem state_iff (h : Woken who s s') (tid : ℕ) {a : ThreadState} (hready : a ≠ .ready)
    (hblocked : ¬a.Blocked) : (s'.threads tid).state = a ↔ (s.threads tid).state = a := by
  rcases h.threads tid with heq | ⟨-, hb, heq⟩
  · rw [heq]
  · rw [heq]
    constructor
    · intro ha
      exact absurd ha.symm hready
    · intro ha
      rw [ha] at hb
      exact absurd hb hblocked

theorem hasThread_iff (h : Woken who s s') (tid : ℕ) : s'.HasThread tid ↔ s.HasThread tid := by
  rw [Sched.HasThread, Sched.HasThread, h.threadCount, ne_eq, ne_eq,
    h.state_iff tid (by decide) (by decide)]

/-- A change of the counters, the state and the flags of a process. -/
theorem modProc {f : Process → Process}
    (hf : ∀ p, f p = { p with
      state := (f p).state
      counts := (f p).counts
      waitStopPending := (f p).waitStopPending
      waitContPending := (f p).waitContPending }) : Woken who s (s.modProc pid f) where
  threads _ := .inl rfl
  procs pid' := by
    rw [Sched.procs_modProc]
    split
    · rename_i heq
      rw [heq]
      exact hf _
    · rfl
  threadCount := rfl
  pgrps := rfl
  cpus := rfl
  timers := rfl
  now := rfl

theorem noteState : Woken who s (s.modProc pid Process.noteState) :=
  modProc fun p => by
    rw [Process.noteState]
    split <;> rfl

theorem changeState {old new : ThreadState} :
    Woken who s (s.modProc pid fun p => p.changeState old new) :=
  modProc fun _ => rfl

theorem addThreadLocked : Woken who s (s.addThreadLocked tid) := by
  rw [Sched.addThreadLocked]
  split
  · exact .refl s
  · exact ⟨fun _ => .inl rfl, fun _ => rfl, rfl, rfl, rfl, rfl, rfl⟩

/-- A thread that was blocked becomes ready, if it is not ready yet. -/
theorem ready (h : Woken who s s') (hwho : who tid) (hblocked : (s.threads tid).state.Blocked) :
    Woken who s (s'.modThread tid fun t => { t with state := .ready, blockedUntil := 0 }) where
  threads tid' := by
    rw [Sched.threads_modThread]
    split
    · rename_i heq
      rw [heq]
      refine .inr ⟨hwho, hblocked, ?_⟩
      rcases h.threads tid with heq' | ⟨-, -, heq'⟩ <;> rw [heq']
    · exact h.threads tid'
  procs := h.procs
  threadCount := h.threadCount
  pgrps := h.pgrps
  cpus := h.cpus
  timers := h.timers
  now := h.now

end Woken

namespace Sched

variable {s s' : Sched} {tid pid : ℕ}

theorem threads_addThread (tid : ℕ) : (s.addThread pid).threads tid =
    if tid = s.unusedTid then Thread.fresh pid else s.threads tid :=
  Function.update_apply ..

theorem procs_addThread (pid' : ℕ) : (s.addThread pid).procs pid' = { s.procs pid' with
    tids := if pid' = pid then (s.procs pid').tids ++ [s.unusedTid] else (s.procs pid').tids } := by
  rw [addThread, procs_modProc]
  split
  · next heq => rw [heq]; rfl
  · rfl

theorem threads_dropThread (tid' : ℕ) : (s.dropThread tid).threads tid' =
    if tid' = tid then { s.threads tid with state := .unused, waitingOnThis := [] }
    else s.threads tid' :=
  Function.update_apply ..

theorem procs_dropThread (pid : ℕ) : (s.dropThread tid).procs pid = { s.procs pid with
    tids := if pid = (s.threads tid).pid then (s.procs pid).tids.erase tid
      else (s.procs pid).tids } := by
  rw [dropThread, procs_modProc]
  split
  · next heq => rw [heq]; rfl
  · rfl

/-- The thread that is woken is in the queue of the parent. -/
theorem awaits_of_waiter (h : s.waiter pid = some tid) : s.Awaits tid := by
  rw [waiter] at h
  split at h
  · rw [Option.filter_eq_some_iff] at h
    exact ⟨_, List.mem_of_find?_eq_some h.1⟩
  · cases h

theorem used_of_blocked (h : (s.threads tid).state.Blocked) : (s.threads tid).state ≠ .unused := by
  intro hunused
  rw [hunused] at h
  exact h

theorem unblockThread_idle {depth : ℕ} (h : ¬(s.threads tid).state.Blocked) :
    (unblockThread depth tid).eval s = (.ok (), s) := by
  cases depth
  all_goals
    rw [unblockThread, eval_get_bind, eval_ite, if_neg h]
    rfl

/-- What `unblock` does to a thread when it is called for it. -/
def Unblocks (unblock : ℕ → SchedM Unit) : Prop :=
  ∀ tid s, Woken (fun t => t = tid ∨ s.Awaits t) s ((unblock tid).eval s).2

theorem sendSigchld_woken {unblock : ℕ → SchedM Unit} (hunblock : Unblocks unblock) (s : Sched)
    (pid : ℕ) : Woken s.Awaits s ((sendSigchld unblock pid).eval s).2 := by
  rw [sendSigchld, eval_get_bind, eval_ite]
  split
  · rw [eval_modify_bind, eval_get_bind]
    have hnote : Woken s.Awaits s (s.modProc pid Process.noteState) := .noteState
    cases hw : (s.modProc pid Process.noteState).waiter pid with
    | none => exact hnote
    | some tid =>
      refine hnote.trans ((hunblock tid _).mono ?_)
      rintro t (rfl | ht)
      · exact hnote.awaits_iff.mp (awaits_of_waiter hw)
      · exact hnote.awaits_iff.mp ht
  · exact .refl s

theorem changeState_woken {unblock : ℕ → SchedM Unit} (hunblock : Unblocks unblock) (s : Sched)
    (pid : ℕ) (old new : ThreadState) :
    Woken s.Awaits s ((changeState unblock pid old new).eval s).2 := by
  rw [changeState, eval_modify_bind, eval_get_bind]
  have hchange : Woken s.Awaits s (s.modProc pid fun p => p.changeState old new) := .changeState
  split
  · exact hchange
  · exact hchange.trans ((sendSigchld_woken hunblock _ pid).mono fun _ => hchange.awaits_iff.mp)

/-- `unblock_thread` wakes the thread, and threads that wait for children. -/
theorem unblockThread_woken (depth : ℕ) : Unblocks (unblockThread depth) := by
  induction depth with
  | zero =>
    intro tid s
    rw [unblockThread, eval_get_bind, eval_ite]
    split <;> exact .refl s
  | succ depth ih =>
    intro tid s
    rw [unblockThread, eval_get_bind, eval_ite]
    split
    · rename_i hblocked
      have hchange := (changeState_woken ih s (s.threads tid).pid (s.threads tid).state .ready).mono
        fun t (ht : s.Awaits t) => (.inr ht : t = tid ∨ s.Awaits t)
      rw [eval_bind]
      rcases hres : (changeState (unblockThread depth) (s.threads tid).pid
        (s.threads tid).state .ready).eval s with ⟨⟨e⟩ | ⟨u⟩, s'⟩ <;> rw [hres] at hchange
      · exact hchange
      · exact (hchange.ready (.inl rfl) hblocked).trans .addThreadLocked
    · exact .refl s

/-- A thread that has been unblocked is ready. -/
theorem unblockThread_ready {depth : ℕ} {u : Unit} (hblocked : (s.threads tid).state.Blocked)
    (h : (unblockThread depth tid).eval s = (.ok u, s')) : (s'.threads tid).state = .ready := by
  cases depth with
  | zero =>
    rw [unblockThread, eval_get_bind, eval_ite, if_pos hblocked] at h
    cases h
  | succ depth =>
    rw [unblockThread, eval_get_bind, eval_ite, if_pos hblocked] at h
    obtain ⟨_, s₁, -, h⟩ := eval_bind_eq_ok.mp h
    cases h
    rw [threads_addThreadLocked, threads_modThread, if_pos rfl]

theorem pcbThreadChangeState_woken (depth : ℕ) (s : Sched) (pid : ℕ) (old new : ThreadState) :
    Woken s.Awaits s ((pcbThreadChangeState depth pid old new).eval s).2 :=
  changeState_woken (unblockThread_woken depth) s pid old new

end Sched

end OsPi
