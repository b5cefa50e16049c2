import OsPi.Lib.Comp
import OsPi.Proc.States

/-!
# The State of the Scheduler

The part of the kernel that decides which threads run: `scheduler/scheduler.c`,
`scheduler/process.c`, `threading/thread.c`, `signals/signals.c` and the timers of
`timer/timer.c`. This module has the state those files share: the threads, the processes with
their groups, the queues of threads that are ready, the thread each CPU runs, and the timers.

The memory of a process and its files are modelled elsewhere and left out here, and so is what
belongs to the terminals. The tables are functions of the number of an entry; where the source
looks for an entry it searches a part of the table that is given by its length.
-/

namespace OsPi

open Function

/-- `signalset_t`. -/
abbrev SignalSet := BitVec 32

/-- `SIGKILL`, `SIGSTOP` and `SIGCONT`. -/
def sigKill : ℕ := 9

@[inherit_doc sigKill] def sigStop : ℕ := 10

@[inherit_doc sigKill] def sigCont : ℕ := 11

/-- The actions of a process for signals. No call gives `SIGKILL` or `SIGSTOP` a handler. -/
structure SigActions where
  act : ℕ → SigAction
  kill : (act sigKill).handler = .dfl
  stop : (act sigStop).handler = .dfl

/-- The actions of a new process. -/
def SigActions.default : SigActions := ⟨fun _ => ⟨.dfl, 0, 0⟩, rfl, rfl⟩

/-- `tcb_t`. The process of a thread is given by its number. -/
structure Thread where
  state : ThreadState
  stoppedState : ThreadState
  pid : ℕ
  isJoinable : Bool
  waitingOnThis : List ℕ
  pending : SignalSet
  mask : SignalSet
  priority : ℕ
  blockedUntil : BitVec 32
  waitingForPid : ℤ
  waitingForFlags : BitVec 32

/-- `pcb_t`. -/
structure Process where
  state : ProcState
  ppid : ℕ
  pgid : ℤ
  tids : List ℕ
  counts : ThreadCounts
  exitCode : BitVec 32
  waitStopPending : Bool
  waitContPending : Bool
  children : List ℕ
  sigactions : SigActions
  pending : SignalSet
  childWaitq : List ℕ

/-- `pgrp_t`. -/
structure Pgrp where
  pids : List ℕ
  refcount : ℤ
  deriving DecidableEq, Repr

/-- A `software_timer_t` that is active, for `timer_wake_thread` and the given thread. -/
structure Timer where
  deadline : BitVec 64
  tid : ℕ
  deriving DecidableEq, Repr

/-- The state of the scheduler. The queues hold threads in the order in which they are taken:
the source inserts at the front of a vector and takes from its back. -/
structure Sched where
  procs : ℕ → Process
  threads : ℕ → Thread
  threadCount : ℕ
  pgrps : ℤ → Option Pgrp
  queues : ℕ → List ℕ
  priCounters : ℕ → ℕ
  currPri : ℕ
  cpus : ℕ → Option ℕ
  timers : ℕ → Option Timer
  now : BitVec 64

/-- A thread that nobody uses. -/
def Thread.zero : Thread := ⟨.unused, .unused, 0, false, [], 0, 0, 0, 0, 0, 0⟩

/-- A process that nobody uses. -/
def Process.zero : Process :=
  ⟨.unused, 0, 0, [], ⟨0, 0, 0, 0⟩, 0, false, false, [], .default, 0, []⟩

/-- The state before the first process is created. -/
def Sched.zero : Sched where
  procs := fun _ => Process.zero
  threads := fun _ => Thread.zero
  threadCount := 0
  pgrps := fun _ => none
  queues := fun _ => []
  priCounters := fun _ => 0
  currPri := 0
  cpus := fun _ => none
  timers := fun _ => none
  now := 0

/-- Whether a process is in use. -/
def Process.Live (p : Process) : Prop := p.state ≠ .unused

instance (p : Process) : Decidable p.Live := inferInstanceAs (Decidable (_ ≠ _))

/-- The three states of a thread that waits for something. -/
def ThreadState.Blocked : ThreadState → Prop
  | .blockedInterruptable | .blockedUninteruptable | .blockedKillable => True
  | _ => False

instance : DecidablePred ThreadState.Blocked := fun a => by
  cases a <;> simp only [ThreadState.Blocked] <;> infer_instance

namespace Sched

variable (s : Sched)

/-- Change a thread. -/
def modThread (tid : ℕ) (f : Thread → Thread) : Sched :=
  { s with threads := update s.threads tid (f (s.threads tid)) }

/-- Change a process. -/
def modProc (pid : ℕ) (f : Process → Process) : Sched :=
  { s with procs := update s.procs pid (f (s.procs pid)) }

/-- Assign the state of a thread. -/
def setState (tid : ℕ) (a : ThreadState) : Sched := s.modThread tid fun t => { t with state := a }

/-- Whether `thread_get_by_tid` finds a thread. -/
def HasThread (tid : ℕ) : Prop := tid < s.threadCount ∧ (s.threads tid).state ≠ .unused

instance (tid : ℕ) : Decidable (s.HasThread tid) := inferInstanceAs (Decidable (_ ∧ _))

/-- Whether `get_pcb_by_pid` finds a process. -/
def HasProc (pid : ℕ) : Prop := pid < maxProcessCount ∧ (s.procs pid).Live

instance (pid : ℕ) : Decidable (s.HasProc pid) := inferInstanceAs (Decidable (_ ∧ _))

variable {s} {tid tid' pid pid' : ℕ} {f : Thread → Thread} {g : Process → Process}

@[simp] theorem threads_modThread :
    (s.modThread tid f).threads tid' = if tid' = tid then f (s.threads tid) else s.threads tid' :=
  update_apply ..

@[simp] theorem procs_modThread : (s.modThread tid f).procs = s.procs := rfl

@[simp] theorem threads_modProc : (s.modProc pid g).threads = s.threads := rfl

@[simp] theorem procs_modProc :
    (s.modProc pid g).procs pid' = if pid' = pid then g (s.procs pid) else s.procs pid' :=
  update_apply ..

/-- What a change of a thread, or of a process, leaves alone. -/
theorem modThread_congr {α : Sort*} (φ : Thread → α)
    (h : φ (f (s.threads tid)) = φ (s.threads tid)) (tid' : ℕ) :
    φ ((s.modThread tid f).threads tid') = φ (s.threads tid') := by
  rw [threads_modThread]
  split
  · rename_i heq
    rw [heq, h]
  · rfl

theorem modProc_congr {α : Sort*} (φ : Process → α)
    (h : φ (g (s.procs pid)) = φ (s.procs pid)) (pid' : ℕ) :
    φ ((s.modProc pid g).procs pid') = φ (s.procs pid') := by
  rw [procs_modProc]
  split
  · rename_i heq
    rw [heq, h]
  · rfl

end Sched

end OsPi
