import Mathlib.Data.Int.Notation
import Mathlib.Data.Nat.Notation

/-!
# The States of Threads and Processes

The enumerations of `threading/thread.h` and `scheduler/process.h`, the counters by which a
process knows the states of its threads, with the two switches of `pcb_thread_change_state`, and
what a process does with a signal.
-/

namespace OsPi

/-- `MAX_PROCESS_COUNT`. -/
def maxProcessCount : ℕ := 256

/-- `enum thread_state`. -/
inductive ThreadState
  | unused
  | ready
  | running
  | stopped
  | zombie
  | blockedInterruptable
  | blockedUninteruptable
  | blockedKillable
  deriving DecidableEq, Repr

/-- `enum process_state`. -/
inductive ProcState
  | unused
  | running
  | blocked
  | stopped
  | zombie
  deriving DecidableEq, Repr

/-- The numbers of threads of a process in each kind of state. -/
structure ThreadCounts where
  running : ℤ
  blocked : ℤ
  stopped : ℤ
  zombie : ℤ
  deriving DecidableEq, Repr

/-- The part of `pcb_thread_change_state` for the old state, or with `1` for the new one. -/
def ThreadCounts.add (c : ThreadCounts) (n : ℤ) : ThreadState → ThreadCounts
  | .ready | .running => { c with running := c.running + n }
  | .stopped => { c with stopped := c.stopped + n }
  | .zombie => { c with zombie := c.zombie + n }
  | .blockedInterruptable | .blockedKillable | .blockedUninteruptable =>
    { c with blocked := c.blocked + n }
  | .unused => c

/-- The state of a process with threads in the given states. -/
def ThreadCounts.state (c : ThreadCounts) : ProcState :=
  if 0 < c.running then .running
  else if 0 < c.blocked then .blocked
  else if 0 < c.stopped then .stopped
  else .zombie

/-- A handler of a signal: `SIG_DFL`, `SIG_IGN` or a function of the program. -/
inductive Handler
  | dfl
  | ign
  | user (addr : ℕ)
  deriving DecidableEq, Repr

/-- `struct sigaction`. -/
structure SigAction where
  handler : Handler
  mask : ℕ
  flags : ℕ
  deriving DecidableEq, Repr

end OsPi
