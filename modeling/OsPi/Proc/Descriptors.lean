import OsPi.Fs.Operations

/-!
# The Descriptors of Processes

A model of the descriptors of processes: `fs/cmds.c` for `open`, `close`, `read`, `write` and
`lseek`, `pipe/pipe.c` for `pipe`, and `scheduler/process.c` for `fork`, `dup2` and
`proc_destroy`. A process has a table of descriptors, whose slots hold numbers of entries of the
open file table.

`read`, `write` and `lseek` take a reference to the entry before their work and drop it after it,
and a thread may wait in between, so that each of them is three calls here. The other calls are
one step each.
-/

namespace OsPi

/-- The descriptors of a process; an empty slot holds `-1`. -/
abbrev Fds := List (Option ℕ)

/-- The computations of a process. -/
abbrev ProcM := Comp (Fds × Fs) Err

/-- `SYS_EBADF`, `SYS_ENOMEM` and `SYS_ESRCH`, by the errors with the same codes. -/
def sysEbadf : Err := .invalidArgs
def sysEnomem : Err := .fatNoSpaceRemaining
def sysEsrch : Err := .fileReadError

/-! ### Calls that concern one process -/

/-- The first empty slot, or the end of the table. -/
def Fds.free (fds : Fds) : ℕ := fds.findIdx fun slot => slot.isNone

/-- The table with an entry in that slot. -/
def Fds.install (fds : Fds) (kfd : ℕ) : Fds :=
  if fds.free = fds.length then fds ++ [some kfd] else fds.set fds.free (some kfd)

/-- `install_process_fd`. -/
def installProcessFd (kfd : ℕ) : ProcM ℕ := do
  let (fds, _) ← get
  modify fun s => (s.1.install kfd, s.2)
  pure fds.free

/-- The entry a descriptor stands for, with the checks of `close` and of `pin_process_fd`. -/
def slotOf (fd : ℤ) : ProcM ℕ := do
  let (fds, _) ← get
  if fd < 0 ∨ fds.length ≤ fd then throw .invalidArgs
  match fds[fd.toNat]? with
  | some (some kfd) => pure kfd
  | _ => throw .oftFdDoesNotExist

/-- The table with a slot assigned, made longer if need be. -/
def Fds.assign (fds : Fds) (fd kfd : ℕ) : Fds :=
  (fds ++ List.replicate (fd + 1 - fds.length) none).set fd (some kfd)

/-- Assign a slot. -/
def setSlot (fd : ℕ) (slot : Option ℕ) : ProcM Unit := modify fun s => (s.1.set fd slot, s.2)

namespace Proc

variable (env : Env)

/-- `open`. -/
def openPath (fname : Str) (mode : UInt8) : ProcM ℕ := do
  let kfd ← onFs (kOpen env fname mode)
  installProcessFd kfd

/-- `close`: the slot is emptied first. -/
def close (fd : ℤ) : ProcM Unit := do
  let kfd ← slotOf fd
  setSlot fd.toNat none
  onFs (kClose env kfd)

/-- `pin_process_fd`. -/
def pin (fd : ℤ) : ProcM ℕ := do
  let kfd ← slotOf fd
  onFs (oftAddReference kfd)
  pure kfd

/-- The entry `dup2` duplicates. -/
def dupSlot (oldfd newfd : ℤ) : ProcM ℕ := do
  let (fds, _) ← get
  if oldfd < 0 ∨ newfd < 0 ∨ fds.length ≤ oldfd then throw sysEbadf
  match fds[oldfd.toNat]? with
  | some (some kfd) => pure kfd
  | _ => throw sysEbadf

/-- `dup2`, which looks at the result of neither `k_file_add_reference` nor `close`. -/
def dup2 (oldfd newfd : ℤ) : ProcM Unit := do
  let kfd ← dupSlot oldfd newfd
  let _ ← tryErr (onFs (kFileAddReference env kfd))
  let _ ← tryErr (close env newfd)
  modify fun s => (s.1.assign newfd.toNat kfd, s.2)

/-- `pipe`. -/
def pipe : ProcM (ℕ × ℕ) := do
  let (ino, readFd, writeFd) ← onFs (pipeEntries env)
  let fd0 ← installProcessFd readFd
  let fd1 ← installProcessFd writeFd
  onFs (pipeAttach env ino readFd writeFd)
  pure (fd0, fd1)

/-- The loop of `fork` that adds references for the descriptors of the child. -/
def addReferences : Fds → FsM Unit
  | [] => pure ()
  | none :: rest => addReferences rest
  | some kfd :: rest => do
    let _ ← tryErr (kFileAddReference env kfd)
    addReferences rest

/-- The loop of `proc_destroy` that closes the descriptors. -/
def closeAll : Fds → FsM Unit
  | [] => pure ()
  | none :: rest => closeAll rest
  | some kfd :: rest => do
    let _ ← tryErr (kClose env kfd)
    closeAll rest

end Proc

/-! ### The kernel -/

/-- A reference that a running `read`, `write` or `lseek` of a process has taken. -/
structure Pin where
  pid : ℕ
  kfd : ℕ
  deriving DecidableEq, Repr

/-- The table of processes, without those that are not in use, and the references of running
calls. -/
structure Procs where
  table : List (Option Fds)
  pins : List Pin
  deriving DecidableEq, Repr

/-- The computations of the kernel. -/
abbrev KernelM := Comp (Procs × Fs) Err

/-- The descriptors of a process, if there is one with that number. -/
def Procs.fds? (ps : Procs) (pid : ℕ) : Option Fds := ps.table[pid]?.join

/-- Assign the descriptors of a process. -/
def Procs.setFds (ps : Procs) (pid : ℕ) (fds : Option Fds) : Procs :=
  { ps with table := ps.table.set pid fds }

/-- A call of a process. -/
def asProcess {α : Type} (pid : ℕ) (m : ProcM α) : KernelM α :=
  ExceptT.mk fun s =>
    match s.1.fds? pid with
    | none => (.error .pidNotFound, s)
    | some fds =>
      ((m.eval (fds, s.2)).1,
        (s.1.setFds pid (some (m.eval (fds, s.2)).2.1), (m.eval (fds, s.2)).2.2))

/-- How the part of `fork` before it copies the descriptors ends. -/
inductive ForkOutcome
  /-- There is a child. -/
  | created
  /-- `proc_create` has failed and left its process in use. -/
  | left
  /-- The child has been destroyed again. -/
  | destroyed
  deriving DecidableEq, Repr

/-- The work of a call on an open file. -/
inductive IoCall
  | read (n : ℕ)
  | write (buf n : ℕ)
  | readPipe (count : ℕ)
  | writePipe (bytes : Str)
  | lseek (offset : ℤ) (whence : Whence)

/-- The work of a call, as one on an entry. -/
def IoCall.on (kfd : ℕ) : IoCall → FsCall
  | .read n => .read kfd n
  | .write buf n => .write kfd buf n
  | .readPipe count => .readPipe kfd count
  | .writePipe bytes => .writePipe kfd bytes
  | .lseek offset whence => .lseek kfd offset whence

/-- The first process that is not in use, or the end of the table: `get_next_unused_pcb`. -/
def Procs.unused (ps : Procs) : ℕ := ps.table.findIdx fun p => p.isNone

/-- The part of `fork` that concerns descriptors: the child has a copy of those of its parent. -/
def forkInto (env : Env) (fds : Fds) (child : ℕ) : ForkOutcome → KernelM Unit
  | .left => do
    modify fun s => (s.1.setFds child (some []), s.2)
    throw sysEagain
  | .destroyed => throw sysEinval
  | .created => do
    modify fun s => (s.1.setFds child (some fds), s.2)
    onFs (Proc.addReferences env fds)

/-- `fork`. -/
def fork (env : Env) (pid : ℕ) (outcome : ForkOutcome) : KernelM Unit := do
  let (ps, _) ← get
  match ps.fds? pid with
  | none => throw sysEsrch
  | some fds =>
    if ps.unused = ps.table.length then throw sysEagain
    else forkInto env fds ps.unused outcome

/-- `proc_destroy`, which does nothing when there is no memory to copy the descriptors to. The
calls of the process that are running never return. -/
def procDestroy (env : Env) (pid : ℕ) (noMemory : Bool) : KernelM Unit := do
  let (ps, _) ← get
  match ps.fds? pid with
  | none => pure ()
  | some fds =>
    if noMemory ∧ fds ≠ [] then pure ()
    else do
      modify fun s =>
        ({ s.1.setFds pid none with pins := s.1.pins.filter fun p => p.pid ≠ pid }, s.2)
      onFs (Proc.closeAll env fds)

/-- The calls of the kernel that concern descriptors. -/
inductive KCall
  | openPath (pid : ℕ) (fname : Str) (mode : UInt8)
  | close (pid : ℕ) (fd : ℤ)
  | dup2 (pid : ℕ) (oldfd newfd : ℤ)
  | fork (pid : ℕ) (outcome : ForkOutcome)
  | pipe (pid : ℕ)
  /-- The part of `read`, `write` and `lseek` before their work. -/
  | pin (pid : ℕ) (fd : ℤ)
  /-- The work of a running call, or the part of it up to where the thread has to wait. -/
  | work (p : Pin) (io : IoCall)
  /-- The part of `read`, `write` and `lseek` after their work. -/
  | unpin (p : Pin)
  | destroy (pid : ℕ) (noMemory : Bool)

namespace KCall

/-- Run a call. -/
def run (env : Env) : KCall → KernelM Unit
  | .openPath pid fname mode => asProcess pid do let _ ← Proc.openPath env fname mode
  | .close pid fd => asProcess pid (Proc.close env fd)
  | .dup2 pid oldfd newfd => asProcess pid (Proc.dup2 env oldfd newfd)
  | .fork pid outcome => OsPi.fork env pid outcome
  | .pipe pid => asProcess pid do let _ ← Proc.pipe env
  | .pin pid fd => do
    let kfd ← asProcess pid (Proc.pin fd)
    modify fun s => ({ s.1 with pins := ⟨pid, kfd⟩ :: s.1.pins }, s.2)
  | .work p io => do
    let (ps, _) ← get
    if p ∈ ps.pins then onFs ((io.on p.kfd).run env)
  | .unpin p => do
    let (ps, _) ← get
    if p ∈ ps.pins then do
      modify fun s => ({ s.1 with pins := s.1.pins.erase p }, s.2)
      let _ ← tryErr (onFs (oftCloseFile env p.kfd))
  | .destroy pid noMemory => procDestroy env pid noMemory

end KCall

end OsPi
