import OsPi.Memory.Regions
import OsPi.Proc.Descriptors
import OsPi.Proc.States

/-!
# Processes, Threads and Their Memory

The state of the kernel that process management works on: the table of processes and the table
of threads of `scheduler/process.c` and `threading/thread.c`, the page allocator, and the file
system. Each process has a page table with its regions.

This module has the state, the functions on threads, and the functions on page tables that
`exec` and the creation of processes share. What wakes threads that wait, and what belongs to the
terminals, is left out.
-/

namespace OsPi

/-! ### The state -/

/-- The registers of `struct cpu_context` that are given values other than zero. The last one is
the page of the page table. -/
structure Context where
  x19 : ℕ
  sp : ℕ
  ttbr0 : ℕ
  deriving DecidableEq, Repr

/-- `tcb_t`. The page of the stack of the thread in the kernel is `none` for a null pointer. -/
structure Tcb where
  state : ThreadState
  pid : ℕ
  isJoinable : Bool
  kernelStack : Option ℕ
  ctx : Context
  deriving DecidableEq, Repr

/-- `pcb_t`. There is no page table where `ttbr0_el1_va` has not been assigned for the process. -/
structure Pcb where
  state : ProcState
  ppid : ℕ
  name : Str
  tids : List ℕ
  counts : ThreadCounts
  table : Option PageTable
  segments : Option (List MemSegment)
  children : List ℕ
  fds : Fds
  sigactions : List SigAction

/-- The processes, the threads, the lock of the regions, where the next `mmap` goes, the page
allocator and the file system. -/
structure System where
  procs : List Pcb
  threads : List Tcb
  lock : Bool
  currMmapVa : ℕ
  pool : Pool
  fs : Fs

/-- Why a call does not succeed: it returns an error, or it does not return. -/
inductive Failure
  | err (e : Err)
  | stop (why : Stop)
  deriving DecidableEq, Repr

/-- Computations of the kernel. -/
abbrev SysM := Comp System Failure

namespace System

variable (sys : System)

/-- `thread_get_by_tid`. -/
def thread? (tid : ℕ) : Option Tcb := sys.threads[tid]?.filter fun t => t.state ≠ .unused

/-- Change a process. -/
def modifyProc (pid : ℕ) (f : Pcb → Pcb) : System := { sys with procs := sys.procs.modify pid f }

/-- Change a thread. -/
def modifyThread (tid : ℕ) (f : Tcb → Tcb) : System :=
  { sys with threads := sys.threads.modify tid f }

end System

/-! ### Threads -/

/-- `pcb_thread_change_state`. -/
def Pcb.threadChangeState (p : Pcb) (old new : ThreadState) : Pcb :=
  let counts := (p.counts.add (-1) old).add 1 new
  { p with counts, state := counts.state }

namespace System

variable (sys : System)

/-- `thread_cleanup`. The last thread of the table is freed. The page of its stack is not. -/
def threadCleanup (tid : ℕ) : System :=
  match sys.threads[tid]? with
  | none => sys
  | some t =>
    let threads :=
      if tid + 1 = sys.threads.length then sys.threads.dropLast
      else sys.threads.set tid { t with state := .unused }
    { sys with threads }.modifyProc t.pid fun p =>
      { p.threadChangeState .zombie .unused with tids := p.tids.erase tid }

/-- `thread_detach`, called by the given thread. -/
def threadDetach (curr : Option ℕ) (tid : ℕ) : System :=
  match curr, sys.thread? tid with
  | some _, some t =>
    let sys := sys.modifyThread tid fun t => { t with isJoinable := false }
    if t.state = .zombie then sys.threadCleanup tid else sys
  | _, _ => sys

/-- `terminate_thread`, for a thread that was one of the given process. A thread that has been
freed meanwhile reads as one that is not in use. -/
def terminateThread (tid pid : ℕ) : System :=
  let state := (sys.threads[tid]?.map Tcb.state).getD .unused
  if state = .zombie then sys
  else (sys.modifyThread tid fun t => { t with state := .zombie }).modifyProc pid fun p =>
    p.threadChangeState state .zombie

end System

/-! ### Page tables -/

/-- `initialize_user_page_table`: the new table, unless memory has run out. -/
def initializeUserPageTable (mem : Allocs) : VmM Bool := do
  let v ← get
  match v.pool.allocPage with
  | none => pure false
  | some (page, pool) => do
    set { v with pool, table := PageTree.empty page, segments := none }
    lockMetadata
    let made ← ensurePageTable mem
    unlockMetadata
    match made with
    | .error _ => pure false
    | .ok _ => pure true

/-- `destroy_page_table`. -/
def destroyPageTable : VmM Unit := do
  lockMetadata
  modify fun v => { v with segments := none }
  unlockMetadata
  let v ← get
  match destroyLevel v.table v.pool with
  | none => throw .fatal
  | some pool => set { v with pool }

/-- The loop that seeds pages of the kernel at the given addresses, up to the first it has no
memory for. -/
def seedKernelPages : List ℕ → VmM Bool
  | [] => pure true
  | va :: rest => do
    let v ← get
    let r := ptMapNewPage v.table va Pte.kernelRw v.pool
    set { v with table := r.table, pool := r.pool }
    if r.done then seedKernelPages rest else pure false

/-- The addresses of the pages of the kernel stack of a process. -/
def kernelStackPages : List ℕ :=
  [procKernelStack.start, procKernelStack.start + pageSize]

end OsPi
