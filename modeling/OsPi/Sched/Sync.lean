import Mathlib.Data.List.Nodup
import OsPi.Lib.Machine
import OsPi.Sched.BalancedCalls

/-!
# Waiting for Locks, and the Counters over Whole Runs

A model of `threading/mutex.c` and `threading/semaphore.c` and of what `elf_exec_process` does to
the threads of a process, and with these a machine for everything that changes the state of a
thread. A thread that has to wait for a lock or for another thread is stopped by assigning its
state, and the counters of its process are not told.

The counters are right over every run in which no thread has to wait in this way, only processes
with one thread call `exec`, and no thread is woken by its own end.
-/

namespace OsPi

open Function List

/-- `mutex_t`, with the threads that wait in the order of the vector. -/
structure Mutex where
  owner : Option ℕ
  lockCount : ℤ
  waiting : List ℕ
  deriving DecidableEq, Repr

/-- `semaphore_t`. The count is an `int`. -/
structure Semaphore where
  count : BitVec 32
  waiting : List ℕ
  deriving DecidableEq, Repr

/-- `reset_exec_signal_dispositions`. -/
def SigActions.reset (a : SigActions) : SigActions where
  act signum :=
    if signum ≠ sigKill ∧ signum ≠ sigStop ∧ (a.act signum).handler = .ign then a.act signum
    else ⟨.dfl, 0, 0⟩
  kill := by rw [if_neg fun h => h.1 rfl]
  stop := by rw [if_neg fun h => h.2.1 rfl]

namespace Sched

/-- The loop of `elf_exec_process` that ends all threads but one. It detaches a thread before it
ends it, which removes one that has ended; the list is then shorter and the index goes on. -/
def detachOthers (depth cpu pid keep : ℕ) : ℕ → ℕ → SchedM Unit
  | 0, _ => pure ()
  | turns + 1, i => do
    let s ← get
    match (s.procs pid).tids[i]? with
    | none => pure ()
    | some tid => do
      if s.HasThread tid ∧ tid ≠ keep then do
        let _ ← threadDetach depth tid
        terminateThread depth cpu tid
      detachOthers depth cpu pid keep turns (i + 1)

/-- The thread that is left to run a program: the current one if it belongs to the process. -/
def execThread (s : Sched) (curr pid : ℕ) : Option ℕ :=
  if (s.threads curr).pid = pid then some curr
  else (s.procs pid).tids.head?.filter fun tid => s.HasThread tid

/-- `elf_exec_process` as far as the threads go: whether the program can be loaded decides if the
list of threads is replaced. -/
def execProcess (depth cpu curr pid : ℕ) (loads : Bool) : SchedM Unit := do
  let s ← get
  match s.execThread curr pid with
  | none => pure ()
  | some keep => do
    detachOthers depth cpu pid keep (s.procs pid).tids.length 0
    if loads then modify fun s => s.modProc pid fun p =>
      { p with tids := [keep], sigactions := p.sigactions.reset }

/-- A thread is stopped and gives up the CPU; the counters are not told. -/
def park (s : Sched) (cpu tid : ℕ) : Sched := (s.setState tid .stopped).schedulerTick cpu

end Sched

/-- The scheduler with the locks. -/
structure Locks where
  sched : Sched
  mutexes : ℕ → Mutex
  semaphores : ℕ → Semaphore

namespace Locks

/-- `mutex_lock`, up to where the thread waits. -/
def mutexLock (k : Locks) (cpu tid m : ℕ) : Locks :=
  match (k.mutexes m).owner with
  | none =>
    { k with mutexes := update k.mutexes m ⟨some tid, 1, (k.mutexes m).waiting⟩ }
  | some _ =>
    { k with
      mutexes := update k.mutexes m
        { k.mutexes m with waiting := (k.mutexes m).waiting ++ [tid] }
      sched := k.sched.park cpu tid }

/-- The wake-up of `mutex_unlock`, which does not look at the state of the thread. -/
def wakeLast (s : Sched) (waiting : List ℕ) : Sched :=
  match waiting.getLast? with
  | none => s
  | some tid => if s.HasThread tid then (s.setState tid .ready).addThreadLocked tid else s

/-- `mutex_unlock`. -/
def mutexUnlock (k : Locks) (tid m : ℕ) : Locks :=
  if (k.mutexes m).owner ≠ some tid then k
  else if (k.mutexes m).lockCount - 1 ≠ 0 then
    { k with
      mutexes := update k.mutexes m
        { k.mutexes m with lockCount := (k.mutexes m).lockCount - 1 } }
  else
    { k with
      mutexes := update k.mutexes m ⟨none, 0, (k.mutexes m).waiting.dropLast⟩
      sched := wakeLast k.sched (k.mutexes m).waiting }

/-- `sem_wait`, up to where the thread waits. -/
def semWait (k : Locks) (cpu tid x : ℕ) : Locks :=
  if 0 ≤ ((k.semaphores x).count - 1).toInt then
    { k with
      semaphores := update k.semaphores x
        { k.semaphores x with count := (k.semaphores x).count - 1 } }
  else
    { k with
      semaphores := update k.semaphores x
        ⟨(k.semaphores x).count - 1, (k.semaphores x).waiting ++ [tid]⟩
      sched := k.sched.park cpu tid }

/-- `sem_post`. -/
def semPost (k : Locks) (x : ℕ) : Locks :=
  if ((k.semaphores x).count + 1).toInt ≤ 0 then
    match (k.semaphores x).waiting with
    | [] => { k with semaphores := update k.semaphores x ⟨(k.semaphores x).count + 1, []⟩ }
    | tid :: rest =>
      { k with
        semaphores := update k.semaphores x ⟨(k.semaphores x).count + 1, rest⟩
        sched := k.sched.wake tid }
  else
    { k with
      semaphores := update k.semaphores x
        { k.semaphores x with count := (k.semaphores x).count + 1 } }

/-- What a thread can do. -/
inductive Call
  | create
  | createThread
  | exit (code : BitVec 32)
  | exitThread
  | join (tid : ℕ)
  | detach (tid : ℕ)
  | exec (pid : ℕ) (loads : Bool)
  | wait (copied : ℕ → Bool) (pid : ℤ) (flags : BitVec 32)
  | waitAgain (copied : ℕ → Bool)
  | block (state : ThreadState)
  | stop (tid : ℕ)
  | terminate (tid : ℕ)
  | lock (m : ℕ)
  | unlock (m : ℕ)
  | semWait (x : ℕ)
  | semPost (x : ℕ)

/-- What can happen: the first process is made, a CPU picks a thread, the thread that a CPU runs
makes a call, or a thread is unblocked or continued. -/
inductive Event
  | boot
  | tick (cpu : ℕ)
  | call (cpu : ℕ) (call : Call)
  | unblock (tid : ℕ)
  | resume (tid : ℕ)

/-- The state after a call that does not hang. -/
def outcome {α : Type} (k : Locks) : Except Leave α × Sched → Option Locks
  | (.error .hang, _) => none
  | (_, s) => some { k with sched := s }

/-- A call of the thread `tid`. A thread goes on waiting only if it waits. -/
def call (depth cpu tid : ℕ) (k : Locks) : Call → Option Locks
  | .create => k.outcome ((Sched.spawn depth (k.sched.threads tid).pid).eval k.sched)
  | .createThread => k.outcome ((Sched.threadCreate depth (k.sched.threads tid).pid).eval k.sched)
  | .exit code => k.outcome ((Sched.exitProcess depth cpu tid code).eval k.sched)
  | .exitThread => k.outcome ((Sched.threadExit depth cpu tid).eval k.sched)
  | .join tid' => k.outcome ((Sched.threadJoin depth cpu tid tid').eval k.sched)
  | .detach tid' => k.outcome ((Sched.threadDetach depth tid').eval k.sched)
  | .exec pid loads => k.outcome ((Sched.execProcess depth cpu tid pid loads).eval k.sched)
  | .wait copied pid flags =>
    k.outcome ((Sched.sWaitpid depth cpu copied tid pid flags).eval k.sched)
  | .waitAgain copied =>
    if tid ∈ (k.sched.procs (k.sched.threads tid).pid).childWaitq then
      k.outcome ((Sched.sWaitpidAgain depth cpu copied tid).eval k.sched)
    else none
  | .block state => k.outcome ((Sched.blockThread depth cpu tid state).eval k.sched)
  | .stop tid' =>
    if k.sched.HasThread tid' then k.outcome ((Sched.stopThread depth cpu tid').eval k.sched)
    else none
  | .terminate tid' =>
    if k.sched.HasThread tid' then
      k.outcome ((Sched.terminateThread depth cpu tid').eval k.sched)
    else none
  | .lock m => some (k.mutexLock cpu tid m)
  | .unlock m => some (k.mutexUnlock tid m)
  | .semWait x => some (k.semWait cpu tid x)
  | .semPost x => some (k.semPost x)

/-- The machine. -/
def machine (depth : ℕ) : Machine Locks Event
  | k, .boot => k.outcome ((Sched.spawn depth 0).eval k.sched)
  | k, .tick cpu => some { k with sched := k.sched.schedulerTick cpu }
  | k, .call cpu c => (k.sched.cpus cpu).bind fun tid => k.call depth cpu tid c
  | k, .unblock tid => k.outcome ((Sched.unblockThread depth tid).eval k.sched)
  | k, .resume tid => k.outcome ((Sched.continueThread depth tid).eval k.sched)

/-- The conditions under which a call keeps the counters: the thread that makes it is running, it
does not have to wait for a lock or a thread, a program is executed by the only thread of a process,
and nobody wakes itself. -/
def Call.Clean (depth cpu tid : ℕ) (k : Locks) : Call → Prop
  | .exit code =>
    Sched.NoneWakesItself depth cpu tid (k.sched.procs (k.sched.threads tid).pid).tids
      (k.sched.modProc (k.sched.threads tid).pid fun p => { p with exitCode := code })
  | .join tid' => tid = tid' ∨ ¬k.sched.HasThread tid' ∨ (k.sched.threads tid').isJoinable = false ∨
      (k.sched.threads tid').state = .zombie
  | .exec pid _ => (k.sched.procs pid).tids.length ≤ 1
  | .stop tid' => ¬k.sched.WakesItself tid' .stopped
  | .terminate tid' => ¬k.sched.WakesItself tid' .zombie
  | .lock m => (k.mutexes m).owner = none
  | .semWait x => 0 ≤ ((k.semaphores x).count - 1).toInt
  | _ => True

@[inherit_doc Call.Clean]
def Clean (depth : ℕ) (k : Locks) : Event → Prop
  | .call cpu c => ∃ tid, k.sched.cpus cpu = some tid ∧
      (k.sched.threads tid).state = .running ∧ c.Clean depth cpu tid k
  | _ => True

/-- The only thread of a process may exit. -/
theorem clean_exit {k : Locks} {depth cpu tid : ℕ} {code : BitVec 32}
    (h : (k.sched.procs (k.sched.threads tid).pid).tids = [tid]) :
    Call.Clean depth cpu tid k (.exit code) := by
  rw [Call.Clean, h]
  exact ⟨fun hother => absurd rfl hother.2, trivial⟩

/-- The counters are right and nobody waits for a lock. -/
structure Kept (k : Locks) : Prop where
  balanced : Sched.Balanced k.sched
  mutexes : ∀ m, (k.mutexes m).waiting = []
  semaphores : ∀ x, (k.semaphores x).waiting = []

variable {k k' : Locks} {depth cpu tid : ℕ}

theorem Kept.outcome {α : Type} {m : SchedM α} (h : Kept k)
    (hm : Comp.Post m k.sched (Sched.Ends Sched.Balanced))
    (hout : k.outcome (m.eval k.sched) = some k') : Kept k' := by
  unfold Comp.Post at hm
  rcases hres : m.eval k.sched with ⟨⟨_ | _⟩ | a, s⟩ <;> rw [hres] at hm hout <;> cases hout
  all_goals exact ⟨hm, h.mutexes, h.semaphores⟩

theorem kept_mutexLock {m : ℕ} (h : Kept k) (hfree : (k.mutexes m).owner = none) :
    Kept (k.mutexLock cpu tid m) := by
  rw [mutexLock, hfree]
  refine ⟨h.balanced, fun m' => ?_, h.semaphores⟩
  dsimp only
  rw [update_apply]
  split
  · exact h.mutexes m
  · exact h.mutexes m'

theorem kept_mutexUnlock {m : ℕ} (h : Kept k) : Kept (k.mutexUnlock tid m) := by
  rw [mutexUnlock, wakeLast, h.mutexes m]
  split
  · exact h
  · split <;> refine ⟨h.balanced, fun m' => ?_, h.semaphores⟩ <;> dsimp only <;>
      rw [update_apply] <;> split
    all_goals first | rfl | exact h.mutexes _

theorem kept_semWait {x : ℕ} (h : Kept k) (hfree : 0 ≤ ((k.semaphores x).count - 1).toInt) :
    Kept (k.semWait cpu tid x) := by
  rw [semWait, if_pos hfree]
  refine ⟨h.balanced, h.mutexes, fun x' => ?_⟩
  dsimp only
  rw [update_apply]
  split
  · exact h.semaphores x
  · exact h.semaphores x'

theorem kept_semPost {x : ℕ} (h : Kept k) : Kept (k.semPost x) := by
  rw [semPost, h.semaphores x]
  split <;> refine ⟨h.balanced, h.mutexes, fun x' => ?_⟩ <;> dsimp only <;>
    rw [update_apply] <;> split
  all_goals first | rfl | exact h.semaphores _

end Locks

namespace Sched

variable {s : Sched} {depth cpu curr pid keep tid : ℕ}

/-- A thread of a process with at most one thread is the one that is left. -/
theorem tids_of_execThread (hs : Owned s) (hused : (s.threads curr).state ≠ .unused)
    (hsingle : (s.procs pid).tids.length ≤ 1) (hkeep : s.execThread curr pid = some keep) :
    (s.procs pid).tids = [keep] := by
  have hmem : keep ∈ (s.procs pid).tids := by
    rw [execThread] at hkeep
    split at hkeep
    · rename_i hpid
      cases hkeep
      exact hpid ▸ hs.listed curr hused
    · exact mem_of_head? (Option.filter_eq_some_iff.mp hkeep).1
  obtain ⟨tid, htids⟩ := length_eq_one_iff.mp
    (Nat.le_antisymm hsingle (length_pos_of_mem hmem))
  rw [htids] at hmem ⊢
  rw [mem_singleton.mp hmem]

theorem execProcess_balanced {loads : Bool} (hs : Balanced s)
    (hused : (s.threads curr).state ≠ .unused) (hsingle : (s.procs pid).tids.length ≤ 1) :
    Comp.Post (execProcess depth cpu curr pid loads) s (Ends Balanced) := by
  refine .get_bind ?_
  cases hkeep : s.execThread curr pid with
  | none => exact hs
  | some keep =>
    have htids := tids_of_execThread hs.owned hused hsingle hkeep
    rw [htids]
    -- the loop comes past the thread that is left and ends
    have hloop : Comp.Post (detachOthers depth cpu pid keep [keep].length 0) s
        fun r s' => r = .ok () ∧ s' = s := by
      refine .get_bind ?_
      rw [htids]
      exact .ite (fun h => absurd rfl h.2) fun _ => ⟨rfl, rfl⟩
    refine hloop.bind (fun e s' h => nomatch h.1) fun _ s' h => ?_
    rw [h.2]
    refine .ite (fun _ => ?_) fun _ => hs
    have hlisted : Balanced (s.modProc pid fun p =>
        { p with tids := [keep], sigactions := p.sigactions.reset }) :=
      BalancedBut.modProc hs htids.symm rfl rfl
    exact hlisted

/-- How many threads of the table are in the given states and belong to a process. -/
def census (s : Sched) (pid : ℕ) (k : Kind) : ℕ :=
  (List.range s.threadCount).countP fun tid =>
    s.HasThread tid ∧ (s.threads tid).pid = pid ∧ (s.threads tid).state.kind = some k

/-- The threads of the table that belong to a process are those of its list. -/
theorem census_eq_tally {k : Kind} (hs : Owned s) : s.census pid k = s.tally pid k := by
  have hperm : ((List.range s.threadCount).filter fun tid =>
      decide (s.HasThread tid ∧ (s.threads tid).pid = pid)).Perm (s.procs pid).tids := by
    refine (perm_ext_iff_of_nodup (nodup_range.filter _) (hs.nodup pid)).mpr fun tid => ?_
    rw [mem_filter, mem_range, decide_eq_true_eq]
    constructor
    · rintro ⟨-, hhas, rfl⟩
      exact hs.listed tid hhas.2
    · intro hmem
      obtain ⟨hused, hpid⟩ := hs.used pid tid hmem
      exact ⟨(hs.hasThread_iff.mpr hused).1, hs.hasThread_iff.mpr hused, hpid⟩
  rw [tally, ← hperm.countP_eq, countP_filter, census]
  refine countP_congr fun tid _ => ?_
  rw [Bool.and_eq_true, decide_eq_true_eq, decide_eq_true_eq, decide_eq_true_eq]
  constructor
  · rintro ⟨hhas, hpid, hkind⟩
    exact ⟨hkind, hhas, hpid⟩
  · rintro ⟨hkind, hhas, hpid⟩
    exact ⟨hhas, hpid, hkind⟩

theorem threadCreate_stays : Stays (threadCreate depth pid) :=
  .get_bind fun _ => .bind .modify fun _ => .bind pcbThreadChangeState_stays fun _ => .pure

theorem spawn_stays {ppid : ℕ} : Stays (spawn depth ppid) := by
  refine .bind (.get_bind fun s => ?_) fun created => ?_
  · split
    · exact .pure
    · exact .bind .modify fun _ => .bind threadCreate_stays fun _ => .bind .modify fun _ => .pure
  · split
    · exact .pure
    · exact .bind .modify fun _ => .pure

end Sched

namespace Locks

variable {k k' : Locks} {depth cpu tid : ℕ}

theorem kept_call {c : Call} (h : Kept k) (hrunning : (k.sched.threads tid).state = .running)
    (hcpu : k.sched.cpus cpu = some tid) (hclean : c.Clean depth cpu tid k)
    (hcall : k.call depth cpu tid c = some k') : Kept k' := by
  have hused : (k.sched.threads tid).state ≠ .unused := by
    rw [hrunning]
    decide
  have hblocked : ¬(k.sched.threads tid).state.Blocked := by
    rw [hrunning]
    exact not_false
  cases c with
  | create =>
    exact h.outcome (Sched.ends_of_returned Sched.spawn_stays
      (Sched.spawn_balanced h.balanced)) hcall
  | createThread =>
    exact h.outcome (Sched.ends_of_returned Sched.threadCreate_stays
      (Sched.threadCreate_balanced (Sched.BalancedBut.weaken h.balanced)
        (h.balanced.owned.live tid hused))) hcall
  | exit code =>
    exact h.outcome (Sched.exitProcess_balanced h.balanced hcpu hused hblocked hclean) hcall
  | exitThread => exact h.outcome (Sched.threadExit_balanced h.balanced hused hblocked) hcall
  | join tid' => exact h.outcome (Sched.threadJoin_balanced h.balanced hclean) hcall
  | detach tid' => exact h.outcome (Sched.threadDetach_balanced h.balanced) hcall
  | exec pid loads => exact h.outcome (Sched.execProcess_balanced h.balanced hused hclean) hcall
  | wait copied pid flags =>
    exact h.outcome (Sched.sWaitpid_balanced h.balanced hused hblocked) hcall
  | waitAgain copied =>
    rw [call] at hcall
    split at hcall
    · exact h.outcome (Sched.sWaitpidAgain_balanced h.balanced hused hblocked) hcall
    · cases hcall
  | block state =>
    exact h.outcome (Sched.blockThread_balanced h.balanced hused (Sched.not_wakesItself hblocked))
      hcall
  | stop tid' =>
    rw [call] at hcall
    split at hcall
    · rename_i hhas
      exact h.outcome (Sched.stopThread_balanced h.balanced hhas.2 hclean) hcall
    · cases hcall
  | terminate tid' =>
    rw [call] at hcall
    split at hcall
    · rename_i hhas
      exact h.outcome (Sched.terminateThread_balanced h.balanced hhas.2 hclean) hcall
    · cases hcall
  | lock m =>
    cases hcall
    exact kept_mutexLock h hclean
  | unlock m =>
    cases hcall
    exact kept_mutexUnlock h
  | semWait x =>
    cases hcall
    exact kept_semWait h hclean
  | semPost x =>
    cases hcall
    exact kept_semPost h

theorem kept_step {e : Event} (h : Kept k) (hclean : Clean depth k e)
    (hstep : machine depth k e = some k') : Kept k' := by
  cases e with
  | boot =>
    exact h.outcome (Sched.ends_of_returned Sched.spawn_stays
      (Sched.spawn_balanced h.balanced)) hstep
  | tick cpu =>
    cases hstep
    exact ⟨Sched.BalancedBut.of_ticked h.balanced Sched.ticked_schedulerTick, h.mutexes,
      h.semaphores⟩
  | call cpu c =>
    obtain ⟨tid, hcpu, hrunning, hclean⟩ := hclean
    rw [machine, hcpu, Option.bind_some] at hstep
    exact kept_call h hrunning hcpu hclean hstep
  | unblock tid => exact h.outcome (Sched.unblockThread_ends h.balanced) hstep
  | resume tid => exact h.outcome (Sched.continueThread_balanced h.balanced) hstep

/-- The state before the first process is created, with the given values of the semaphores. -/
def zero (counts : ℕ → BitVec 32) : Locks := ⟨Sched.zero, fun _ => ⟨none, 0, []⟩, fun x => ⟨counts x, []⟩⟩

/-- **Thread accounting.** Over all runs whose steps are clean, the counters of every process are
the numbers of its threads in these states, and its state is the one that they give. -/
theorem counters_of_clean_run {counts : ℕ → BitVec 32}
    (hrun : (machine depth).Run (Clean depth) (zero counts) k) {pid : ℕ}
    (hpid : k.sched.HasProc pid) :
    (∀ kind, (k.sched.procs pid).counts.get kind = k.sched.census pid kind) ∧
      (k.sched.procs pid).state = (k.sched.procs pid).counts.state := by
  have h : Kept k := hrun.invariant ⟨Sched.balanced_zero, fun _ => rfl, fun _ => rfl⟩
    fun _ _ _ h hclean hstep => kept_step h hclean hstep
  refine ⟨fun kind => ?_, h.balanced.state pid hpid.2 not_false⟩
  have hoff := h.balanced.off pid hpid.2 kind
  rw [Sched.off] at hoff
  rw [Sched.census_eq_tally h.balanced.owned]
  omega

/-- The first process waits for its child, which exits. -/
def waitedFor : List Event :=
  [.boot, .tick 0, .call 0 .create, .call 0 (.wait (fun _ => true) (-1) 0), .call 0 (.exit 5)]

/-- A dead child that nobody has waited for yet. -/
theorem counters_of_dead_child :
    ∃ k, (machine 8).Run (Clean 8) (zero fun _ => 0) k ∧ k.sched.HasProc 1 ∧
      (k.sched.procs 1).counts.get .zombie = k.sched.census 1 .zombie ∧
      k.sched.census 1 .zombie = 1 ∧
      (k.sched.procs 1).state = (k.sched.procs 1).counts.state := by
  have hmeets : (machine 8).Meets (Clean 8) (zero fun _ => 0) waitedFor := by
    exact ⟨trivial, trivial, ⟨0, by decide +kernel, by decide +kernel, trivial⟩,
      ⟨0, by decide +kernel, by decide +kernel, trivial⟩,
      ⟨1, by decide +kernel, by decide +kernel, clean_exit (by decide +kernel)⟩, trivial⟩
  have hrun : (machine 8).Run (Clean 8) (zero fun _ => 0) ((machine 8).after _ waitedFor) :=
    Machine.run_of_meets (by decide +kernel) hmeets
  have hpid : ((machine 8).after (zero fun _ => 0) waitedFor).sched.HasProc 1 := by decide +kernel
  have hcounters := counters_of_clean_run hrun hpid
  exact ⟨_, hrun, hpid, hcounters.1 .zombie, by decide +kernel, hcounters.2⟩

/-- The thread of the second process waits for a mutex that the first one holds. -/
def waitsForMutex : List Event :=
  [.boot, .tick 0, .call 0 .create, .call 0 (.lock 0), .tick 0, .call 0 (.lock 0)]

/-- The first process waits for its child, and the child ends the thread that waits. -/
def killsWaiter : List Event :=
  [.boot, .tick 0, .call 0 .create, .call 0 (.wait (fun _ => true) (-1) 0), .call 0 (.terminate 0)]

/-- A thread that waits for a mutex is counted as running. A thread of the first process that is
ended while it waits for a child is woken by its own end; it is counted as running, too, and the
number of blocked threads is negative. -/
theorem counters_wrong :
    (∃ k, (machine 8).Run Machine.Any (zero fun _ => 0) k ∧ k.sched.HasProc 1 ∧
      (k.sched.procs 1).counts = ⟨1, 0, 0, 0⟩ ∧ k.sched.census 1 .running = 0 ∧
      k.sched.census 1 .stopped = 1) ∧
    ∃ k, (machine 8).Run Machine.Any (zero fun _ => 0) k ∧ k.sched.HasProc 0 ∧
      (k.sched.procs 0).counts = ⟨1, -1, 0, 1⟩ ∧ k.sched.census 0 .running = 0 ∧
      k.sched.census 0 .zombie = 1 :=
  ⟨⟨(machine 8).after _ waitsForMutex, Machine.run_after (by decide +kernel), by decide +kernel,
    by decide +kernel, by decide +kernel, by decide +kernel⟩,
    (machine 8).after _ killsWaiter, Machine.run_after (by decide +kernel), by decide +kernel,
    by decide +kernel, by decide +kernel, by decide +kernel⟩

end Locks

end OsPi
