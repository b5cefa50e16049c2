import OsPi.Sched.Sync

/-!
# Threads That Are Parked and Woken

Locks park a thread by assigning its state and yielding, and wake it by making it ready. Between
these calls the scheduler is in order: the threads of CPUs are running, the ready ones are in the
queues, and no thread is on two CPUs. What the locks need to know of a step is whether it changes
which threads are stopped.
-/

namespace OsPi

open Function

namespace Sched

/-- The tables of the scheduler agree on which threads can run. -/
structure Orderly (s : Sched) : Prop where
  busy : ∀ cpu tid, s.cpus cpu = some tid → (s.threads tid).state = .running
  exclusive : ∀ cpu cpu' tid, s.cpus cpu = some tid → s.cpus cpu' = some tid → cpu = cpu'
  onCpu : ∀ tid, (s.threads tid).state = .running → ∃ cpu, s.cpus cpu = some tid
  queued : ∀ tid, (s.threads tid).state = .ready → s.Queued tid
  used : ∀ tid, (s.threads tid).state ≠ .unused → tid < s.threadCount
  priority : ∀ tid, (s.threads tid).priority < 3

/-- A thread is in a queue, to be picked, or on a CPU. -/
def CanRun (s : Sched) (tid : ℕ) : Prop :=
  (s.threads tid).state = .ready ∧ s.Queued tid ∨
    (s.threads tid).state = .running ∧ ∃ cpu, s.cpus cpu = some tid

/-- A thread that is stopped. -/
def Stopped (s : Sched) (tid : ℕ) : Prop := (s.threads tid).state = .stopped

variable {s s' : Sched} {cpu tid tid' : ℕ}

theorem Orderly.canRun (h : s.Orderly) (hrun : Runnable (s.threads tid).state) : s.CanRun tid :=
  hrun.imp (fun hready => ⟨hready, h.queued tid hready⟩) fun hrunning =>
    ⟨hrunning, h.onCpu tid hrunning⟩

theorem Orderly.hasThread (h : s.Orderly) (hstopped : s.Stopped tid) : s.HasThread tid := by
  have hused : (s.threads tid).state ≠ .unused := by
    rw [show (s.threads tid).state = .stopped from hstopped]
    decide
  exact ⟨h.used tid hused, hused⟩

/-! ### The tick -/

theorem Ticked.stopped (h : Ticked s s') : s'.Stopped tid ↔ s.Stopped tid := by
  rw [Stopped, Stopped]
  rcases h.threads tid with heq | ⟨hold, a, hnew, heq⟩
  · rw [heq]
  · have hne : ∀ {a : ThreadState}, Runnable a → a ≠ .stopped := by
      rintro a (rfl | rfl) <;> decide
    rw [heq]
    exact iff_of_false (hne hnew) (hne hold)

theorem Ticked.runnable (h : Ticked s s') :
    Runnable (s'.threads tid).state ↔ Runnable (s.threads tid).state := by
  rcases h.threads tid with heq | ⟨hold, a, hnew, heq⟩
  · rw [heq]
  · rw [heq]
    exact iff_of_true hnew hold

/-- What a CPU puts back is ready and in a queue. -/
theorem Orderly.queued_requeue (h : s.Orderly)
    (hready : ((s.requeue cpu).threads tid).state = .ready) : (s.requeue cpu).Queued tid := by
  by_cases hown : s.cpus cpu = some tid
  · have hrunning := h.busy cpu tid hown
    rw [requeue, hown] at hready ⊢
    simp only [hrunning, if_true] at hready ⊢
    refine queued_addThreadLocked_self ?_ ?_
    · rw [threads_addThreadLocked] at hready
      exact hready
    · rw [setState, threads_modThread, if_pos rfl]
      exact h.priority tid
  · rw [state_requeue s cpu tid hown] at hready
    exact Sched.queued_requeue (h.queued tid hready)

/-- The thread that a CPU leaves is running no more. -/
theorem state_requeue_own (hown : s.cpus cpu = some tid) :
    ((s.requeue cpu).threads tid).state ≠ .running := by
  rw [requeue, hown]
  dsimp only
  split
  · rw [threads_addThreadLocked, setState, threads_modThread, if_pos rfl]
    exact fun h => by cases h
  · next hne => exact hne

theorem priority_schedulerTick (hpri : ∀ tid, (s.threads tid).priority < 3) (cpu tid : ℕ) :
    ((s.schedulerTick cpu).threads tid).priority < 3 := by
  have hticked : Ticked s (s.schedulerTick cpu) := ticked_schedulerTick
  rcases hticked.threads tid with heq | ⟨-, a, -, heq⟩
  all_goals
    rw [heq]
    exact hpri tid

/-- A CPU runs a thread that it has picked, and the others are as they were. The CPU may leave a
thread that is stopped. -/
theorem orderly_tick (hother : ∀ cpu' tid, cpu' ≠ cpu → s.cpus cpu' = some tid →
      (s.threads tid).state = .running ∧ s.cpus cpu ≠ some tid)
    (hexclusive : ∀ cpu cpu' tid, s.cpus cpu = some tid → s.cpus cpu' = some tid → cpu = cpu')
    (honCpu : ∀ tid, (s.threads tid).state = .running → ∃ cpu, s.cpus cpu = some tid)
    (hqueued : ∀ tid, ((s.requeue cpu).threads tid).state = .ready → (s.requeue cpu).Queued tid)
    (hused : ∀ tid, (s.threads tid).state ≠ .unused → tid < s.threadCount)
    (hpri : ∀ tid, (s.threads tid).priority < 3) : (s.schedulerTick cpu).Orderly := by
  have hpick : ∀ tid, (s.requeue cpu).getNextThread.1 = some tid →
      ((s.requeue cpu).threads tid).state = .ready := fun _ => getNextThread_ready
  -- no CPU runs a thread that is picked
  have hnew : ∀ tid cpu', (s.requeue cpu).getNextThread.1 = some tid → cpu' ≠ cpu →
      s.cpus cpu' ≠ some tid := fun tid cpu' htid hne hcpu => by
    obtain ⟨hrunning, hown⟩ := hother cpu' tid hne hcpu
    have hready := hpick tid htid
    rw [state_requeue s cpu tid hown, hrunning] at hready
    cases hready
  refine ⟨fun cpu' tid hcpu => ?_, fun c c' tid hc hc' => ?_, fun tid hrunning => ?_,
    fun tid hready => ?_, fun tid hne => ?_, priority_schedulerTick hpri cpu⟩
  · rw [cpus_schedulerTick, update_apply] at hcpu
    rw [state_schedulerTick]
    split at hcpu
    · rw [if_pos hcpu]
    · next hne =>
        obtain ⟨hrunning, hown⟩ := hother cpu' tid hne hcpu
        rw [if_neg fun htid => hnew tid cpu' htid hne hcpu, state_requeue s cpu tid hown, hrunning]
  · rw [cpus_schedulerTick, update_apply] at hc hc'
    split at hc <;> split at hc'
    · next h h' => rw [h, h']
    · next h h' => exact absurd hc' (hnew tid c' hc h')
    · next h h' => exact absurd hc (hnew tid c hc' h)
    · exact hexclusive c c' tid hc hc'
  · rw [state_schedulerTick] at hrunning
    rw [cpus_schedulerTick]
    split at hrunning
    · next htid => exact ⟨cpu, by rw [update_self, htid]⟩
    · by_cases hown : s.cpus cpu = some tid
      · exact absurd hrunning (state_requeue_own hown)
      · rw [state_requeue s cpu tid hown] at hrunning
        obtain ⟨cpu', hcpu⟩ := honCpu tid hrunning
        refine ⟨cpu', ?_⟩
        rw [update_of_ne]
        · exact hcpu
        · rintro rfl
          exact hown hcpu
  · rw [state_schedulerTick] at hready
    split at hready
    · cases hready
    · next hne =>
        rw [schedulerTick, Queued, queues_switchTo]
        exact queued_getNextFrom 3 hready (hqueued tid hready) hne
  · have hticked : Ticked s (s.schedulerTick cpu) := ticked_schedulerTick
    rw [hticked.threadCount]
    refine hused tid fun hunused => hne ?_
    rcases hticked.threads tid with heq | ⟨hold, -⟩
    · rw [heq, hunused]
    · rw [hunused] at hold
      rcases hold with hold | hold <;> cases hold

theorem Orderly.tick (h : s.Orderly) (cpu : ℕ) : (s.schedulerTick cpu).Orderly :=
  orderly_tick (fun cpu' tid hne hcpu => ⟨h.busy cpu' tid hcpu, fun hown =>
    hne (h.exclusive cpu' cpu tid hcpu hown)⟩) h.exclusive h.onCpu
    (fun _ hready => h.queued_requeue hready) h.used h.priority

/-! ### Parking and waking -/

theorem state_setState (s : Sched) (tid tid' : ℕ) (a : ThreadState) :
    ((s.setState tid a).threads tid').state = if tid' = tid then a else (s.threads tid').state := by
  rw [setState, threads_modThread]
  split
  · rfl
  · rfl

theorem priority_setState (hpri : ∀ tid, (s.threads tid).priority < 3) (tid : ℕ) (a : ThreadState)
    (tid' : ℕ) : ((s.setState tid a).threads tid').priority < 3 := by
  rw [setState, threads_modThread]
  split
  · exact hpri tid
  · exact hpri tid'

/-- The thread of a CPU is parked. -/
theorem Orderly.park (h : s.Orderly) (hcpu : s.cpus cpu = some tid) : (s.park cpu tid).Orderly := by
  have hown : (s.setState tid .stopped).cpus cpu = some tid := hcpu
  have hrequeue : (s.setState tid .stopped).requeue cpu = s.setState tid .stopped := by
    rw [requeue, hown]
    dsimp only
    rw [state_setState, if_pos rfl]
    exact if_neg fun h => by cases h
  refine orderly_tick (fun cpu' t hne hcpu' => ?_) h.exclusive (fun t hrunning => ?_)
    (fun t hready => ?_) (fun t hused => ?_) (priority_setState h.priority tid .stopped)
  · have ht : t ≠ tid := fun heq => hne (h.exclusive cpu' cpu tid (heq ▸ hcpu') hcpu)
    rw [state_setState, if_neg ht, hown]
    exact ⟨h.busy cpu' t hcpu', fun heq => ht (Option.some.inj heq).symm⟩
  · rw [state_setState] at hrunning
    split at hrunning
    · cases hrunning
    · exact h.onCpu t hrunning
  · rw [hrequeue] at hready ⊢
    rw [state_setState] at hready
    split at hready
    · cases hready
    · exact h.queued t hready
  · rw [state_setState] at hused
    split at hused
    · next heq =>
        rw [heq]
        refine h.used tid ?_
        rw [h.busy cpu tid hcpu]
        decide
    · exact h.used t hused

theorem stopped_park (s : Sched) (cpu tid tid' : ℕ) :
    (s.park cpu tid).Stopped tid' ↔ tid' = tid ∨ s.Stopped tid' := by
  rw [Sched.park, ticked_schedulerTick.stopped, Stopped, state_setState, Stopped]
  split
  · next heq => exact iff_of_true rfl (.inl heq)
  · next hne => exact (or_iff_right hne).symm

theorem runnable_park (hne : tid' ≠ tid) :
    Runnable ((s.park cpu tid).threads tid').state ↔ Runnable (s.threads tid').state := by
  rw [Sched.park, ticked_schedulerTick.runnable, state_setState, if_neg hne]

/-- A thread that is stopped is made ready. -/
theorem Orderly.ready (h : s.Orderly) (hstopped : s.Stopped tid) :
    ((s.setState tid .ready).addThreadLocked tid).Orderly := by
  have hnot : ∀ cpu, s.cpus cpu ≠ some tid := fun cpu hcpu => by
    have hrunning := h.busy cpu tid hcpu
    rw [show (s.threads tid).state = .stopped from hstopped] at hrunning
    cases hrunning
  have hsame : SameTables (s.setState tid .ready) ((s.setState tid .ready).addThreadLocked tid) :=
    sameTables_addThreadLocked
  refine ⟨fun cpu t hcpu => ?_, ?_, fun t hrunning => ?_, fun t hready => ?_, fun t hused => ?_,
    fun t => ?_⟩
  · rw [hsame.cpus] at hcpu
    have ht : t ≠ tid := fun heq => hnot cpu (heq ▸ hcpu)
    rw [hsame.threads, state_setState, if_neg ht]
    exact h.busy cpu t hcpu
  · rw [hsame.cpus]
    exact h.exclusive
  · rw [hsame.threads, state_setState] at hrunning
    rw [hsame.cpus]
    split at hrunning
    · cases hrunning
    · exact h.onCpu t hrunning
  · rw [hsame.threads] at hready
    by_cases ht : t = tid
    · rw [ht] at hready ⊢
      exact queued_addThreadLocked_self hready (priority_setState h.priority tid .ready tid)
    · rw [state_setState, if_neg ht] at hready
      exact queued_addThreadLocked (h.queued t hready)
  · rw [hsame.threads, state_setState] at hused
    rw [hsame.threadCount]
    split at hused
    · next heq => exact heq ▸ (h.hasThread hstopped).1
    · exact h.used t hused
  · rw [hsame.threads]
    exact priority_setState h.priority tid .ready t

theorem stopped_ready (s : Sched) (tid tid' : ℕ) :
    ((s.setState tid .ready).addThreadLocked tid).Stopped tid' ↔ tid' ≠ tid ∧ s.Stopped tid' := by
  rw [Stopped, threads_addThreadLocked, state_setState, Stopped]
  split
  · next heq => exact iff_of_false nofun fun hne => hne.1 heq
  · next hne => exact (and_iff_right hne).symm

theorem runnable_ready (s : Sched) (tid tid' : ℕ) :
    Runnable (((s.setState tid .ready).addThreadLocked tid).threads tid').state ↔
      tid' = tid ∨ Runnable (s.threads tid').state := by
  rw [threads_addThreadLocked, state_setState]
  split
  · next heq => exact iff_of_true (.inl rfl) (.inl heq)
  · next hne => exact (or_iff_right hne).symm

/-! ### A scheduler with three threads -/

/-- Three threads that are ready. -/
def three : Sched :=
  { Sched.zero with
    threads := fun tid => if tid < 3 then { Thread.zero with state := .ready } else Thread.zero
    threadCount := 3
    queues := fun pri => if pri = 0 then [0, 1, 2] else [] }

theorem three_orderly : three.Orderly := by
  have hstate : ∀ tid, (three.threads tid).state = if tid < 3 then .ready else .unused := by
    intro tid
    simp only [three]
    split <;> rfl
  refine ⟨nofun, nofun, fun tid hrunning => ?_, fun tid hready => ?_, fun tid hused => ?_,
    fun tid => ?_⟩
  · rw [hstate] at hrunning
    split at hrunning <;> cases hrunning
  · rw [hstate] at hready
    split at hready
    · next hlt =>
        refine .inl ?_
        change tid ∈ [0, 1, 2]
        rw [List.mem_cons, List.mem_cons, List.mem_singleton]
        omega
    · cases hready
  · rw [hstate] at hused
    split at hused
    · next hlt => exact hlt
    · exact absurd rfl hused
  · simp only [three]
    split <;> decide

end Sched

end OsPi
