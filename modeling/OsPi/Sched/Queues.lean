import OsPi.Sched.State

/-!
# The Queues of the Scheduler

A model of the parts of `scheduler/scheduler.c` that run under the lock of the scheduler:
`add_thread_to_scheduler_locked`, `get_next_thread_locked`, and `scheduler_tick` up to the context
switch, which saves the registers of the old thread before it gives up the lock. The queues are
taken in turn, each for a number of picks that depends on its priority.
-/

namespace OsPi

open Function List

namespace Sched

/-- `MAX_PRI_CNTRS`. -/
def maxPriCntrs : ℕ → ℕ
  | 0 => 9
  | 1 => 6
  | _ => 4

/-- Whether a thread is in one of the queues. -/
def Queued (s : Sched) (tid : ℕ) : Prop := tid ∈ s.queues 0 ∨ tid ∈ s.queues 1 ∨ tid ∈ s.queues 2

instance (s : Sched) (tid : ℕ) : Decidable (s.Queued tid) := inferInstanceAs (Decidable (_ ∨ _))

/-- Assign a queue. -/
def setQueue (s : Sched) (pri : ℕ) (q : List ℕ) : Sched :=
  { s with queues := update s.queues pri q }

/-- `add_thread_to_scheduler_locked`. -/
def addThreadLocked (s : Sched) (tid : ℕ) : Sched :=
  if (s.threads tid).state ≠ .ready ∨ s.Queued tid then s
  else s.setQueue (s.threads tid).priority (s.queues (s.threads tid).priority ++ [tid])

/-- `remove_thread_from_scheduler`. -/
def removeThread (s : Sched) (tid : ℕ) : Sched :=
  { s with queues := fun pri => (s.queues pri).filter (· ≠ tid) }

/-- The inner loop of `get_next_thread_locked`: threads that are not ready are dropped. -/
def takeReady (s : Sched) : List ℕ → Option ℕ × List ℕ
  | [] => (none, [])
  | tid :: q => if (s.threads tid).state = .ready then (some tid, q) else takeReady s q

/-- The queue after a pick from it, and the next one when its turn is over. -/
def countPick (s : Sched) : Sched :=
  if maxPriCntrs s.currPri < s.priCounters s.currPri + 1 then
    { s with
      priCounters := update s.priCounters s.currPri 0
      currPri := (s.currPri + 1) % 3 }
  else
    { s with
      priCounters := update s.priCounters s.currPri (s.priCounters s.currPri + 1) }

/-- The outer loop of `get_next_thread_locked`. -/
def getNextFrom : ℕ → Sched → Option ℕ × Sched
  | 0, s => (none, s)
  | turns + 1, s =>
    match s.takeReady (s.queues s.currPri) with
    | (some tid, q) => (some tid, (s.setQueue s.currPri q).countPick)
    | (none, q) => getNextFrom turns { s.setQueue s.currPri q with currPri := (s.currPri + 1) % 3 }

/-- `get_next_thread_locked`. -/
def getNextThread (s : Sched) : Option ℕ × Sched := getNextFrom 3 s

/-- The part of `scheduler_tick` that puts the thread of the CPU back in a queue. -/
def requeue (s : Sched) (cpu : ℕ) : Sched :=
  match s.cpus cpu with
  | none => s
  | some tid =>
    if (s.threads tid).state = .running then (s.setState tid .ready).addThreadLocked tid else s

/-- Make a thread the one that a CPU runs. -/
def switchTo (s : Sched) (cpu : ℕ) : Option ℕ → Sched
  | none => { s with cpus := update s.cpus cpu none }
  | some tid => { s.setState tid .running with cpus := update s.cpus cpu (some tid) }

/-- `scheduler_tick`, up to the context switch. -/
def schedulerTick (s : Sched) (cpu : ℕ) : Sched :=
  (s.requeue cpu).getNextThread.2.switchTo cpu (s.requeue cpu).getNextThread.1

/-! ### What the functions leave as it is -/

variable {s : Sched} {tid cpu : ℕ}

@[simp] theorem threads_addThreadLocked : (s.addThreadLocked tid).threads = s.threads := by
  rw [addThreadLocked]
  split <;> rfl

@[simp] theorem procs_addThreadLocked : (s.addThreadLocked tid).procs = s.procs := by
  rw [addThreadLocked]
  split <;> rfl

@[simp] theorem cpus_addThreadLocked : (s.addThreadLocked tid).cpus = s.cpus := by
  rw [addThreadLocked]
  split <;> rfl

/-- A pick changes the queues and the turns only. -/
structure SameTables (s s' : Sched) : Prop where
  threads : s'.threads = s.threads
  procs : s'.procs = s.procs
  cpus : s'.cpus = s.cpus
  threadCount : s'.threadCount = s.threadCount
  pgrps : s'.pgrps = s.pgrps
  timers : s'.timers = s.timers
  now : s'.now = s.now

theorem SameTables.refl (s : Sched) : SameTables s s := ⟨rfl, rfl, rfl, rfl, rfl, rfl, rfl⟩

theorem SameTables.trans {s s' s'' : Sched} (h : SameTables s s') (h' : SameTables s' s'') :
    SameTables s s'' :=
  ⟨h'.threads.trans h.threads, h'.procs.trans h.procs, h'.cpus.trans h.cpus,
    h'.threadCount.trans h.threadCount, h'.pgrps.trans h.pgrps, h'.timers.trans h.timers,
    h'.now.trans h.now⟩

theorem sameTables_addThreadLocked : SameTables s (s.addThreadLocked tid) := by
  rw [addThreadLocked]
  split <;> exact ⟨rfl, rfl, rfl, rfl, rfl, rfl, rfl⟩

theorem takeReady_ready {q q' : List ℕ} (h : s.takeReady q = (some tid, q')) :
    (s.threads tid).state = .ready := by
  induction q with
  | nil => cases h
  | cons t q ih =>
    rw [takeReady] at h
    split at h
    · rename_i hready
      cases h
      exact hready
    · exact ih h

theorem sameTables_countPick : SameTables s s.countPick := by
  rw [countPick]
  split <;> exact ⟨rfl, rfl, rfl, rfl, rfl, rfl, rfl⟩

/-- A thread that is picked is ready, and the tables are as before. -/
theorem getNextFrom_spec (turns : ℕ) (s : Sched) :
    SameTables s (getNextFrom turns s).2 ∧
      ∀ tid, (getNextFrom turns s).1 = some tid → (s.threads tid).state = .ready := by
  induction turns generalizing s with
  | zero => exact ⟨.refl s, fun _ h => by cases h⟩
  | succ turns ih =>
    rw [getNextFrom]
    rcases htake : s.takeReady (s.queues s.currPri) with ⟨_ | tid, q⟩
    · obtain ⟨hsame, hready⟩ :=
        ih { s.setQueue s.currPri q with currPri := (s.currPri + 1) % 3 }
      have hqueue : SameTables s { s.setQueue s.currPri q with currPri := (s.currPri + 1) % 3 } :=
        ⟨rfl, rfl, rfl, rfl, rfl, rfl, rfl⟩
      exact ⟨hqueue.trans hsame, hready⟩
    · refine ⟨?_, fun tid' h => ?_⟩
      · have hqueue : SameTables s (s.setQueue s.currPri q) := ⟨rfl, rfl, rfl, rfl, rfl, rfl, rfl⟩
        exact hqueue.trans sameTables_countPick
      · obtain rfl : tid = tid' := Option.some.inj h
        exact takeReady_ready htake

theorem sameTables_getNextThread : SameTables s s.getNextThread.2 := (getNextFrom_spec 3 s).1

/-- The two states of a thread that is not kept from running. -/
def Runnable (state : ThreadState) : Prop := state = .ready ∨ state = .running

/-- What `scheduler_tick` can change: the queues, the thread of the CPU, and which of the threads
that can run are running. -/
structure Ticked (s s' : Sched) : Prop where
  threads : ∀ tid, s'.threads tid = s.threads tid ∨
    Runnable (s.threads tid).state ∧
      ∃ a, Runnable a ∧ s'.threads tid = { s.threads tid with state := a }
  procs : s'.procs = s.procs
  threadCount : s'.threadCount = s.threadCount
  pgrps : s'.pgrps = s.pgrps
  timers : s'.timers = s.timers
  now : s'.now = s.now

theorem SameTables.ticked {s s' : Sched} (h : SameTables s s') : Ticked s s' :=
  ⟨fun tid => .inl (by rw [h.threads]), h.procs, h.threadCount, h.pgrps, h.timers, h.now⟩

theorem Ticked.trans {s s' s'' : Sched} (h : Ticked s s') (h' : Ticked s' s'') : Ticked s s'' where
  threads tid := by
    rcases h'.threads tid with heq | ⟨hold, a, hnew, heq⟩
    · rw [heq]
      exact h.threads tid
    · rcases h.threads tid with heq' | ⟨hold', a', -, heq'⟩
      · rw [heq'] at hold heq
        exact .inr ⟨hold, a, hnew, heq⟩
      · rw [heq'] at heq
        exact .inr ⟨hold', a, hnew, heq⟩
  procs := h'.procs.trans h.procs
  threadCount := h'.threadCount.trans h.threadCount
  pgrps := h'.pgrps.trans h.pgrps
  timers := h'.timers.trans h.timers
  now := h'.now.trans h.now

theorem ticked_setState {a : ThreadState} (hold : Runnable (s.threads tid).state)
    (hnew : Runnable a) : Ticked s (s.setState tid a) where
  threads tid' := by
    rw [setState, threads_modThread]
    split
    · rename_i heq
      rw [heq]
      exact .inr ⟨hold, a, hnew, rfl⟩
    · exact .inl rfl
  procs := rfl
  threadCount := rfl
  pgrps := rfl
  timers := rfl
  now := rfl

theorem getNextThread_ready (h : s.getNextThread.1 = some tid) : (s.threads tid).state = .ready :=
  (getNextFrom_spec 3 s).2 tid h

theorem ticked_requeue : Ticked s (s.requeue cpu) := by
  rw [requeue]
  split
  · exact (SameTables.refl s).ticked
  · split
    · rename_i hrunning
      exact (ticked_setState (.inr hrunning) (.inl rfl)).trans sameTables_addThreadLocked.ticked
    · exact (SameTables.refl s).ticked

theorem ticked_switchTo {next : Option ℕ}
    (hready : ∀ tid, next = some tid → (s.threads tid).state = .ready) :
    Ticked s (s.switchTo cpu next) := by
  cases next with
  | none => exact ⟨fun _ => .inl rfl, rfl, rfl, rfl, rfl, rfl⟩
  | some tid =>
    have hset := ticked_setState (a := .running) (.inl (hready tid rfl)) (.inr rfl)
    exact ⟨hset.threads, hset.procs, hset.threadCount, hset.pgrps, hset.timers, hset.now⟩

theorem ticked_schedulerTick : Ticked s (s.schedulerTick cpu) := by
  have hpick := sameTables_getNextThread (s := s.requeue cpu)
  refine (ticked_requeue.trans hpick.ticked).trans (ticked_switchTo fun tid htid => ?_)
  rw [hpick.threads]
  exact getNextThread_ready htid

/-! ### The tick -/

theorem cpus_requeue (s : Sched) (cpu : ℕ) : (s.requeue cpu).cpus = s.cpus := by
  rw [requeue]
  split
  · rfl
  · split
    · rw [cpus_addThreadLocked]
      rfl
    · rfl

/-- Only the thread of the CPU can become ready when it is put back. -/
theorem state_requeue (s : Sched) (cpu tid : ℕ) (h : s.cpus cpu ≠ some tid) :
    ((s.requeue cpu).threads tid).state = (s.threads tid).state := by
  rw [requeue]
  split
  · rfl
  · rename_i old hold
    split
    · rw [threads_addThreadLocked, setState, threads_modThread, if_neg]
      rintro rfl
      exact h hold
    · rfl

theorem cpus_schedulerTick (s : Sched) (cpu : ℕ) :
    (s.schedulerTick cpu).cpus =
      update s.cpus cpu (s.requeue cpu).getNextThread.1 := by
  have hsame := sameTables_getNextThread (s := s.requeue cpu)
  rw [schedulerTick]
  cases (s.requeue cpu).getNextThread.1 <;>
    rw [switchTo, ← cpus_requeue s cpu, ← hsame.cpus]

theorem state_schedulerTick (s : Sched) (cpu tid : ℕ) :
    ((s.schedulerTick cpu).threads tid).state =
      if (s.requeue cpu).getNextThread.1 = some tid then .running
      else ((s.requeue cpu).threads tid).state := by
  have hsame := sameTables_getNextThread (s := s.requeue cpu)
  rw [schedulerTick]
  cases (s.requeue cpu).getNextThread.1 with
  | none =>
    rw [if_neg (by simp), ← hsame.threads]
    rfl
  | some new =>
    change ((setState _ new .running).threads tid).state = _
    rw [setState, threads_modThread, hsame.threads]
    by_cases hnew : tid = new
    · rw [if_pos hnew, if_pos (by rw [hnew])]
    · rw [if_neg hnew, if_neg fun h => hnew (Option.some.inj h).symm]

/-! ### Threads in the queues -/

theorem queued_setQueue {pri : ℕ} {q : List ℕ} (h : s.Queued tid)
    (hq : tid ∈ s.queues pri → tid ∈ q) : (s.setQueue pri q).Queued tid := by
  have hkeep : ∀ i, tid ∈ s.queues i → tid ∈ (s.setQueue pri q).queues i := fun i hmem => by
    rw [setQueue]
    by_cases hi : i = pri
    · subst hi
      simpa only [update_self] using hq hmem
    · simpa only [update_of_ne hi] using hmem
  exact h.imp (hkeep 0) (Or.imp (hkeep 1) (hkeep 2))

theorem queued_addThreadLocked {other : ℕ} (h : s.Queued tid) :
    (s.addThreadLocked other).Queued tid := by
  rw [addThreadLocked]
  split
  · exact h
  · exact queued_setQueue h fun hmem => mem_append_left _ hmem

/-- A thread that is ready is in a queue after it has been added. -/
theorem queued_addThreadLocked_self (hready : (s.threads tid).state = .ready)
    (hpri : (s.threads tid).priority < 3) : (s.addThreadLocked tid).Queued tid := by
  rw [addThreadLocked]
  split
  · next h => exact h.resolve_left fun hne => hne hready
  · have hmem : tid ∈ (s.setQueue (s.threads tid).priority
        (s.queues (s.threads tid).priority ++ [tid])).queues (s.threads tid).priority := by
      simp only [setQueue, update_self]
      exact mem_append_right _ (mem_singleton.mpr rfl)
    rcases (by omega : (s.threads tid).priority = 0 ∨ (s.threads tid).priority = 1 ∨
      (s.threads tid).priority = 2) with h0 | h1 | h2
    · exact .inl (h0 ▸ hmem)
    · exact .inr (.inl (h1 ▸ hmem))
    · exact .inr (.inr (h2 ▸ hmem))

/-- A thread that is ready is dropped from a queue only when it is picked. -/
theorem mem_takeReady {q : List ℕ} (hready : (s.threads tid).state = .ready) (hmem : tid ∈ q)
    (hne : (s.takeReady q).1 ≠ some tid) : tid ∈ (s.takeReady q).2 := by
  induction q with
  | nil => exact hmem
  | cons t q ih =>
    rw [takeReady] at hne ⊢
    by_cases ht : (s.threads t).state = .ready
    · rw [if_pos ht] at hne ⊢
      exact (mem_cons.mp hmem).resolve_left fun heq => hne (heq ▸ rfl)
    · rw [if_neg ht] at hne ⊢
      refine ih ((mem_cons.mp hmem).resolve_left fun heq => ht (heq ▸ hready)) hne

theorem queues_countPick (s : Sched) : s.countPick.queues = s.queues := by
  rw [countPick]
  split <;> rfl

theorem queued_getNextFrom (turns : ℕ) (hready : (s.threads tid).state = .ready)
    (hqueued : s.Queued tid) (hne : (getNextFrom turns s).1 ≠ some tid) :
    (getNextFrom turns s).2.Queued tid := by
  induction turns generalizing s with
  | zero => exact hqueued
  | succ turns ih =>
    rw [getNextFrom] at hne ⊢
    have hmem := mem_takeReady (q := s.queues s.currPri) hready
    rcases htake : s.takeReady (s.queues s.currPri) with ⟨_ | picked, q⟩
    all_goals rw [htake] at hne hmem
    · have hkept := queued_setQueue hqueued fun h => hmem h (by simp)
      exact ih hready hkept hne
    · have hkept := queued_setQueue hqueued fun h => hmem h hne
      rw [Queued, queues_countPick]
      exact hkept

theorem queued_requeue (h : s.Queued tid) : (s.requeue cpu).Queued tid := by
  rw [requeue]
  split
  · exact h
  · split
    · exact queued_addThreadLocked h
    · exact h

theorem queues_switchTo (s : Sched) (cpu : ℕ) (next : Option ℕ) :
    (s.switchTo cpu next).queues = s.queues := by
  cases next <;> rfl

end Sched

end OsPi
