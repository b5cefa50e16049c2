import OsPi.Lib.Machine
import OsPi.Sched.Queues

/-!
# Several CPUs

CPUs that run the scheduler at the same time. Each section under the lock of the scheduler and each
assignment to the state of a thread is one step, and the steps of different CPUs interleave
freely: `block_thread` assigns the state and yields later; `unblock_thread` tests the state, assigns
it and only then puts the thread in a queue.

A thread that blocks itself is still on its CPU until that CPU takes the lock. Another CPU that
makes it ready in between may pick it, and then both run it on the same stack.
-/

namespace OsPi

open Function Option

/-- The scheduler with the calls that are under way: those of `unblock_thread` that have passed
their test, and those that have assigned the state. `saved` says whether the registers of a thread
are in its context. -/
structure Smp where
  sched : Sched
  saved : ℕ → Bool
  tested : List ℕ
  readied : List ℕ

namespace Smp

/-- The steps of the CPUs. -/
inductive Event
  /-- `scheduler_tick` on a CPU, because of its timer or because its thread yields. -/
  | tick (cpu : ℕ)
  /-- `block_thread` assigns the state. -/
  | block (tid : ℕ) (blocked : ThreadState)
  /-- `unblock_thread` tests the state. -/
  | test (tid : ℕ)
  /-- `unblock_thread` assigns the state. -/
  | ready (tid : ℕ)
  /-- `unblock_thread` puts the thread in a queue. -/
  | add (tid : ℕ)

/-- The thread that `scheduler_tick` on a CPU takes from the queues. -/
def picks (s : Smp) (cpu : ℕ) : Option ℕ := (s.sched.requeue cpu).getNextThread.1

/-- What is saved after a context switch from one thread to another. -/
def switchSaved (saved : ℕ → Bool) (old new : Option ℕ) : ℕ → Bool := fun tid =>
  if new = some tid then false else if old = some tid then true else saved tid

/-- One step. -/
def machine : Machine Smp Event
  | s, .tick cpu => some { s with
      sched := s.sched.schedulerTick cpu
      saved := switchSaved s.saved (s.sched.cpus cpu) (s.picks cpu) }
  | s, .block tid blocked =>
    if blocked.Blocked then some { s with sched := s.sched.setState tid blocked } else none
  | s, .test tid =>
    if (s.sched.threads tid).state.Blocked then some { s with tested := tid :: s.tested }
    else some s
  | s, .ready tid =>
    if tid ∈ s.tested then
      some { s with
        sched := s.sched.modThread tid fun t => { t with state := .ready, blockedUntil := 0 }
        tested := s.tested.erase tid
        readied := tid :: s.readied }
    else none
  | s, .add tid =>
    if tid ∈ s.readied then
      some { s with sched := s.sched.addThreadLocked tid, readied := s.readied.erase tid }
    else none

/-- Before the scheduler starts, no CPU runs a thread. -/
structure Boot (s : Smp) : Prop where
  cpus : ∀ cpu, s.sched.cpus cpu = none
  saved : ∀ tid, s.saved tid = true
  tested : s.tested = []
  readied : s.readied = []

/-- No thread is the current thread of two CPUs. -/
def Exclusive (s : Smp) : Prop :=
  ∀ cpu cpu' tid, s.sched.cpus cpu = some tid → s.sched.cpus cpu' = some tid → cpu = cpu'

/-- A CPU picks no thread whose registers another CPU has not saved yet. -/
def PicksSaved (s : Smp) : Prop :=
  ∀ cpu tid, s.picks cpu = some tid → s.saved tid = true ∨ s.sched.cpus cpu = some tid

/-- `unblock_thread` makes no thread ready that a CPU still runs. -/
def Clean (s : Smp) : Event → Prop
  | .ready tid => ∀ cpu, s.sched.cpus cpu ≠ some tid
  | _ => True

/-! ### The invariant -/

/-- A thread that a CPU runs is not ready, so that no CPU picks it. -/
structure Inv (s : Smp) : Prop where
  exclusive : s.Exclusive
  busy : ∀ cpu tid, s.sched.cpus cpu = some tid → (s.sched.threads tid).state ≠ .ready
  saved : ∀ tid, s.saved tid = false → ∃ cpu, s.sched.cpus cpu = some tid

variable {s t : Smp} {cpu tid : ℕ}

theorem Boot.inv (h : s.Boot) : s.Inv where
  exclusive cpu cpu' tid hcpu := by
    rw [h.cpus cpu] at hcpu
    cases hcpu
  busy cpu tid hcpu := by
    rw [h.cpus cpu] at hcpu
    cases hcpu
  saved tid hsaved := by
    rw [h.saved tid] at hsaved
    cases hsaved

/-- What a CPU picks is its own thread, or one that was ready. -/
theorem picks_ready (h : s.picks cpu = some tid) :
    s.sched.cpus cpu = some tid ∨ (s.sched.threads tid).state = .ready := by
  by_cases hown : s.sched.cpus cpu = some tid
  · exact .inl hown
  · rw [← Sched.state_requeue s.sched cpu tid hown]
    exact .inr (Sched.getNextThread_ready h)

/-- A CPU picks no thread that another CPU runs. -/
theorem Inv.picks_own (h : s.Inv) (hpick : s.picks cpu = some tid) {cpu' : ℕ}
    (hcpu : s.sched.cpus cpu' = some tid) : cpu' = cpu := by
  obtain hown | hready := picks_ready hpick
  · exact h.exclusive _ _ _ hcpu hown
  · exact absurd hready (h.busy _ _ hcpu)

theorem Inv.picksSaved (h : s.Inv) : s.PicksSaved := by
  intro cpu tid hpick
  by_cases hsaved : s.saved tid = true
  · exact .inl hsaved
  · obtain ⟨cpu', hcpu⟩ := h.saved tid (Bool.eq_false_iff.mpr hsaved)
    obtain rfl := h.picks_own hpick hcpu
    exact .inr hcpu

/-! ### The tick -/

theorem cpus_tick (s : Smp) (cpu : ℕ) :
    (s.sched.schedulerTick cpu).cpus = update s.sched.cpus cpu (s.picks cpu) :=
  Sched.cpus_schedulerTick s.sched cpu

theorem state_tick (s : Smp) (cpu tid : ℕ) :
    ((s.sched.schedulerTick cpu).threads tid).state =
      if s.picks cpu = some tid then .running else ((s.sched.requeue cpu).threads tid).state :=
  Sched.state_schedulerTick s.sched cpu tid

theorem Inv.tick (h : s.Inv) (cpu : ℕ) :
    Inv { s with
      sched := s.sched.schedulerTick cpu
      saved := switchSaved s.saved (s.sched.cpus cpu) (s.picks cpu) } where
  exclusive := by
    intro c c' tid hc hc'
    rw [cpus_tick, update_apply] at hc hc'
    split at hc <;> split at hc'
    · rename_i hcpu hcpu'
      rw [hcpu, hcpu']
    · rename_i hcpu _
      rw [hcpu]
      exact (h.picks_own hc hc').symm
    · rename_i _ hcpu'
      rw [hcpu']
      exact h.picks_own hc' hc
    · exact h.exclusive _ _ _ hc hc'
  busy := by
    intro c tid hc
    rw [cpus_tick, update_apply] at hc
    rw [state_tick]
    split
    · simp
    · rename_i hpick
      split at hc
      · exact absurd hc hpick
      · rename_i hne
        -- the thread runs on another CPU, so that it was not put back
        rw [Sched.state_requeue _ _ _ fun hown => hne (h.exclusive _ _ _ hc hown)]
        exact h.busy _ _ hc
  saved := by
    intro tid hsaved
    dsimp only at hsaved ⊢
    rw [cpus_tick]
    rw [switchSaved] at hsaved
    split at hsaved
    · rename_i hpick
      exact ⟨cpu, by rw [update_self, hpick]⟩
    · split at hsaved
      · cases hsaved
      · rename_i hold
        obtain ⟨c, hc⟩ := h.saved tid hsaved
        refine ⟨c, ?_⟩
        rw [update_of_ne]
        · exact hc
        · rintro rfl
          exact hold hc

/-! ### The other steps -/

/-- Assigning a state to a thread keeps the invariant unless a running thread becomes ready. -/
theorem Inv.assign (h : s.Inv) {f : Thread → Thread}
    (hf : (f (s.sched.threads tid)).state = .ready → ∀ cpu, s.sched.cpus cpu ≠ some tid)
    (tested readied : List ℕ) :
    Inv { s with sched := s.sched.modThread tid f, tested, readied } where
  exclusive := h.exclusive
  busy := by
    intro cpu tid' hcpu
    rw [Sched.threads_modThread]
    split
    · rename_i heq
      rw [heq] at hcpu
      exact fun hready => hf hready cpu hcpu
    · exact h.busy _ _ hcpu
  saved := h.saved

theorem Inv.add (h : s.Inv) (tid : ℕ) (readied : List ℕ) :
    Inv { s with sched := s.sched.addThreadLocked tid, readied } where
  exclusive := by
    intro c c' t hc hc'
    rw [Sched.cpus_addThreadLocked] at hc hc'
    exact h.exclusive _ _ _ hc hc'
  busy := by
    intro c t hc
    rw [Sched.cpus_addThreadLocked] at hc
    rw [Sched.threads_addThreadLocked]
    exact h.busy _ _ hc
  saved := by
    intro t ht
    rw [Sched.cpus_addThreadLocked]
    exact h.saved t ht

theorem ne_ready_of_blocked {b : ThreadState} (h : b.Blocked) : b ≠ .ready := by
  rintro rfl
  exact h

theorem Inv.step (h : s.Inv) {e : Event} (hclean : s.Clean e) (hstep : machine s e = some t) :
    t.Inv := by
  cases e with
  | tick cpu =>
    obtain rfl := some.inj hstep
    exact h.tick cpu
  | block tid blocked =>
    rw [machine] at hstep
    split at hstep
    · rename_i hblocked
      obtain rfl := some.inj hstep
      exact h.assign (fun hready => absurd hready (ne_ready_of_blocked hblocked)) _ _
    · cases hstep
  | test tid =>
    rw [machine] at hstep
    split at hstep
    · obtain rfl := some.inj hstep
      exact ⟨h.exclusive, h.busy, h.saved⟩
    · obtain rfl := some.inj hstep
      exact h
  | ready tid =>
    rw [machine] at hstep
    split at hstep
    · obtain rfl := some.inj hstep
      exact h.assign (fun _ => hclean) _ _
    · cases hstep
  | add tid =>
    rw [machine] at hstep
    split at hstep
    · obtain rfl := some.inj hstep
      exact h.add tid _
    · cases hstep

/-- **Single execution.** As long as `unblock_thread` makes no thread ready that a CPU still
runs, no thread is the current thread of two CPUs, and no CPU picks a thread whose registers
another one has not saved. -/
theorem single_execution (hboot : s.Boot) (hrun : machine.Run Clean s t) :
    t.Exclusive ∧ t.PicksSaved := by
  have hinv : t.Inv := hrun.invariant hboot.inv fun _ _ _ h hclean hstep => h.step hclean hstep
  exact ⟨hinv.exclusive, hinv.picksSaved⟩

/-- One thread, which is ready. -/
def oneReady : Smp where
  sched := { Sched.zero with
    threads := update Sched.zero.threads 0 { Thread.zero with state := .ready }
    threadCount := 1
    queues := update Sched.zero.queues 0 [0] }
  saved := fun _ => true
  tested := []
  readied := []

theorem oneReady_boot : oneReady.Boot := ⟨fun _ => rfl, fun _ => rfl, rfl, rfl⟩

/-- The first CPU picks the thread, which blocks and leaves the CPU. -/
def left : List Event := [.tick 0, .block 0 .blockedInterruptable, .tick 0, .test 0]

/-- The thread has left the first CPU before it is made ready, and the second one takes it. -/
theorem single_execution_handover : ∃ t, machine.Run Clean oneReady t ∧
    t.sched.cpus 1 = some 0 ∧ t.Exclusive ∧ t.PicksSaved := by
  have hidle : ∀ cpu, (machine.after oneReady left).sched.cpus cpu ≠ some 0 := by
    intro cpu
    cases cpu with
    | zero => decide
    | succ cpu => exact nofun
  have hleft : machine.Run Clean oneReady (machine.after oneReady left) :=
    (((Relation.ReflTransGen.refl.tail ⟨.tick 0, trivial, rfl⟩).tail
      ⟨.block 0 .blockedInterruptable, trivial, rfl⟩).tail ⟨.tick 0, trivial, rfl⟩).tail
      ⟨.test 0, trivial, rfl⟩
  have hrun : machine.Run Clean oneReady
      (machine.after oneReady (left ++ [.ready 0, .add 0, .tick 1])) :=
    ((hleft.tail ⟨.ready 0, hidle, rfl⟩).tail ⟨.add 0, trivial, rfl⟩).tail ⟨.tick 1, trivial, rfl⟩
  exact ⟨_, hrun, by decide, single_execution oneReady_boot hrun⟩

/-- The first CPU picks the thread, which blocks, and another CPU makes it ready at once. -/
def woken : List Event := [.tick 0, .block 0 .blockedInterruptable, .test 0, .ready 0, .add 0]

/-- The thread blocks itself on the first CPU and is made ready before that CPU yields: its
registers are not saved when the second CPU picks it, and then both run it. -/
theorem thread_runs_twice :
    ∃ s t, oneReady.Boot ∧ machine.Run Machine.Any oneReady s ∧
      machine s (.tick 1) = some t ∧
      (s.picks 1 = some 0 ∧ s.saved 0 = false ∧ s.sched.cpus 1 = none) ∧
      t.sched.cpus 0 = some 0 ∧ t.sched.cpus 1 = some 0 :=
  ⟨machine.after oneReady woken, _, oneReady_boot, Machine.run_after rfl, rfl, by decide, by decide,
    by decide⟩

end Smp

end OsPi
