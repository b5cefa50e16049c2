import OsPi.Sched.Orderly

/-!
# Mutual Exclusion

Threads lock, try to lock and unlock mutexes, and the scheduler picks them whenever one yields.
`mutex_unlock` lets go of a mutex before the thread that it wakes has got it, so that another one
can take it in between; the woken thread then waits again. The machine keeps a record of the
threads that are inside `mutex_lock` and of those that hold a mutex, which the kernel does not have.

In every run (`mutexes_keep_their_promise`) at most one thread holds a mutex, the list of a mutex
has every thread that is stopped in `mutex_lock` once, and when nobody owns a mutex for which
threads wait, one that has been woken can run.
-/

namespace OsPi

open Function List Option

/-- `mutex_trylock`. -/
def Locks.mutexTrylock (k : Locks) (tid m : ℕ) : Locks :=
  match (k.mutexes m).owner with
  | none =>
    { k with mutexes := update k.mutexes m ⟨some tid, 1, (k.mutexes m).waiting⟩ }
  | some _ => k

theorem Locks.mutexLock_of_owner {k : Locks} {cpu tid m owner : ℕ}
    (h : (k.mutexes m).owner = some owner) :
    k.mutexLock cpu tid m =
      { k with
        mutexes := update k.mutexes m
          { k.mutexes m with waiting := (k.mutexes m).waiting ++ [tid] }
        sched := k.sched.park cpu tid } := by
  rw [mutexLock]
  split
  · next hnone => cases hnone.symm.trans h
  · rfl

theorem Locks.mutexUnlock_of_owner {k : Locks} {tid m : ℕ} (h : (k.mutexes m).owner = some tid)
    (hcount : (k.mutexes m).lockCount - 1 = 0) :
    k.mutexUnlock tid m =
      { k with
        mutexes := update k.mutexes m ⟨none, 0, (k.mutexes m).waiting.dropLast⟩
        sched := wakeLast k.sched (k.mutexes m).waiting } := by
  rw [mutexUnlock]
  split
  · next hne => exact absurd h hne
  · split
    · next hne => exact absurd hcount hne
    · rfl

/-- The kernel, with the mutex of the call of `mutex_lock` that a thread is in, and the threads
between a lock that has succeeded and its unlock. -/
structure MutexRun where
  locks : Locks
  inside : ℕ → Option ℕ
  holders : ℕ → List ℕ

namespace MutexRun

section Definitions

variable (r : MutexRun)

/-- The scheduler. -/
def sched : Sched := r.locks.sched

/-- A mutex. -/
def mutex (m : ℕ) : Mutex := r.locks.mutexes m

/-- The threads between lock and unlock once a lock has been tried. -/
def gained (tid m : ℕ) : ℕ → List ℕ :=
  if (r.mutex m).owner = none then update r.holders m (tid :: r.holders m) else r.holders

/-- A thread comes to the test of the loop of `mutex_lock`: it gets the mutex, or is parked. -/
def lockTurn (cpu tid m : ℕ) : MutexRun where
  locks := r.locks.mutexLock cpu tid m
  inside := update r.inside tid (if (r.mutex m).owner = none then none else some m)
  holders := r.gained tid m

/-- `mutex_trylock`. -/
def trylock (tid m : ℕ) : MutexRun where
  locks := r.locks.mutexTrylock tid m
  inside := r.inside
  holders := r.gained tid m

/-- `mutex_unlock`. -/
def unlock (tid m : ℕ) : MutexRun where
  locks := r.locks.mutexUnlock tid m
  inside := r.inside
  holders :=
    if (r.mutex m).owner = some tid then update r.holders m ((r.holders m).erase tid)
    else r.holders

end Definitions

/-- What happens on a CPU. -/
inductive Event
  /-- The thread of the CPU yields, or the CPU has none and looks for one. -/
  | tick (cpu : ℕ)
  | lock (cpu m : ℕ)
  /-- A thread that was parked in `mutex_lock` runs again. -/
  | resume (cpu : ℕ)
  | trylock (cpu m : ℕ)
  | unlock (cpu m : ℕ)

/-- The machine: the calls are those of the thread that the CPU runs. A thread in `mutex_lock` makes
no other call. -/
def machine : Machine MutexRun Event
  | r, .tick cpu => some { r with locks := { r.locks with sched := r.sched.schedulerTick cpu } }
  | r, .lock cpu m => (r.sched.cpus cpu).bind fun tid =>
    if r.inside tid = none then some (r.lockTurn cpu tid m) else none
  | r, .resume cpu => (r.sched.cpus cpu).bind fun tid =>
    (r.inside tid).map fun m => r.lockTurn cpu tid m
  | r, .trylock cpu m => (r.sched.cpus cpu).bind fun tid =>
    if r.inside tid = none then some (r.trylock tid m) else none
  | r, .unlock cpu m => (r.sched.cpus cpu).bind fun tid =>
    if r.inside tid = none then some (r.unlock tid m) else none

/-- The scheduler is in order, and the mutexes are as `mutex_init` leaves them. -/
structure Start (r : MutexRun) : Prop where
  orderly : r.sched.Orderly
  mutexes : ∀ m, r.mutex m = ⟨none, 0, []⟩
  inside : ∀ tid, r.inside tid = none
  holders : ∀ m, r.holders m = []

/-- **What a mutex promises.** -/
structure Promise (r : MutexRun) (m : ℕ) : Prop where
  /-- At most one thread is between its lock and its unlock. -/
  exclusive : (r.holders m).length ≤ 1
  /-- The list has every thread that is stopped inside `mutex_lock` once, and no other. -/
  waiting : ∀ tid, (r.mutex m).waiting.count tid =
    if r.inside tid = some m ∧ (r.sched.threads tid).state = .stopped then 1 else 0
  /-- When the mutex has no owner and threads wait for it, a woken one can run. -/
  woken : (r.mutex m).owner = none → (r.mutex m).waiting ≠ [] →
    ∃ tid, r.inside tid = some m ∧ r.sched.CanRun tid

/-! ### The invariant -/

/-- What holds between the calls. -/
structure Kept (r : MutexRun) : Prop where
  orderly : r.sched.Orderly
  holders : ∀ m, r.holders m = (r.mutex m).owner.toList
  lockCount : ∀ m, (r.mutex m).owner ≠ none → (r.mutex m).lockCount = 1
  nodup : ∀ m, (r.mutex m).waiting.Nodup
  waiting : ∀ m tid, tid ∈ (r.mutex m).waiting ↔ r.inside tid = some m ∧ r.sched.Stopped tid
  woken : ∀ m, (r.mutex m).owner = none → (r.mutex m).waiting ≠ [] →
    ∃ tid, r.inside tid = some m ∧ Sched.Runnable (r.sched.threads tid).state

variable {r r' : MutexRun} {cpu tid m : ℕ}

theorem Start.kept (h : r.Start) : r.Kept where
  orderly := h.orderly
  holders m := by rw [h.holders, h.mutexes, toList_none]
  lockCount m hne := absurd (by rw [h.mutexes]) hne
  nodup m := by
    rw [h.mutexes]
    exact nodup_nil
  waiting m tid := by
    rw [h.mutexes, h.inside]
    simp
  woken m _ hne := absurd (by rw [h.mutexes]) hne

theorem Kept.promise (h : r.Kept) (m : ℕ) : r.Promise m where
  exclusive := by
    rw [h.holders]
    exact Option.length_toList_le
  waiting tid := by
    have hmem := h.waiting m tid
    split
    · next hin => exact count_eq_one_of_mem (h.nodup m) (hmem.mpr hin)
    · next hout => exact count_eq_zero.mpr (mt hmem.mp hout)
  woken hfree hne := by
    obtain ⟨tid, hinside, hrun⟩ := h.woken m hfree hne
    exact ⟨tid, hinside, h.orderly.canRun hrun⟩

/-- The thread that a CPU runs waits for nothing. -/
theorem Kept.not_waiting (h : r.Kept) (hcpu : r.sched.cpus cpu = some tid) (m : ℕ) :
    tid ∉ (r.mutex m).waiting := by
  intro hmem
  have hstopped : (r.sched.threads tid).state = .stopped := ((h.waiting m tid).mp hmem).2
  rw [h.orderly.busy cpu tid hcpu] at hstopped
  cases hstopped

theorem Kept.tick (h : r.Kept) (cpu : ℕ) :
    Kept { r with locks := { r.locks with sched := r.sched.schedulerTick cpu } } where
  orderly := h.orderly.tick cpu
  holders := h.holders
  lockCount := h.lockCount
  nodup := h.nodup
  waiting m tid := (h.waiting m tid).trans (and_congr_right' Sched.ticked_schedulerTick.stopped.symm)
  woken m hfree hne := by
    obtain ⟨tid, hinside, hrun⟩ := h.woken m hfree hne
    exact ⟨tid, hinside, Sched.ticked_schedulerTick.runnable.mpr hrun⟩

/-- A mutex without an owner is taken by a thread, which is in no call any more. -/
theorem Kept.acquire (h : r.Kept) (hcpu : r.sched.cpus cpu = some tid)
    (hinside : ∀ m', r.inside tid = some m' → m' = m)
    (hsched : r'.sched = r.sched)
    (hmutex : ∀ m', r'.mutex m' =
      if m' = m then ⟨some tid, 1, (r.mutex m).waiting⟩ else r.mutex m')
    (hfree : (r.mutex m).owner = none)
    (hin : ∀ t, r'.inside t = if t = tid then none else r.inside t)
    (hholders : r'.holders = r.gained tid m) : r'.Kept := by
  have hwaiting : ∀ m', (r'.mutex m').waiting = (r.mutex m').waiting := fun m' => by
    rw [hmutex]
    split
    · next heq => rw [heq]
    · rfl
  refine ⟨hsched ▸ h.orderly, fun m' => ?_, fun m' hne => ?_, fun m' => ?_, fun m' t => ?_,
    fun m' hfree' hne => ?_⟩
  · rw [hholders, gained, if_pos hfree, hmutex, update_apply, h.holders, h.holders]
    split
    · rw [hfree]
      rfl
    · rfl
  · rw [hmutex] at hne ⊢
    split at hne
    · next heq => rw [if_pos heq]
    · next hm =>
        rw [if_neg hm]
        exact h.lockCount m' hne
  · rw [hwaiting]
    exact h.nodup m'
  · rw [hwaiting, hin, hsched]
    split
    · next heq => exact iff_of_false (heq ▸ h.not_waiting hcpu m') fun hnone => nomatch hnone.1
    · exact h.waiting m' t
  · rw [hwaiting] at hne
    rw [hmutex] at hfree'
    split at hfree'
    · cases hfree'
    · next hm =>
        obtain ⟨t, ht, hrun⟩ := h.woken m' hfree' hne
        have hne : t ≠ tid := fun heq => hm (hinside m' (heq ▸ ht))
        exact ⟨t, by rw [hin, if_neg hne, ht], hsched ▸ hrun⟩

theorem mutex_update (r : MutexRun) (m : ℕ) (x : Mutex) (m' : ℕ) :
    update r.locks.mutexes m x m' = if m' = m then x else r.mutex m' :=
  update_apply ..

/-- A thread finds the mutex locked and is parked. -/
theorem Kept.wait (h : r.Kept) (hcpu : r.sched.cpus cpu = some tid)
    (hinside : ∀ m', r.inside tid = some m' → m' = m) {owner : ℕ}
    (howner : (r.mutex m).owner = some owner) : (r.lockTurn cpu tid m).Kept := by
  have hlocks : (r.lockTurn cpu tid m).locks = { r.locks with
      mutexes := update r.locks.mutexes m
        { r.mutex m with waiting := (r.mutex m).waiting ++ [tid] }
      sched := r.sched.park cpu tid } := by
    exact Locks.mutexLock_of_owner howner
  have hsched : (r.lockTurn cpu tid m).sched = r.sched.park cpu tid := by rw [sched, hlocks]
  have hmutex : ∀ m', (r.lockTurn cpu tid m).mutex m' =
      if m' = m then { r.mutex m with waiting := (r.mutex m).waiting ++ [tid] } else r.mutex m' :=
    fun m' => by
      rw [mutex, hlocks]
      exact r.mutex_update m _ m'
  have hne : (r.mutex m).owner ≠ none := by
    rw [howner]
    exact nofun
  have hin : ∀ t, (r.lockTurn cpu tid m).inside t = if t = tid then some m else r.inside t := by
    intro t
    simp only [lockTurn, if_neg hne]
    exact update_apply ..
  have hholders : (r.lockTurn cpu tid m).holders = r.holders := if_neg hne
  refine ⟨hsched ▸ h.orderly.park hcpu, fun m' => ?_, fun m' hne' => ?_, fun m' => ?_,
    fun m' t => ?_, fun m' hfree hne' => ?_⟩
  · rw [hholders, h.holders, hmutex]
    split
    · next heq => rw [heq]
    · rfl
  · rw [hmutex] at hne' ⊢
    split
    · exact h.lockCount m hne
    · next hm =>
        rw [if_neg hm] at hne'
        exact h.lockCount m' hne'
  · rw [hmutex]
    split
    · refine (h.nodup m).append (nodup_singleton tid) ?_
      exact disjoint_singleton.mpr (h.not_waiting hcpu m)
    · exact h.nodup m'
  · rw [hmutex, hin, hsched, Sched.stopped_park]
    by_cases ht : t = tid
    · subst ht
      by_cases hm : m' = m
      · simp [hm]
      · rw [if_neg hm, if_pos rfl]
        exact iff_of_false (h.not_waiting hcpu m') fun heq => hm (some.inj heq.1).symm
    · rw [if_neg ht, or_iff_right ht]
      by_cases hm : m' = m
      · rw [if_pos hm, hm, ← h.waiting m t]
        simp [ht]
      · rw [if_neg hm]
        exact h.waiting m' t
  · rw [hmutex] at hfree hne'
    by_cases hm : m' = m
    · rw [if_pos hm] at hfree
      exact absurd hfree hne
    · rw [if_neg hm] at hfree hne'
      obtain ⟨t, ht, hrun⟩ := h.woken m' hfree hne'
      have hother : t ≠ tid := fun heq => hm (hinside m' (heq ▸ ht))
      refine ⟨t, by rw [hin, if_neg hother, ht], ?_⟩
      rw [hsched]
      exact (Sched.runnable_park hother).mpr hrun

theorem Kept.lockTurn (h : r.Kept) (hcpu : r.sched.cpus cpu = some tid)
    (hinside : ∀ m', r.inside tid = some m' → m' = m) : (r.lockTurn cpu tid m).Kept := by
  cases howner : (r.mutex m).owner with
  | none =>
    have hlocks : (r.lockTurn cpu tid m).locks = { r.locks with
        mutexes := update r.locks.mutexes m ⟨some tid, 1, (r.mutex m).waiting⟩ } := by
      rw [mutex] at howner
      simp only [MutexRun.lockTurn, Locks.mutexLock, howner]
      rfl
    refine h.acquire hcpu hinside (by rw [sched, hlocks]; rfl) (fun m' => ?_) howner
      (fun t => ?_) rfl
    · rw [mutex, hlocks]
      exact r.mutex_update m _ m'
    · simp only [MutexRun.lockTurn, if_pos howner]
      exact update_apply ..
  | some owner => exact h.wait hcpu hinside howner

theorem Kept.trylock (h : r.Kept) (hcpu : r.sched.cpus cpu = some tid)
    (hinside : r.inside tid = none) : (r.trylock tid m).Kept := by
  cases howner : (r.mutex m).owner with
  | none =>
    have hlocks : (r.trylock tid m).locks = { r.locks with
        mutexes := update r.locks.mutexes m ⟨some tid, 1, (r.mutex m).waiting⟩ } := by
      rw [mutex] at howner
      simp only [MutexRun.trylock, Locks.mutexTrylock, howner]
      rfl
    refine h.acquire hcpu (fun m' hm' => by rw [hinside] at hm'; cases hm')
      (by rw [sched, hlocks]; rfl) (fun m' => ?_) howner (fun t => ?_) rfl
    · rw [mutex, hlocks]
      exact r.mutex_update m _ m'
    · split
      · next heq => exact heq ▸ hinside
      · rfl
  | some owner =>
    have hsame : r.trylock tid m = r := by
      have hne : (r.mutex m).owner ≠ none := by
        rw [howner]
        exact nofun
      rw [mutex] at howner
      simp only [MutexRun.trylock, Locks.mutexTrylock, howner, gained, if_neg hne]
    rw [hsame]
    exact h

/-- The last thread of the list is woken, if there is one. -/
theorem Kept.wakeLast (h : r.Kept) (m : ℕ) :
    (Locks.wakeLast r.sched (r.mutex m).waiting).Orderly ∧
      (∀ m' t, t ∈ (if m' = m then (r.mutex m).waiting.dropLast else (r.mutex m').waiting) ↔
        r.inside t = some m' ∧ (Locks.wakeLast r.sched (r.mutex m).waiting).Stopped t) ∧
      (∀ t, Sched.Runnable (r.sched.threads t).state →
        Sched.Runnable ((Locks.wakeLast r.sched (r.mutex m).waiting).threads t).state) ∧
      ((r.mutex m).waiting ≠ [] → ∃ t, r.inside t = some m ∧
        Sched.Runnable ((Locks.wakeLast r.sched (r.mutex m).waiting).threads t).state) := by
  rcases eq_nil_or_concat (r.mutex m).waiting with hnil | ⟨rest, last, hlast⟩
  · have hsame : Locks.wakeLast r.sched (r.mutex m).waiting = r.sched := by
      rw [hnil]
      rfl
    rw [hsame]
    refine ⟨h.orderly, fun m' t => ?_, fun _ hrun => hrun, fun hne => absurd hnil hne⟩
    split
    · next heq => rw [hnil, heq, ← h.waiting m t, hnil, dropLast_nil]
    · exact h.waiting m' t
  · rw [concat_eq_append] at hlast
    have hmem : last ∈ (r.mutex m).waiting := by
      rw [hlast]
      exact mem_append_right _ (mem_singleton.mpr rfl)
    obtain ⟨hinside, hstopped⟩ := (h.waiting m last).mp hmem
    have hwoken : Locks.wakeLast r.sched (r.mutex m).waiting =
        (r.sched.setState last .ready).addThreadLocked last := by
      rw [Locks.wakeLast, hlast, getLast?_concat]
      exact if_pos (h.orderly.hasThread hstopped)
    have hnodup : last ∉ rest := by
      have hnd := h.nodup m
      rw [hlast, nodup_append] at hnd
      exact fun hin => hnd.2.2 last hin last (mem_singleton.mpr rfl) rfl
    rw [hwoken]
    refine ⟨h.orderly.ready hstopped, fun m' t => ?_, fun t hrun => ?_, fun _ => ?_⟩
    · rw [Sched.stopped_ready]
      have hold := h.waiting m' t
      by_cases hm : m' = m
      · subst hm
        rw [hlast, mem_append, mem_singleton] at hold
        rw [if_pos rfl, hlast, dropLast_concat]
        by_cases ht : t = last
        · exact iff_of_false (ht ▸ hnodup) fun hne => hne.2.1 ht
        · rw [or_iff_left ht] at hold
          exact hold.trans (and_congr_right' (and_iff_right ht).symm)
      · rw [if_neg hm]
        refine hold.trans (and_congr_right fun hin => (and_iff_right ?_).symm)
        rintro rfl
        exact hm (some.inj (hin.symm.trans hinside))
    · exact (Sched.runnable_ready _ _ _).mpr (.inr hrun)
    · exact ⟨last, hinside, (Sched.runnable_ready _ _ _).mpr (.inl rfl)⟩

theorem Kept.unlock (h : r.Kept) (tid m : ℕ) : (r.unlock tid m).Kept := by
  by_cases howner : (r.mutex m).owner = some tid
  · have hcount : (r.mutex m).lockCount - 1 = 0 := by
      rw [h.lockCount m (by rw [howner]; exact nofun), Int.sub_self]
    have hlocks : (r.unlock tid m).locks = { r.locks with
        mutexes := update r.locks.mutexes m ⟨none, 0, (r.mutex m).waiting.dropLast⟩
        sched := Locks.wakeLast r.sched (r.mutex m).waiting } :=
      Locks.mutexUnlock_of_owner howner hcount
    have hholders : (r.unlock tid m).holders =
        update r.holders m ((r.holders m).erase tid) := if_pos howner
    have hsched : (r.unlock tid m).sched = Locks.wakeLast r.sched (r.mutex m).waiting := by
      rw [sched, hlocks]
    have hmutex : ∀ m', (r.unlock tid m).mutex m' =
        if m' = m then ⟨none, 0, (r.mutex m).waiting.dropLast⟩ else r.mutex m' := fun m' => by
      rw [mutex, hlocks]
      exact r.mutex_update m _ m'
    have hwaiting : ∀ m', ((r.unlock tid m).mutex m').waiting =
        if m' = m then (r.mutex m).waiting.dropLast else (r.mutex m').waiting := fun m' => by
      rw [hmutex]
      split <;> rfl
    obtain ⟨horderly, hstopped, hrunnable, hwoken⟩ := h.wakeLast m
    refine ⟨hsched ▸ horderly, fun m' => ?_, fun m' hne => ?_, fun m' => ?_, fun m' t => ?_,
      fun m' hfree hne => ?_⟩
    · rw [hholders, update_apply, h.holders, h.holders, hmutex]
      split
      · rw [howner, toList_some, erase_cons_head]
        rfl
      · rfl
    · rw [hmutex] at hne ⊢
      split at hne
      · exact absurd rfl hne
      · next hm =>
          rw [if_neg hm]
          exact h.lockCount m' hne
    · rw [hwaiting]
      split
      · exact (h.nodup m).sublist (dropLast_sublist _)
      · exact h.nodup m'
    · rw [hwaiting, hsched]
      exact hstopped m' t
    · rw [hsched]
      rw [hwaiting] at hne
      rw [hmutex] at hfree
      by_cases hm : m' = m
      · rw [if_pos hm] at hne
        obtain ⟨t, ht, hrun⟩ := hwoken fun hnil => hne (by rw [hnil, dropLast_nil])
        exact ⟨t, hm ▸ ht, hrun⟩
      · rw [if_neg hm] at hne hfree
        obtain ⟨t, ht, hrun⟩ := h.woken m' hfree hne
        exact ⟨t, ht, hrunnable t hrun⟩
  · have hsame : r.unlock tid m = r := by
      have hlocks : r.locks.mutexUnlock tid m = r.locks := if_pos howner
      simp only [MutexRun.unlock, hlocks, if_neg howner]
    rw [hsame]
    exact h

theorem Kept.step {e : Event} (h : r.Kept) (hstep : machine r e = some r') : r'.Kept := by
  cases e with
  | tick cpu =>
    obtain rfl := some.inj hstep
    exact h.tick cpu
  | lock cpu m =>
    simp only [machine, bind_eq_some_iff, ite_none_right_eq_some, some.injEq] at hstep
    obtain ⟨tid, hcpu, hinside, rfl⟩ := hstep
    exact h.lockTurn hcpu fun m' hm' => nomatch hinside.symm.trans hm'
  | resume cpu =>
    simp only [machine, bind_eq_some_iff, map_eq_some_iff] at hstep
    obtain ⟨tid, hcpu, m, hinside, rfl⟩ := hstep
    exact h.lockTurn hcpu fun m' hm' => some.inj (hm'.symm.trans hinside)
  | trylock cpu m =>
    simp only [machine, bind_eq_some_iff, ite_none_right_eq_some, some.injEq] at hstep
    obtain ⟨tid, hcpu, hinside, rfl⟩ := hstep
    exact h.trylock hcpu hinside
  | unlock cpu m =>
    simp only [machine, bind_eq_some_iff, ite_none_right_eq_some, some.injEq] at hstep
    obtain ⟨tid, -, -, rfl⟩ := hstep
    exact h.unlock tid m

/-- **Mutexes keep their promise** in every state of every run, for any number of threads, mutexes
and CPUs. -/
theorem mutexes_keep_their_promise {r₀ : MutexRun} (h₀ : r₀.Start)
    (hrun : machine.Run Machine.Any r₀ r) (m : ℕ) : r.Promise m :=
  (hrun.invariant h₀.kept fun _ _ _ h _ hstep => h.step hstep).promise m

/-- Three threads, and nobody has a mutex. -/
def three : MutexRun := ⟨⟨Sched.three, fun _ => ⟨none, 0, []⟩, fun _ => ⟨0, []⟩⟩, fun _ => none,
  fun _ => []⟩

theorem three_start : three.Start := ⟨Sched.three_orderly, fun _ => rfl, fun _ => rfl, fun _ => rfl⟩

/-- The first thread locks a mutex, the two others wait for it, and then it is unlocked. -/
def handedOn : List Event := [.tick 0, .lock 0 0, .tick 0, .lock 0 0, .lock 0 0, .unlock 0 0]

/-- The thread that came last has been woken, and the other one still waits. -/
theorem mutexes_keep_their_promise_handed_on :
    ((machine.after three handedOn).mutex 0).owner = none ∧
      ((machine.after three handedOn).mutex 0).waiting = [1] ∧
      (machine.after three handedOn).inside 2 = some 0 ∧
      (machine.after three handedOn).Promise 0 :=
  ⟨by decide, by decide, by decide, mutexes_keep_their_promise three_start
    (Machine.run_after (by decide)) 0⟩

/-- **No thread is lost**: one that is not stopped is in a queue or on a CPU. -/
theorem runnable_can_run {r₀ : MutexRun} (h₀ : r₀.Start) (hrun : machine.Run Machine.Any r₀ r)
    (h : Sched.Runnable (r.sched.threads tid).state) : r.sched.CanRun tid :=
  (hrun.invariant h₀.kept fun _ _ _ h _ hstep => h.step hstep).orderly.canRun h

theorem runnable_can_run_woken : (machine.after three handedOn).sched.CanRun 2 :=
  runnable_can_run three_start (Machine.run_after (by decide)) (.inl (by decide))

end MutexRun

end OsPi
