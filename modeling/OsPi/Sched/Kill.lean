import OsPi.Sched.Processes

/-!
# SIGKILL

`s_kill` with `SIGKILL` goes through the threads of a process. `handle_interruptable_signal` ends a
thread in whatever state it is, but `pthread_kill` does not always get there: not for a thread that
masks the signal, which `sigprocmask` allows, and not for one that is blocked until there is a
signal, which is only made ready.

`sigkill_ends_iff` says that these are the only ones that are left.
-/

namespace OsPi

open Comp List

/-- A thread that `pthread_kill` does not end with `SIGKILL`. -/
def Thread.Resists (t : Thread) : Prop :=
  t.state ≠ .zombie ∧ (t.mask &&& sigBit sigKill ≠ 0 ∨
    t.state.Blocked ∧ t.blockedUntil &&& blockUntilSignal ≠ 0)

instance (t : Thread) : Decidable t.Resists := inferInstanceAs (Decidable (_ ∧ _))

namespace Sched

variable {s s' s'' : Sched} {depth cpu tid pid : ℕ}

/-- A step that ends no thread but `tid`. -/
structure Spares (tid : ℕ) (s s' : Sched) : Prop where
  zombie : ∀ t ≠ tid, (s'.threads t).state = .zombie ↔ (s.threads t).state = .zombie
  has : ∀ t, s'.HasThread t ↔ s.HasThread t
  cpus : s'.cpus = s.cpus

namespace Spares

theorem refl (tid : ℕ) (s : Sched) : Spares tid s s := ⟨fun _ _ => .rfl, fun _ => .rfl, rfl⟩

theorem trans (h : Spares tid s s') (h' : Spares tid s' s'') : Spares tid s s'' :=
  ⟨fun t ht => (h'.zombie t ht).trans (h.zombie t ht), fun t => (h'.has t).trans (h.has t),
    h'.cpus.trans h.cpus⟩

theorem of_woken {who : ℕ → Prop} (h : Woken who s s') : Spares tid s s' :=
  ⟨fun t _ => h.state_iff t (by decide) (by decide), h.hasThread_iff, h.cpus⟩

/-- A change of the thread itself that leaves it in use. -/
theorem modThread {f : Thread → Thread}
    (hf : (f (s.threads tid)).state = .unused ↔ (s.threads tid).state = .unused) :
    Spares tid s (s.modThread tid f) where
  zombie t ht := by rw [threads_modThread, if_neg ht]
  has t := by
    rw [HasThread, HasThread, threads_modThread]
    split
    · rename_i heq
      rw [heq, ne_eq, ne_eq, hf]
      rfl
    · rfl
  cpus := rfl

end Spares

/-- `terminate_thread` for a thread that is in use and does not make the call. -/
theorem terminateThread_spec {u : Unit} (hhas : s.HasThread tid)
    (h : (terminateThread depth cpu tid).eval s = (.ok u, s')) :
    (s'.threads tid).state = .zombie ∧ Spares tid s s' := by
  rw [terminateThread, eval_get_bind, eval_ite] at h
  split at h
  · rename_i hzombie
    cases h
    exact ⟨hzombie, .refl tid s⟩
  · rw [enterState, eval_get_bind] at h
    obtain ⟨_, s₁, hchange, h⟩ := eval_bind_eq_ok.mp h
    have hwoken := pcbThreadChangeState_woken depth s (s.threads tid).pid (s.threads tid).state
      .zombie
    rw [hchange] at hwoken
    rw [eval_modify_bind, yieldIfCurrent, eval_get_bind, eval_ite] at h
    split at h
    · cases h
    · cases h
      refine ⟨by rw [setState, threads_modThread, if_pos rfl], ?_⟩
      refine (Spares.of_woken hwoken).trans (Spares.modThread ?_)
      have hused := ((hwoken.hasThread_iff tid).mpr hhas).2
      exact ⟨(fun h => by cases h), fun hz => absurd hz hused⟩

/-- The part of `pthread_kill` after the test of the mask. -/
theorem handleKill_spec {u : Unit} (hhas : s.HasThread tid)
    (h : (handleInterruptableSignal depth cpu tid sigKill).eval s = (.ok u, s')) :
    (s'.threads tid).state = .zombie ∧ Spares tid s s' := by
  rw [handleInterruptableSignal, eval_get_bind, eval_ite, if_pos rfl, clearPending,
    eval_modify_bind] at h
  have hclear : Spares tid s (s.modThread tid fun t =>
      { t with pending := t.pending &&& ~~~sigBit sigKill }) := .modThread .rfl
  obtain ⟨hzombie, hspares⟩ := terminateThread_spec ((hclear.has tid).mpr hhas) h
  exact ⟨hzombie, hclear.trans hspares⟩

/-- A thread that does not mask the signal is ended unless it is blocked until there is one. -/
theorem deliverKill_spec {u : Unit} (hhas : s.HasThread tid)
    (h : (deliver depth cpu tid sigKill).eval s = (.ok u, s')) :
    Spares tid s s' ∧ ((s'.threads tid).state = .zombie ↔
      ¬((s.threads tid).state.Blocked ∧ (s.threads tid).blockedUntil &&& blockUntilSignal ≠ 0)) := by
  obtain ⟨unblocked, s₁, hevent, h⟩ := eval_bind_eq_ok.mp h
  rw [eval_get_bind] at h
  rw [sendUnblockEvent, eval_get_bind] at hevent
  split at hevent
  · rename_i hwaits
    obtain ⟨_, s₂, hunblock, hevent⟩ := eval_bind_eq_ok.mp hevent
    cases hevent
    have hready := unblockThread_ready hwaits.2.1 hunblock
    have hwoken := unblockThread_woken depth tid s
    rw [hunblock] at hwoken
    -- the thread is ready, so that the signal is not handled
    rw [hready, if_neg (by decide)] at h
    cases h
    refine ⟨.of_woken hwoken, ?_⟩
    rw [hready]
    exact ⟨nofun, fun hno => absurd hwaits.2 hno⟩
  · rename_i hwaits
    cases hevent
    obtain ⟨hzombie, hspares⟩ := handleKill_spec hhas h
    exact ⟨hspares, fun _ hno => hwaits ⟨hhas, hno⟩, fun _ => hzombie⟩

/-- `pthread_kill` with `SIGKILL` ends the thread unless it resists, and no other. -/
theorem pthreadKill_spec {ret : ℤ} (h : (pthreadKill depth cpu tid sigKill).eval s = (.ok ret, s')) :
    Spares tid s s' ∧
      (s.HasThread tid → ((s'.threads tid).state = .zombie ↔ ¬(s.threads tid).Resists)) := by
  rw [pthreadKill, eval_get_bind, eval_ite] at h
  split at h
  · rename_i hhas
    cases h
    exact ⟨.refl tid s, fun hhas' => absurd hhas' hhas⟩
  · rename_i hhas
    rw [not_not] at hhas
    rw [eval_ite, if_neg fun hcont => absurd hcont.1 (by decide), eval_modify_bind] at h
    have hpending : Spares tid s (s.setPending tid sigKill) := .modThread .rfl
    split at h
    · rename_i hmask
      obtain ⟨_, s₁, hdeliver, h⟩ := eval_bind_eq_ok.mp h
      cases h
      obtain ⟨hspares, hzombie⟩ := deliverKill_spec ((hpending.has tid).mpr hhas) hdeliver
      rw [state_setPending, blockedUntil_setPending] at hzombie
      refine ⟨hpending.trans hspares, fun _ => hzombie.trans (not_congr ⟨fun hwaits => ?_, ?_⟩)⟩
      · refine ⟨fun hdead => ?_, .inr hwaits⟩
        rw [hdead] at hwaits
        exact hwaits.1
      · rintro ⟨-, hmasked | hwaits⟩
        · exact absurd hmask hmasked
        · exact hwaits
    · rename_i hmask
      cases h
      refine ⟨hpending, fun _ => ?_⟩
      rw [state_setPending, Thread.Resists, not_and_or, ne_eq, not_not]
      exact ⟨.inl, fun hno => hno.resolve_right fun hno => hno (.inl hmask)⟩

/-- No thread resists when the loop of `s_kill` gets to it, unless a CPU runs it or the loop comes
back to it. -/
def NoneResists (depth cpu : ℕ) : List ℕ → Sched → Prop
  | [], _ => True
  | tid :: rest, s =>
    (tid ∉ rest → s.HasThread tid → (∀ c, s.cpus c ≠ some tid) → ¬(s.threads tid).Resists) ∧
      NoneResists depth cpu rest ((pthreadKill depth cpu tid sigKill).eval s).2

/-- What the loop of `s_kill` leaves. -/
structure LoopSpec (depth cpu : ℕ) (tids : List ℕ) (s s' : Sched) : Prop where
  zombie : ∀ t ∉ tids, (s'.threads t).state = .zombie ↔ (s.threads t).state = .zombie
  has : ∀ t, s'.HasThread t ↔ s.HasThread t
  cpus : s'.cpus = s.cpus
  all : (∀ t ∈ tids, s.HasThread t → (∀ c, s.cpus c ≠ some t) → (s'.threads t).state = .zombie) ↔
    NoneResists depth cpu tids s

theorem killThreads_spec {tids : List ℕ} {sent sent' : Bool}
    (h : (killThreads depth cpu sigKill tids sent).eval s = (.ok sent', s')) :
    LoopSpec depth cpu tids s s' := by
  induction tids generalizing s sent with
  | nil =>
    cases h
    exact ⟨fun _ _ => .rfl, fun _ => .rfl, rfl, fun _ => trivial, fun _ _ ht => by cases ht⟩
  | cons tid rest ih =>
    obtain ⟨ret, s₁, hkill, h⟩ := eval_bind_eq_ok.mp h
    obtain ⟨hspares, hends⟩ := pthreadKill_spec hkill
    have hloop := ih h
    have hnext : ((pthreadKill depth cpu tid sigKill).eval s).2 = s₁ := by rw [hkill]
    refine ⟨fun t ht => ?_, fun t => (hloop.has t).trans (hspares.has t),
      hloop.cpus.trans hspares.cpus, ?_⟩
    · rw [mem_cons, not_or] at ht
      exact (hloop.zombie t ht.2).trans (hspares.zombie t ht.1)
    · rw [NoneResists, hnext, ← hloop.all]
      constructor
      · intro hall
        refine ⟨fun hlast hhas hcpu => ?_, fun t ht hhas hcpu => ?_⟩
        · exact (hends hhas).mp ((hloop.zombie tid hlast).mp
            (hall tid mem_cons_self hhas hcpu))
        · rw [hspares.cpus] at hcpu
          exact hall t (mem_cons_of_mem _ ht) ((hspares.has t).mp hhas) hcpu
      · rintro ⟨hfirst, hrest⟩ t ht hhas hcpu
        by_cases hmem : t ∈ rest
        · refine hrest t hmem ((hspares.has t).mpr hhas) ?_
          rwa [hspares.cpus]
        · obtain rfl | ht := mem_cons.mp ht
          · exact (hloop.zombie t hmem).mpr ((hends hhas).mpr (hfirst hmem hhas hcpu))
          · exact absurd ht hmem

/-- `s_kill` of one process with `SIGKILL` is the loop over the threads of that process. -/
theorem sKill_spec (h : (sKill depth cpu pid sigKill).eval s = (.ok 0, s')) :
    LoopSpec depth cpu (s.procs pid).tids s s' := by
  rw [sKill, eval_get_bind, eval_ite, if_neg (by decide), eval_ite,
    if_neg (by omega), Int.toNat_natCast, Int.toNat_natCast, killProcess, eval_get_bind,
    eval_ite] at h
  split at h
  · cases h
  · rw [SigActions.action_kill] at h
    obtain ⟨sent, s₁, hloop, h⟩ := eval_bind_eq_ok.mp h
    obtain rfl : s₁ = s' := (Prod.mk.inj h).2
    exact killThreads_spec hloop

/-- **SIGKILL.** When `s_kill` returns 0, all threads of the process that no CPU runs are dead
exactly when none of them resisted: none masked the signal, and none was blocked until there is a
signal. -/
theorem sigkill_ends_iff (h : (sKill depth cpu pid sigKill).eval s = (.ok 0, s')) :
    (∀ tid ∈ (s.procs pid).tids, s.HasThread tid → (∀ c, s'.cpus c ≠ some tid) →
        (s'.threads tid).state = .zombie) ↔
      NoneResists depth cpu (s.procs pid).tids s := by
  rw [(sKill_spec h).cpus]
  exact (sKill_spec h).all

/-- The first process ends the second one, which does nothing against it. -/
theorem sigkill_ends_ready : ∃ s', (sKill 8 0 1 sigKill).eval pair = (.ok 0, s') ∧
    ∀ tid ∈ (pair.procs 1).tids, pair.HasThread tid → (∀ c, s'.cpus c ≠ some tid) →
      (s'.threads tid).state = .zombie := by
  have hkill : (sKill 8 0 1 sigKill).eval pair = (.ok 0, _) :=
    eval_eq_of_toOption (by decide +kernel)
  refine ⟨_, hkill, (sigkill_ends_iff hkill).mpr ⟨fun _ _ _ => ?_, trivial⟩⟩
  decide +kernel

/-- The thread of the second process runs for a while and masks all signals. -/
def masked : Sched :=
  ((pair.schedulerTick 0).sigprocmask 1 .block 0xffffffff).schedulerTick 0

/-- The thread of the second process runs for a while and waits until there is a signal. -/
def suspended : Sched := ((blockUntilEvent 8 0 1 blockUntilSignal).eval (pair.schedulerTick 0)).2

set_option maxRecDepth 10000 in
/-- A thread that masks `SIGKILL`, and one that waits for a signal, are alive after it. -/
theorem sigkill_resisted :
    (∃ s', (sKill 8 0 1 sigKill).eval masked = (.ok 0, s') ∧
      1 ∈ (masked.procs 1).tids ∧ masked.HasThread 1 ∧
      (∀ c, s'.cpus c ≠ some 1) ∧ (s'.threads 1).state = .ready) ∧
    ∃ s', (sKill 8 0 1 sigKill).eval suspended = (.ok 0, s') ∧
      1 ∈ (suspended.procs 1).tids ∧ suspended.HasThread 1 ∧
      (∀ c, s'.cpus c ≠ some 1) ∧ (s'.threads 1).state = .ready := by
  -- the first CPU runs the caller and no other CPU runs anything
  have hcpus : ∀ {s s' : Sched}, (sKill 8 0 1 sigKill).eval s = (.ok 0, s') →
      s.cpus 0 ≠ some 1 → (∀ c, s.cpus (c + 1) = none) → ∀ c, s'.cpus c ≠ some 1 := by
    intro s s' h hzero hsucc c
    rw [(sKill_spec h).cpus]
    cases c with
    | zero => exact hzero
    | succ c => rw [hsucc]; nofun
  have hmasked : (sKill 8 0 1 sigKill).eval masked = (.ok 0, _) :=
    eval_eq_of_toOption (by decide +kernel)
  have hsuspended : (sKill 8 0 1 sigKill).eval suspended = (.ok 0, _) :=
    eval_eq_of_toOption (by decide +kernel)
  exact ⟨⟨_, hmasked, by decide +kernel, by decide +kernel,
      hcpus hmasked (by decide +kernel) (fun _ => rfl), by decide +kernel⟩,
    _, hsuspended, by decide +kernel, by decide +kernel,
      hcpus hsuspended (by decide +kernel) (fun _ => rfl), by decide +kernel⟩

end Sched

end OsPi
