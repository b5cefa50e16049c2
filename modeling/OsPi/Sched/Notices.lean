import OsPi.Sched.Accounts

/-!
# Notices that Are Lost or Kept

What becomes of signals and of the events of children. `send_sigchld` stops at the first thread
that waits for the child, whether it wants to know of the event or not. `pthread_kill` with
`SIGCONT` looks for pending signals with `SIG_STOP` as their handler, but the handler of a signal
that stops a process is `SIG_DFL`, so that it removes none. And the loops over pending signals shift
a signed number to the right, which never becomes zero when it is negative.
-/

namespace OsPi

open Comp

namespace Sched

variable {s s' : Sched} {depth cpu child tid : ℕ}

/-! ### Events of children -/

/-- `SIGTTOU`, `SIGTTIN`, `SIGTSTP` and `SIGSTOP`. -/
def stopSignals : SignalSet := sigBit 6 ||| sigBit 7 ||| sigBit 8 ||| sigBit sigStop

/-- What is pending of them, by process and by thread, and the threads of the processes. -/
def stopsPending (s : Sched) : (ℕ → SignalSet × List ℕ) × (ℕ → SignalSet) :=
  (fun pid => ((s.procs pid).pending &&& stopSignals, (s.procs pid).tids),
    fun tid => (s.threads tid).pending &&& stopSignals)

theorem stopsPending_of_woken {who : ℕ → Prop} (h : Woken who s s') :
    s'.stopsPending = s.stopsPending := by
  refine Prod.ext (funext fun pid => ?_) (funext fun tid => ?_)
  · simp only [stopsPending]
    rw [h.procs pid]
  · simp only [stopsPending]
    rcases h.threads tid with heq | ⟨-, -, heq⟩ <;> rw [heq]

theorem stopsPending_of_ticked (h : Ticked s s') : s'.stopsPending = s.stopsPending := by
  refine Prod.ext (funext fun pid => ?_) (funext fun tid => ?_)
  · simp only [stopsPending]
    rw [h.procs]
  · simp only [stopsPending]
    rcases h.threads tid with heq | ⟨-, a, -, heq⟩ <;> rw [heq]

theorem stopsPending_modThread {f : Thread → Thread}
    (hf : (f (s.threads tid)).pending &&& stopSignals = (s.threads tid).pending &&& stopSignals) :
    (s.modThread tid f).stopsPending = s.stopsPending := by
  refine Prod.ext rfl (funext fun tid' => ?_)
  simp only [stopsPending, threads_modThread]
  split
  · next heq => rw [hf, heq]
  · rfl

section Keeps

variable (depth cpu tid : ℕ)

theorem pcbThreadChangeState_keepsStops (pid : ℕ) (old new : ThreadState) :
    Keeps stopsPending (pcbThreadChangeState depth pid old new) :=
  fun s => stopsPending_of_woken (pcbThreadChangeState_woken depth s pid old new)

theorem unblockThread_keepsStops : Keeps stopsPending (unblockThread depth tid) :=
  fun s => stopsPending_of_woken (unblockThread_woken depth tid s)

theorem enterState_keepsStops (new : ThreadState) :
    Keeps stopsPending (enterState depth cpu tid new) := by
  refine .bind .get fun _ => .bind (pcbThreadChangeState_keepsStops depth _ _ _) fun _ =>
    .bind (.of_modify fun _ => stopsPending_modThread rfl) fun _ => .bind .get fun _ =>
      .ite (fun _ => .bind (.of_modify fun _ => ?_) fun _ => .throw) fun _ => .pure
  exact stopsPending_of_ticked ticked_schedulerTick

theorem terminateThread_keepsStops : Keeps stopsPending (terminateThread depth cpu tid) :=
  .bind .get fun _ => .ite (fun _ => .pure) fun _ => enterState_keepsStops depth cpu tid _

theorem stopThread_keepsStops : Keeps stopsPending (stopThread depth cpu tid) :=
  .bind .get fun _ => .ite (fun _ => .pure) fun _ =>
    .bind (.of_modify fun _ => stopsPending_modThread rfl) fun _ => enterState_keepsStops depth cpu tid _

theorem continueThread_keepsStops : Keeps stopsPending (continueThread depth tid) := by
  refine .bind .get fun _ => .ite (fun _ => .bind (pcbThreadChangeState_keepsStops depth _ _ _)
    fun _ => .bind (.of_modify fun _ => stopsPending_modThread rfl) fun _ =>
      .ite (fun _ => .of_modify fun _ => ?_) fun _ => .pure) fun _ => .pure
  exact stopsPending_of_ticked sameTables_addThreadLocked.ticked

theorem clearPending_keepsStops : Keeps stopsPending (clearPending tid sigCont) := by
  refine .of_modify fun s => stopsPending_modThread ?_
  have hother : ~~~sigBit sigCont &&& stopSignals = stopSignals := by decide
  rw [BitVec.and_assoc, hother]

theorem setPending_keepsStops : (s.setPending tid sigCont).stopsPending = s.stopsPending := by
  refine stopsPending_modThread ?_
  have hother : sigBit sigCont &&& stopSignals = 0#32 := by decide
  ext i hi
  have hbit : (sigBit sigCont &&& stopSignals)[i] = false := by rw [hother, BitVec.getElem_zero]
  rw [BitVec.getElem_and] at hbit
  rw [BitVec.getElem_and, BitVec.getElem_or, Bool.and_or_distrib_right, hbit, Bool.or_false,
    BitVec.getElem_and]

theorem handleInterruptableSignal_keepsStops :
    Keeps stopsPending (handleInterruptableSignal depth cpu tid sigCont) := by
  have hclear := clearPending_keepsStops tid
  have hterm := hclear.bind fun _ => terminateThread_keepsStops depth cpu tid
  refine .bind .get fun s => .ite (fun _ => hterm) fun _ => ?_
  split
  · exact .ite (fun _ => hterm) fun _ => .ite
      (fun _ => hclear.bind fun _ => stopThread_keepsStops depth cpu tid) fun _ =>
      .ite (fun _ => .pure) fun _ => unblockThread_keepsStops depth tid
  · exact .ite (fun _ => hterm) fun _ => .pure
  · exact .ite (fun _ => hclear.bind fun _ => continueThread_keepsStops depth tid) fun _ => .pure
  · exact .pure

theorem pthreadKill_keepsStops : Keeps stopsPending (pthreadKill depth cpu tid sigCont) := by
  have hevent : Keeps stopsPending (sendUnblockEvent depth tid blockUntilSignal) :=
    .bind .get fun _ => .ite (fun _ => (unblockThread_keepsStops depth tid).bind fun _ => .pure)
      fun _ => .pure
  have hdeliver : Keeps stopsPending (deliver depth cpu tid sigCont) :=
    hevent.bind fun _ => .bind .get fun _ =>
      .ite (fun _ => handleInterruptableSignal_keepsStops depth cpu tid) fun _ => .pure
  exact .bind .get fun s => .ite (fun _ => .pure) fun _ => .ite (fun _ => .throw) fun _ =>
    .bind (.of_modify fun _ => setPending_keepsStops tid) fun _ =>
      .ite (fun _ => hdeliver.bind fun _ => .pure) fun _ => .pure

theorem killThreads_keepsStops (tids : List ℕ) (sent : Bool) :
    Keeps stopsPending (killThreads depth cpu sigCont tids sent) := by
  induction tids generalizing sent with
  | nil => exact .pure
  | cons tid rest ih => exact .bind (pthreadKill_keepsStops depth cpu tid) fun _ => ih _

end Keeps

/-- No signal that stops a process is pending for it or for one of its threads. -/
def NoStopPending (s : Sched) (pid : ℕ) : Prop :=
  (s.procs pid).pending &&& stopSignals = 0 ∧
    ∀ tid ∈ (s.procs pid).tids, (s.threads tid).pending &&& stopSignals = 0

/-- **`SIGCONT` cancels no stop**: after it none is pending exactly if none was before. -/
theorem sigcont_cancels_iff {pid : ℕ} {ret : ℤ}
    (hdefault : ((s.procs pid).sigactions.act sigCont).handler = .dfl)
    (h : (sKill depth cpu pid sigCont).eval s = (.ok ret, s')) :
    s'.NoStopPending pid ↔ s.NoStopPending pid := by
  have hkeeps : s'.stopsPending = s.stopsPending := by
    have hnat : (pid : ℤ).toNat = pid ∧ (sigCont : ℤ).toNat = sigCont := ⟨Int.toNat_natCast _, rfl⟩
    rw [sKill, eval_get_bind, eval_ite, if_neg (by decide),
      eval_ite, if_neg (Int.not_lt.mpr (Int.natCast_nonneg _)), hnat.1, hnat.2, killProcess,
      eval_get_bind, eval_ite] at h
    split at h
    · cases h
      rfl
    · have haction : (s.procs pid).sigactions.action sigCont = .cont := by
        rw [SigActions.action, hdefault]
        rfl
      rw [haction] at h
      obtain ⟨_, _, hkill, h⟩ := eval_bind_eq_ok.mp h
      cases h
      exact (killThreads_keepsStops depth cpu _ _).of_eval hkill
  have hproc := congrFun (congrArg Prod.fst hkeeps) pid
  have hthread : ∀ tid, (s'.threads tid).pending &&& stopSignals =
      (s.threads tid).pending &&& stopSignals := fun tid => congrFun (congrArg Prod.snd hkeeps) tid
  obtain ⟨hpending, htids⟩ := Prod.mk.inj hproc
  simp only [NoStopPending, hpending, htids, hthread]

/-- A process with one thread, which is ready and masks a signal. -/
def oneReady (masked : ℕ) : Sched :=
  { Sched.zero with
    threadCount := 1
    threads := fun _ => { Thread.fresh 0 with mask := sigBit masked }
    procs := fun _ => { Process.zero with state := .running, tids := [0] } }

/-- Nothing is pending after a `SIGCONT` if nothing was before. -/
theorem sigcont_cancels_none :
    ((sKill 1 0 0 sigCont).eval (oneReady 8)).1.toOption = some 0 ∧
      ((sKill 1 0 0 sigCont).eval (oneReady 8)).2.NoStopPending 0 := by
  refine ⟨rfl, (sigcont_cancels_iff rfl (eval_eq_of_toOption (a := 0) rfl)).mpr ?_⟩
  have hzero : (0 : SignalSet) &&& stopSignals = 0 := by decide
  exact ⟨hzero, fun _ _ => hzero⟩

/-- A `SIGTSTP` that is sent before the `SIGCONT` stays pending. -/
theorem sigcont_cancels_not :
    ((sKill 1 0 0 sigCont).eval ((sKill 1 0 0 8).eval (oneReady 8)).2).1.toOption = some 0 ∧
      ¬((sKill 1 0 0 sigCont).eval ((sKill 1 0 0 8).eval (oneReady 8)).2).2.NoStopPending 0 := by
  refine ⟨rfl, fun h => ?_⟩
  exact absurd (h.2 0 List.mem_cons_self) (by decide)

end Sched

/-! ### Looking through pending signals -/

section Scan

variable (removes : ℕ → Bool)

/-- What the loops over pending signals do for one signal. -/
def scanBody (pending : SignalSet) (curr : ℕ) : SignalSet :=
  if pending &&& sigBit curr ≠ 0 ∧ removes curr then pending &&& ~~~sigBit curr else pending

/-- The loops over pending signals, `while (pending >> curr)`, if they end within a number of
iterations. The processor shifts by the low five bits of the count. -/
def scanPending : ℕ → SignalSet → ℕ → Option SignalSet
  | 0, pending, curr => if pending.sshiftRight (curr % 32) = 0 then some pending else none
  | fuel + 1, pending, curr =>
    if pending.sshiftRight (curr % 32) = 0 then some pending
    else scanPending fuel (scanBody removes pending curr) (curr + 1)

/-- The loop of `pthread_kill`, which removes the signals with `SIG_STOP` as their handler. -/
def cancelStops : SignalSet → Option SignalSet := fun pending => scanPending removes 32 pending 0

/-- When 32 iterations are enough: the last signal is not pending, or all that are pending are
removed. -/
def ScanEnds (pending : SignalSet) : Prop :=
  pending.msb = false ∨ ∀ i < 32, pending.getLsbD i = true → removes i = true

end Scan

/-- The first part of `scheduler_handle_pending_signals`, for `SIGKILL` or else `SIGSTOP`. -/
def takeUrgent (pending : SignalSet) : SignalSet :=
  if pending &&& sigBit sigKill ≠ 0 then pending &&& ~~~sigBit sigKill
  else if pending &&& sigBit sigStop ≠ 0 then pending &&& ~~~sigBit sigStop
  else pending

/-- The signals that a mask lets through. -/
def unmasked (mask : SignalSet) (signal : ℕ) : Bool := mask &&& sigBit signal = 0

/-- `scheduler_handle_pending_signals`, with handlers that return and send no signals: what is left
pending for the process and for the thread. -/
def handlePendingSignals (proc thread mask : SignalSet) : Option (SignalSet × SignalSet) := do
  let proc ← scanPending (unmasked mask) 32 (takeUrgent proc) 0
  let thread ← scanPending (unmasked mask) 32 (takeUrgent thread) 0
  pure (proc, thread)

variable {removes : ℕ → Bool} {pending : SignalSet} {curr i : ℕ}

theorem sshiftRight_eq_zero_iff (hcurr : curr < 32) :
    pending.sshiftRight (curr % 32) = 0 ↔ ∀ i < 32, curr ≤ i → pending.getLsbD i = false := by
  rw [Nat.mod_eq_of_lt hcurr]
  constructor
  · intro h i hi hle
    have hbit := congrArg (·.getLsbD (i - curr)) h
    simp only [BitVec.getLsbD_sshiftRight] at hbit
    simpa [show ¬32 ≤ i - curr by omega, show curr + (i - curr) = i by omega, hi] using hbit
  · intro h
    refine BitVec.eq_of_getLsbD_eq fun i hi => ?_
    have hmsb : pending.msb = false := by
      exact h 31 (by decide) (by omega)
    rw [BitVec.getLsbD_sshiftRight, hmsb]
    split
    · next hlt => simp [h (curr + i) hlt (Nat.le_add_right _ _)]
    · simp

theorem getLsbD_sigBit (hi : i < 32) : (sigBit curr).getLsbD i = decide (i = curr) := by
  rw [sigBit, ← BitVec.twoPow_eq, BitVec.getLsbD_twoPow]
  grind

/-- A signal is pending afterwards unless it was removed. -/
theorem getLsbD_scanBody (hi : i < 32) :
    (scanBody removes pending curr).getLsbD i =
      (pending.getLsbD i && !(decide (i = curr) && removes curr)) := by
  rw [scanBody]
  split
  · next h =>
      rw [BitVec.getLsbD_and, BitVec.getLsbD_not, getLsbD_sigBit hi, h.2, Bool.and_true,
        decide_eq_true hi, Bool.true_and]
  · next h =>
      by_cases heq : i = curr
      · subst heq
        have hbit : pending.getLsbD i = true → pending &&& sigBit i ≠ 0 := by
          intro hbit hzero
          have hand := congrArg (·.getLsbD i) hzero
          simp [getLsbD_sigBit hi, hbit] at hand
        grind
      · simp [heq]

theorem scanPending_isSome_iff {fuel : ℕ} (hfuel : fuel + curr = 32) :
    (scanPending removes fuel pending curr).isSome ↔
      curr < 32 ∧ pending.msb = false ∨
        ∀ i < 32, pending.getLsbD i = true → curr ≤ i ∧ removes i = true := by
  induction fuel generalizing pending curr with
  | zero =>
    obtain rfl : curr = 32 := by omega
    rw [scanPending]
    have hzero : pending.sshiftRight (32 % 32) = 0 ↔ ∀ i < 32, pending.getLsbD i = false := by
      have h := @sshiftRight_eq_zero_iff pending 0 (by decide)
      simpa using h
    split
    · next h => grind
    · next h => grind
  | succ fuel ih =>
    have hcurr : curr < 32 := by omega
    have hmsb : ∀ p : SignalSet, p.msb = p.getLsbD 31 := fun p => BitVec.msb_eq_getLsbD_last p
    rw [scanPending]
    split
    · next h =>
        rw [sshiftRight_eq_zero_iff hcurr] at h
        simp only [Option.isSome_some, true_iff]
        exact .inl ⟨hcurr, by rw [hmsb]; exact h 31 (by decide) (by omega)⟩
    · next h =>
        rw [ih (by omega)]
        have hbody : ∀ i < 32, (scanBody removes pending curr).getLsbD i = _ :=
          fun i hi => getLsbD_scanBody hi
        refine or_congr ?_ ?_
        · grind
        · grind

theorem scanPending_ends_iff (removes : ℕ → Bool) (pending : SignalSet) :
    (scanPending removes 32 pending 0).isSome ↔ ScanEnds removes pending := by
  rw [scanPending_isSome_iff rfl]
  simp [ScanEnds]

/-- **The loops over pending signals end** after at most 32 iterations exactly if signal 31 is not
pending, or every signal that is pending is removed: not masked, or with `SIG_STOP` as its
handler. -/
theorem pending_loops_end_iff (proc thread mask : SignalSet) (isStop : ℕ → Bool) :
    ((handlePendingSignals proc thread mask).isSome ↔
      ScanEnds (unmasked mask) (takeUrgent proc) ∧ ScanEnds (unmasked mask) (takeUrgent thread)) ∧
    ((cancelStops isStop proc).isSome ↔ ScanEnds isStop proc) := by
  refine ⟨?_, scanPending_ends_iff isStop proc⟩
  rw [← scanPending_ends_iff, ← scanPending_ends_iff, handlePendingSignals]
  cases scanPending (unmasked mask) 32 (takeUrgent proc) 0 with
  | none => simp
  | some proc =>
    cases scanPending (unmasked mask) 32 (takeUrgent thread) 0 with
    | none => simp
    | some thread => simp

/-- Signal 31 is sent to a process whose thread masks it. -/
theorem pending_loops_stuck :
    handlePendingSignals (((Sched.sKill 1 0 0 31).eval (Sched.oneReady 31)).2.procs 0).pending 0
      (sigBit 31) = none := by
  decide +kernel

end OsPi
