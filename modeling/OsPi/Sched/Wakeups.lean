import OsPi.Sched.Processes
import OsPi.Sched.Timers

/-!
# Wake-ups and Stopped Threads

A thread that is stopped while it waits for something may miss it. Only `timer_wake_thread` looks
at threads that are stopped, and takes the timer off what they wait for; the other wake-ups pass
them over. What `continue_thread` then does depends on whether anything is left in `blocked_until`,
where waits for a pipe or for a child have put nothing.
-/

namespace OsPi

open Comp

/-- What a thread can wait for, as it arrives: its timer, a signal, a new child of the first
process, a request for a terminal, or the object it waits for. -/
inductive Arrival
  | timer
  | signal (signal : ℕ)
  | newChild
  | ttyRequest
  | unblock
  deriving DecidableEq, Repr

namespace Sched

variable {depth cpu tid : ℕ} {s s' : Sched} {signal : ℕ} {arrivals : List Arrival} {ret : ℤ}

/-- What the kernel does for a thread when something arrives. -/
def arrive (depth cpu tid : ℕ) : Arrival → SchedM Unit
  | .timer => timerWakeThread depth tid
  | .signal signal => do let _ ← pthreadKill depth cpu tid signal
  | .newChild => do let _ ← sendUnblockEvent depth tid blockUntilNewChild
  | .ttyRequest => do let _ ← sendUnblockEvent depth tid blockUntilTtyRequest
  | .unblock => unblockThread depth tid

/-- Other threads go on, and leave the state of this one and what it waits for as they are. -/
structure Undisturbed (tid : ℕ) (s s' : Sched) : Prop where
  has : s'.HasThread tid
  state : (s'.threads tid).state = (s.threads tid).state
  stoppedState : (s'.threads tid).stoppedState = (s.threads tid).stoppedState
  blockedUntil : (s'.threads tid).blockedUntil = (s.threads tid).blockedUntil
  mask : (s'.threads tid).mask = (s.threads tid).mask

/-- The time in which a thread is stopped: things arrive for it one after the other, on any CPU,
while other threads go on. `SIGKILL`, which ends it, and `SIGCONT` are not among them. -/
inductive Meanwhile (depth tid : ℕ) : List Arrival → Sched → Sched → Prop
  | nil {s s' : Sched} : Undisturbed tid s s' → Meanwhile depth tid [] s s'
  | cons {s s₁ s₂ s' : Sched} {arrival : Arrival} {arrivals : List Arrival} {cpu : ℕ} :
      Undisturbed tid s s₁ → arrival ≠ .signal sigKill → arrival ≠ .signal sigCont →
      (arrive depth cpu tid arrival).eval s₁ = (.ok (), s₂) →
      Meanwhile depth tid arrivals s₂ s' → Meanwhile depth tid (arrival :: arrivals) s s'

/-- What a stopped thread still waits for when something has arrived. -/
def waitsAfter (blockedUntil : BitVec 32) : Arrival → BitVec 32
  | .timer => blockedUntil &&& ~~~blockUntilTimer
  | _ => blockedUntil

/-! ### Nothing but a timer is noticed -/

theorem unblockThread_stopped (hstopped : (s.threads tid).state = .stopped) :
    (unblockThread depth tid).eval s = (.ok (), s) := by
  refine unblockThread_idle ?_
  rw [hstopped]
  decide

theorem sendUnblockEvent_stopped {event : BitVec 32}
    (hstopped : (s.threads tid).state = .stopped) :
    (sendUnblockEvent depth tid event).eval s = (.ok false, s) := by
  rw [sendUnblockEvent, eval_get_bind, eval_ite, if_neg]
  · rfl
  · rw [hstopped]
    exact fun h => h.2.1

/-- Only the default action of `SIGCONT` continues a thread. -/
theorem action_ne_cont {actions : SigActions} (h : signal ≠ sigCont) :
    actions.action signal ≠ .cont := by
  rw [SigActions.action]
  split
  · intro hcont
    rw [defSignalHandlers.eq_def] at hcont
    split at hcont <;> first | exact h rfl | cases hcont
  · exact fun hcont => by cases hcont
  · exact fun hcont => by cases hcont

/-- A signal that does not continue a stopped thread is only noted. -/
theorem handleInterruptableSignal_stopped
    (hstopped : (s.threads tid).state = .stopped) (hkill : signal ≠ sigKill)
    (hcont : signal ≠ sigCont) :
    (handleInterruptableSignal depth cpu tid signal).eval s = (.ok (), s) := by
  rw [handleInterruptableSignal, eval_get_bind, eval_ite, if_neg hkill, hstopped]
  rw [eval_ite, if_neg (action_ne_cont hcont)]
  rfl

theorem pthreadKill_stopped (hhas : s.HasThread tid)
    (hstopped : (s.threads tid).state = .stopped) (hkill : signal ≠ sigKill)
    (hcont : signal ≠ sigCont) (h : (pthreadKill depth cpu tid signal).eval s = (.ok ret, s')) :
    s' = s.setPending tid signal := by
  have hstopped' : ((s.setPending tid signal).threads tid).state = .stopped := by
    rw [state_setPending, hstopped]
  rw [pthreadKill, eval_get_bind, eval_ite, if_neg (not_not.mpr hhas), eval_ite,
    if_neg fun hc => hcont hc.1, eval_modify_bind, eval_ite] at h
  split at h
  · rw [deliver, eval_bind, eval_bind_of_ok (sendUnblockEvent_stopped hstopped'),
      eval_get_bind, eval_ite, if_pos (.inl rfl),
      handleInterruptableSignal_stopped hstopped' hkill hcont] at h
    exact (Prod.mk.inj h).2.symm
  · exact (Prod.mk.inj h).2.symm

theorem and_not_of_and_eq_zero {b m : BitVec 32} (h : b &&& m = 0) : b &&& ~~~m = b := by
  refine BitVec.eq_of_getLsbD_eq fun i hi => ?_
  have hbit := congrArg (BitVec.getLsbD · i) h
  simp only [BitVec.getLsbD_and, BitVec.ofNat_eq_ofNat, BitVec.getLsbD_zero] at hbit
  rw [BitVec.getLsbD_and, BitVec.getLsbD_not, decide_eq_true hi]
  cases hb : b.getLsbD i with
  | false => rfl
  | true =>
    rw [hb, Bool.true_and] at hbit
    rw [hbit]
    rfl

/-- What has arrived leaves the thread stopped; a timer is taken off what it waits for. -/
structure Missed (tid : ℕ) (blockedUntil : BitVec 32) (s s' : Sched) : Prop where
  has : s'.HasThread tid
  state : (s'.threads tid).state = .stopped
  stoppedState : (s'.threads tid).stoppedState = (s.threads tid).stoppedState
  blockedUntil : (s'.threads tid).blockedUntil = blockedUntil
  mask : (s'.threads tid).mask = (s.threads tid).mask

theorem timerWakeThread_stopped (hhas : s.HasThread tid) (hstopped : (s.threads tid).state = .stopped)
    (hblocked : (s.threads tid).stoppedState.Blocked)
    (h : (timerWakeThread depth tid).eval s = (.ok (), s')) :
    Missed tid ((s.threads tid).blockedUntil &&& ~~~blockUntilTimer) s s' := by
  rw [timerWakeThread, eval_get_bind, eval_ite, if_pos hhas, eval_ite] at h
  split at h
  · cases h
    refine ⟨⟨hhas.1, ?_⟩, ?_, ?_, ?_, ?_⟩ <;> rw [threads_modThread, if_pos rfl]
    · exact hhas.2
    · exact hstopped
  · rename_i hno
    rw [unblockThread_stopped hstopped] at h
    cases h
    have hzero : (s.threads tid).blockedUntil &&& blockUntilTimer = 0 := by
      by_contra hne
      exact hno ⟨hstopped, hblocked, hne⟩
    -- there is no timer to be taken off
    exact ⟨hhas, hstopped, rfl, (and_not_of_and_eq_zero hzero).symm, rfl⟩

theorem arrive_stopped {arrival : Arrival} (hhas : s.HasThread tid)
    (hstopped : (s.threads tid).state = .stopped) (hblocked : (s.threads tid).stoppedState.Blocked)
    (hkill : arrival ≠ .signal sigKill) (hcont : arrival ≠ .signal sigCont)
    (h : (arrive depth cpu tid arrival).eval s = (.ok (), s')) :
    Missed tid (waitsAfter (s.threads tid).blockedUntil arrival) s s' := by
  have hsame : Missed tid (s.threads tid).blockedUntil s s := ⟨hhas, hstopped, rfl, rfl, rfl⟩
  cases arrival with
  | timer => exact timerWakeThread_stopped hhas hstopped hblocked h
  | signal signal =>
    obtain ⟨ret, s₁, hkilled, h⟩ := eval_bind_eq_ok.mp h
    cases h
    rw [pthreadKill_stopped hhas hstopped (fun he => hkill (congrArg _ he))
      (fun he => hcont (congrArg _ he)) hkilled]
    refine ⟨⟨hhas.1, ?_⟩, ?_, ?_, ?_, ?_⟩ <;> rw [threads_setPending]
    · exact hhas.2
    · exact hstopped
    · rfl
  | newChild =>
    rw [arrive, eval_bind_of_ok (sendUnblockEvent_stopped hstopped)] at h
    cases h
    exact hsame
  | ttyRequest =>
    rw [arrive, eval_bind_of_ok (sendUnblockEvent_stopped hstopped)] at h
    cases h
    exact hsame
  | unblock =>
    rw [arrive, unblockThread_stopped hstopped] at h
    cases h
    exact hsame

/-- What a thread waits for after all that has arrived while it was stopped. -/
def waitsAfterAll (blockedUntil : BitVec 32) (arrivals : List Arrival) : BitVec 32 :=
  if .timer ∈ arrivals then blockedUntil &&& ~~~blockUntilTimer else blockedUntil

theorem waitsAfterAll_cons (b : BitVec 32) (arrival : Arrival) (arrivals : List Arrival) :
    waitsAfterAll (waitsAfter b arrival) arrivals = waitsAfterAll b (arrival :: arrivals) := by
  cases arrival with
  | timer =>
    rw [waitsAfterAll, waitsAfterAll, if_pos (List.mem_cons_self ..), waitsAfter]
    split
    · rw [BitVec.and_assoc, BitVec.and_self]
    · rfl
  | _ => simp [waitsAfterAll, waitsAfter]

theorem meanwhile_missed
    (hmean : Meanwhile depth tid arrivals s s') (hstopped : (s.threads tid).state = .stopped)
    (hblocked : (s.threads tid).stoppedState.Blocked) :
    Missed tid (waitsAfterAll (s.threads tid).blockedUntil arrivals) s s' := by
  induction hmean with
  | nil hsame =>
    exact ⟨hsame.has, hsame.state.trans hstopped, hsame.stoppedState, hsame.blockedUntil,
      hsame.mask⟩
  | @cons s s₁ s₂ s' arrival arrivals cpu hsame hkill hcont harrive _ ih =>
    have hmissed := arrive_stopped hsame.has (hsame.state.trans hstopped)
      (hsame.stoppedState ▸ hblocked) hkill hcont harrive
    have hrest := ih hmissed.state
      (by rw [hmissed.stoppedState, hsame.stoppedState]; exact hblocked)
    refine ⟨hrest.has, hrest.state, ?_, ?_, ?_⟩
    · rw [hrest.stoppedState, hmissed.stoppedState, hsame.stoppedState]
    · rw [hrest.blockedUntil, hmissed.blockedUntil, hsame.blockedUntil, waitsAfterAll_cons]
    · rw [hrest.mask, hmissed.mask, hsame.mask]

/-! ### Continuing -/

theorem continueThread_state {u : Unit} (hstopped : (s.threads tid).state = .stopped)
    (h : (continueThread depth tid).eval s = (.ok u, s')) :
    (s'.threads tid).state = (s.threads tid).continued := by
  rw [continueThread, eval_get_bind, eval_ite, if_pos hstopped] at h
  obtain ⟨_, s₁, -, h⟩ := eval_bind_eq_ok.mp h
  split at h <;> cases h
  · rw [threads_addThreadLocked, threads_modThread, if_pos rfl]
  · rw [threads_modThread, if_pos rfl]

/-- A thread that was stopped while it was blocked is ready when nothing is left to wait for. -/
theorem continued_ready_iff {t : Thread} (hblocked : t.stoppedState.Blocked) :
    t.continued = .ready ↔ t.blockedUntil = 0 := by
  have hnot : ∀ a : ThreadState, a.Blocked → a ≠ .running ∧ a ≠ .ready := by
    intro a ha
    constructor <;> rintro rfl <;> exact ha
  rw [Thread.continued, if_neg (hnot _ hblocked).1]
  split
  · rename_i h
    exact ⟨fun _ => h.2, fun _ => rfl⟩
  · rename_i h
    exact ⟨fun hready => absurd hready (hnot _ hblocked).2, fun hz => absurd ⟨hblocked, hz⟩ h⟩

/-- `SIGCONT` continues a thread that does not mask it if its process has left the action to the
kernel, and otherwise leaves it stopped. -/
theorem pthreadKill_cont (hhas : s.HasThread tid) (hstopped : (s.threads tid).state = .stopped)
    (h : (pthreadKill depth cpu tid sigCont).eval s = (.ok ret, s')) :
    (s'.threads tid).state =
      if (s.threads tid).mask &&& sigBit sigCont = 0 ∧
          (s.procs (s.threads tid).pid).sigactions.action sigCont = .cont then
        (s.threads tid).continued
      else .stopped := by
  have hstopped' : ((s.setPending tid sigCont).threads tid).state = .stopped := by
    rw [state_setPending, hstopped]
  rw [pthreadKill, eval_get_bind, eval_ite, if_neg (not_not.mpr hhas), eval_ite] at h
  split at h
  · cases h
  · rw [eval_modify_bind, eval_ite] at h
    split at h
    · rename_i hmask
      obtain ⟨_, s₁, hdeliver, h⟩ := eval_bind_eq_ok.mp h
      cases h
      rw [deliver, eval_bind_of_ok (sendUnblockEvent_stopped hstopped'), eval_get_bind,
        eval_ite, if_pos (.inl rfl), handleInterruptableSignal, eval_get_bind,
        eval_ite, if_neg (by decide), hstopped'] at hdeliver
      rw [threads_setPending, eval_ite] at hdeliver
      split at hdeliver
      · rename_i haction
        rw [if_pos ⟨hmask, haction⟩]
        rw [continueThread_state _ hdeliver, threads_modThread, if_pos rfl, threads_setPending]
        · rfl
        · rw [threads_modThread, if_pos rfl]
          exact hstopped'
      · rename_i haction
        rw [if_neg fun hcont => haction hcont.2]
        cases hdeliver
        exact hstopped'
    · rename_i hmask
      rw [if_neg fun hcont => hmask hcont.1]
      cases h
      exact hstopped'

/-- **Wake-ups across a stop.** A thread is stopped while it is blocked, things arrive, and then
`SIGCONT`. It is ready afterwards exactly when `SIGCONT` continues it and nothing is left that it
waits for; of all that can arrive only a timer is taken off. -/
theorem runnable_after_sigcont_iff {arrivals : List Arrival} {s₁ : Sched} {ret : ℤ}
    (hstopped : (s.threads tid).state = .stopped) (hblocked : (s.threads tid).stoppedState.Blocked)
    (hmean : Meanwhile depth tid arrivals s s₁)
    (hcont : (pthreadKill depth cpu tid sigCont).eval s₁ = (.ok ret, s')) :
    (s'.threads tid).state = .ready ↔
      (s.threads tid).mask &&& sigBit sigCont = 0 ∧
        (s₁.procs (s₁.threads tid).pid).sigactions.action sigCont = .cont ∧
        waitsAfterAll (s.threads tid).blockedUntil arrivals = 0 := by
  have hmissed := meanwhile_missed hmean hstopped hblocked
  have hblocked' : (s₁.threads tid).stoppedState.Blocked := by
    rw [hmissed.stoppedState]
    exact hblocked
  rw [pthreadKill_cont hmissed.has hmissed.state hcont, hmissed.mask]
  split
  · rename_i hc
    rw [continued_ready_iff hblocked', hmissed.blockedUntil]
    exact ⟨fun hz => ⟨hc.1, hc.2, hz⟩, fun h => h.2.2⟩
  · rename_i hc
    exact ⟨nofun, fun h => absurd ⟨h.1, h.2.1⟩ hc⟩

/-- The thread of the first process waits for something and is stopped. -/
def stoppedIn (wait : SchedM Unit) : Sched :=
  ((sKill 8 0 0 sigStop).eval (wait.eval pair).2).2

/-- One thing arrives for the thread while nothing else happens. -/
theorem meanwhile_one {arrival : Arrival} (hhas : s.HasThread tid)
    (hkill : arrival ≠ .signal sigKill) (hcont : arrival ≠ .signal sigCont)
    (h : (arrive depth cpu tid arrival).eval s = (.ok (), s')) (hhas' : s'.HasThread tid) :
    Meanwhile depth tid [arrival] s s' :=
  .cons ⟨hhas, rfl, rfl, rfl, rfl⟩ hkill hcont h (.nil ⟨hhas', rfl, rfl, rfl, rfl⟩)

/-- The thread is stopped in its sleep. -/
def stoppedAsleep : Sched := stoppedIn do let _ ← timerSleepMs 8 0 1000 0 5

/-- The timer of a thread that is stopped goes off, and the thread is ready when it is continued. -/
theorem runnable_after_timer : ∃ s₁ s', Meanwhile 8 0 [.timer] stoppedAsleep s₁ ∧
    (pthreadKill 8 0 0 sigCont).eval s₁ = (.ok 0, s') ∧ (s'.threads 0).state = .ready := by
  have hmean : Meanwhile 8 0 [.timer] stoppedAsleep ((arrive 8 0 0 .timer).eval stoppedAsleep).2 :=
    meanwhile_one (by decide +kernel) nofun nofun (eval_eq_of_toOption (by decide +kernel))
      (by decide +kernel)
  have hcont : (pthreadKill 8 0 0 sigCont).eval ((arrive 8 0 0 .timer).eval stoppedAsleep).2 =
      (.ok 0, _) := eval_eq_of_toOption (by decide +kernel)
  exact ⟨_, _, hmean, hcont, (runnable_after_sigcont_iff (by decide +kernel) (by decide +kernel)
    hmean hcont).mpr (by decide +kernel)⟩

/-- The thread waits for a new child the way `init` does. -/
def stoppedForChild : Sched :=
  stoppedIn (blockUntilEvent 8 0 0 (blockUntilNewChild ||| blockUntilTtyRequest))

/-- The thread waits for a signal in `sigsuspend`. -/
def stoppedForSignal : Sched := stoppedIn (sigsuspend 8 0 0 0)

/-- What a stopped thread waits for arrives, and it is still blocked after `SIGCONT`: for a new
child as for a signal. -/
theorem wakeup_lost :
    (∃ s₁ s', (stoppedForChild.threads 0).blockedUntil &&& blockUntilNewChild ≠ 0 ∧
      Meanwhile 8 0 [.newChild] stoppedForChild s₁ ∧
      (pthreadKill 8 0 0 sigCont).eval s₁ = (.ok 0, s') ∧
      (s'.threads 0).state = .blockedInterruptable) ∧
    ∃ s₁ s', Meanwhile 8 0 [.signal 3] stoppedForSignal s₁ ∧
      (pthreadKill 8 0 0 sigCont).eval s₁ = (.ok 0, s') ∧
      (s'.threads 0).state = .blockedInterruptable := by
  constructor
  · exact ⟨((arrive 8 0 0 .newChild).eval stoppedForChild).2, _, by decide +kernel,
      meanwhile_one (by decide +kernel) nofun nofun (eval_eq_of_toOption (by decide +kernel))
        (by decide +kernel), eval_eq_of_toOption (by decide +kernel), by decide +kernel⟩
  · exact ⟨((arrive 8 0 0 (.signal 3)).eval stoppedForSignal).2, _,
      meanwhile_one (by decide +kernel) (by decide) (by decide)
        (eval_eq_of_toOption (by decide +kernel)) (by decide +kernel),
      eval_eq_of_toOption (by decide +kernel), by decide +kernel⟩

end Sched

end OsPi
