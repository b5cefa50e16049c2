import OsPi.Sched.Threads

/-!
# Signals

A model of `signals/signals.c`: how signals are sent to threads and processes, and what this does
at once to a thread that does not run. What a thread finds pending when it runs again it handles
itself, in `scheduler_handle_pending_signals`.
-/

namespace OsPi

open Function

/-- `SYS_ESRCH` and `SYS_EINVAL`. -/
def esrch : ℤ := -3

@[inherit_doc esrch] def einval : ℤ := -22

/-- `BLOCK_UNTIL_NEW_CHILD`, `BLOCK_UNTIL_SIGNAL`, `BLOCK_UNTIL_TIMER` and
`BLOCK_UNTIL_TTY_REQUEST`. -/
def blockUntilNewChild : BitVec 32 := 1

@[inherit_doc blockUntilNewChild] def blockUntilSignal : BitVec 32 := 2

@[inherit_doc blockUntilNewChild] def blockUntilTimer : BitVec 32 := 4

@[inherit_doc blockUntilNewChild] def blockUntilTtyRequest : BitVec 32 := 8

/-- The set with one signal in it. -/
def sigBit (signal : ℕ) : SignalSet := 1#32 <<< signal

/-- What is done for a signal: one of the functions of `def_signal_handlers`, or a function of the
program. -/
inductive Action
  | notImplemented
  | cont
  | stop
  | term
  | ign
  | user (addr : ℕ)
  deriving DecidableEq, Repr

/-- `def_signal_handlers`, as `initialize_signals` fills it in. -/
def defSignalHandlers : ℕ → Action
  | 2 | 9 | 15 => .term
  | 6 | 7 | 8 | 10 => .stop
  | 11 => .cont
  | 12 => .ign
  | _ => .notImplemented

/-- What a process does for a signal. -/
def SigActions.action (a : SigActions) (signal : ℕ) : Action :=
  match (a.act signal).handler with
  | .dfl => defSignalHandlers signal
  | .ign => .ign
  | .user addr => .user addr

theorem SigActions.action_kill (a : SigActions) : a.action sigKill = .term := by
  rw [action, a.kill]
  rfl

/-- `sigaction`, which refuses handlers for `SIGKILL` and `SIGSTOP`. -/
def SigActions.sigaction (a : SigActions) (signum : ℤ) (sa : SigAction) : Option SigActions :=
  if signum < 0 ∨ 32 ≤ signum then none
  else if h : (signum.toNat = sigKill ∨ signum.toNat = sigStop) ∧ sa.handler ≠ .dfl then none
  else
    some
      { act := update a.act signum.toNat sa
        kill := by
          rw [update_apply]
          split
          · rename_i heq
            by_contra hne
            exact h ⟨.inl heq.symm, hne⟩
          · exact a.kill
        stop := by
          rw [update_apply]
          split
          · rename_i heq
            by_contra hne
            exact h ⟨.inr heq.symm, hne⟩
          · exact a.stop }

/-- The first argument of `sigprocmask`. -/
inductive MaskHow
  | block
  | unblock
  | set
  deriving DecidableEq, Repr

/-- `sigprocmask`, for the mask of a thread. -/
def MaskHow.apply (how : MaskHow) (set mask : SignalSet) : SignalSet :=
  match how with
  | .block => mask ||| set
  | .unblock => mask &&& ~~~set
  | .set => set

namespace Sched

/-- `sigprocmask`, called by a thread. -/
def sigprocmask (s : Sched) (tid : ℕ) (how : MaskHow) (set : SignalSet) : Sched :=
  s.modThread tid fun t => { t with mask := how.apply set t.mask }

section Calls

variable (depth cpu : ℕ)

/-- A signal is not pending for a thread any more. -/
def clearPending (tid signal : ℕ) : SchedM Unit :=
  modify fun s => s.modThread tid fun t => { t with pending := t.pending &&& ~~~sigBit signal }

/-- `handle_interruptable_signal`. -/
def handleInterruptableSignal (tid signal : ℕ) : SchedM Unit := do
  let s ← get
  let action := (s.procs (s.threads tid).pid).sigactions.action signal
  if signal = sigKill then do
    clearPending tid signal
    terminateThread depth cpu tid
  else
    match (s.threads tid).state with
    | .blockedInterruptable =>
      if action = .term then do
        clearPending tid signal
        terminateThread depth cpu tid
      else if action = .stop then do
        clearPending tid signal
        stopThread depth cpu tid
      else if action = .cont then pure ()
      else unblockThread depth tid
    | .blockedKillable =>
      if action = .term then do
        clearPending tid signal
        terminateThread depth cpu tid
      else pure ()
    | .stopped =>
      if action = .cont then do
        clearPending tid signal
        continueThread depth tid
      else pure ()
    | _ => pure ()

/-- The states in which `pthread_kill` handles a signal although it has unblocked the thread. -/
def Lingers (state : ThreadState) : Prop :=
  state = .blockedInterruptable ∨ state = .blockedKillable ∨ state = .stopped

instance (state : ThreadState) : Decidable (Lingers state) := inferInstanceAs (Decidable (_ ∨ _))

/-- The part of `pthread_kill` for a signal that the thread does not mask. -/
def deliver (tid signal : ℕ) : SchedM Unit := do
  let unblocked ← sendUnblockEvent depth tid blockUntilSignal
  let s ← get
  if unblocked = false ∨ Lingers (s.threads tid).state then
    handleInterruptableSignal depth cpu tid signal

/-- A signal becomes pending for a thread. -/
def setPending (s : Sched) (tid signal : ℕ) : Sched :=
  s.modThread tid fun t => { t with pending := t.pending ||| sigBit signal }

/-- `pthread_kill`. Before `SIGCONT` it looks through the signals that are pending for the process
by shifting a signed number to the right, which does not end when that is negative; no handler is
`SIG_STOP` itself, so that it removes none. -/
def pthreadKill (tid signal : ℕ) : SchedM ℤ := do
  let s ← get
  if ¬s.HasThread tid then pure einval
  else if signal = sigCont ∧ (s.procs (s.threads tid).pid).pending.msb then throw .hang
  else do
    modify fun s => s.setPending tid signal
    if (s.threads tid).mask &&& sigBit signal = 0 then deliver depth cpu tid signal
    pure 0

/-- The loop of `s_kill` for a signal that stops, continues or ends a process: whether the signal
has been sent to some thread. -/
def killThreads (signal : ℕ) : List ℕ → Bool → SchedM Bool
  | [], sent => pure sent
  | tid :: rest, sent => do
    let ret ← pthreadKill depth cpu tid signal
    killThreads signal rest (sent || ret == 0)

/-- The part of `s_kill` for other signals: they go to the first thread that does not mask them. -/
def killAny (pid signal : ℕ) : SchedM Unit := do
  let s ← get
  match (s.procs pid).tids.find? fun tid =>
      s.HasThread tid ∧ (s.threads tid).mask &&& sigBit signal = 0 with
  | some tid => do
    modify fun s => s.setPending tid signal
    handleInterruptableSignal depth cpu tid signal
  | none => modify fun s => s.modProc pid fun p => { p with pending := p.pending ||| sigBit signal }

/-- `s_kill` for one process. -/
def killProcess (pid signal : ℕ) : SchedM ℤ := do
  let s ← get
  if ¬s.HasProc pid then pure esrch
  else
    match (s.procs pid).sigactions.action signal with
    | .stop | .cont | .term => do
      let sent ← killThreads depth cpu signal (s.procs pid).tids false
      pure (if sent then 0 else esrch)
    | .ign => pure 0
    | _ => do
      killAny depth cpu pid signal
      pure 0

/-- The loop of `s_kill` over a group. -/
def killMembers (signal : ℕ) : List ℕ → Bool → SchedM Bool
  | [], sent => pure sent
  | pid :: rest, sent => do
    let ret ← killProcess depth cpu pid signal
    killMembers signal rest (sent || ret == 0)

/-- `s_kill`. -/
def sKill (pid signal : ℤ) : SchedM ℤ := do
  let s ← get
  if signal < 0 ∨ 32 ≤ signal then pure einval
  else if pid < 0 then
    match s.pgrps (-pid) with
    | none => pure esrch
    | some pgrp => do
      let sent ← killMembers depth cpu signal.toNat pgrp.pids false
      pure (if sent then 0 else esrch)
  else killProcess depth cpu pid.toNat signal.toNat

/-- `sigsuspend`, up to where the thread waits. It shifts the constant for signals, and so sets the
bit of the timers. -/
def sigsuspend (tid : ℕ) (mask : SignalSet) : SchedM Unit := do
  modify fun s => s.modThread tid fun t =>
    { t with mask, blockedUntil := t.blockedUntil ||| 1#32 <<< blockUntilSignal.toNat }
  blockThread depth cpu tid .blockedInterruptable

/-- `s_block_until_event`. -/
def blockUntilEvent (tid : ℕ) (event : BitVec 32) : SchedM Unit := do
  modify fun s => s.modThread tid fun t => { t with blockedUntil := event }
  blockThread depth cpu tid .blockedInterruptable

end Calls

variable {s : Sched} {tid signal : ℕ}

theorem threads_setPending : (s.setPending tid signal).threads tid =
    { s.threads tid with pending := (s.threads tid).pending ||| sigBit signal } := by
  rw [setPending, threads_modThread, if_pos rfl]

@[simp] theorem state_setPending :
    ((s.setPending tid signal).threads tid).state = (s.threads tid).state := by
  rw [threads_setPending]

@[simp] theorem blockedUntil_setPending :
    ((s.setPending tid signal).threads tid).blockedUntil = (s.threads tid).blockedUntil := by
  rw [threads_setPending]

end Sched

end OsPi
