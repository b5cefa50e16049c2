import Mathlib.Data.BitVec
import OsPi.Sched.Signals

/-!
# Timers

A model of the software timers of `timer/timer.c` and of `timer_sleep_ms`. A timer stays active
until its deadline has passed; nothing takes it back when the sleep it was made for ends early. The
timer of the scheduler itself, which each CPU has for its own, is left out: it calls
`scheduler_tick`.
-/

namespace OsPi

/-- `SYS_EAGAIN`. -/
def eagain : ℤ := -11

/-- `MAX_SOFTWARE_TIMERS`. -/
def maxSoftwareTimers : ℕ := 64

/-- `timer_ms_to_counter_ticks`. -/
def timerMsToCounterTicks (frequency milliseconds : BitVec 64) : BitVec 64 :=
  let ticks := frequency / 1000 * milliseconds + frequency % 1000 * milliseconds / 1000
  if ticks = 0 then 1 else ticks

namespace Sched

/-- The first timer that is not active. -/
def freeTimer (s : Sched) : Option ℕ :=
  (List.range maxSoftwareTimers).find? fun i => (s.timers i).isNone

/-- `timer_schedule_interrupt_ms`, for the handler `timer_wake_thread`. -/
def timerScheduleInterruptMs (s : Sched) (frequency milliseconds : BitVec 64) (tid : ℕ) :
    Option Sched :=
  s.freeTimer.map fun i =>
    { s with
      timers := Function.update s.timers i
        (some ⟨s.now + timerMsToCounterTicks frequency milliseconds, tid⟩) }

/-- Whether the deadline of a timer has passed. -/
def Expired (s : Sched) (t : Timer) : Prop := 0 ≤ (s.now - t.deadline).toInt

instance (s : Sched) (t : Timer) : Decidable (s.Expired t) := inferInstanceAs (Decidable (_ ≤ _))

/-- The timers that `timer_irq_handler` finds expired, by their numbers. -/
def expiredTimers (s : Sched) : List ℕ :=
  (List.range maxSoftwareTimers).filter fun i => (s.timers i).any fun t => s.Expired t

/-- The part of `timer_irq_handler` under the lock of the timers. -/
def clearTimers (s : Sched) (expired : List ℕ) : Sched :=
  { s with timers := fun i => if i ∈ expired then none else s.timers i }

/-- `timer_wake_thread`. A thread that has been stopped in its sleep is not woken, but it does not
wait for the timer any more. -/
def timerWakeThread (depth tid : ℕ) : SchedM Unit := do
  let s ← get
  if s.HasThread tid then
    if (s.threads tid).state = .stopped ∧ (s.threads tid).stoppedState.Blocked ∧
        (s.threads tid).blockedUntil &&& blockUntilTimer ≠ 0 then
      modify fun s => s.modThread tid fun t =>
        { t with blockedUntil := t.blockedUntil &&& ~~~blockUntilTimer }
    else unblockThread depth tid

/-- `timer_sleep_ms`, called by a thread, up to where it waits. -/
def timerSleepMs (depth cpu : ℕ) (frequency : BitVec 64) (tid : ℕ) (milliseconds : BitVec 64) :
    SchedM ℤ := do
  if milliseconds = 0 then do
    modify fun s => s.schedulerTick cpu
    throw .away
  else do
    modify fun s => s.modThread tid fun t =>
      { t with blockedUntil := t.blockedUntil ||| blockUntilTimer }
    let s ← get
    match s.timerScheduleInterruptMs frequency milliseconds tid with
    | none => do
      modify fun s => s.modThread tid fun t =>
        { t with blockedUntil := t.blockedUntil &&& ~~~blockUntilTimer }
      pure eagain
    | some s' => do
      set s'
      blockThread depth cpu tid .blockedInterruptable
      pure 0

end Sched

end OsPi
