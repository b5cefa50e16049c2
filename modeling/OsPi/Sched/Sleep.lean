import OsPi.Lib.Machine
import OsPi.Sched.BalancedCalls
import OsPi.Sched.Sleepers
import OsPi.Sched.Timers

/-!
# Sleeps and Their Timers

Every sleep arms a timer, and the timer only knows the number of the thread. To say which sleep a
timer has been armed for, sleeps are counted: the state of the kernel comes with the number of the
sleep for each timer, and for each thread with the sleep it is in. A timer that goes off and finds
its thread asleep, or stopped in its sleep, ends a sleep; this is noted together with the sleep that
the thread was in.

A timer ends only its own sleep as long as the sleep has no other end: no signal is sent to a thread
that sleeps, and its process does not exit. Otherwise the timer goes off later, in whatever the
thread, or the next thread with its number, is doing then.
-/

namespace OsPi

open Function Comp List Option

/-- The scheduler, with the sleeps for which timers have been armed: by the numbers of the timers
that are active, for those that have expired and have not been handled yet, and for threads. -/
structure Sleeps where
  sched : Sched
  owner : ℕ → ℕ
  ringing : List (ℕ × ℕ)
  asleep : ℕ → Option ℕ
  next : ℕ
  ended : List (ℕ × Option ℕ)

/-- What a thread can do. -/
inductive SleepCall
  | sleep (milliseconds : BitVec 64)
  | kill (pid signal : ℤ)
  | exit (code : BitVec 32)
  | create
  | createThread
  | wait (copied : ℕ → Bool) (pid : ℤ) (flags : BitVec 32)
  | waitAgain (copied : ℕ → Bool)
  | block (state : ThreadState)
  | sigaction (signum : ℤ) (sa : SigAction)

/-- What can happen: the first process is made, a CPU picks a thread, the thread makes a call, a
thread is unblocked, time goes by, the handler of the timers looks for those that have expired, or
it handles one of them. -/
inductive SleepEvent
  | boot
  | tick (cpu : ℕ)
  | call (cpu : ℕ) (call : SleepCall)
  | unblock (tid : ℕ)
  | clock (now : BitVec 64)
  | collect
  | ring (i : ℕ)

namespace Sched

/-- A timer that goes off for a thread ends what it waits for. -/
def Hits (s : Sched) (tid : ℕ) : Prop :=
  s.HasThread tid ∧ ((s.threads tid).state.Blocked ∨ (s.threads tid).state = .stopped ∧
    (s.threads tid).stoppedState.Blocked ∧ (s.threads tid).blockedUntil &&& blockUntilTimer ≠ 0)

instance (s : Sched) (tid : ℕ) : Decidable (s.Hits tid) := inferInstanceAs (Decidable (_ ∧ _))

/-- A timer is active. -/
def withTimer (s : Sched) (slot : ℕ) (timer : Timer) : Sched :=
  { s with timers := update s.timers slot (some timer) }

/-- `sigaction`, called by a thread. -/
def setAction (s : Sched) (tid : ℕ) (signum : ℤ) (sa : SigAction) : Sched :=
  s.modProc (s.threads tid).pid fun p =>
    { p with sigactions := (p.sigactions.sigaction signum sa).getD p.sigactions }

end Sched

namespace Sleeps

variable (depth : ℕ) (frequency : BitVec 64)

/-- The state after a step of the scheduler: threads that do not wait any more are in no sleep. -/
def settle (k : Sleeps) (s : Sched) : Sleeps :=
  { k with sched := s, asleep := fun t => if (s.threads t).InSleep then k.asleep t else none }

/-- The state after a call that does not hang. -/
def outcome {α : Type} (k : Sleeps) : Except Leave α × Sched → Option Sleeps
  | (.error .hang, _) => none
  | (_, s) => some (k.settle s)

/-- A thread has begun a sleep and armed a timer. -/
def arm (k : Sleeps) (tid slot : ℕ) : Sleeps :=
  { k with
    owner := update k.owner slot k.next
    asleep := update k.asleep tid (some k.next)
    next := k.next + 1 }

/-- The timer that a sleep arms. -/
def timerFor (s : Sched) (milliseconds : BitVec 64) : Option ℕ :=
  if milliseconds = 0 then none else s.freeTimer

/-- A call of a thread. A thread goes on waiting only if it waits. -/
def call (cpu tid : ℕ) (k : Sleeps) : SleepCall → Option Sleeps
  | .sleep ms =>
    (k.outcome ((Sched.timerSleepMs depth cpu frequency tid ms).eval k.sched)).map fun k' =>
      match timerFor k.sched ms with
      | none => k'
      | some slot => k'.arm tid slot
  | .kill pid signal => k.outcome ((Sched.sKill depth cpu pid signal).eval k.sched)
  | .exit code => k.outcome ((Sched.exitProcess depth cpu tid code).eval k.sched)
  | .create => k.outcome ((Sched.spawn depth (k.sched.threads tid).pid).eval k.sched)
  | .createThread => k.outcome ((Sched.threadCreate depth (k.sched.threads tid).pid).eval k.sched)
  | .wait copied pid flags =>
    k.outcome ((Sched.sWaitpid depth cpu copied tid pid flags).eval k.sched)
  | .waitAgain copied =>
    if tid ∈ (k.sched.procs (k.sched.threads tid).pid).childWaitq then
      k.outcome ((Sched.sWaitpidAgain depth cpu copied tid).eval k.sched)
    else none
  | .block state => k.outcome ((Sched.blockThread depth cpu tid state).eval k.sched)
  | .sigaction signum sa => some (k.settle (k.sched.setAction tid signum sa))

/-- The timers that the handler finds expired, with their threads and sleeps. -/
def expired (k : Sleeps) : List (ℕ × ℕ) :=
  k.sched.expiredTimers.filterMap fun i => (k.sched.timers i).map fun t => (t.tid, k.owner i)

/-- The handler of the timers handles one that has expired. -/
def ring (k : Sleeps) (i : ℕ) : Option Sleeps :=
  match k.ringing[i]? with
  | none => none
  | some (tid, sleep) =>
    outcome { k with
      ringing := k.ringing.eraseIdx i
      ended := if k.sched.Hits tid then k.ended ++ [(sleep, k.asleep tid)] else k.ended }
      ((Sched.timerWakeThread depth tid).eval k.sched)

/-- The machine. -/
def machine : Machine Sleeps SleepEvent
  | k, .boot => k.outcome ((Sched.spawn depth 0).eval k.sched)
  | k, .tick cpu => some (k.settle (k.sched.schedulerTick cpu))
  | k, .call cpu c => (k.sched.cpus cpu).bind fun tid => k.call depth frequency cpu tid c
  | k, .unblock tid => k.outcome ((Sched.unblockThread depth tid).eval k.sched)
  | k, .clock now => some { k with sched := { k.sched with now } }
  | k, .collect => some { k with
      ringing := k.ringing ++ k.expired
      sched := k.sched.clearTimers k.sched.expiredTimers }
  | k, .ring i => k.ring depth i

end Sleeps

/-! ### Which steps leave sleeps alone -/

/-- Whom a call of the thread `tid` is about. -/
def SleepCall.Touches (s : Sched) (tid : ℕ) : SleepCall → ℕ → Prop
  | .sleep _, t | .block _, t => t = tid
  | .kill pid _, t => ∃ target, s.KillTarget pid target ∧ t ∈ (s.procs target).tids
  | .exit _, t => t = tid ∨ t ∈ (s.procs (s.threads tid).pid).tids
  | .wait _ pid flags, t => t = tid ∨
      ∃ child, s.doneChild (s.threads tid).pid pid flags = some child ∧ s.ReapTouches child t
  | .waitAgain _, t => t = tid ∨
      ∃ child, s.doneChild (s.threads tid).pid (s.threads tid).waitingForPid
        (s.threads tid).waitingForFlags = some child ∧ s.ReapTouches child t
  | _, _ => False

/-- Whom an event is about. -/
def SleepEvent.Touches (s : Sched) : SleepEvent → ℕ → Prop
  | .call cpu c, t => ∃ tid, s.cpus cpu = some tid ∧ c.Touches s tid t
  | .unblock tid, t => t = tid
  | _, _ => False

namespace Sleeps

/-- A timer for a sleep of a thread is active, or has expired and is to be handled. -/
def Armed (k : Sleeps) (t sleep : ℕ) : Prop :=
  (∃ i timer, k.sched.timers i = some timer ∧ timer.tid = t ∧ k.owner i = sleep) ∨
    (t, sleep) ∈ k.ringing

/-- No event is about a thread for which a timer is armed, and a thread that sleeps does not wait
for children. -/
def Clean (k : Sleeps) (e : SleepEvent) : Prop :=
  (∀ t sleep, k.Armed t sleep → ¬e.Touches k.sched t) ∧
    ∀ cpu ms tid, e = .call cpu (.sleep ms) → k.sched.cpus cpu = some tid →
      k.sched.HasThread tid ∧ ¬k.sched.Awaits tid

/-- **The invariant**: a thread for which a timer is armed is in the sleep that the timer has been
armed for, and there is one timer for each sleep. -/
structure Exact (k : Sleeps) : Prop where
  asleep : ∀ t sleep, k.Armed t sleep → k.asleep t = some sleep
  sleeping : ∀ t sleep, k.Armed t sleep →
    t < k.sched.threadCount ∧ (k.sched.threads t).InSleep ∧ ¬k.sched.Awaits t
  fresh : ∀ t sleep, k.Armed t sleep → sleep < k.next
  slots : ∀ i j, (k.sched.timers i).isSome → (k.sched.timers j).isSome →
    k.owner i = k.owner j → i = j
  once : (k.ringing.map Prod.snd).Nodup
  apart : ∀ i, (k.sched.timers i).isSome → k.owner i ∉ k.ringing.map Prod.snd
  ended : ∀ e ∈ k.ended, e.2 = some e.1

variable {k k' : Sleeps} {s' : Sched} {depth : ℕ} {frequency : BitVec 64} {cpu tid : ℕ} {s : Sched}
  {W : ℕ → Prop}

/-- Threads that are left alone are in the sleeps that their timers have been armed for. -/
theorem Exact.still (h : Exact k)
    (hkeeps : ∀ t, ¬W t → t < k.sched.threadCount → (k.sched.threads t).InSleep →
      s'.threads t = k.sched.threads t ∧ t < s'.threadCount)
    (hawaits : ∀ t, s'.Awaits t → k.sched.Awaits t ∨ W t)
    (hW : ∀ t sleep, k.Armed t sleep → ¬W t) {t sleep : ℕ} (ht : k.Armed t sleep) :
    (k.settle s').asleep t = some sleep ∧
      t < s'.threadCount ∧ (s'.threads t).InSleep ∧ ¬s'.Awaits t := by
  obtain ⟨hlt, hsleep, hnot⟩ := h.sleeping t sleep ht
  obtain ⟨heq, hlt'⟩ := hkeeps t (hW t sleep ht) hlt hsleep
  rw [← heq] at hsleep
  exact ⟨(if_pos hsleep).trans (h.asleep t sleep ht), hlt', hsleep,
    fun hawaits' => (hawaits t hawaits').elim hnot (hW t sleep ht)⟩

/-- A new thread has no timer. -/
theorem Exact.not_new (h : Exact k) :
    ∀ t sleep, k.Armed t sleep → ¬(t = k.sched.unusedTid ∨ k.sched.Awaits t) := by
  intro t sleep ht
  obtain ⟨hlt, hsleep, hnot⟩ := h.sleeping t sleep ht
  exact not_or.mpr ⟨Sched.ne_unusedTid ⟨hlt, hsleep.used⟩, hnot⟩

/-- A step that leaves all threads alone for which timers are armed. -/
theorem Exact.of_letsSleep (h : Exact k) (hlets : Sched.LetsSleep W k.sched s')
    (hW : ∀ t sleep, k.Armed t sleep → ¬W t) : Exact (k.settle s') := by
  have harmed : ∀ t sleep, (k.settle s').Armed t sleep → k.Armed t sleep := by
    intro t sleep harmed
    rw [Armed, settle] at harmed
    rwa [hlets.timers] at harmed
  have hstill := fun t sleep ht => h.still hlets.keeps hlets.awaits hW (harmed t sleep ht)
  refine ⟨fun t sleep ht => (hstill t sleep ht).1, fun t sleep ht => (hstill t sleep ht).2,
    fun t sleep ht => h.fresh t sleep (harmed t sleep ht), fun i j => ?_, h.once, fun i => ?_,
    h.ended⟩
  · rw [settle]
    rw [hlets.timers]
    exact h.slots i j
  · rw [settle]
    rw [hlets.timers]
    exact h.apart i

/-! ### Going to sleep -/

theorem timerWakeThread_gentle (hs : Sched.CoversAwaits W s) (hW : W tid) :
    Sched.Gentle W (Sched.timerWakeThread depth tid) s := by
  refine .get_bind (.ite (fun _ => .ite (fun _ => ?_) fun _ => Sched.unblockThread_gentle hs hW)
    fun _ => .refl s)
  have hmark : Sched.LetsSleep W s (s.modThread tid fun t =>
      { t with blockedUntil := t.blockedUntil &&& ~~~blockUntilTimer }) := .modThread hW
  exact hmark

/-- A thread that enters a state in which it cannot run is in that state when the call has left the
CPU, and nobody has begun to wait for children. -/
structure Entered (tid : ℕ) (new : ThreadState) (s s' : Sched) : Prop where
  state : (s'.threads tid).state = new
  threadCount : s'.threadCount = s.threadCount
  awaits : ∀ t, s'.Awaits t → s.Awaits t

theorem enterState_entered {new : ThreadState} (hnew : ¬Sched.Runnable new) :
    Post (Sched.enterState depth cpu tid new) s fun r s' =>
      r ≠ .error .hang → Entered tid new s s' := by
  refine .get_bind (Post.bind (R := fun r s₁ => r ≠ .error Leave.away ∧ Woken s.Awaits s s₁)
    ⟨Sched.pcbThreadChangeState_stays s, Sched.pcbThreadChangeState_woken ..⟩
    (fun e s₁ h₁ hne => ?_) fun _ s₁ h₁ => .modify_bind ?_)
  · cases e with
    | away => exact absurd rfl h₁.1
    | hang => exact absurd rfl hne
  · have hset : Entered tid new s (s₁.setState tid new) := by
      refine ⟨?_, h₁.2.threadCount, fun t ht => h₁.2.awaits_iff.mp ht⟩
      rw [Sched.setState, Sched.threads_modThread, if_pos rfl]
    refine .get_bind (.ite (fun _ => fun _ => ?_) fun _ => fun _ => hset)
    have htick : Sched.Ticked (s₁.setState tid new) ((s₁.setState tid new).schedulerTick cpu) :=
      Sched.ticked_schedulerTick
    refine ⟨?_, htick.threadCount.trans hset.threadCount, fun t => ?_⟩
    · rcases htick.threads tid with heq | ⟨hrunnable, -⟩
      · exact (congrArg Thread.state heq).trans hset.state
      · rw [hset.state] at hrunnable
        exact absurd hrunnable hnew
    · rintro ⟨pid, hmem⟩
      have hmem' : t ∈ (((s₁.setState tid new).schedulerTick cpu).procs pid).childWaitq := hmem
      rw [htick.procs] at hmem'
      exact hset.awaits t ⟨pid, hmem'⟩

theorem blockThread_entered :
    Post (Sched.blockThread depth cpu tid .blockedInterruptable) s fun r s' =>
      r ≠ .error .hang → Entered tid .blockedInterruptable s s' :=
  .ite (fun _ => enterState_entered (by rintro (h | h) <;> cases h)) fun h => absurd trivial h

/-- What a sleep does: it may arm a timer, and the thread is then blocked. -/
theorem timerSleepMs_letsSleep {ms : BitVec 64} (hs : Sched.CoversAwaits W s) (hW : W tid) :
    Post (Sched.timerSleepMs depth cpu frequency tid ms) s fun r s' => r ≠ .error .hang →
      match timerFor s ms with
      | none => Sched.LetsSleep W s s'
      | some slot => ∃ deadline, Sched.LetsSleep W (s.withTimer slot ⟨deadline, tid⟩) s' ∧
          Entered tid .blockedInterruptable s s' := by
  rw [timerFor]
  refine .ite (fun hzero => fun _ => ?_) fun hms => .modify_bind (.get_bind ?_)
  · rw [if_pos hzero]
    exact .of_ticked Sched.ticked_schedulerTick
  · rw [if_neg hms]
    have hset : Sched.LetsSleep W s (s.modThread tid fun t =>
        { t with blockedUntil := t.blockedUntil ||| blockUntilTimer }) := .modThread hW
    cases hslot : s.freeTimer with
    | none =>
      have hnone : (s.modThread tid fun t =>
          { t with blockedUntil := t.blockedUntil ||| blockUntilTimer }).timerScheduleInterruptMs
            frequency ms tid = none := by
        exact congrArg (Option.map _) hslot
      rw [hnone]
      have hback : ∀ s₁ : Sched, Sched.LetsSleep W s₁ (s₁.modThread tid fun t =>
          { t with blockedUntil := t.blockedUntil &&& ~~~blockUntilTimer }) :=
        fun _ => .modThread hW
      exact fun _ => hset.trans (hback _)
    | some slot =>
      have hsome : (s.modThread tid fun t => { t with blockedUntil :=
          t.blockedUntil ||| blockUntilTimer }).timerScheduleInterruptMs frequency ms tid =
            some ((s.withTimer slot ⟨s.now + timerMsToCounterTicks frequency ms, tid⟩).modThread
              tid fun t => { t with blockedUntil := t.blockedUntil ||| blockUntilTimer }) := by
        exact congrArg (Option.map _) hslot
      rw [hsome]
      refine .set_bind ?_
      have harmed : Sched.LetsSleep W (s.withTimer slot ⟨_, tid⟩)
          ((s.withTimer slot ⟨s.now + timerMsToCounterTicks frequency ms, tid⟩).modThread tid
            fun t => { t with blockedUntil := t.blockedUntil ||| blockUntilTimer }) :=
        .modThread hW
      refine Post.bind (R := fun r s' => Sched.LetsSleep W _ s' ∧ (r ≠ .error Leave.hang →
        Entered tid .blockedInterruptable _ s'))
        ⟨Sched.blockThread_gentle (harmed.covers hs) hW, blockThread_entered⟩
        (fun e s' h hne => ?_) fun _ s' h _ => ⟨_, harmed.trans h.1, ?_⟩
      · have hentered := h.2 fun heq => hne (by cases heq; rfl)
        exact ⟨_, harmed.trans h.1, hentered.state, hentered.threadCount, hentered.awaits⟩
      · have hentered := h.2 nofun
        exact ⟨hentered.state, hentered.threadCount, hentered.awaits⟩

theorem outcome_eq_some {α : Type} {m : SchedM α} (h : k.outcome (m.eval k.sched) = some k') :
    ∃ s', k' = k.settle s' ∧ ∀ Q : Except Leave α → Sched → Prop, Post m k.sched Q →
      ∃ r, Q r s' ∧ r ≠ .error .hang := by
  rcases hm : m.eval k.sched with ⟨⟨_ | _⟩ | a, s'⟩ <;> rw [hm] at h <;> cases h
  all_goals
    refine ⟨s', rfl, fun Q hQ => ?_⟩
    unfold Post at hQ
    rw [hm] at hQ
    exact ⟨_, hQ, nofun⟩

/-- A call that leaves all threads alone for which timers are armed. -/
theorem Exact.outcome {α : Type} {m : SchedM α} (h : Exact k) (hm : Sched.Gentle W m k.sched)
    (hW : ∀ t sleep, k.Armed t sleep → ¬W t) (hout : k.outcome (m.eval k.sched) = some k') :
    Exact k' := by
  obtain ⟨s', rfl, hpost⟩ := outcome_eq_some hout
  obtain ⟨r, hlets, -⟩ := hpost _ hm
  exact h.of_letsSleep hlets hW

/-- A thread has armed a timer and sleeps. -/
theorem Exact.arm {slot : ℕ} {deadline : BitVec 64} (h : Exact k)
    (hlets : Sched.LetsSleep W (k.sched.withTimer slot ⟨deadline, tid⟩) s')
    (hentered : Entered tid .blockedInterruptable k.sched s')
    (hW : ∀ t sleep, k.Armed t sleep → ¬W t) (htid : W tid)
    (hhas : tid < k.sched.threadCount) (hawaits : ¬k.sched.Awaits tid) :
    Exact ((k.settle s').arm tid slot) := by
  have htimers : ∀ i, s'.timers i =
      if i = slot then some ⟨deadline, tid⟩ else k.sched.timers i := by
    intro i
    rw [hlets.timers]
    exact update_apply ..
  have howner : ∀ i, ((k.settle s').arm tid slot).owner i =
      if i = slot then k.next else k.owner i := fun i => update_apply ..
  have harmed : ∀ t sleep, ((k.settle s').arm tid slot).Armed t sleep →
      t = tid ∧ sleep = k.next ∨ k.Armed t sleep := by
    rintro t sleep (⟨i, timer, htimer, ht, hsleep⟩ | hmem)
    · have htimer' : s'.timers i = some timer := htimer
      rw [htimers] at htimer'
      rw [howner] at hsleep
      split at htimer'
      · rename_i heq
        rw [if_pos heq] at hsleep
        cases htimer'
        exact .inl ⟨ht.symm, hsleep.symm⟩
      · rename_i hne
        rw [if_neg hne] at hsleep
        exact .inr (.inl ⟨i, timer, htimer', ht, hsleep⟩)
    · exact .inr (.inr hmem)
  have hstill := fun t sleep (ht : k.Armed t sleep) => h.still hlets.keeps hlets.awaits hW ht
  have hactive : ∀ i, i ≠ slot → (s'.timers i).isSome → k.owner i < k.next ∧
      k.owner i ∉ k.ringing.map Prod.snd := by
    intro i hne hi
    rw [htimers, if_neg hne] at hi
    obtain ⟨timer, htimer⟩ := isSome_iff_exists.mp hi
    exact ⟨h.fresh timer.tid _ (.inl ⟨i, timer, htimer, rfl, rfl⟩), h.apart i hi⟩
  refine ⟨fun t sleep ht => ?_, fun t sleep ht => ?_, fun t sleep ht => ?_, fun i j hi hj heq => ?_,
    h.once, fun i hi => ?_, h.ended⟩
  · have hasleep : ((k.settle s').arm tid slot).asleep t =
        if t = tid then some k.next else (k.settle s').asleep t := update_apply ..
    rw [hasleep]
    rcases harmed t sleep ht with ⟨rfl, rfl⟩ | hold
    · rw [if_pos rfl]
    · have hne : t ≠ tid := by
        rintro rfl
        exact hW t sleep hold htid
      rw [if_neg hne]
      exact (hstill t sleep hold).1
  · rcases harmed t sleep ht with ⟨rfl, rfl⟩ | ht
    · refine ⟨?_, .inl ?_, fun h => hawaits (hentered.awaits t h)⟩
      · exact hentered.threadCount ▸ hhas
      · change (s'.threads t).state.Blocked
        rw [hentered.state]
        trivial
    · exact (hstill t sleep ht).2
  · have hnext : ((k.settle s').arm tid slot).next = k.next + 1 := rfl
    rcases harmed t sleep ht with ⟨-, rfl⟩ | ht
    · exact Nat.lt_succ_self _
    · exact Nat.lt_succ_of_lt (h.fresh t sleep ht)
  · rw [howner, howner] at heq
    by_cases hi' : i = slot
    · by_cases hj' : j = slot
      · rw [hi', hj']
      · rw [if_pos hi', if_neg hj'] at heq
        exact absurd heq (Nat.ne_of_gt (hactive j hj' hj).1)
    · by_cases hj' : j = slot
      · rw [if_neg hi', if_pos hj'] at heq
        exact absurd heq (Nat.ne_of_lt (hactive i hi' hi).1)
      · rw [if_neg hi', if_neg hj'] at heq
        have hi : (s'.timers i).isSome := hi
        have hj : (s'.timers j).isSome := hj
        rw [htimers, if_neg hi'] at hi
        rw [htimers, if_neg hj'] at hj
        exact h.slots i j hi hj heq
  · rw [howner]
    split
    · intro hmem
      obtain ⟨⟨t, sleep⟩, hmem, heq⟩ := List.mem_map.mp hmem
      have hlt := h.fresh t sleep (.inr hmem)
      exact absurd heq (Nat.ne_of_lt hlt)
    · rename_i hne
      exact (hactive i hne hi).2

/-! ### The handler of the timers -/

theorem mem_expired {t sleep : ℕ} (h : (t, sleep) ∈ k.expired) : ∃ i timer,
    i ∈ k.sched.expiredTimers ∧ k.sched.timers i = some timer ∧ timer.tid = t ∧
      k.owner i = sleep := by
  obtain ⟨i, hi, hmap⟩ := mem_filterMap.mp h
  obtain ⟨timer, htimer, heq⟩ := map_eq_some_iff.mp hmap
  cases heq
  exact ⟨i, timer, hi, htimer, rfl, rfl⟩

/-- Timers that have expired stay armed until they are handled. -/
theorem Exact.collect (h : Exact k) : Exact { k with
    ringing := k.ringing ++ k.expired
    sched := k.sched.clearTimers k.sched.expiredTimers } := by
  have hactive : ∀ i, ((k.sched.clearTimers k.sched.expiredTimers).timers i).isSome →
      i ∉ k.sched.expiredTimers ∧ (k.sched.timers i).isSome := by
    intro i hi
    rw [Sched.clearTimers] at hi
    dsimp only at hi
    split at hi
    · cases hi
    · rename_i hnot
      exact ⟨hnot, hi⟩
  have harmed : ∀ t sleep, Armed { k with
      ringing := k.ringing ++ k.expired
      sched := k.sched.clearTimers k.sched.expiredTimers } t sleep → k.Armed t sleep := by
    rintro t sleep (⟨i, timer, htimer, ht, hsleep⟩ | hmem)
    · rw [Sched.clearTimers] at htimer
      dsimp only at htimer
      split at htimer
      · cases htimer
      · exact .inl ⟨i, timer, htimer, ht, hsleep⟩
    · rcases mem_append.mp hmem with hmem | hmem
      · exact .inr hmem
      · obtain ⟨i, timer, -, htimer, ht, hsleep⟩ := mem_expired hmem
        exact .inl ⟨i, timer, htimer, ht, hsleep⟩
  have hexpired : ∀ sleep ∈ k.expired.map Prod.snd,
      ∃ i ∈ k.sched.expiredTimers, (k.sched.timers i).isSome ∧ k.owner i = sleep := by
    intro sleep hmem
    obtain ⟨⟨t, sleep⟩, hpair, rfl⟩ := List.mem_map.mp hmem
    obtain ⟨i, timer, hi, htimer, -, hsleep⟩ := mem_expired hpair
    exact ⟨i, hi, by rw [htimer]; rfl, hsleep⟩
  refine ⟨fun t sleep ht => h.asleep t sleep (harmed t sleep ht),
    fun t sleep ht => h.sleeping t sleep (harmed t sleep ht),
    fun t sleep ht => h.fresh t sleep (harmed t sleep ht),
    fun i j hi hj => h.slots i j (hactive i hi).2 (hactive j hj).2, ?_, fun i hi hmem => ?_,
    h.ended⟩
  · rw [map_append, nodup_append]
    refine ⟨h.once, ?_, ?_⟩
    · rw [expired, map_filterMap]
      refine List.Nodup.filterMap (fun i j sleep hi hj => ?_) (nodup_range.filter _)
      simp only [Option.map_map, mem_def, map_eq_some_iff, comp_apply] at hi hj
      obtain ⟨ti, hti, hi⟩ := hi
      obtain ⟨tj, htj, hj⟩ := hj
      exact h.slots i j (by rw [hti]; rfl) (by rw [htj]; rfl) (hi.trans hj.symm)
    · rintro sleep hmem _ hmem' rfl
      obtain ⟨i, -, hi, rfl⟩ := hexpired sleep hmem'
      exact h.apart i hi hmem
  · obtain ⟨hnot, hi⟩ := hactive i hi
    rw [map_append] at hmem
    rcases mem_append.mp hmem with hmem | hmem
    · exact h.apart i hi hmem
    · obtain ⟨j, hj, hj', heq⟩ := hexpired _ hmem
      exact hnot (h.slots j i hj' hi heq ▸ hj)

/-- A timer that is handled is not armed any more, and it was the only one for its thread. -/
theorem Exact.ring {i : ℕ} (h : Exact k) (hring : k.ring depth i = some k') : Exact k' := by
  rw [Sleeps.ring] at hring
  split at hring
  · cases hring
  · rename_i tid sleep hi
    have hmem : (tid, sleep) ∈ k.ringing := mem_of_getElem? hi
    have hsleep := h.asleep tid sleep (.inr hmem)
    have herased : ∀ x ∈ k.ringing.eraseIdx i, x ∈ k.ringing :=
      fun x hx => mem_of_mem_eraseIdx hx
    have harmed : ∀ (ended : List (ℕ × Option ℕ)) t sleep', Armed { k with
        ringing := k.ringing.eraseIdx i
        ended } t sleep' → k.Armed t sleep' ∧ t ≠ tid := by
      intro ended t sleep' ht
      refine ⟨ht.imp_right fun hx => herased _ hx, ?_⟩
      rintro rfl
      have hsleep' := h.asleep t sleep' (ht.imp_right fun hx => herased _ hx)
      obtain rfl : sleep' = sleep := some.inj (hsleep'.symm.trans hsleep)
      rcases ht with ⟨j, timer, htimer, -, howner⟩ | hx
      · refine h.apart j (isSome_iff_exists.mpr ⟨timer, htimer⟩) ?_
        exact List.mem_map.mpr ⟨_, hmem, howner.symm⟩
      · obtain ⟨j, hne, hj⟩ := mem_eraseIdx_iff_getElem?.mp hx
        have hlt : j < k.ringing.length := (List.getElem?_eq_some_iff.mp hj).1
        exact hne ((getElem?_inj hlt (h.once.of_map _)).mp (hj.trans hi.symm))
    have hrest : Exact { k with
        ringing := k.ringing.eraseIdx i
        ended := if k.sched.Hits tid then k.ended ++ [(sleep, k.asleep tid)] else k.ended } := by
      refine ⟨fun t sleep ht => h.asleep t sleep (harmed _ t sleep ht).1,
        fun t sleep ht => h.sleeping t sleep (harmed _ t sleep ht).1,
        fun t sleep ht => h.fresh t sleep (harmed _ t sleep ht).1, h.slots,
        h.once.sublist ((eraseIdx_sublist ..).map _), fun j hj hmem' => h.apart j hj ?_, ?_⟩
      · exact ((eraseIdx_sublist ..).map Prod.snd).subset hmem'
      · dsimp only
        split
        · intro e he
          rcases mem_append.mp he with he | he
          · exact h.ended e he
          · rw [mem_singleton.mp he]
            exact hsleep
        · exact h.ended
    refine hrest.outcome (W := fun t => t = tid ∨ k.sched.Awaits t)
      (timerWakeThread_gentle (fun t => .inr) (.inl rfl)) (fun t sleep' ht => ?_) hring
    obtain ⟨ht, hne⟩ := harmed _ t sleep' ht
    rintro (heq | hawaits)
    · exact hne heq
    · exact (h.sleeping t sleep' ht).2.2 hawaits

/-! ### Runs -/

theorem setAction_letsSleep {signum : ℤ} {sa : SigAction} :
    Sched.LetsSleep W s (s.setAction tid signum sa) := .modProc (fun _ => .inl) fun _ => .inl

theorem exact_call {c : SleepCall} (h : Exact k) (hcpu : k.sched.cpus cpu = some tid)
    (hclean : k.Clean (.call cpu c)) (hcall : k.call depth frequency cpu tid c = some k') :
    Exact k' := by
  -- everybody whom the call is about, or who may be woken by it
  have hW : ∀ t sleep, k.Armed t sleep → ¬(c.Touches k.sched tid t ∨ k.sched.Awaits t) := by
    rintro t sleep ht (htouches | hawaits)
    · exact hclean.1 t sleep ht ⟨tid, hcpu, htouches⟩
    · exact (h.sleeping t sleep ht).2.2 hawaits
  have hcovers : Sched.CoversAwaits (fun t => c.Touches k.sched tid t ∨ k.sched.Awaits t) k.sched :=
    fun t => .inr
  cases c with
  | sleep ms =>
    obtain ⟨k₁, hout, rfl⟩ := map_eq_some_iff.mp hcall
    obtain ⟨s', rfl, hpost⟩ := outcome_eq_some hout
    obtain ⟨r, hsleep, hr⟩ := hpost _ (timerSleepMs_letsSleep hcovers (.inl rfl))
    have hsleep := hsleep hr
    cases hslot : timerFor k.sched ms with
    | none =>
      rw [hslot] at hsleep
      exact h.of_letsSleep hsleep hW
    | some slot =>
      rw [hslot] at hsleep
      obtain ⟨deadline, hlets, hentered⟩ := hsleep
      obtain ⟨hhas, hawaits⟩ := hclean.2 cpu ms tid rfl hcpu
      exact h.arm hlets hentered hW (.inl rfl) hhas.1 hawaits
  | kill pid signal =>
    exact h.outcome (Sched.sKill_gentle hcovers fun target htarget t ht =>
      .inl ⟨target, htarget, ht⟩) hW hcall
  | exit code =>
    exact h.outcome (Sched.exitProcess_gentle hcovers (.inl (.inl rfl)) fun t ht =>
      .inl (.inr ht)) hW hcall
  | create =>
    exact h.outcome (Sched.spawn_gentle (fun t => .inr) (.inl rfl)) h.not_new hcall
  | createThread =>
    exact h.outcome (Sched.threadCreate_gentle (fun t => .inr) (.inl rfl)) h.not_new hcall
  | wait copied pid flags =>
    exact h.outcome (Sched.sWaitpid_gentle hcovers (.inl (.inl rfl)) fun child hchild t ht =>
      .inl (.inr ⟨child, hchild, ht⟩)) hW hcall
  | waitAgain copied =>
    rw [call] at hcall
    split at hcall
    · exact h.outcome (Sched.sWaitpidAgain_gentle hcovers (.inl (.inl rfl))
        fun child hchild t ht => .inl (.inr ⟨child, hchild, ht⟩)) hW hcall
    · cases hcall
  | block state => exact h.outcome (Sched.blockThread_gentle hcovers (.inl rfl)) hW hcall
  | sigaction signum sa =>
    cases hcall
    exact h.of_letsSleep setAction_letsSleep hW

theorem exact_step {e : SleepEvent} (h : Exact k) (hclean : k.Clean e)
    (hstep : machine depth frequency k e = some k') : Exact k' := by
  have hawaits : ∀ t sleep, k.Armed t sleep → ¬k.sched.Awaits t := fun t sleep ht =>
    (h.sleeping t sleep ht).2.2
  cases e with
  | boot => exact h.outcome (Sched.spawn_gentle (fun t => .inr) (.inl rfl)) h.not_new hstep
  | tick cpu =>
    cases hstep
    exact h.of_letsSleep (.of_ticked Sched.ticked_schedulerTick) hawaits
  | call cpu c =>
    obtain ⟨tid, hcpu, hcall⟩ := bind_eq_some_iff.mp hstep
    exact exact_call h hcpu hclean hcall
  | unblock tid =>
    refine h.outcome (W := fun t => t = tid ∨ k.sched.Awaits t)
      (Sched.unblockThread_gentle (fun t => .inr) (.inl rfl)) (fun t sleep ht => ?_) hstep
    exact not_or.mpr ⟨hclean.1 t sleep ht, hawaits t sleep ht⟩
  | clock now =>
    cases hstep
    exact ⟨h.asleep, h.sleeping, h.fresh, h.slots, h.once, h.apart, h.ended⟩
  | collect =>
    cases hstep
    exact h.collect
  | ring i => exact h.ring hstep

/-- The state before the first process is created. -/
def zero : Sleeps := ⟨Sched.zero, fun _ => 0, [], fun _ => none, 0, []⟩

theorem exact_zero : Exact zero := by
  have hnone : ∀ t sleep, ¬zero.Armed t sleep := by
    rintro t sleep (⟨i, timer, htimer, -⟩ | hmem)
    · cases htimer
    · exact not_mem_nil hmem
  exact ⟨fun t sleep ht => absurd ht (hnone t sleep), fun t sleep ht => absurd ht (hnone t sleep),
    fun t sleep ht => absurd ht (hnone t sleep), fun _ _ hi => absurd hi Bool.false_ne_true,
    nodup_nil, fun _ hi => absurd hi Bool.false_ne_true, fun _ he => (not_mem_nil he).elim⟩

/-- **Timers end their own sleeps.** Over all runs in which nothing but its timer ends a sleep, each
timer that ends a sleep has been armed by that sleep. -/
theorem timers_exact_of_clean_run (hrun : (machine depth frequency).Run Clean zero k) :
    ∀ e ∈ k.ended, e.2 = some e.1 :=
  (hrun.invariant exact_zero fun _ _ _ h hclean hstep => exact_step h hclean hstep).ended

/-- A thread sleeps until its timer goes off. -/
def sleptOut : List SleepEvent :=
  [.boot, .tick 0, .call 0 (.sleep 1), .clock 1, .collect, .ring 0]

set_option maxRecDepth 10000 in
theorem timers_exact_slept_out :
    ∃ k, (machine 8 1000).Run Clean zero k ∧ k.ended = [(0, some 0)] ∧
      ∀ e ∈ k.ended, e.2 = some e.1 := by
  have hsleep : Clean ((machine 8 1000).after zero [.boot, .tick 0]) (.call 0 (.sleep 1)) := by
    refine ⟨?_, fun cpu ms tid he hcpu => ?_⟩
    · rintro t sleep (⟨i, timer, htimer, -⟩ | hmem)
      · have hnone : ((machine 8 1000).after zero [.boot, .tick 0]).sched.timers i = none := rfl
        cases hnone.symm.trans htimer
      · have hnil : ((machine 8 1000).after zero [.boot, .tick 0]).ringing = [] := rfl
        exact absurd (hnil ▸ hmem) not_mem_nil
    · cases he
      have hcpu' : ((machine 8 1000).after zero [.boot, .tick 0]).sched.cpus 0 = some 0 := by
        decide +kernel
      cases hcpu'.symm.trans hcpu
      refine ⟨by decide +kernel, ?_⟩
      rintro ⟨pid, hmem⟩
      have hqueue : (((machine 8 1000).after zero [.boot, .tick 0]).sched.procs pid).childWaitq =
          [] := by
        cases pid with
        | zero => decide +kernel
        | succ pid => rfl
      exact absurd (hqueue ▸ hmem) not_mem_nil
  have hmeets : (machine 8 1000).Meets Clean zero sleptOut :=
    ⟨⟨fun _ _ _ h => h, nofun⟩, ⟨fun _ _ _ h => h, nofun⟩, hsleep, ⟨fun _ _ _ h => h, nofun⟩,
      ⟨fun _ _ _ h => h, nofun⟩, ⟨fun _ _ _ h => h, nofun⟩, trivial⟩
  have hrun : (machine 8 1000).Run Clean zero ((machine 8 1000).after zero sleptOut) :=
    Machine.run_of_meets (by decide +kernel) hmeets
  exact ⟨_, hrun, by decide +kernel, timers_exact_of_clean_run hrun⟩

/-- A thread that handles a signal is woken from a long sleep by it and sleeps again. Then the timer
of the first sleep goes off. -/
def sleptAgain : List SleepEvent :=
  [.boot, .tick 0, .call 0 .create, .call 0 (.sigaction 3 ⟨.user 4096, 0, 0⟩), .call 0 (.sleep 1),
    .call 0 (.kill 0 3), .tick 0, .call 0 (.sleep 100), .clock 1, .collect, .ring 0]

/-- A thread is killed in its sleep and reaped, and the next thread gets its number and sleeps. -/
def sleptAnother : List SleepEvent :=
  [.boot, .tick 0, .call 0 .create, .tick 0, .call 0 (.sleep 1), .call 0 (.kill 1 9),
    .call 0 (.wait (fun _ => true) (-1) 0), .call 0 .create, .tick 0, .call 0 (.sleep 100),
    .clock 1, .collect, .ring 0]

/-- The timer of the first sleep ends the second one: of the same thread, whose first sleep a signal
has ended, or of the thread that has got the number of one that was killed in its sleep. -/
theorem timer_ends_later_sleep :
    (∃ k, (machine 8 1000).Run Machine.Any zero k ∧ k.ended = [(0, some 1)] ∧
      (k.sched.threads 0).state = .ready) ∧
    ∃ k, (machine 8 1000).Run Machine.Any zero k ∧ k.ended = [(0, some 1)] ∧
      (k.sched.threads 1).state = .ready :=
  ⟨⟨(machine 8 1000).after zero sleptAgain, Machine.run_after (by decide +kernel),
    by decide +kernel, by decide +kernel⟩,
    (machine 8 1000).after zero sleptAnother, Machine.run_after (by decide +kernel),
    by decide +kernel, by decide +kernel⟩

end Sleeps

end OsPi
