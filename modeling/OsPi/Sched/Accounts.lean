import Mathlib.Data.Int.Order.Basic
import OsPi.Sched.Ownership

/-!
# The Counters of a Process

A process counts its threads by the kinds of their states, and `pcb_thread_change_state` moves a
thread from one counter to another before the state of the thread is assigned. In between the
parent is told, which can unblock a thread of another process, whose parent is told, and so on.

The threads unblocked in this way are a chain that the state before determines. It has no thread
twice: a chain that comes back to a thread never ends, because the thread is still blocked when it
is found again. So a notification that comes to an end leaves the counters as far from the states
of the threads as they were.
-/

namespace OsPi

open Comp List Option

/-! ### Kinds of states -/

/-- The kinds of states that a process counts. -/
inductive Kind
  | running
  | blocked
  | stopped
  | zombie
  deriving DecidableEq, Repr

/-- The counter for a state. -/
def ThreadState.kind : ThreadState → Option Kind
  | .ready | .running => some .running
  | .blockedInterruptable | .blockedUninteruptable | .blockedKillable => some .blocked
  | .stopped => some .stopped
  | .zombie => some .zombie
  | .unused => none

/-- One for a state of the kind, and zero for others. -/
def ThreadState.ofKind (a : ThreadState) (k : Kind) : ℤ := if a.kind = some k then 1 else 0

/-- The value of a counter. -/
def ThreadCounts.get (c : ThreadCounts) : Kind → ℤ
  | .running => c.running
  | .blocked => c.blocked
  | .stopped => c.stopped
  | .zombie => c.zombie

theorem ThreadCounts.get_add (c : ThreadCounts) (n : ℤ) (a : ThreadState) (k : Kind) :
    (c.add n a).get k = c.get k + n * a.ofKind k := by
  cases a <;> cases k <;> simp [add, get, ThreadState.ofKind, ThreadState.kind]

/-- A thread that can go on when it has been stopped, and that no thread waits for. -/
structure Thread.Free (t : Thread) : Prop where
  resumes : t.stoppedState ≠ .unused
  unawaited : t.waitingOnThis = []

/-- The number of elements with a property when it changes for one of them. -/
theorem countP_change {p q : ℕ → Bool} {l : List ℕ} {t : ℕ} (hnodup : l.Nodup) (hmem : t ∈ l)
    (hother : ∀ u, u ≠ t → q u = p u) :
    (l.countP q : ℤ) = l.countP p + ((if q t then 1 else 0) - if p t then 1 else 0) := by
  induction l with
  | nil => cases hmem
  | cons u l ih =>
    rw [nodup_cons] at hnodup
    rw [countP_cons, countP_cons]
    by_cases heq : u = t
    · subst heq
      have hsame : l.countP q = l.countP p :=
        countP_congr fun v hv => by rw [hother v fun hvu => hnodup.1 (hvu ▸ hv)]
      split <;> split <;> push_cast <;> omega
    · have hmem' : t ∈ l := (mem_cons.mp hmem).resolve_left fun h => heq h.symm
      have := ih hnodup.2 hmem'
      rw [hother u heq]
      push_cast
      omega

namespace Sched

variable {s s' s'' : Sched} {tid pid cpu depth : ℕ} {old new : ThreadState} {k : Kind} {l : List ℕ}
  {f : Process → Process}

/-! ### How far the counters are off -/

/-- The number of threads of a process with a state of the kind. -/
def tally (s : Sched) (pid : ℕ) (k : Kind) : ℕ :=
  (s.procs pid).tids.countP fun tid => (s.threads tid).state.kind = some k

/-- How far a counter is from the number of threads. -/
def off (s : Sched) (pid : ℕ) (k : Kind) : ℤ := (s.procs pid).counts.get k - s.tally pid k

theorem tally_congr (htids : (s'.procs pid).tids = (s.procs pid).tids)
    (hkind : ∀ tid, (s'.threads tid).state.kind = (s.threads tid).state.kind) :
    s'.tally pid k = s.tally pid k := by
  rw [tally, tally, htids]
  exact countP_congr fun tid _ => by rw [hkind]

/-- Counters, lists and kinds of states are the same. -/
theorem off_congr (hcounts : (s'.procs pid).counts = (s.procs pid).counts)
    (htids : (s'.procs pid).tids = (s.procs pid).tids)
    (hkind : ∀ tid, (s'.threads tid).state.kind = (s.threads tid).state.kind) :
    s'.off pid k = s.off pid k := by
  rw [off, off, tally_congr htids hkind, hcounts]

theorem off_changeState (pid' : ℕ) :
    (s.modProc pid fun p => p.changeState old new).off pid' k =
      s.off pid' k + if pid' = pid then new.ofKind k - old.ofKind k else 0 := by
  have hprocs : (s.modProc pid fun p => p.changeState old new).procs pid' = _ := procs_modProc
  split
  · rename_i heq
    subst heq
    rw [if_pos rfl] at hprocs
    have htally : (s.modProc pid' fun p => p.changeState old new).tally pid' k = s.tally pid' k :=
      tally_congr (by rw [hprocs]; rfl) fun _ => rfl
    rw [off, off, htally, hprocs, Process.changeState]
    rw [ThreadCounts.get_add, ThreadCounts.get_add]
    omega
  · rename_i hne
    rw [if_neg hne] at hprocs
    rw [Int.add_zero]
    exact off_congr (by rw [hprocs]) (by rw [hprocs]) fun _ => rfl

/-- A thread changes its state. -/
theorem off_modThread {f : Thread → Thread} (hs : Owned s) (hused : (s.threads tid).state ≠ .unused)
    (pid : ℕ) :
    (s.modThread tid f).off pid k = s.off pid k -
      if pid = (s.threads tid).pid then
        (f (s.threads tid)).state.ofKind k - (s.threads tid).state.ofKind k
      else 0 := by
  have hother : ∀ u, u ≠ tid → decide (((s.modThread tid f).threads u).state.kind = some k) =
      decide ((s.threads u).state.kind = some k) := by
    intro u hne
    rw [threads_modThread, if_neg hne]
  rw [off, off, tally, tally, procs_modThread]
  split
  · rename_i heq
    rw [countP_change (hs.nodup pid) (heq ▸ hs.listed tid hused) hother, threads_modThread,
      if_pos rfl, ThreadState.ofKind, ThreadState.ofKind]
    simp only [decide_eq_true_eq]
    omega
  · rename_i hne
    have hsame : (s.procs pid).tids.countP (fun u =>
        decide (((s.modThread tid f).threads u).state.kind = some k)) =
        (s.procs pid).tids.countP fun u => decide ((s.threads u).state.kind = some k) := by
      refine countP_congr fun u hu => ?_
      rw [hother u fun heq => hne (heq ▸ (hs.used pid u hu).2).symm]
    omega

/-! ### The chain of threads that are unblocked -/

/-- The thread that is unblocked when a process comes into the given state. -/
def nextWoken (s : Sched) (pid : ℕ) (state : ProcState) : Option ℕ :=
  if state = .blocked then none
  else ((s.modProc pid fun p => { p with state }).waiter pid).filter fun tid =>
    (s.threads tid).state.Blocked

/-- The threads that are unblocked, one because of the other, when a process comes into the given
state. -/
inductive Chain (s : Sched) : ℕ → ProcState → List ℕ → Prop
  | nil {pid : ℕ} {state : ProcState} : s.nextWoken pid state = none → Chain s pid state []
  | cons {pid tid : ℕ} {state : ProcState} {l : List ℕ} : s.nextWoken pid state = some tid →
      Chain s (s.threads tid).pid .running l → Chain s pid state (tid :: l)

namespace Chain

variable {state : ProcState} {l l' : List ℕ}

theorem unique (h : Chain s pid state l) (h' : Chain s pid state l') : l = l' := by
  induction h generalizing l' with
  | nil hnone =>
    cases h' with
    | nil => rfl
    | cons hsome => rw [hnone] at hsome; cases hsome
  | cons hsome _ ih =>
    cases h' with
    | nil hnone => rw [hnone] at hsome; cases hsome
    | cons hsome' hrest =>
      obtain rfl := some.inj (hsome.symm.trans hsome')
      rw [ih hrest]

/-- From each of its threads a chain goes on as it does when that thread is unblocked. -/
theorem suffix (h : Chain s pid state l) (hmem : tid ∈ l) :
    ∃ l', Chain s (s.threads tid).pid .running l' ∧ l'.length < l.length := by
  induction h with
  | nil => cases hmem
  | @cons pid tid' state l _ hrest ih =>
    rcases mem_cons.mp hmem with rfl | hmem
    · exact ⟨l, hrest, Nat.lt_succ_self _⟩
    · obtain ⟨l', hl', hlt⟩ := ih hmem
      exact ⟨l', hl', Nat.lt_succ_of_lt hlt⟩

/-- A chain that comes to an end does not come back to the thread it started with. -/
theorem not_mem (h : Chain s (s.threads tid).pid .running l) : tid ∉ l := by
  intro hmem
  obtain ⟨l', hl', hlt⟩ := h.suffix hmem
  rw [h.unique hl'] at hlt
  exact Nat.lt_irrefl _ hlt

/-- Only threads that are blocked are unblocked. -/
theorem blocked (h : Chain s pid state l) (hmem : tid ∈ l) : (s.threads tid).state.Blocked := by
  induction h with
  | nil => cases hmem
  | cons hsome _ ih =>
    rcases mem_cons.mp hmem with rfl | hmem
    · rw [nextWoken] at hsome
      split at hsome
      · cases hsome
      · exact of_decide_eq_true (filter_eq_some_iff.mp hsome).2
    · exact ih hmem

end Chain

/-- What decides who is unblocked. -/
structure SameWaiters (s s' : Sched) : Prop where
  threadState : ∀ tid, (s'.threads tid).state = (s.threads tid).state
  threadPid : ∀ tid, (s'.threads tid).pid = (s.threads tid).pid
  waitingForPid : ∀ tid, (s'.threads tid).waitingForPid = (s.threads tid).waitingForPid
  waitingForFlags : ∀ tid, (s'.threads tid).waitingForFlags = (s.threads tid).waitingForFlags
  threadCount : s'.threadCount = s.threadCount
  ppid : ∀ pid, (s'.procs pid).ppid = (s.procs pid).ppid
  pgid : ∀ pid, (s'.procs pid).pgid = (s.procs pid).pgid
  childWaitq : ∀ pid, (s'.procs pid).childWaitq = (s.procs pid).childWaitq
  live : SameLive s s'

namespace SameWaiters

theorem modProc (hppid : (f (s.procs pid)).ppid = (s.procs pid).ppid)
    (hpgid : (f (s.procs pid)).pgid = (s.procs pid).pgid)
    (hchildWaitq : (f (s.procs pid)).childWaitq = (s.procs pid).childWaitq)
    (hlive : (f (s.procs pid)).Live ↔ (s.procs pid).Live) : SameWaiters s (s.modProc pid f) := by
  refine ⟨fun _ => rfl, fun _ => rfl, fun _ => rfl, fun _ => rfl, rfl, fun pid' => ?_,
    fun pid' => ?_, fun pid' => ?_, .modProc hlive⟩ <;>
    rw [procs_modProc] <;> split <;> rename_i heq
  all_goals first | rfl | (rw [heq]; assumption)

theorem waiter_eq (h : SameWaiters s s') (hstate : (s'.procs pid).state = (s.procs pid).state) :
    s'.waiter pid = s.waiter pid := by
  have hhas : ∀ tid, s'.HasThread tid ↔ s.HasThread tid := fun tid => by
    rw [HasThread, HasThread, h.threadState, h.threadCount]
  have hwaits : ∀ tid child pgid, (s'.threads tid).WaitsFor child pgid ↔
      (s.threads tid).WaitsFor child pgid := fun tid child pgid => by
    rw [Thread.WaitsFor, Thread.WaitsFor, h.waitingForPid]
  have hwakes : ∀ tid state, (s'.threads tid).WakesAt state ↔ (s.threads tid).WakesAt state :=
    fun tid state => by rw [Thread.WakesAt, Thread.WakesAt, h.waitingForFlags]
  rw [waiter, waiter, h.ppid, h.pgid, h.childWaitq, hstate]
  simp only [h.live.hasProc_iff, hhas, hwaits, hwakes]

theorem nextWoken_eq {state : ProcState} (h : SameWaiters s s') (hlive : (s.procs pid).Live)
    (hstate : state ≠ .unused) : s'.nextWoken pid state = s.nextWoken pid state := by
  have hchange : ∀ s : Sched, (s.procs pid).Live →
      SameWaiters s (s.modProc pid fun p => { p with state }) := fun s hlive =>
    modProc rfl rfl rfl ⟨fun _ => hlive, fun _ => hstate⟩
  have hlive' := (h.live pid).mpr hlive
  have hwaiter : (s'.modProc pid fun p => { p with state }).waiter pid =
      (s.modProc pid fun p => { p with state }).waiter pid := by
    refine waiter_eq ⟨h.threadState, h.threadPid, h.waitingForPid, h.waitingForFlags, h.threadCount,
      fun p => ?_, fun p => ?_, fun p => ?_, fun p => ?_⟩ ?_
    · rw [(hchange s' hlive').ppid, (hchange s hlive).ppid, h.ppid]
    · rw [(hchange s' hlive').pgid, (hchange s hlive).pgid, h.pgid]
    · rw [(hchange s' hlive').childWaitq, (hchange s hlive).childWaitq, h.childWaitq]
    · rw [(hchange s' hlive').live p, (hchange s hlive).live p, h.live p]
    · rw [procs_modProc, procs_modProc, if_pos rfl, if_pos rfl]
  rw [nextWoken, nextWoken, hwaiter]
  simp only [h.threadState]

/-- The chain is determined by what decides who is unblocked. -/
theorem chain {state : ProcState} (h : SameWaiters s s') (hs : Owned s)
    (hlive : (s.procs pid).Live) (hstate : state ≠ .unused) (hchain : Chain s' pid state l) :
    Chain s pid state l := by
  induction hchain with
  | nil hnone =>
    rw [h.nextWoken_eq hlive hstate] at hnone
    exact .nil hnone
  | @cons pid tid state l hsome hrest ih =>
    have hsome' := hsome
    rw [h.nextWoken_eq hlive hstate] at hsome'
    refine .cons hsome' ?_
    have hused : (s.threads tid).state ≠ .unused := by
      have hblocked := (Chain.cons hsome hrest).blocked mem_cons_self
      rw [h.threadState] at hblocked
      exact used_of_blocked hblocked
    rw [h.threadPid] at ih
    exact ih (hs.live tid hused).2 nofun

end SameWaiters

/-! ### What a notification does that comes to its end -/

/-- No counter of running threads is negative. -/
def Sane (s : Sched) : Prop := ∀ pid, (s.procs pid).Live → 0 ≤ (s.procs pid).counts.running

/-- The given threads have been unblocked, the counters are as far off as before, and where they
have changed the state of the process has been derived from them. -/
structure Notified (s s' : Sched) (l : List ℕ) : Prop where
  threads : ∀ tid, s'.threads tid =
    if tid ∈ l then { s.threads tid with state := .ready, blockedUntil := 0 } else s.threads tid
  off : ∀ pid k, s'.off pid k = s.off pid k
  state : ∀ pid, (s'.procs pid).state = (s'.procs pid).counts.state ∨
    (s'.procs pid).state = (s.procs pid).state ∧ (s'.procs pid).counts = (s.procs pid).counts

theorem Notified.refl (s : Sched) : Notified s s [] :=
  ⟨fun _ => by rw [if_neg not_mem_nil], fun _ _ => rfl, fun _ => .inr ⟨rfl, rfl⟩⟩

/-- The counters of a process have been moved before. -/
theorem Notified.state_of_change
    (h : Notified (s.modProc pid fun p => p.changeState old new) s' l) (pid' : ℕ) :
    (s'.procs pid').state = (s'.procs pid').counts.state ∨
      pid' ≠ pid ∧ (s'.procs pid').state = (s.procs pid').state ∧
        (s'.procs pid').counts = (s.procs pid').counts := by
  rcases h.state pid' with hstate | ⟨hstate, hcounts⟩
  · exact .inl hstate
  · rw [procs_modProc] at hstate hcounts
    split at hstate
    · rename_i heq
      rw [if_pos heq] at hcounts
      rw [hstate, hcounts]
      exact .inl rfl
    · rename_i hne
      rw [if_neg hne] at hcounts
      exact .inr ⟨hne, hstate, hcounts⟩

/-- Only flags of a process have been changed before. -/
theorem Notified.of_flags (hcounts : (f (s.procs pid)).counts = (s.procs pid).counts)
    (htids : (f (s.procs pid)).tids = (s.procs pid).tids)
    (hstate : (f (s.procs pid)).state = (s.procs pid).state)
    (h : Notified (s.modProc pid f) s' l) : Notified s s' l := by
  have hprocs : ∀ pid', ((s.modProc pid f).procs pid').counts = (s.procs pid').counts ∧
      ((s.modProc pid f).procs pid').tids = (s.procs pid').tids ∧
      ((s.modProc pid f).procs pid').state = (s.procs pid').state := by
    intro pid'
    rw [procs_modProc]
    split
    · rename_i heq
      rw [heq]
      exact ⟨hcounts, htids, hstate⟩
    · exact ⟨rfl, rfl, rfl⟩
  refine ⟨h.threads, fun pid' k => ?_, fun pid' => ?_⟩
  · rw [h.off]
    exact off_congr (hprocs pid').1 (hprocs pid').2.1 fun _ => rfl
  · have hstate' := h.state pid'
    rwa [(hprocs pid').1, (hprocs pid').2.2] at hstate'

theorem noteState_same {p : Process} : p.noteState.counts = p.counts ∧ p.noteState.tids = p.tids ∧
    p.noteState.state = p.state ∧ p.noteState.ppid = p.ppid ∧ p.noteState.pgid = p.pgid ∧
    p.noteState.childWaitq = p.childWaitq := by
  rw [Process.noteState]
  split <;> exact ⟨rfl, rfl, rfl, rfl, rfl, rfl⟩

theorem sameWaiters_noteState : SameWaiters s (s.modProc pid Process.noteState) :=
  .modProc noteState_same.2.2.2.1 noteState_same.2.2.2.2.1 noteState_same.2.2.2.2.2 live_noteState

theorem sameWaiters_changeState (hlive : (s.procs pid).Live) :
    SameWaiters s (s.modProc pid fun p => p.changeState old new) :=
  .modProc rfl rfl rfl ⟨fun _ => hlive, fun _ => live_changeState⟩

/-- What a returning `unblock` does to a thread that is blocked, and to no other. -/
structure UnblocksChain (unblock : ℕ → SchedM Unit) : Prop where
  chain : ∀ tid s s', Owned s → Sane s → (s.threads tid).state.Blocked →
    (unblock tid).eval s = (.ok (), s') →
    ∃ l, Chain s (s.threads tid).pid .running l ∧ Notified s s' (tid :: l)
  skip : ∀ tid s, ¬(s.threads tid).state.Blocked → (unblock tid).eval s = (.ok (), s)

theorem Sane.modProc (hsane : Sane s)
    (hpos : 0 ≤ (f (s.procs pid)).counts.running) : Sane (s.modProc pid f) := by
  intro pid' hlive'
  rw [procs_modProc] at hlive' ⊢
  split
  · exact hpos
  · rename_i hne
    rw [if_neg hne] at hlive'
    exact hsane pid' hlive'

/-- A process comes into a state, and its parent is told. -/
theorem sendSigchld_notified {unblock : ℕ → SchedM Unit} (hunblock : UnblocksChain unblock)
    (hs : Owned s) (hsane : Sane s) (hpid : s.HasProc pid)
    (hstate : (s.procs pid).state ≠ .blocked)
    (h : (sendSigchld unblock pid).eval s = (.ok (), s')) :
    ∃ l, Chain s pid (s.procs pid).state l ∧ Notified s s' l := by
  rw [sendSigchld, eval_get_bind, eval_ite, if_pos hpid, eval_modify_bind, eval_get_bind] at h
  have hnote : SameWaiters s (s.modProc pid Process.noteState) := sameWaiters_noteState
  have hflags : ∀ {l}, Notified (s.modProc pid Process.noteState) s' l → Notified s s' l :=
    .of_flags noteState_same.1 noteState_same.2.1 noteState_same.2.2.1
  -- who is told does not depend on the flag
  have hwaiter : (s.modProc pid Process.noteState).waiter pid = s.waiter pid := by
    refine hnote.waiter_eq ?_
    rw [procs_modProc, if_pos rfl, noteState_same.2.2.1]
  have hself : SameWaiters s (s.modProc pid fun p => { p with state := (s.procs pid).state }) :=
    .modProc rfl rfl rfl .rfl
  have hnext : s.nextWoken pid (s.procs pid).state = (s.waiter pid).filter fun tid =>
      (s.threads tid).state.Blocked := by
    rw [nextWoken, if_neg hstate, hself.waiter_eq (by rw [procs_modProc, if_pos rfl])]
  have howned : Owned (s.modProc pid Process.noteState) :=
    owned_modProc hs noteState_same.2.1 fun _ => live_noteState.mpr
  rw [hwaiter] at h
  cases hw : s.waiter pid with
  | none =>
    rw [hw] at h
    cases h
    rw [hw] at hnext
    exact ⟨[], .nil hnext, hflags (.refl _)⟩
  | some tid =>
    rw [hw] at h hnext
    by_cases hblocked : (s.threads tid).state.Blocked
    · have hsane' : Sane (s.modProc pid Process.noteState) :=
        hsane.modProc (by rw [noteState_same.1]; exact hsane pid hpid.2)
      obtain ⟨l, hchain, hnotified⟩ := hunblock.chain tid _ s' howned hsane' hblocked h
      have hused := used_of_blocked hblocked
      refine ⟨tid :: l, .cons ?_ (hnote.chain hs (hs.live tid hused).2 (by decide) hchain),
        hflags hnotified⟩
      rw [hnext, filter_some, if_pos (decide_eq_true hblocked)]
    · have hskip := hunblock.skip tid (s.modProc pid Process.noteState) hblocked
      rw [hskip] at h
      cases h
      rw [filter_some, if_neg (by rwa [decide_eq_true_eq])] at hnext
      exact ⟨[], .nil hnext, hflags (.refl _)⟩

/-- A thread of a process changes its state: the counters are moved, and the parent is told. -/
theorem changeState_notified {unblock : ℕ → SchedM Unit} (hunblock : UnblocksChain unblock)
    (hs : Owned s) (hpid : s.HasProc pid)
    (hsane : Sane (s.modProc pid fun p => p.changeState old new))
    (h : (changeState unblock pid old new).eval s = (.ok (), s')) :
    ∃ l, Chain (s.modProc pid fun p => p.changeState old new) pid
        ((s.procs pid).changeState old new).state l ∧
      Notified (s.modProc pid fun p => p.changeState old new) s' l := by
  rw [changeState, eval_modify_bind, eval_get_bind] at h
  have hprocs : (s.modProc pid fun p => p.changeState old new).procs pid =
      (s.procs pid).changeState old new := by
    rw [procs_modProc, if_pos rfl]
  rw [eval_ite, hprocs] at h
  split at h
  · rename_i hblocked
    cases h
    refine ⟨[], .nil ?_, .refl _⟩
    rw [nextWoken, if_pos hblocked]
  · rename_i hblocked
    have hchange : SameWaiters s (s.modProc pid fun p => p.changeState old new) :=
      sameWaiters_changeState hpid.2
    have howned : Owned (s.modProc pid fun p => p.changeState old new) :=
      owned_modProc hs rfl fun _ _ => live_changeState
    have hnotified := sendSigchld_notified hunblock howned hsane
      (hchange.live.hasProc_iff.mpr hpid) (by rwa [hprocs]) h
    rwa [hprocs] at hnotified

/-- The counters do not become negative when there is a thread to take off. -/
theorem running_changeState_nonneg {p : Process} (hold : old.ofKind .running ≤ p.counts.running) :
    0 ≤ (p.changeState old new).counts.running := by
  have hnew : 0 ≤ new.ofKind .running := by
    rw [ThreadState.ofKind]
    split <;> decide
  have hget : (p.changeState old new).counts.get .running =
      p.counts.get .running + (-1) * old.ofKind .running + 1 * new.ofKind .running := by
    rw [Process.changeState, ThreadCounts.get_add, ThreadCounts.get_add]
  simp only [ThreadCounts.get] at hget
  omega

/-- A thread that is unblocked makes its process one that runs. -/
theorem Sane.changeState_ready {a : ThreadState} (hsane : Sane s) (hlive : (s.procs pid).Live)
    (ha : a.Blocked) :
    Sane (s.modProc pid fun p => p.changeState a .ready) ∧
      ((s.procs pid).changeState a .ready).state = .running := by
  have hcount : ((s.procs pid).changeState a .ready).counts.running =
      (s.procs pid).counts.running + 1 := by
    cases a <;> first | exact ha.elim | rfl
  have hpos : 0 < ((s.procs pid).changeState a .ready).counts.running := by
    have := hsane pid hlive
    omega
  refine ⟨hsane.modProc (Int.le_of_lt hpos), ?_⟩
  exact if_pos hpos

/-- A thread that is unblocked, and the chain that this sets off. -/
theorem unblockThread_chain (depth : ℕ) : UnblocksChain (unblockThread depth) := by
  induction depth with
  | zero =>
    refine ⟨fun tid s s' _ _ hblocked h => ?_, fun tid s hblocked => ?_⟩
    · rw [unblockThread, eval_get_bind, eval_ite, if_pos hblocked] at h
      cases h
    · exact unblockThread_idle hblocked
  | succ depth ih =>
    refine ⟨fun tid s s' hs hsane hblocked h => ?_, fun tid s hblocked => ?_⟩
    · rw [unblockThread, eval_get_bind, eval_ite, if_pos hblocked] at h
      obtain ⟨_, s₁, hchange, h⟩ := eval_bind_eq_ok.mp h
      cases h
      have hused := used_of_blocked hblocked
      have hpid := hs.live tid hused
      obtain ⟨hsane', hrunning⟩ := hsane.changeState_ready hpid.2 hblocked
      obtain ⟨l, hchain, hnotified⟩ := changeState_notified ih hs hpid hsane' hchange
      rw [hrunning] at hchain
      have hchain' : Chain s (s.threads tid).pid .running l :=
        (sameWaiters_changeState hpid.2).chain hs hpid.2 (by decide) hchain
      -- the thread is still blocked when the chain has come to its end
      have hself : s₁.threads tid = s.threads tid := by
        rw [hnotified.threads, if_neg hchain'.not_mem]
        rfl
      have howned : Owned s₁ := by
        have hquiet : Post (pcbThreadChangeState depth _ _ _) s _ :=
          pcbThreadChangeState_quiet hs hpid.2 (s.threads tid).state .ready
        unfold Post at hquiet
        rw [pcbThreadChangeState, hchange] at hquiet
        exact hquiet.owned hs
      refine ⟨l, hchain', fun tid' => ?_, fun pid k => ?_, fun pid => ?_⟩
      · rw [threads_addThreadLocked, threads_modThread]
        split
        · rename_i heq
          rw [heq, if_pos mem_cons_self, hself]
        · rename_i hne
          rw [hnotified.threads]
          have hmem : tid' ∈ tid :: l ↔ tid' ∈ l :=
            ⟨fun h => (mem_cons.mp h).resolve_left hne, mem_cons_of_mem _⟩
          simp only [hmem]
          rfl
      · have hready : ((s₁.modThread tid fun t =>
            { t with state := .ready, blockedUntil := 0 }).addThreadLocked tid).off pid k =
            (s₁.modThread tid fun t => { t with state := .ready, blockedUntil := 0 }).off pid k :=
          off_congr (by rw [procs_addThreadLocked]) (by rw [procs_addThreadLocked])
            fun _ => by rw [threads_addThreadLocked]
        rw [hready, off_modThread howned (by rwa [hself]), hself, hnotified.off, off_changeState]
        dsimp only
        split <;> omega
      · rw [procs_addThreadLocked, procs_modThread]
        exact (hnotified.state_of_change pid).imp_right And.right
    · exact unblockThread_idle hblocked

/-- What `pcb_thread_change_state` does when it returns. -/
structure Changed (pid : ℕ) (old new : ThreadState) (l : List ℕ) (s s' : Sched) : Prop where
  quiet : Quiet s s'
  threads : ∀ tid, s'.threads tid =
    if tid ∈ l then { s.threads tid with state := .ready, blockedUntil := 0 } else s.threads tid
  off : ∀ pid' k, s'.off pid' k =
    s.off pid' k + if pid' = pid then new.ofKind k - old.ofKind k else 0
  state : ∀ pid', (s'.procs pid').state = (s'.procs pid').counts.state ∨
    pid' ≠ pid ∧ (s'.procs pid').state = (s.procs pid').state ∧
      (s'.procs pid').counts = (s.procs pid').counts

theorem pcbThreadChangeState_changed (hs : Owned s) (hpid : s.HasProc pid)
    (hsane : Sane (s.modProc pid fun p => p.changeState old new))
    (h : (pcbThreadChangeState depth pid old new).eval s = (.ok (), s')) :
    ∃ l, Chain (s.modProc pid fun p => p.changeState old new) pid
        ((s.procs pid).changeState old new).state l ∧ Changed pid old new l s s' := by
  have hquiet : Post (pcbThreadChangeState depth _ _ _) s _ :=
    pcbThreadChangeState_quiet hs hpid.2 old new
  unfold Post at hquiet
  rw [h] at hquiet
  obtain ⟨l, hchain, hnotified⟩ :=
    changeState_notified (unblockThread_chain depth) hs hpid hsane h
  refine ⟨l, hchain, hquiet, hnotified.threads, fun pid' k => ?_, fun pid' => ?_⟩
  · rw [hnotified.off, off_changeState]
  · exact hnotified.state_of_change pid'

/-! ### The invariant -/

/-- The counters of every process are the numbers of its threads by kind and, for all but some
processes, the state of a process is derived from them. -/
structure BalancedBut (out : ℕ → Prop) (s : Sched) : Prop where
  owned : Owned s
  off : ∀ pid, (s.procs pid).Live → ∀ k, s.off pid k = 0
  state : ∀ pid, (s.procs pid).Live → ¬out pid → (s.procs pid).state = (s.procs pid).counts.state
  free : ∀ tid, (s.threads tid).state ≠ .unused → (s.threads tid).Free

/-- The counters and the states of all processes are right. -/
abbrev Balanced (s : Sched) : Prop := BalancedBut (fun _ => False) s

theorem balanced_zero : Balanced Sched.zero :=
  ⟨owned_zero, fun _ h => absurd rfl h, fun _ h => absurd rfl h, fun _ h => absurd rfl h⟩

theorem ofKind_le_tally (hs : Owned s) (hused : (s.threads tid).state ≠ .unused) :
    (s.threads tid).state.ofKind k ≤ s.tally (s.threads tid).pid k := by
  rw [ThreadState.ofKind]
  split
  · rename_i hkind
    have hpos : 0 < s.tally (s.threads tid).pid k :=
      countP_pos_iff.mpr ⟨tid, hs.listed tid hused, decide_eq_true hkind⟩
    omega
  · omega

section Balanced

variable {out : ℕ → Prop}

theorem BalancedBut.running_eq (h : BalancedBut out s) (hlive : (s.procs pid).Live) :
    (s.procs pid).counts.running = s.tally pid .running := by
  have hoff := h.off pid hlive .running
  exact Int.eq_of_sub_eq_zero hoff

theorem BalancedBut.sane (h : BalancedBut out s) : Sane s := fun pid hlive => by
  rw [h.running_eq hlive]
  exact Int.natCast_nonneg _

theorem BalancedBut.sane_changeState (h : BalancedBut out s) (hlive : (s.procs pid).Live)
    (hold : old.ofKind .running ≤ s.tally pid .running) :
    Sane (s.modProc pid fun p => p.changeState old new) :=
  h.sane.modProc (running_changeState_nonneg (by rwa [h.running_eq hlive]))

theorem Changed.free (h : Changed pid old new l s s') (hfree : (s.threads tid).Free) :
    (s'.threads tid).Free := by
  rw [h.threads]
  split <;> exact ⟨hfree.resumes, hfree.unawaited⟩

/-- A thread of a process has moved from one counter to another, and its state is assigned. -/
theorem Changed.balanced {f : Thread → Thread} (hs : BalancedBut (· = pid) s)
    (h : Changed pid old new l s s') (hpid : pid = (s.threads tid).pid)
    (hold : (s.threads tid).state = old) (hused : old ≠ .unused) (hself : tid ∉ l)
    (hnew : (f (s.threads tid)).state = new) (hnew' : new ≠ .unused)
    (hfpid : (f (s.threads tid)).pid = (s.threads tid).pid)
    (hfree : (f (s.threads tid)).Free) :
    Balanced (s'.modThread tid f) := by
  have hthread : s'.threads tid = s.threads tid := by rw [h.threads, if_neg hself]
  have hused' : (s'.threads tid).state ≠ .unused := by rwa [hthread, hold]
  have howned := h.quiet.owned hs.owned
  have hset : Quiet s' (s'.modThread tid f) := by
    refine .modThread ⟨fun h => ?_, fun h => absurd h hused'⟩ (by rw [hthread, hfpid])
    rw [hthread, hnew] at h
    exact absurd h hnew'
  refine ⟨hset.owned howned, fun pid' hlive k => ?_, fun pid' hlive _ => ?_, fun tid' hused'' => ?_⟩
  · rw [off_modThread howned hused', h.off, hthread, hold, hnew, ← hpid,
      hs.off pid' ((h.quiet.family.live pid').mp hlive)]
    omega
  · have hlive' := (h.quiet.family.live pid').mp hlive
    rw [procs_modThread]
    rcases h.state pid' with hstate | ⟨hne, hstate, hcounts⟩
    · exact hstate
    · rw [hstate, hcounts]
      exact hs.state pid' hlive' hne
  · rw [threads_modThread] at hused'' ⊢
    split
    · rw [hthread]
      exact hfree
    · rename_i hne
      rw [if_neg hne, ne_eq, h.quiet.owners.unused] at hused''
      exact h.free (hs.free tid' hused'')

theorem BalancedBut.weaken (h : Balanced s) : BalancedBut out s :=
  ⟨h.owned, h.off, fun pid hlive _ => h.state pid hlive not_false, h.free⟩

/-- The threads count as before, and so do the processes that are live. -/
theorem BalancedBut.congr (h : BalancedBut out s) (howned : Owned s')
    (hkind : ∀ tid, (s'.threads tid).state.kind = (s.threads tid).state.kind)
    (hprocs : ∀ pid, (s'.procs pid).Live → (s'.procs pid).tids = (s.procs pid).tids ∧
      (s'.procs pid).counts = (s.procs pid).counts ∧ (s'.procs pid).state = (s.procs pid).state)
    (hfree : ∀ tid, (s'.threads tid).state ≠ .unused → (s'.threads tid).Free) :
    BalancedBut out s' := by
  refine ⟨howned, fun pid hlive k => ?_, fun pid hlive hout => ?_, hfree⟩
  all_goals
    obtain ⟨htids, hcounts, hstate⟩ := hprocs pid hlive
    rw [Process.Live, hstate] at hlive
  · rw [off_congr hcounts htids hkind]
    exact h.off pid hlive k
  · rw [hstate, hcounts]
    exact h.state pid hlive hout

theorem BalancedBut.of_ticked (h : BalancedBut out s) (ht : Ticked s s') : BalancedBut out s' := by
  have hquiet := Quiet.of_ticked ht
  have hkind : ∀ tid, (s'.threads tid).state.kind = (s.threads tid).state.kind := by
    have hrunnable : ∀ {a : ThreadState}, Runnable a → a.kind = some .running := by
      rintro a (rfl | rfl) <;> rfl
    intro tid
    rcases ht.threads tid with heq | ⟨hold, a, hnew, heq⟩
    · rw [heq]
    · rw [heq, hrunnable hold, hrunnable hnew]
  refine h.congr (hquiet.owned h.owned) hkind (fun pid _ => by simp [ht.procs]) fun tid hused => ?_
  rw [ne_eq, hquiet.owners.unused] at hused
  have hfree := h.free tid hused
  rcases ht.threads tid with heq | ⟨-, a, -, heq⟩ <;> rw [heq] <;>
    exact ⟨hfree.resumes, hfree.unawaited⟩

/-- A thread has been unblocked. -/
theorem unblockThread_balanced (h : Balanced s)
    (hunblock : (unblockThread depth tid).eval s = (.ok (), s')) : Balanced s' := by
  by_cases hblocked : (s.threads tid).state.Blocked
  · obtain ⟨l, -, hnotified⟩ :=
      (unblockThread_chain depth).chain tid s s' h.owned h.sane hblocked hunblock
    have hquiet : Post (unblockThread depth tid) s _ := unblockThread_quiet h.owned
    unfold Post at hquiet
    rw [hunblock] at hquiet
    refine ⟨hquiet.owned h.owned, fun pid hlive k => ?_, fun pid hlive _ => ?_,
      fun tid' hused => ?_⟩
    · rw [hnotified.off]
      exact h.off pid ((hquiet.family.live pid).mp hlive) k
    · rcases hnotified.state pid with hstate | ⟨hstate, hcounts⟩
      · exact hstate
      · rw [hstate, hcounts]
        exact h.state pid ((hquiet.family.live pid).mp hlive) not_false
    · rw [ne_eq, hquiet.owners.unused] at hused
      rw [hnotified.threads]
      have hfree := h.free tid' hused
      split <;> exact ⟨hfree.resumes, hfree.unawaited⟩
  · rw [(unblockThread_chain depth).skip tid s hblocked] at hunblock
    cases hunblock
    exact h

end Balanced

end Sched

end OsPi
