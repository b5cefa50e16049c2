import OsPi.Sched.Processes

/-!
# Threads and Their Processes

The table of threads and the table of processes are kept apart, and they have to agree: a thread
that is in use belongs to a process that is in use, and the process lists it. `Owned` is this
agreement. The functions that change the states of threads keep it, and they leave alone which
processes there are, whose children they are and what groups they are in.

A process must be in use when `pcb_thread_change_state` is called for it: the function assigns the
state of the process, and would bring back one that is not.
-/

namespace OsPi

open Comp List

namespace Sched

variable {s s' s'' : Sched} {tid pid cpu depth : ℕ} {who : ℕ → Prop} {f : Process → Process}

/-! ### Calls that return -/

/-- If the call returns, its result and the state have the property. -/
def Returned {α : Type} (Q : α → Sched → Prop) : Except Leave α → Sched → Prop
  | .ok a, s => Q a s
  | .error _, _ => True

theorem returned_bind {α β : Type} {m : SchedM α} {f : α → SchedM β} {R : α → Sched → Prop}
    {Q : β → Sched → Prop} (h : Post m s (Returned R))
    (hf : ∀ a s', R a s' → Post (f a) s' (Returned Q)) :
    Post (m >>= f) s (Returned Q) :=
  h.bind (fun _ _ _ => trivial) hf

theorem returned_of_post {α : Type} {m : SchedM α} {Q : Except Leave α → Sched → Prop}
    {R : α → Sched → Prop} (h : Post m s Q) (hQ : ∀ a s', Q (.ok a) s' → R a s') :
    Post m s (Returned R) := by
  refine h.mono fun r s' hr => ?_
  cases r with
  | error e => trivial
  | ok a => exact hQ a s' hr

/-! ### The invariant -/

/-- The tables of threads and processes agree. -/
structure Owned (s : Sched) : Prop where
  /-- Threads in use are in the table. -/
  bound : ∀ tid, (s.threads tid).state ≠ .unused → tid < s.threadCount
  /-- The process of a thread is in use. -/
  live : ∀ tid, (s.threads tid).state ≠ .unused → s.HasProc (s.threads tid).pid
  /-- A process lists its threads. -/
  listed : ∀ tid, (s.threads tid).state ≠ .unused → tid ∈ (s.procs (s.threads tid).pid).tids
  /-- A process lists nothing else. -/
  used : ∀ pid, ∀ tid ∈ (s.procs pid).tids,
    (s.threads tid).state ≠ .unused ∧ (s.threads tid).pid = pid
  /-- A process lists a thread once. -/
  nodup : ∀ pid, (s.procs pid).tids.Nodup

theorem owned_zero : Owned Sched.zero :=
  ⟨fun _ h => absurd rfl h, fun _ h => absurd rfl h, fun _ h => absurd rfl h,
    fun _ _ h => (not_mem_nil h).elim, fun _ => nodup_nil⟩

theorem Owned.hasThread_iff (h : Owned s) : s.HasThread tid ↔ (s.threads tid).state ≠ .unused :=
  ⟨And.right, fun hu => ⟨h.bound tid hu, hu⟩⟩

/-- A process that is not in use has no threads. -/
theorem Owned.tids_eq_nil (h : Owned s) (hdead : ¬(s.procs pid).Live) : (s.procs pid).tids = [] := by
  refine eq_nil_iff_forall_not_mem.mpr fun tid htid => ?_
  obtain ⟨hu, hpid⟩ := h.used pid tid htid
  have hlive := (h.live tid hu).2
  rw [hpid] at hlive
  exact hdead hlive

/-- The same processes are in use. -/
def SameLive (s s' : Sched) : Prop := ∀ pid, (s'.procs pid).Live ↔ (s.procs pid).Live

theorem SameLive.refl (s : Sched) : SameLive s s := fun _ => .rfl

theorem SameLive.trans (h : SameLive s s') (h' : SameLive s' s'') : SameLive s s'' :=
  fun pid => (h' pid).trans (h pid)

theorem SameLive.hasProc_iff (h : SameLive s s') : s'.HasProc pid ↔ s.HasProc pid :=
  and_congr_right fun _ => h pid

theorem SameLive.modProc
    (hf : (f (s.procs pid)).Live ↔ (s.procs pid).Live) : SameLive s (s.modProc pid f) :=
  fun pid' => iff_of_eq (modProc_congr Process.Live (propext hf) pid')

/-- The same processes are in use, in the same families and groups. -/
structure SameFamily (s s' : Sched) : Prop where
  live : SameLive s s'
  ppid : ∀ pid, (s'.procs pid).ppid = (s.procs pid).ppid
  children : ∀ pid, (s'.procs pid).children = (s.procs pid).children
  pgid : ∀ pid, (s'.procs pid).pgid = (s.procs pid).pgid
  pgrps : s'.pgrps = s.pgrps

namespace SameFamily

theorem refl (s : Sched) : SameFamily s s :=
  ⟨.refl s, fun _ => rfl, fun _ => rfl, fun _ => rfl, rfl⟩

theorem trans (h : SameFamily s s') (h' : SameFamily s' s'') : SameFamily s s'' :=
  ⟨h.live.trans h'.live, fun pid => (h'.ppid pid).trans (h.ppid pid),
    fun pid => (h'.children pid).trans (h.children pid),
    fun pid => (h'.pgid pid).trans (h.pgid pid), h'.pgrps.trans h.pgrps⟩

theorem of_procs (h : s'.procs = s.procs) (hpgrps : s'.pgrps = s.pgrps) : SameFamily s s' := by
  refine ⟨fun pid => ?_, fun pid => ?_, fun pid => ?_, fun pid => ?_, hpgrps⟩ <;> rw [h]

/-- A change of one process that leaves its family and its group. -/
theorem modProc (hlive : (f (s.procs pid)).Live ↔ (s.procs pid).Live)
    (hppid : (f (s.procs pid)).ppid = (s.procs pid).ppid)
    (hchildren : (f (s.procs pid)).children = (s.procs pid).children)
    (hpgid : (f (s.procs pid)).pgid = (s.procs pid).pgid) : SameFamily s (s.modProc pid f) :=
  ⟨.modProc hlive, modProc_congr Process.ppid hppid, modProc_congr Process.children hchildren,
    modProc_congr Process.pgid hpgid, rfl⟩

theorem of_woken (h : Woken who s s') (hlive : SameLive s s') : SameFamily s s' :=
  ⟨hlive, fun pid => by rw [h.procs pid], fun pid => by rw [h.procs pid],
    fun pid => by rw [h.procs pid], h.pgrps⟩

end SameFamily

/-- Threads stay in use, or out of use, in the processes they belong to. -/
structure SameOwners (s s' : Sched) : Prop where
  unused : ∀ tid, (s'.threads tid).state = .unused ↔ (s.threads tid).state = .unused
  pid : ∀ tid, (s'.threads tid).pid = (s.threads tid).pid
  tids : ∀ pid, (s'.procs pid).tids = (s.procs pid).tids
  threadCount : s'.threadCount = s.threadCount
  live : SameLive s s'

theorem SameOwners.trans (h : SameOwners s s') (h' : SameOwners s' s'') : SameOwners s s'' :=
  ⟨fun tid => (h'.unused tid).trans (h.unused tid), fun tid => (h'.pid tid).trans (h.pid tid),
    fun pid => (h'.tids pid).trans (h.tids pid), h'.threadCount.trans h.threadCount,
    h.live.trans h'.live⟩

theorem Owned.of_same (h : Owned s) (hsame : SameOwners s s') : Owned s' where
  bound tid hu := by
    rw [ne_eq, hsame.unused] at hu
    rw [hsame.threadCount]
    exact h.bound tid hu
  live tid hu := by
    rw [ne_eq, hsame.unused] at hu
    rw [hsame.pid, hsame.live.hasProc_iff]
    exact h.live tid hu
  listed tid hu := by
    rw [ne_eq, hsame.unused] at hu
    rw [hsame.pid, hsame.tids]
    exact h.listed tid hu
  used pid tid htid := by
    rw [hsame.tids] at htid
    rw [ne_eq, hsame.unused, hsame.pid]
    exact h.used pid tid htid
  nodup pid := by
    rw [hsame.tids]
    exact h.nodup pid

theorem SameOwners.of_woken (h : Woken who s s') (hlive : SameLive s s') : SameOwners s s' where
  unused tid := h.state_iff tid (by decide) (by decide)
  pid tid := by
    rcases h.threads tid with heq | ⟨-, -, heq⟩ <;> rw [heq]
  tids pid := by rw [h.procs pid]
  threadCount := h.threadCount
  live := hlive

/-- A change of one thread that is in use and stays so. -/
theorem SameOwners.modThread {f : Thread → Thread}
    (hunused : (f (s.threads tid)).state = .unused ↔ (s.threads tid).state = .unused)
    (hpid : (f (s.threads tid)).pid = (s.threads tid).pid) :
    SameOwners s (s.modThread tid f) :=
  ⟨fun tid' => iff_of_eq (modThread_congr (·.state = .unused) (propext hunused) tid'),
    modThread_congr Thread.pid hpid, fun _ => rfl, rfl, .refl s⟩

/-! ### Notifications -/

/-- The counters of a process never make it one that is not in use. -/
theorem live_changeState {p : Process} {old new : ThreadState} : (p.changeState old new).Live := by
  rw [Process.Live, Process.changeState]
  rw [ThreadCounts.state]
  split
  · nofun
  · split
    · nofun
    · split <;> nofun

theorem live_noteState {p : Process} : p.noteState.Live ↔ p.Live := by
  rw [Process.Live, Process.Live, Process.noteState]
  split <;> rfl

/-- What `unblock` leaves as it is when the tables agree. -/
def KeepsLive (unblock : ℕ → SchedM Unit) : Prop :=
  ∀ tid s, Owned s → SameLive s ((unblock tid).eval s).2

theorem sendSigchld_live {unblock : ℕ → SchedM Unit} (hunblock : KeepsLive unblock) (hs : Owned s) :
    SameLive s ((sendSigchld unblock pid).eval s).2 := by
  rw [sendSigchld, eval_get_bind, eval_ite]
  split
  · rw [eval_modify_bind, eval_get_bind]
    have hnote : SameLive s (s.modProc pid Process.noteState) := .modProc live_noteState
    cases hw : (s.modProc pid Process.noteState).waiter pid with
    | none => exact hnote
    | some tid =>
      have hwoken : Woken s.Awaits s (s.modProc pid Process.noteState) := .noteState
      exact hnote.trans (hunblock tid _ (hs.of_same (.of_woken hwoken hnote)))
  · exact .refl s

theorem changeState_live {unblock : ℕ → SchedM Unit} (hunblock : KeepsLive unblock) (hs : Owned s)
    (hpid : (s.procs pid).Live) (old new : ThreadState) :
    SameLive s ((changeState unblock pid old new).eval s).2 := by
  rw [changeState, eval_modify_bind, eval_get_bind]
  have hchange : SameLive s (s.modProc pid fun p => p.changeState old new) :=
    .modProc ⟨fun _ => hpid, fun _ => live_changeState⟩
  have hwoken : Woken s.Awaits s (s.modProc pid fun p => p.changeState old new) := .changeState
  split
  · exact hchange
  · exact hchange.trans (sendSigchld_live hunblock (hs.of_same (.of_woken hwoken hchange)))

theorem unblockThread_live (depth : ℕ) : KeepsLive (unblockThread depth) := by
  induction depth with
  | zero =>
    intro tid s _
    rw [unblockThread, eval_get_bind, eval_ite]
    split <;> exact .refl s
  | succ depth ih =>
    intro tid s hs
    rw [unblockThread, eval_get_bind, eval_ite]
    split
    · rename_i hblocked
      -- a thread that is blocked is in use, and so is its process
      have hused := used_of_blocked hblocked
      have hchange := changeState_live ih hs (hs.live tid hused).2 (s.threads tid).state .ready
      rw [eval_bind]
      rcases hres : (changeState (unblockThread depth) (s.threads tid).pid
        (s.threads tid).state .ready).eval s with ⟨⟨e⟩ | ⟨u⟩, s'⟩ <;> rw [hres] at hchange
      · exact hchange
      · refine hchange.trans fun pid => ?_
        dsimp only
        rw [eval_modify_bind, eval_modify, procs_addThreadLocked, procs_modThread]
    · exact .refl s

/-- No thread and no process comes or goes. -/
structure Quiet (s s' : Sched) : Prop where
  owners : SameOwners s s'
  family : SameFamily s s'

namespace Quiet

theorem refl (s : Sched) : Quiet s s :=
  ⟨⟨fun _ => .rfl, fun _ => rfl, fun _ => rfl, rfl, .refl s⟩, .refl s⟩

theorem trans (h : Quiet s s') (h' : Quiet s' s'') : Quiet s s'' :=
  ⟨h.owners.trans h'.owners, h.family.trans h'.family⟩

theorem owned (h : Quiet s s') (hs : Owned s) : Owned s' := hs.of_same h.owners

theorem of_woken (h : Woken who s s') (hlive : SameLive s s') : Quiet s s' :=
  ⟨.of_woken h hlive, .of_woken h hlive⟩

theorem of_ticked (h : Ticked s s') : Quiet s s' where
  owners :=
    { unused := fun tid => by
        have hnot : ∀ {a : ThreadState}, Runnable a → a ≠ .unused := by
          rintro a (rfl | rfl) <;> nofun
        rcases h.threads tid with heq | ⟨hold, a, hnew, heq⟩
        · rw [heq]
        · rw [heq]
          exact ⟨fun ha => absurd ha (hnot hnew), fun ha => absurd ha (hnot hold)⟩
      pid := fun tid => by
        rcases h.threads tid with heq | ⟨-, a, -, heq⟩ <;> rw [heq]
      tids := fun pid => by rw [h.procs]
      threadCount := h.threadCount
      live := fun pid => by rw [h.procs] }
  family := .of_procs h.procs h.pgrps

/-- A change of one thread that leaves it in use, or out of use. -/
theorem modThread {f : Thread → Thread}
    (hunused : (f (s.threads tid)).state = .unused ↔ (s.threads tid).state = .unused)
    (hpid : (f (s.threads tid)).pid = (s.threads tid).pid) : Quiet s (s.modThread tid f) :=
  ⟨.modThread hunused hpid, .of_procs rfl rfl⟩

theorem setState {a : ThreadState} (hused : (s.threads tid).state ≠ .unused) (ha : a ≠ .unused) :
    Quiet s (s.setState tid a) :=
  modThread ⟨fun h => absurd h ha, fun h => absurd h hused⟩ rfl

/-- A change of a process that leaves its threads, its family and its group. -/
theorem modProc (htids : (f (s.procs pid)).tids = (s.procs pid).tids)
    (hfamily : SameFamily s (s.modProc pid f)) : Quiet s (s.modProc pid f) where
  owners :=
    { unused := fun _ => .rfl
      pid := fun _ => rfl
      tids := modProc_congr Process.tids htids
      threadCount := rfl
      live := hfamily.live }
  family := hfamily

end Quiet

theorem pcbThreadChangeState_quiet (hs : Owned s) (hpid : (s.procs pid).Live)
    (old new : ThreadState) :
    Post (pcbThreadChangeState depth pid old new) s fun _ s' => Quiet s s' :=
  .of_woken (pcbThreadChangeState_woken depth s pid old new)
    (changeState_live (unblockThread_live depth) hs hpid old new)

theorem unblockThread_quiet (hs : Owned s) :
    Post (unblockThread depth tid) s fun _ s' => Quiet s s' :=
  .of_woken (unblockThread_woken depth tid s) (unblockThread_live depth tid s hs)

/-! ### The calls that change the states of threads -/

theorem yieldIfCurrent_quiet : Post (yieldIfCurrent cpu tid) s fun _ s' => Quiet s s' :=
  .get_bind (.ite (fun _ => .of_ticked ticked_schedulerTick) fun _ => .refl s)

/-- A thread that is in use changes its state and stays in use. -/
theorem enterState_quiet {new : ThreadState} (hs : Owned s)
    (hused : (s.threads tid).state ≠ .unused) (hnew : new ≠ .unused) :
    Post (enterState depth cpu tid new) s fun _ s' => Quiet s s' := by
  refine .get_bind (.seq (pcbThreadChangeState_quiet hs (hs.live tid hused).2 _ _)
    fun _ s₁ hs₁ => .modify_bind ?_)
  have hset : Quiet s₁ (s₁.setState tid new) := by
    refine .setState ?_ hnew
    rwa [ne_eq, hs₁.owners.unused]
  exact yieldIfCurrent_quiet.mono fun _ _ h => (hs₁.trans hset).trans h

theorem terminateThread_quiet (hs : Owned s) (hused : (s.threads tid).state ≠ .unused) :
    Post (terminateThread depth cpu tid) s fun _ s' => Quiet s s' :=
  .get_bind (.ite (fun _ => .refl s) fun _ => enterState_quiet hs hused (by decide))

theorem blockThread_quiet {blocked : ThreadState} (hs : Owned s)
    (hused : (s.threads tid).state ≠ .unused) :
    Post (blockThread depth cpu tid blocked) s fun _ s' => Quiet s s' := by
  refine .ite (fun hblocked => enterState_quiet hs hused ?_) fun _ => .refl s
  rintro rfl
  exact hblocked

theorem sendUnblockEvent_quiet {event : BitVec 32} (hs : Owned s) :
    Post (sendUnblockEvent depth tid event) s fun _ s' => Quiet s s' :=
  .get_bind (.ite (fun _ => .seq (unblockThread_quiet hs) fun _ _ h => h) fun _ => .refl s)

theorem terminateOthers_quiet {curr : ℕ} {tids : List ℕ} (hs : Owned s) :
    Post (terminateOthers depth cpu curr tids) s fun _ s' => Quiet s s' := by
  induction tids generalizing s with
  | nil => exact .refl s
  | cons tid rest ih =>
    refine .get_bind (.ite (fun hother => ?_) fun _ => ih hs)
    refine .seq (terminateThread_quiet hs hother.1.2) fun _ s₁ h₁ => ?_
    exact (ih (h₁.owned hs)).mono fun _ _ h => h₁.trans h

theorem exitProcess_quiet {code : BitVec 32} (hs : Owned s)
    (hused : (s.threads tid).state ≠ .unused) :
    Post (exitProcess depth cpu tid code) s fun _ s' => Quiet s s' := by
  refine .get_bind (.modify_bind ?_)
  have hcode : Quiet s (s.modProc (s.threads tid).pid fun p => { p with exitCode := code }) :=
    .modProc rfl (.modProc .rfl rfl rfl rfl)
  refine .seq ((terminateOthers_quiet (hcode.owned hs)).mono fun _ _ h => hcode.trans h)
    fun _ s₁ h₁ => ?_
  refine (terminateThread_quiet (h₁.owned hs) ?_).mono fun _ _ h => h₁.trans h
  rwa [ne_eq, h₁.owners.unused]

/-! ### Threads that come and go -/

/-- The tables agree, and the processes and their families are those of the given state. -/
structure Settled (s₀ s : Sched) : Prop where
  owned : Owned s
  family : SameFamily s₀ s

theorem Settled.refl (hs : Owned s) : Settled s s := ⟨hs, .refl s⟩

theorem Settled.trans (h : Settled s s') (h' : Settled s' s'') : Settled s s'' :=
  ⟨h'.owned, h.family.trans h'.family⟩

theorem Quiet.settled (h : Quiet s s') (hs : Owned s) : Settled s s' := ⟨h.owned hs, h.family⟩

/-- The number of a new thread is not in use. -/
theorem unusedTid_unused (hs : Owned s) : (s.threads s.unusedTid).state = .unused := by
  rw [unusedTid]
  cases hfind : (List.range s.threadCount).find? fun tid => (s.threads tid).state = .unused with
  | some tid =>
    have hunused := find?_some hfind
    exact of_decide_eq_true hunused
  | none =>
    by_contra hused
    exact absurd (hs.bound _ hused) (Nat.lt_irrefl _)

theorem addThread_settled (hs : Owned s) (hpid : s.HasProc pid) :
    Settled s (s.addThread pid) := by
  have hunused := unusedTid_unused hs
  have hnew : SameFamily s { s.modThread s.unusedTid fun _ => Thread.fresh pid with
      threadCount := max s.threadCount (s.unusedTid + 1) } := .of_procs rfl rfl
  have hfamily : SameFamily s (s.addThread pid) := hnew.trans (.modProc .rfl rfl rfl rfl)
  have hcount : (s.addThread pid).threadCount = max s.threadCount (s.unusedTid + 1) := rfl
  refine ⟨⟨fun tid hused => ?_, fun tid hused => ?_, fun tid hused => ?_, fun pid' tid htid => ?_,
    fun pid' => ?_⟩, hfamily⟩
  · rw [threads_addThread] at hused
    split at hused
    · rename_i heq
      omega
    · have := hs.bound tid hused
      omega
  · rw [hfamily.live.hasProc_iff]
    rw [threads_addThread] at hused ⊢
    split at hused
    · rename_i heq
      rwa [if_pos heq]
    · rename_i hne
      rw [if_neg hne]
      exact hs.live tid hused
  · rw [threads_addThread] at hused ⊢
    rw [procs_addThread]
    split at hused
    · rename_i heq
      rw [if_pos heq, if_pos (by rfl), heq]
      exact mem_append_right _ (mem_singleton_self _)
    · rename_i hne
      rw [if_neg hne]
      split
      · exact mem_append_left _ (hs.listed tid hused)
      · exact hs.listed tid hused
  · rw [procs_addThread] at htid
    rw [threads_addThread]
    -- the new number is not in any list yet
    have hold : ∀ pid', tid ∈ (s.procs pid').tids → tid ≠ s.unusedTid := by
      rintro pid' hmem rfl
      exact (hs.used pid' _ hmem).1 hunused
    split at htid
    · rename_i heq
      rcases mem_append.mp htid with hmem | hmem
      · rw [if_neg (hold pid' hmem)]
        exact hs.used pid' tid hmem
      · rw [if_pos (mem_singleton.mp hmem)]
        exact ⟨nofun, heq.symm⟩
    · rw [if_neg (hold pid' htid)]
      exact hs.used pid' tid htid
  · rw [procs_addThread]
    split
    · refine nodup_append.mpr ⟨hs.nodup pid', pairwise_singleton .., ?_⟩
      rintro tid hmem tid' hmem' rfl
      rw [mem_singleton.mp hmem'] at hmem
      exact (hs.used pid' _ hmem).1 hunused
    · exact hs.nodup pid'

theorem threadCreate_settled (hs : Owned s) (hpid : s.HasProc pid) :
    Post (threadCreate depth pid) s fun _ s' => Settled s s' := by
  have hadd := addThread_settled hs hpid
  refine .get_bind (.modify_bind (.seq ?_ fun _ _ h => h))
  exact (pcbThreadChangeState_quiet hadd.owned ((hadd.family.live pid).mpr hpid.2) _ _).mono
    fun _ _ h => hadd.trans (h.settled hadd.owned)

theorem dropThread_settled (hs : Owned s) (hused : (s.threads tid).state ≠ .unused) :
    Settled s (s.dropThread tid) := by
  have hgone : SameFamily s { (s.removeThread tid).modThread tid fun t =>
      { t with state := .unused, waitingOnThis := [] } with
      threadCount := if tid + 1 = s.threadCount then tid else s.threadCount } := .of_procs rfl rfl
  have hfamily : SameFamily s (s.dropThread tid) := hgone.trans (.modProc .rfl rfl rfl rfl)
  have hcount : (s.dropThread tid).threadCount =
      if tid + 1 = s.threadCount then tid else s.threadCount := rfl
  -- the threads that are still in use are the others
  have hother : ∀ {tid'}, ((s.dropThread tid).threads tid').state ≠ .unused →
      tid' ≠ tid ∧ (s.threads tid').state ≠ .unused := by
    intro tid' hused'
    rw [threads_dropThread] at hused'
    split at hused'
    · exact absurd rfl hused'
    · exact ⟨‹_›, hused'⟩
  refine ⟨⟨fun tid' hused' => ?_, fun tid' hused' => ?_, fun tid' hused' => ?_,
    fun pid tid' htid => ?_, fun pid => ?_⟩, hfamily⟩
  · obtain ⟨hne, hold⟩ := hother hused'
    have := hs.bound tid' hold
    rw [hcount]
    split <;> omega
  · obtain ⟨hne, hold⟩ := hother hused'
    rw [hfamily.live.hasProc_iff, threads_dropThread, if_neg hne]
    exact hs.live tid' hold
  · obtain ⟨hne, hold⟩ := hother hused'
    rw [threads_dropThread, if_neg hne, procs_dropThread]
    split
    · exact (mem_erase_of_ne hne).mpr (hs.listed tid' hold)
    · exact hs.listed tid' hold
  · rw [procs_dropThread] at htid
    have hmem : tid' ∈ (s.procs pid).tids := by
      split at htid
      · exact mem_of_mem_erase htid
      · exact htid
    have hne : tid' ≠ tid := by
      rintro rfl
      rw [if_pos (hs.used pid tid' hmem).2.symm] at htid
      exact (hs.nodup pid).not_mem_erase htid
    rw [threads_dropThread, if_neg hne]
    exact hs.used pid tid' hmem
  · rw [procs_dropThread]
    split
    · exact (hs.nodup pid).erase tid
    · exact hs.nodup pid

theorem threadCleanup_settled (hs : Owned s) (hused : (s.threads tid).state ≠ .unused) :
    Post (threadCleanup depth tid) s fun _ s' => Settled s s' := by
  have hdrop := dropThread_settled hs hused
  refine .get_bind (.modify_bind ?_)
  exact (pcbThreadChangeState_quiet hdrop.owned ((hdrop.family.live _).mpr (hs.live tid hused).2)
    _ _).mono fun _ _ h => hdrop.trans (h.settled hdrop.owned)

/-- All threads of a process are removed. -/
theorem cleanupThreads_settled {turns : ℕ} (hs : Owned s) :
    Post (cleanupThreads depth pid turns) s
      (Returned fun _ s' => Settled s s' ∧ (s'.procs pid).tids = []) := by
  induction turns generalizing s with
  | zero =>
    exact .get_bind (.ite (fun _ => trivial) fun hnil => ⟨.refl hs, not_not.mp hnil⟩)
  | succ turns ih =>
    refine .get_bind ?_
    split
    · rename_i hnil
      exact ⟨.refl hs, hnil⟩
    · rename_i tid rest htids
      have hused := (hs.used pid tid (htids ▸ mem_cons_self)).1
      rw [if_pos (hs.hasThread_iff.mpr hused)]
      refine returned_bind (returned_of_post (threadCleanup_settled hs hused) fun _ _ h => h)
        fun _ s₁ h₁ => ?_
      exact returned_of_post (ih h₁.owned) fun _ _ h₂ => ⟨h₁.trans h₂.1, h₂.2⟩

/-! ### Processes that come and go -/

/-- A change of the processes that leaves their lists of threads, and those in use that have any. -/
theorem Owned.of_procs (hs : Owned s) (hthreads : s'.threads = s.threads)
    (hcount : s'.threadCount = s.threadCount)
    (htids : ∀ pid, (s'.procs pid).tids = (s.procs pid).tids)
    (hlive : ∀ pid, (s.procs pid).tids ≠ [] → (s.procs pid).Live → (s'.procs pid).Live) :
    Owned s' where
  bound tid hused := by
    rw [hthreads] at hused
    rw [hcount]
    exact hs.bound tid hused
  live tid hused := by
    rw [hthreads] at hused ⊢
    obtain ⟨hlt, hold⟩ := hs.live tid hused
    exact ⟨hlt, hlive _ (ne_nil_of_mem (hs.listed tid hused)) hold⟩
  listed tid hused := by
    rw [hthreads] at hused ⊢
    rw [htids]
    exact hs.listed tid hused
  used pid tid htid := by
    rw [htids] at htid
    rw [hthreads]
    exact hs.used pid tid htid
  nodup pid := by
    rw [htids]
    exact hs.nodup pid

theorem owned_modProc (hs : Owned s) (htids : (f (s.procs pid)).tids = (s.procs pid).tids)
    (hlive : (s.procs pid).tids ≠ [] → (s.procs pid).Live → (f (s.procs pid)).Live) :
    Owned (s.modProc pid f) := by
  refine hs.of_procs rfl rfl (fun pid' => ?_) fun pid' hne hold => ?_ <;>
    rw [procs_modProc] <;> split
  · rename_i heq
    rw [heq, htids]
  · rfl
  · rename_i heq
    rw [heq] at hne hold
    exact hlive hne hold
  · exact hold

theorem owned_fillProcess {ppid : ℕ} (hs : Owned s) (hdead : ¬(s.procs pid).Live) :
    Owned (s.fillProcess pid ppid) := by
  have hnil := hs.tids_eq_nil hdead
  rw [fillProcess]
  split
  · exact owned_modProc hs hnil.symm fun hne _ => absurd hnil hne
  · rename_i parent hparent
    have hchild : Owned (s.modProc parent fun p => { p with children := p.children ++ [pid] }) :=
      owned_modProc hs rfl fun _ h => h
    have hdead' : ¬((s.modProc parent fun p =>
        { p with children := p.children ++ [pid] }).procs pid).Live := by
      rw [procs_modProc]
      split
      · rename_i heq
        rwa [heq] at hdead
      · exact hdead
    have hnil' := hchild.tids_eq_nil hdead'
    exact owned_modProc hchild hnil'.symm fun hne _ => absurd hnil' hne

theorem hasProc_fillProcess {ppid : ℕ} (hpid : pid < maxProcessCount) :
    (s.fillProcess pid ppid).HasProc pid := by
  refine ⟨hpid, ?_⟩
  rw [fillProcess]
  split <;> rw [procs_modProc, if_pos rfl] <;> exact nofun

theorem owned_leaveParent (hs : Owned s) (hnil : (s.procs pid).tids = []) :
    Owned (s.leaveParent pid) := by
  have hgone : Owned (s.modProc pid fun p => { p with state := .unused }) :=
    owned_modProc hs rfl fun hne => absurd hnil hne
  rw [leaveParent]
  split
  · exact owned_modProc hgone rfl fun _ h => h
  · exact hgone

theorem owned_adopt {child : ℕ} (hs : Owned s) : Owned (s.adopt child) :=
  owned_modProc (owned_modProc hs rfl fun _ h => h) rfl fun _ h => h

/-- A free number is that of a process that is not in use. -/
theorem unusedPid_spec (h : s.unusedPid = some pid) :
    pid < maxProcessCount ∧ ¬(s.procs pid).Live := by
  have hfree := find?_some h
  exact ⟨mem_range.mp (mem_of_find?_eq_some h), of_decide_eq_true hfree⟩

/-- What a new process keeps: it is filled, gets a thread and joins a group, and the thread is put in
a queue. -/
theorem spawn_returns {P : Sched → Prop} {ppid : ℕ} (hs : P s)
    (hcreate : ∀ pid, s.unusedPid = some pid → Post (threadCreate depth pid)
      (s.fillProcess pid ppid) (Returned fun _ s₁ => P (s₁.addToPgrp pid)))
    (hready : ∀ s₁ tid, P s₁ → P (s₁.addThreadLocked tid)) :
    Post (spawn depth ppid) s (Returned fun _ s' => P s') := by
  have hproc : Post (procCreate depth ppid) s (Returned fun _ s' => P s') := by
    refine .get_bind ?_
    cases hpid : s.unusedPid with
    | none => exact hs
    | some pid =>
      exact .modify_bind (returned_bind (hcreate pid hpid) fun _ _ h₁ => .modify_bind h₁)
  refine returned_bind hproc fun created s₁ h₁ => ?_
  cases created with
  | none => exact h₁
  | some pid => exact .modify_bind (hready _ _ h₁)

/-- What the end of a process keeps, step by step. `P` is told which processes have lost their
parents, and `R` is what is known of a process that is destroyed. -/
structure DestroyRule (depth : ℕ) (R : ℕ → Sched → Prop) (P : List ℕ → Sched → Prop) : Prop where
  dead : ∀ {pid s}, s.HasProc pid → (s.procs pid).state = .zombie → R pid s
  threads : ∀ {lost pid s}, P lost s → R pid s →
    Post (cleanupThreads depth pid ((s.removeFromPgrp pid).procs pid).tids.length)
      (s.removeFromPgrp pid) (Returned fun _ s₁ =>
        P (((s₁.leaveParent pid).procs pid).children.reverse ++ lost.erase pid)
          ((s₁.leaveParent pid).modProc pid fun p => { p with children := [] }))
  skip : ∀ {child lost s}, P (child :: lost) s → ¬s.HasProc child → P lost s
  adopt : ∀ {child lost s}, P (child :: lost) s → s.HasProc 0 → P lost (s.adopt child)
  unblock : ∀ {lost tid s}, P lost s →
    Post (sendUnblockEvent depth tid blockUntilNewChild) s (Returned fun _ s' => P lost s')

section Destroy

variable {R : ℕ → Sched → Prop} {P : List ℕ → Sched → Prop} (hrule : DestroyRule depth R P)
  {lost : List ℕ}
include hrule

theorem DestroyRule.leaveChildren {destroy : ℕ → SchedM Unit} {children : List ℕ}
    (hdestroy : ∀ {lost pid s}, P lost s → R pid s →
      Post (destroy pid) s (Returned fun _ s' => P (lost.erase pid) s'))
    (h : P (children ++ lost) s) :
    Post (leaveChildren destroy children) s (Returned fun _ s' => P lost s') := by
  induction children generalizing s with
  | nil => exact h
  | cons child rest ih =>
    refine .get_bind (.ite (fun hnot => ih (hrule.skip h hnot)) fun hchild =>
      .ite (fun hzombie => ?_) fun _ => .ite (fun _ => trivial) fun hroot => ?_)
    · refine returned_bind (hdestroy h (hrule.dead (not_not.mp hchild) hzombie)) fun _ s₁ h₁ => ?_
      rw [cons_append, erase_cons_head] at h₁
      exact ih h₁
    · exact .modify_bind (returned_bind (ih (hrule.adopt h (not_not.mp hroot))) fun _ _ h => h)

theorem DestroyRule.procDestroy {copied : ℕ → Bool} {nest : ℕ} (lost : List ℕ)
    (hcopied : ∀ {lost pid s}, copied pid = false → P lost s → P (lost.erase pid) s)
    (h : P lost s) (hpid : R pid s) :
    Post (procDestroy depth copied nest pid) s
      (Returned fun _ s' => P (lost.erase pid) s') := by
  induction nest generalizing s pid lost with
  | zero => trivial
  | succ nest ih =>
    refine .ite (fun hnot => hcopied hnot h) fun _ => .modify_bind (.get_bind (returned_bind
      (hrule.threads h hpid) fun _ s₁ h₁ => .modify_bind (.get_bind (.modify_bind (returned_bind
      (hrule.leaveChildren (ih _) h₁) fun added s₂ h₂ => ?_)))))
    exact .ite (fun _ => .get_bind (returned_bind (hrule.unblock h₂) fun _ _ h => h)) fun _ => h₂

end Destroy

end Sched

end OsPi
