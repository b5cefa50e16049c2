import OsPi.Sched.Accounts

/-!
# The Calls that Keep the Counters

The calls that change the state of a thread by way of `pcb_thread_change_state` keep the counters
of all processes right, with one exception: a thread that is blocked must not be woken by what its
own change sets off, because the state that is assigned to it in the end is then not the one it has
been counted out of. This can happen to a thread of the first process, which is its own parent.
-/

namespace OsPi

open Comp List

namespace Sched

variable {s s' s'' : Sched} {tid pid cpu depth : ℕ} {old new : ThreadState} {flags : BitVec 32}
  {copied : ℕ → Bool} {α β : Type} {m : SchedM α} {R : α → Sched → Prop} {Q : Sched → Prop}
  {out : ℕ → Prop} {f : Thread → Thread} {curr : ℕ} {waitPid : ℤ}

/-! ### How a call comes to its end -/

/-- A call that does not hang ends in a state with the property. -/
def Ends {α : Type} (Q : Sched → Prop) : Except Leave α → Sched → Prop
  | .error .hang, _ => True
  | _, s => Q s

/-- A call that returns unless it hangs. -/
def Stays {α : Type} (m : SchedM α) : Prop := ∀ s, Post m s fun r _ => r ≠ .error .away

namespace Stays

variable {f : α → SchedM β}

theorem pure {a : α} : Stays (Pure.pure a : SchedM α) := fun _ => nofun

theorem hang : Stays (throw .hang : SchedM α) := fun _ => nofun

theorem bind (hm : Stays m) (hf : ∀ a, Stays (f a)) : Stays (m >>= f) := fun s =>
  (hm s).bind (fun _ _ h => fun heq => h (by cases heq; rfl)) fun a s' _ => hf a s'

theorem get_bind {f : Sched → SchedM β} (hf : ∀ s, Stays (f s)) : Stays (get >>= f) :=
  fun s => hf s s

theorem modify {g : Sched → Sched} : Stays (modify g : SchedM PUnit) := fun _ => nofun

theorem ite {c : Prop} [Decidable c] {n : SchedM α} (hm : Stays m) (hn : Stays n) :
    Stays (if c then m else n) := by
  split
  · exact hm
  · exact hn

end Stays

/-- A call whose first part returns goes on from there. -/
theorem ends_bind {f : α → SchedM β} (hm : Stays m) (h : Post m s (Returned R))
    (hf : ∀ a s', R a s' → Post (f a) s' (Ends Q)) : Post (m >>= f) s (Ends Q) := by
  have hstays := hm s
  unfold Post at hstays h ⊢
  rw [eval_bind]
  rcases hres : m.eval s with ⟨⟨_ | _⟩ | a, s'⟩ <;> rw [hres] at hstays h
  · exact absurd rfl hstays
  · trivial
  · exact hf a s' h

theorem ends_of_returned (hm : Stays m)
    (h : Post m s (Returned fun _ s' => Q s')) : Post m s (Ends Q) := by
  have hstays := hm s
  unfold Post at hstays h ⊢
  rcases hres : m.eval s with ⟨⟨_ | _⟩ | a, s'⟩ <;> rw [hres] at hstays h
  · exact absurd rfl hstays
  · trivial
  · exact h

/-- What is known of a call when it returns. -/
theorem returned_of_eval (h : ∀ a s', m.eval s = (.ok a, s') → R a s') : Post m s (Returned R) := by
  unfold Post
  rcases hres : m.eval s with ⟨e | a, s'⟩
  · trivial
  · exact h a s' hres

theorem returned_and {R' : α → Sched → Prop}
    (h : Post m s (Returned R)) (h' : Post m s (Returned R')) :
    Post m s (Returned fun a s' => R a s' ∧ R' a s') := by
  unfold Post at h h' ⊢
  rcases hres : m.eval s with ⟨e | a, s'⟩ <;> rw [hres] at h h'
  · trivial
  · exact ⟨h, h'⟩

theorem changeState_stays {unblock : ℕ → SchedM Unit} (h : ∀ tid, Stays (unblock tid)) :
    Stays (changeState unblock pid old new) := by
  refine .bind .modify fun _ => .get_bind fun s => .ite .pure ?_
  refine .get_bind fun s => .ite (.bind .modify fun _ => .get_bind fun s => ?_) .pure
  split
  · exact .pure
  · exact h _

theorem unblockThread_stays (depth : ℕ) : ∀ tid, Stays (unblockThread depth tid) := by
  induction depth with
  | zero => exact fun tid => .get_bind fun s => .ite .hang .pure
  | succ depth ih =>
    exact fun tid => .get_bind fun s => .ite
      (.bind (changeState_stays ih) fun _ => .bind .modify fun _ => .modify) .pure

theorem pcbThreadChangeState_stays : Stays (pcbThreadChangeState depth pid old new) :=
  changeState_stays (unblockThread_stays depth)

/-! ### Changing the state of a thread -/

/-- A blocked thread is woken by what its own change to the given state sets off. -/
def WakesItself (s : Sched) (tid : ℕ) (new : ThreadState) : Prop :=
  (s.threads tid).state.Blocked ∧
    ∃ l, tid ∈ l ∧
      Chain (s.modProc (s.threads tid).pid fun p => p.changeState (s.threads tid).state new)
        (s.threads tid).pid
        ((s.procs (s.threads tid).pid).changeState (s.threads tid).state new).state l

/-- A thread moves to another counter, and then its state is assigned. -/
theorem pcbThreadChangeState_balanced (hs : Balanced s)
    (hused : (s.threads tid).state ≠ .unused) (hself : ¬s.WakesItself tid new)
    (hnew : (f (s.threads tid)).state = new) (hnew' : new ≠ .unused)
    (hfpid : (f (s.threads tid)).pid = (s.threads tid).pid)
    (hfree : (f (s.threads tid)).Free) :
    Post (pcbThreadChangeState depth (s.threads tid).pid (s.threads tid).state new) s
      (Returned fun _ s' => Balanced (s'.modThread tid f)) := by
  refine returned_of_eval fun _ s' hchange => ?_
  have hpid := hs.owned.live tid hused
  obtain ⟨l, hchain, hchanged⟩ := pcbThreadChangeState_changed hs.owned hpid
    (hs.sane_changeState hpid.2 (ofKind_le_tally hs.owned hused)) hchange
  have hnot : tid ∉ l := fun hmem => hself ⟨hchain.blocked hmem, l, hmem, hchain⟩
  exact hchanged.balanced hs.weaken rfl rfl hused hnot hnew hnew' hfpid hfree

theorem enterState_balanced (hs : Balanced s) (hused : (s.threads tid).state ≠ .unused)
    (hself : ¬s.WakesItself tid new) (hnew : new ≠ .unused) :
    Post (enterState depth cpu tid new) s (Ends Balanced) := by
  refine .get_bind (ends_bind pcbThreadChangeState_stays
    (pcbThreadChangeState_balanced (f := fun t => { t with state := new }) hs hused hself rfl hnew
      rfl ⟨(hs.free tid hused).resumes, (hs.free tid hused).unawaited⟩)
    fun _ s₁ h₁ => .modify_bind (.get_bind (.ite (fun _ => ?_) fun _ => h₁)))
  exact BalancedBut.of_ticked h₁ ticked_schedulerTick

/-- A change of a thread that leaves its state and its process. -/
theorem BalancedBut.modThread (hs : BalancedBut out s)
    (hstate : (f (s.threads tid)).state = (s.threads tid).state)
    (hpid : (f (s.threads tid)).pid = (s.threads tid).pid)
    (hfree : (s.threads tid).state ≠ .unused → (f (s.threads tid)).Free) :
    BalancedBut out (s.modThread tid f) := by
  have hquiet : Quiet s (s.modThread tid f) := .modThread (by rw [hstate]) hpid
  refine hs.congr (hquiet.owned hs.owned) (modThread_congr (·.state.kind) (by rw [hstate]))
    (fun _ _ => ⟨rfl, rfl, rfl⟩) fun tid' hused => ?_
  rw [ne_eq, hquiet.owners.unused] at hused
  rw [threads_modThread]
  split
  · rename_i heq
    exact hfree (heq ▸ hused)
  · exact hs.free tid' hused

theorem sameWaiters_modThread (hstate : (f (s.threads tid)).state = (s.threads tid).state)
    (hpid : (f (s.threads tid)).pid = (s.threads tid).pid)
    (hwaitPid : (f (s.threads tid)).waitingForPid = (s.threads tid).waitingForPid)
    (hwaitFlags : (f (s.threads tid)).waitingForFlags = (s.threads tid).waitingForFlags) :
    SameWaiters s (s.modThread tid f) :=
  ⟨modThread_congr Thread.state hstate, modThread_congr Thread.pid hpid,
    modThread_congr Thread.waitingForPid hwaitPid,
    modThread_congr Thread.waitingForFlags hwaitFlags, rfl, fun _ => rfl, fun _ => rfl,
    fun _ => rfl, .refl s⟩

theorem stopThread_balanced (hs : Balanced s) (hused : (s.threads tid).state ≠ .unused)
    (hself : ¬s.WakesItself tid .stopped) :
    Post (stopThread depth cpu tid) s (Ends Balanced) := by
  refine .get_bind (.ite (fun _ => hs) fun _ => .modify_bind ?_)
  have hnoted : Balanced (s.modThread tid fun t => { t with stoppedState := t.state }) :=
    BalancedBut.modThread hs rfl rfl fun h => ⟨h, (hs.free tid h).unawaited⟩
  have hthread : (s.modThread tid fun t => { t with stoppedState := t.state }).threads tid =
      { s.threads tid with stoppedState := (s.threads tid).state } := by
    rw [threads_modThread, if_pos rfl]
  refine enterState_balanced hnoted (by rwa [hthread]) ?_ (by decide)
  -- the chain is the same
  rintro ⟨hblocked, l, hmem, hchain⟩
  rw [hthread] at hblocked hchain
  refine hself ⟨hblocked, l, hmem, ?_⟩
  have hchange : Owned (s.modProc (s.threads tid).pid fun p =>
      p.changeState (s.threads tid).state .stopped) :=
    owned_modProc hs.owned rfl fun _ _ => live_changeState
  have hsame : SameWaiters
      (s.modProc (s.threads tid).pid fun p => p.changeState (s.threads tid).state .stopped)
      ((s.modProc (s.threads tid).pid fun p =>
        p.changeState (s.threads tid).state .stopped).modThread tid fun t =>
          { t with stoppedState := t.state }) := sameWaiters_modThread rfl rfl rfl rfl
  refine hsame.chain hchange ?_ live_changeState hchain
  rw [procs_modProc, if_pos rfl]
  exact live_changeState

theorem terminateThread_balanced (hs : Balanced s) (hused : (s.threads tid).state ≠ .unused)
    (hself : ¬s.WakesItself tid .zombie) :
    Post (terminateThread depth cpu tid) s (Ends Balanced) :=
  .get_bind (.ite (fun _ => hs) fun _ => enterState_balanced hs hused hself (by decide))

theorem blockThread_balanced {blocked : ThreadState} (hs : Balanced s)
    (hused : (s.threads tid).state ≠ .unused) (hself : ¬s.WakesItself tid blocked) :
    Post (blockThread depth cpu tid blocked) s (Ends Balanced) := by
  refine .ite (fun hblocked => enterState_balanced hs hused hself ?_) fun _ => hs
  rintro rfl
  exact hblocked

/-- A thread that is not blocked is not woken. -/
theorem not_wakesItself (h : ¬(s.threads tid).state.Blocked) : ¬s.WakesItself tid new :=
  fun hself => h hself.1

theorem continued_ne_unused {t : Thread} (h : t.stoppedState ≠ .unused) :
    t.continued ≠ .unused := by
  rw [Thread.continued]
  split
  · nofun
  · split
    · nofun
    · exact h

theorem continueThread_balanced (hs : Balanced s) :
    Post (continueThread depth tid) s (Ends Balanced) := by
  refine .get_bind (.ite (fun hstopped => ?_) fun _ => hs)
  have hused : (s.threads tid).state ≠ .unused := by
    rw [hstopped]
    decide
  have hself : ¬s.WakesItself tid (s.threads tid).continued :=
    not_wakesItself (by rw [hstopped]; decide)
  have hchange : Post (pcbThreadChangeState depth _ _ _) s _ := pcbThreadChangeState_balanced
    (f := fun t => { t with state := (s.threads tid).continued, stoppedState := .ready }) hs hused
    hself rfl (continued_ne_unused (hs.free tid hused).resumes) rfl
    ⟨nofun, (hs.free tid hused).unawaited⟩
  rw [hstopped] at hchange
  refine ends_bind pcbThreadChangeState_stays hchange fun _ s₁ h₁ => .modify_bind
    (.ite (fun _ => ?_) fun _ => h₁)
  exact BalancedBut.of_ticked h₁ sameTables_addThreadLocked.ticked

theorem unblockThread_ends (hs : Balanced s) :
    Post (unblockThread depth tid) s (Ends Balanced) :=
  ends_of_returned (unblockThread_stays depth tid)
    (returned_of_eval fun _ _ h => unblockThread_balanced hs h)

theorem sendUnblockEvent_stays {event : BitVec 32} : Stays (sendUnblockEvent depth tid event) :=
  .get_bind fun _ => .ite (.bind (unblockThread_stays depth tid) fun _ => .pure) .pure

theorem sendUnblockEvent_balanced {event : BitVec 32} (hs : Balanced s) :
    Post (sendUnblockEvent depth tid event) s (Returned fun _ s' => Balanced s') := by
  refine .get_bind (.ite (fun _ => ?_) fun _ => hs)
  exact returned_bind (returned_of_eval fun _ _ h => unblockThread_balanced hs h) fun _ _ h => h

/-! ### Threads that come and go -/

/-- The counters do not become negative when no running thread is taken off. -/
theorem Sane.changeState (hsane : Sane s) (hlive : (s.procs pid).Live)
    (hold : old.ofKind .running = 0) : Sane (s.modProc pid fun p => p.changeState old new) :=
  hsane.modProc (running_changeState_nonneg (by rw [hold]; exact hsane pid hlive))

/-- A thread has come or gone, and the counters follow. -/
theorem Changed.balanced_of_off {l : List ℕ} (h : Changed pid old new l s s') (hs : Owned s)
    (hoff : ∀ pid', (s.procs pid').Live → ∀ k,
      s.off pid' k + (if pid' = pid then new.ofKind k - old.ofKind k else 0) = 0)
    (hstate : ∀ pid', (s.procs pid').Live → pid' ≠ pid →
      (s.procs pid').state = (s.procs pid').counts.state)
    (hfree : ∀ tid, (s.threads tid).state ≠ .unused → (s.threads tid).Free) :
    Balanced s' := by
  refine ⟨h.quiet.owned hs, fun pid' hlive k => ?_, fun pid' hlive _ => ?_, fun tid hused => ?_⟩
  · rw [h.off]
    exact hoff pid' ((h.quiet.family.live pid').mp hlive) k
  · rcases h.state pid' with hstate' | ⟨hne, hstate', hcounts⟩
    · exact hstate'
    · rw [hstate', hcounts]
      exact hstate pid' ((h.quiet.family.live pid').mp hlive) hne
  · rw [ne_eq, h.quiet.owners.unused] at hused
    exact h.free (hfree tid hused)

theorem tally_addThread {k : Kind} (hs : Owned s) (pid' : ℕ) :
    ((s.addThread pid).tally pid' k : ℤ) =
      s.tally pid' k + if pid' = pid then ThreadState.ready.ofKind k else 0 := by
  have hunused := unusedTid_unused hs
  have hold : (s.procs pid').tids.countP (fun tid =>
      decide (((s.addThread pid).threads tid).state.kind = some k)) = s.tally pid' k := by
    refine countP_congr fun tid htid => ?_
    rw [threads_addThread, if_neg]
    rintro rfl
    exact (hs.used pid' _ htid).1 hunused
  rw [tally, procs_addThread]
  split
  · rw [countP_append, hold, countP_singleton, threads_addThread, if_pos rfl,
      ThreadState.ofKind, Thread.fresh]
    simp only [decide_eq_true_eq]
    split <;> omega
  · rw [hold]
    omega

theorem tally_dropThread {k : Kind} (hs : Owned s) (hused : (s.threads tid).state ≠ .unused)
    (pid : ℕ) :
    ((s.dropThread tid).tally pid k : ℤ) =
      s.tally pid k - if pid = (s.threads tid).pid then (s.threads tid).state.ofKind k else 0 := by
  have hrest : ∀ l : List ℕ, tid ∉ l → l.countP (fun tid' =>
      decide (((s.dropThread tid).threads tid').state.kind = some k)) =
      l.countP fun tid' => decide ((s.threads tid').state.kind = some k) := by
    intro l hnot
    refine countP_congr fun tid' htid' => ?_
    rw [threads_dropThread, if_neg]
    rintro rfl
    exact hnot htid'
  rw [tally, procs_dropThread]
  split
  · rename_i heq
    have hmem : tid ∈ (s.procs pid).tids := heq ▸ hs.listed tid hused
    rw [hrest _ (hs.nodup pid).not_mem_erase, tally,
      (perm_cons_erase hmem).countP_eq, countP_cons, ThreadState.ofKind]
    simp only [decide_eq_true_eq]
    split <;> omega
  · rename_i hne
    rw [hrest _ fun hmem => hne (hs.used pid tid hmem).2.symm, tally]
    omega

theorem threadCreate_balanced (hs : BalancedBut (· = pid) s) (hpid : s.HasProc pid) :
    Post (threadCreate depth pid) s (Returned fun _ s' => Balanced s') := by
  have hadd := addThread_settled hs.owned hpid
  have hpid' := hadd.family.live.hasProc_iff.mpr hpid
  have hsane : Sane (s.addThread pid) := by
    intro pid' hlive
    rw [procs_addThread]
    exact hs.sane pid' ((hadd.family.live pid').mp hlive)
  refine .get_bind (.modify_bind (returned_bind (returned_of_eval fun _ s₁ hchange => ?_)
    fun _ _ h => h))
  obtain ⟨l, -, hchanged⟩ := pcbThreadChangeState_changed hadd.owned hpid'
    (hsane.changeState hpid'.2 rfl) hchange
  refine hchanged.balanced_of_off hadd.owned (fun pid' hlive k => ?_) (fun pid' hlive hne => ?_)
    fun tid hused => ?_
  · have hoff := hs.off pid' ((hadd.family.live pid').mp hlive) k
    rw [off] at hoff
    rw [off, procs_addThread, tally_addThread hs.owned]
    dsimp only
    have hunused : ThreadState.unused.ofKind k = 0 := rfl
    have hready : ThreadState.running.ofKind k = ThreadState.ready.ofKind k := rfl
    split <;> omega
  · rw [procs_addThread]
    exact hs.state pid' ((hadd.family.live pid').mp hlive) hne
  · rw [threads_addThread] at hused ⊢
    split
    · exact ⟨(fun h => by cases h), rfl⟩
    · rename_i hne
      rw [if_neg hne] at hused
      exact hs.free tid hused

theorem threadCleanup_balanced (hs : Balanced s) (hzombie : (s.threads tid).state = .zombie) :
    Post (threadCleanup depth tid) s (Returned fun _ s' => Balanced s') := by
  have hused : (s.threads tid).state ≠ .unused := by
    rw [hzombie]
    decide
  have hdrop := dropThread_settled hs.owned hused
  have hpid := hdrop.family.live.hasProc_iff.mpr (hs.owned.live tid hused)
  have hsane : Sane (s.dropThread tid) := by
    intro pid' hlive
    rw [procs_dropThread]
    exact hs.sane pid' ((hdrop.family.live pid').mp hlive)
  refine .get_bind (.modify_bind (returned_of_eval fun _ s₁ hchange => ?_))
  obtain ⟨l, -, hchanged⟩ := pcbThreadChangeState_changed hdrop.owned hpid
    (hsane.changeState hpid.2 rfl) hchange
  refine hchanged.balanced_of_off hdrop.owned (fun pid' hlive k => ?_) (fun pid' hlive hne => ?_)
    fun tid' hused' => ?_
  · have hoff := hs.off pid' ((hdrop.family.live pid').mp hlive) k
    rw [off] at hoff
    rw [off, procs_dropThread, tally_dropThread hs.owned hused, hzombie]
    dsimp only
    have hunused : ThreadState.unused.ofKind k = 0 := rfl
    split <;> omega
  · rw [procs_dropThread]
    exact hs.state pid' ((hdrop.family.live pid').mp hlive) not_false
  · rw [threads_dropThread] at hused' ⊢
    split
    · rename_i heq
      rw [if_pos heq] at hused'
      exact absurd rfl hused'
    · rename_i hne
      rw [if_neg hne] at hused'
      exact hs.free tid' hused'

/-! ### The end of threads and processes -/

/-- A change of a process that leaves its threads, its counters and its state. -/
theorem BalancedBut.modProc {f : Process → Process} (hs : BalancedBut out s)
    (htids : (f (s.procs pid)).tids = (s.procs pid).tids)
    (hcounts : (f (s.procs pid)).counts = (s.procs pid).counts)
    (hstate : (f (s.procs pid)).state = (s.procs pid).state) :
    BalancedBut out (s.modProc pid f) := by
  have hsame : ∀ pid', ((s.modProc pid f).procs pid').tids = (s.procs pid').tids ∧
      ((s.modProc pid f).procs pid').counts = (s.procs pid').counts ∧
      ((s.modProc pid f).procs pid').state = (s.procs pid').state := fun pid' =>
    ⟨modProc_congr Process.tids htids pid', modProc_congr Process.counts hcounts pid',
      modProc_congr Process.state hstate pid'⟩
  refine hs.congr (hs.owned.of_procs rfl rfl (fun pid' => (hsame pid').1) fun pid' _ hlive => ?_)
    (fun _ => rfl) (fun pid' _ => hsame pid') hs.free
  rwa [Process.Live, (hsame pid').2.2]

/-- The tables of threads and processes are the same. -/
theorem BalancedBut.of_tables (hs : BalancedBut out s)
    (hthreads : s'.threads = s.threads) (hprocs : s'.procs = s.procs)
    (hcount : s'.threadCount = s.threadCount) : BalancedBut out s' := by
  have howned := hs.owned.of_procs hthreads hcount (fun pid => by rw [hprocs])
    fun pid _ h => by rwa [hprocs]
  exact hs.congr howned (fun _ => by rw [hthreads]) (fun pid _ => by simp [hprocs])
    (hthreads ▸ hs.free)

/-- A thread that is not blocked does not become so when another one ends. -/
theorem terminateThread_not_blocked {u : ℕ} (hu : ¬(s.threads u).state.Blocked) :
    Post (terminateThread depth cpu tid) s fun _ s' => ¬(s'.threads u).state.Blocked := by
  have hticked : ∀ {s s' : Sched}, Ticked s s' → ¬(s.threads u).state.Blocked →
      ¬(s'.threads u).state.Blocked := by
    intro s s' ht hu
    rcases ht.threads u with heq | ⟨-, a, ha, heq⟩
    · rwa [heq]
    · rw [heq]
      rcases ha with rfl | rfl <;> exact not_false
  refine .get_bind (.ite (fun _ => hu) fun _ => .get_bind (.seq ?_ fun _ s₁ h₁ => .modify_bind
    (.get_bind (.ite (fun _ => ?_) fun _ => ?_))))
  · rcases (pcbThreadChangeState_woken depth s (s.threads tid).pid (s.threads tid).state
      .zombie).threads u with heq | ⟨-, -, heq⟩
    · rwa [Post, heq]
    · rw [Post, heq]
      exact not_false
  all_goals
    have hzombie : ¬((s₁.setState tid .zombie).threads u).state.Blocked := by
      rw [setState, threads_modThread]
      split
      · exact not_false
      · exact h₁
  · exact hticked ticked_schedulerTick hzombie
  · exact hzombie

/-- None of the threads that `s_exit_impl` ends wakes itself. -/
def NoneWakesItself (depth cpu curr : ℕ) : List ℕ → Sched → Prop
  | [], _ => True
  | tid :: rest, s =>
    (s.HasThread tid ∧ tid ≠ curr → ¬s.WakesItself tid .zombie) ∧
      NoneWakesItself depth cpu curr rest
        (if s.HasThread tid ∧ tid ≠ curr then ((terminateThread depth cpu tid).eval s).2 else s)

/-- A thread other than the one that makes the call does not give up the CPU. -/
theorem terminateThread_stays (hcurr : s.cpus cpu = some curr) (hne : tid ≠ curr) :
    Post (terminateThread depth cpu tid) s fun r s' =>
      r ≠ .error .away ∧ s'.cpus cpu = some curr := by
  refine .get_bind (.ite (fun _ => ⟨nofun, hcurr⟩) fun _ => .get_bind ?_)
  refine Post.bind (R := fun r s' => r ≠ .error Leave.away ∧ s'.cpus cpu = some curr)
    ⟨pcbThreadChangeState_stays s, ?_⟩ (fun e s' h => ⟨fun heq => h.1 (by cases heq; rfl), h.2⟩)
    fun _ s₁ h₁ => .modify_bind (.get_bind (.ite (fun heq => ?_) fun _ => ⟨nofun, h₁.2⟩))
  · rw [(pcbThreadChangeState_woken depth s (s.threads tid).pid (s.threads tid).state .zombie).cpus]
    exact hcurr
  · have hcurr' := heq.symm.trans h₁.2
    exact absurd (Option.some.inj hcurr') hne

theorem terminateOthers_balanced {tids : List ℕ} (hs : Balanced s)
    (hcurr : s.cpus cpu = some curr) (hrunning : ¬(s.threads curr).state.Blocked)
    (hself : NoneWakesItself depth cpu curr tids s) :
    Post (terminateOthers depth cpu curr tids) s fun r s' =>
      r ≠ .error .away ∧ (r = .ok () →
        Balanced s' ∧ s'.cpus cpu = some curr ∧ ¬(s'.threads curr).state.Blocked) := by
  induction tids generalizing s with
  | nil => exact ⟨nofun, fun _ => ⟨hs, hcurr, hrunning⟩⟩
  | cons tid rest ih =>
    rw [NoneWakesItself] at hself
    refine .get_bind (.ite (fun hother => ?_) fun hother => ?_)
    · rw [if_pos hother] at hself
      have hstays : Post (terminateThread depth cpu tid) s _ :=
        terminateThread_stays hcurr hother.2
      have hends : Post (terminateThread depth cpu tid) s _ :=
        terminateThread_balanced hs hother.1.2 (hself.1 hother)
      have hblocked : Post (terminateThread depth cpu tid) s _ :=
        terminateThread_not_blocked hrunning
      unfold Post at hstays hends hblocked ⊢
      rw [eval_bind]
      rcases hres : (terminateThread depth cpu tid).eval s with ⟨⟨_ | _⟩ | a, s₁⟩ <;>
        rw [hres] at hstays hends hblocked hself
      · exact absurd rfl hstays.1
      · exact ⟨nofun, nofun⟩
      · exact ih hends hstays.2 hblocked hself.2
    · rw [if_neg hother] at hself
      exact ih hs hcurr hrunning hself.2

theorem exitProcess_balanced {code : BitVec 32} (hs : Balanced s) (hcurr : s.cpus cpu = some tid)
    (hused : (s.threads tid).state ≠ .unused) (hrunning : ¬(s.threads tid).state.Blocked)
    (hself : NoneWakesItself depth cpu tid (s.procs (s.threads tid).pid).tids
      (s.modProc (s.threads tid).pid fun p => { p with exitCode := code })) :
    Post (exitProcess depth cpu tid code) s (Ends Balanced) := by
  refine .get_bind (.modify_bind ?_)
  have hcode : Balanced (s.modProc (s.threads tid).pid fun p => { p with exitCode := code }) :=
    BalancedBut.modProc hs rfl rfl rfl
  have hothers : Post (terminateOthers depth cpu tid _) _ _ :=
    terminateOthers_balanced hcode hcurr hrunning hself
  have hquiet : Post (terminateOthers depth cpu tid (s.procs (s.threads tid).pid).tids) _ _ :=
    terminateOthers_quiet hcode.owned
  unfold Post at hothers hquiet ⊢
  rw [eval_bind]
  rcases hres : (terminateOthers depth cpu tid (s.procs (s.threads tid).pid).tids).eval
    (s.modProc (s.threads tid).pid fun p => { p with exitCode := code }) with ⟨⟨_ | _⟩ | a, s₁⟩ <;>
    rw [hres] at hothers hquiet
  · exact absurd rfl hothers.1
  · trivial
  · obtain ⟨hbalanced, -, hblocked⟩ := hothers.2 rfl
    refine terminateThread_balanced hbalanced ?_ (not_wakesItself hblocked)
    rwa [ne_eq, hquiet.owners.unused]

theorem threadExit_balanced (hs : Balanced s) (hused : (s.threads tid).state ≠ .unused)
    (hrunning : ¬(s.threads tid).state.Blocked) :
    Post (threadExit depth cpu tid) s (Ends Balanced) := by
  refine .modify_bind ?_
  rw [(hs.free tid hused).unawaited, foldl_nil]
  have hcleared : Balanced (s.modThread tid fun t => { t with waitingOnThis := [] }) :=
    BalancedBut.modThread hs rfl rfl fun h => ⟨(hs.free tid h).resumes, rfl⟩
  have hthread : (s.modThread tid fun t => { t with waitingOnThis := [] }).threads tid =
      { s.threads tid with waitingOnThis := [] } := by
    rw [threads_modThread, if_pos rfl]
  refine .get_bind (ends_bind pcbThreadChangeState_stays (pcbThreadChangeState_balanced
    (f := fun t => { t with state := .zombie }) hcleared (by rwa [hthread])
    (not_wakesItself (by rwa [hthread])) rfl (by decide) rfl ?_)
    fun _ s₁ h₁ => .modify_bind (.modify_bind ?_))
  · rw [hthread]
    exact ⟨(hs.free tid hused).resumes, rfl⟩
  · exact BalancedBut.of_ticked h₁ ticked_schedulerTick

theorem threadCleanup_stays : Stays (threadCleanup depth tid) :=
  .get_bind fun _ => .bind .modify fun _ => pcbThreadChangeState_stays

/-- `thread_join` when it does not have to wait. -/
theorem threadJoin_balanced (hs : Balanced s)
    (hready : curr = tid ∨ ¬s.HasThread tid ∨ (s.threads tid).isJoinable = false ∨
      (s.threads tid).state = .zombie) :
    Post (threadJoin depth cpu curr tid) s (Ends Balanced) := by
  refine .get_bind (.ite (fun _ => hs) fun hjoin => .ite (fun hzombie => ?_) fun hzombie => ?_)
  · exact ends_bind threadCleanup_stays (threadCleanup_balanced hs hzombie) fun _ _ h => h
  · rcases hready with h | h | h | h
    · exact absurd (.inl h) hjoin
    · exact absurd (.inr (.inl h)) hjoin
    · exact absurd (.inr (.inr h)) hjoin
    · exact absurd h hzombie

theorem threadDetach_balanced (hs : Balanced s) :
    Post (threadDetach depth tid) s (Ends Balanced) := by
  refine .get_bind (.ite (fun _ => hs) fun _ => .modify_bind ?_)
  have hdetached : Balanced (s.modThread tid fun t => { t with isJoinable := false }) :=
    BalancedBut.modThread hs rfl rfl fun h => ⟨(hs.free tid h).resumes, (hs.free tid h).unawaited⟩
  refine .ite (fun hzombie => ?_) fun _ => hdetached
  refine ends_bind threadCleanup_stays (threadCleanup_balanced hdetached ?_) fun _ _ h => h
  rwa [threads_modThread, if_pos rfl]

/-! ### Creating and destroying processes -/

theorem fillProcess_balanced {ppid : ℕ} (hs : Balanced s) (hdead : ¬(s.procs pid).Live) :
    BalancedBut (· = pid) (s.fillProcess pid ppid) := by
  have howned : Owned (s.fillProcess pid ppid) := owned_fillProcess hs.owned hdead
  have hprocs : ∀ pid', pid' ≠ pid →
      ((s.fillProcess pid ppid).procs pid').counts = (s.procs pid').counts ∧
      ((s.fillProcess pid ppid).procs pid').tids = (s.procs pid').tids ∧
      ((s.fillProcess pid ppid).procs pid').state = (s.procs pid').state := by
    intro pid' hne
    rw [fillProcess]
    split
    · rw [procs_modProc, if_neg hne]
      exact ⟨rfl, rfl, rfl⟩
    · rw [procs_modProc, if_neg hne, procs_modProc]
      split
      · rename_i heq
        rw [heq]
        exact ⟨rfl, rfl, rfl⟩
      · exact ⟨rfl, rfl, rfl⟩
  have hthreads : (s.fillProcess pid ppid).threads = s.threads := by
    rw [fillProcess]
    split <;> rfl
  have hfresh : ∃ pgid, (s.fillProcess pid ppid).procs pid = Process.fresh ppid pgid := by
    rw [fillProcess]
    split <;> rw [procs_modProc, if_pos rfl] <;> exact ⟨_, rfl⟩
  obtain ⟨pgid, hfresh⟩ := hfresh
  refine ⟨howned, fun pid' hlive k => ?_, fun pid' hlive hne => ?_, fun tid hused => ?_⟩
  · by_cases heq : pid' = pid
    · rw [heq, off, tally, hfresh]
      cases k <;> rfl
    · rw [Process.Live, (hprocs pid' heq).2.2] at hlive
      have hoff : (s.fillProcess pid ppid).off pid' k = s.off pid' k :=
        off_congr (hprocs pid' heq).1 (hprocs pid' heq).2.1 fun _ => by rw [hthreads]
      rw [hoff]
      exact hs.off pid' hlive k
  · rw [Process.Live, (hprocs pid' hne).2.2] at hlive
    rw [(hprocs pid' hne).1, (hprocs pid' hne).2.2]
    exact hs.state pid' hlive not_false
  · rw [hthreads] at hused ⊢
    exact hs.free tid hused

theorem addToPgrp_tables : (s.addToPgrp pid).threads = s.threads ∧
    (s.addToPgrp pid).procs = s.procs ∧ (s.addToPgrp pid).threadCount = s.threadCount := by
  obtain ⟨_, heq⟩ := @addToPgrp_eq s pid
  rw [heq]
  exact ⟨rfl, rfl, rfl⟩

theorem removeFromPgrp_tables : (s.removeFromPgrp pid).threads = s.threads ∧
    (s.removeFromPgrp pid).procs = s.procs ∧
    (s.removeFromPgrp pid).threadCount = s.threadCount := by
  obtain ⟨_, heq⟩ := @removeFromPgrp_eq s pid
  rw [heq]
  exact ⟨rfl, rfl, rfl⟩

theorem spawn_balanced {ppid : ℕ} (hs : Balanced s) :
    Post (spawn depth ppid) s (Returned fun _ s' => Balanced s') := by
  refine spawn_returns hs (fun pid hpid => ?_) fun s₁ tid h₁ =>
    BalancedBut.of_ticked h₁ sameTables_addThreadLocked.ticked
  obtain ⟨hlt, hdead⟩ := unusedPid_spec hpid
  exact returned_of_post (threadCreate_balanced (fillProcess_balanced hs hdead)
    (hasProc_fillProcess hlt)) fun _ _ h₁ =>
      BalancedBut.of_tables h₁ addToPgrp_tables.1 addToPgrp_tables.2.1 addToPgrp_tables.2.2

/-- The threads of a process that is dead are dead. -/
theorem Balanced.zombie_threads (hs : Balanced s) (hlive : (s.procs pid).Live)
    (hzombie : (s.procs pid).state = .zombie) (htid : tid ∈ (s.procs pid).tids) :
    (s.threads tid).state = .zombie := by
  have hstate := hs.state pid hlive not_false
  rw [hzombie, ThreadCounts.state] at hstate
  -- no counter but that of the dead is positive
  have hcounts : ∀ k, k ≠ .zombie → (s.procs pid).counts.get k ≤ 0 := by
    intro k hk
    split at hstate
    · cases hstate
    · split at hstate
      · cases hstate
      · split at hstate
        · cases hstate
        · cases k <;> simp only [ThreadCounts.get] <;> first | omega | exact absurd rfl hk
  obtain ⟨hused, hpid⟩ := hs.owned.used pid tid htid
  have htally : ∀ k, k ≠ .zombie → (s.threads tid).state.kind ≠ some k := by
    intro k hk hkind
    have hoff := hs.off pid hlive k
    have hpos : 0 < s.tally pid k := countP_pos_iff.mpr ⟨tid, htid, decide_eq_true hkind⟩
    have := hcounts k hk
    rw [off] at hoff
    omega
  cases hthread : (s.threads tid).state with
  | zombie => rfl
  | unused => exact absurd hthread hused
  | ready | running => exact absurd (by rw [hthread]; rfl) (htally .running (by decide))
  | stopped => exact absurd (by rw [hthread]; rfl) (htally .stopped (by decide))
  | blockedInterruptable | blockedUninteruptable | blockedKillable =>
    exact absurd (by rw [hthread]; rfl) (htally .blocked (by decide))

/-- Removing a thread leaves the others that are dead. -/
theorem threadCleanup_zombies (hs : Owned s)
    (hall : ∀ tid' ∈ (s.procs pid).tids, (s.threads tid').state = .zombie) :
    Post (threadCleanup depth tid) s fun _ s' =>
      ∀ tid' ∈ (s'.procs pid).tids, (s'.threads tid').state = .zombie := by
  refine .get_bind (.modify_bind ?_)
  have hwoken := pcbThreadChangeState_woken depth (s.dropThread tid) (s.threads tid).pid .zombie
    .unused
  intro tid' htid'
  rw [hwoken.procs pid] at htid'
  rw [hwoken.state_iff tid' (by decide) (by decide)]
  rw [procs_dropThread] at htid'
  split at htid'
  · rename_i heq
    have hne : tid' ≠ tid := by
      rintro rfl
      exact (hs.nodup _).not_mem_erase htid'
    rw [threads_dropThread, if_neg hne]
    exact hall tid' (mem_of_mem_erase htid')
  · rename_i hne
    have hmem : tid' ∈ (s.procs pid).tids := htid'
    have hne' : tid' ≠ tid := by
      rintro rfl
      exact hne (hs.used pid tid' hmem).2.symm
    rw [threads_dropThread, if_neg hne']
    exact hall tid' hmem

theorem cleanupThreads_balanced {turns : ℕ} (hs : Balanced s)
    (hall : ∀ tid ∈ (s.procs pid).tids, (s.threads tid).state = .zombie) :
    Post (cleanupThreads depth pid turns) s (Returned fun _ s' => Balanced s') := by
  induction turns generalizing s with
  | zero => exact .get_bind (.ite (fun _ => trivial) fun _ => hs)
  | succ turns ih =>
    refine .get_bind ?_
    split
    · exact hs
    · rename_i tid rest htids
      have hmem : tid ∈ (s.procs pid).tids := htids ▸ mem_cons_self
      have hused := (hs.owned.used pid tid hmem).1
      rw [if_pos (hs.owned.hasThread_iff.mpr hused)]
      refine returned_bind (returned_and (threadCleanup_balanced hs (hall tid hmem))
        (returned_of_post (threadCleanup_zombies hs.owned hall) fun _ _ h => h))
        fun _ s₁ ⟨hbalanced, hzombies⟩ => ih hbalanced hzombies

theorem leaveParent_balanced (hs : Balanced s) (hnil : (s.procs pid).tids = []) :
    Balanced (s.leaveParent pid) := by
  have hgone : Balanced (s.modProc pid fun p => { p with state := .unused }) := by
    have hprocs : ∀ pid', ((s.modProc pid fun p => { p with state := .unused }).procs pid').Live →
        (s.modProc pid fun p => { p with state := .unused }).procs pid' = s.procs pid' := by
      intro pid' hlive
      rw [procs_modProc] at hlive ⊢
      split
      · rename_i heq
        rw [if_pos heq] at hlive
        exact absurd rfl hlive
      · rfl
    exact hs.congr (owned_modProc hs.owned rfl fun hne => absurd hnil hne) (fun _ => rfl)
      (fun pid' hlive => by rw [hprocs pid' hlive]; exact ⟨rfl, rfl, rfl⟩) hs.free
  rw [leaveParent]
  split
  · exact BalancedBut.modProc hgone rfl rfl rfl
  · exact hgone

/-- The processes that are destroyed are dead. -/
theorem balanced_destroyRule : DestroyRule depth
    (fun pid s => (s.procs pid).Live ∧ (s.procs pid).state = .zombie) fun _ s => Balanced s where
  dead hpid hzombie := ⟨hpid.2, hzombie⟩
  threads {_ pid s} hs hdead := by
    have hremoved : Balanced (s.removeFromPgrp pid) := BalancedBut.of_tables hs
      removeFromPgrp_tables.1 removeFromPgrp_tables.2.1 removeFromPgrp_tables.2.2
    have hall : ∀ tid ∈ ((s.removeFromPgrp pid).procs pid).tids,
        ((s.removeFromPgrp pid).threads tid).state = .zombie := by
      rw [removeFromPgrp_tables.1, removeFromPgrp_tables.2.1]
      exact fun tid => hs.zombie_threads hdead.1 hdead.2
    exact returned_of_post (returned_and (cleanupThreads_settled hremoved.owned)
      (cleanupThreads_balanced hremoved hall)) fun _ _ h₁ =>
        BalancedBut.modProc (leaveParent_balanced h₁.2 h₁.1.2) rfl rfl rfl
  skip hs _ := hs
  adopt hs _ := BalancedBut.modProc (BalancedBut.modProc hs rfl rfl rfl) rfl rfl rfl
  unblock hs := sendUnblockEvent_balanced hs

/-! ### Waiting for children -/

theorem cleanupThreads_stays {turns : ℕ} : Stays (cleanupThreads depth pid turns) := by
  induction turns with
  | zero => exact .get_bind fun _ => .ite .hang .pure
  | succ turns ih =>
    refine .get_bind fun s => ?_
    split
    · exact .pure
    · exact .ite (.bind threadCleanup_stays fun _ => ih) (.bind .modify fun _ => ih)

theorem leaveChildren_stays {destroy : ℕ → SchedM Unit} {children : List ℕ}
    (hdestroy : ∀ pid, Stays (destroy pid)) : Stays (leaveChildren destroy children) := by
  induction children with
  | nil => exact .pure
  | cons child rest ih =>
    exact .get_bind fun _ => .ite ih (.ite (.bind (hdestroy child) fun _ => ih)
      (.ite .hang (.bind .modify fun _ => .bind ih fun _ => .pure)))

theorem procDestroy_stays {nest : ℕ} :
    ∀ pid, Stays (procDestroy depth copied nest pid) := by
  induction nest with
  | zero => exact fun _ => .hang
  | succ nest ih =>
    intro pid
    refine .ite .pure (.bind .modify fun _ => .get_bind fun _ =>
      .bind cleanupThreads_stays fun _ => .bind .modify fun _ => .get_bind fun _ => .bind .modify fun _ =>
      .bind (leaveChildren_stays ih) fun _ => .ite (.get_bind fun _ => ?_) .pure)
    exact .bind sendUnblockEvent_stays fun _ => .pure

theorem canWaitOnChild_same {p : Process} :
    (canWaitOnChild p flags).2.tids = p.tids ∧ (canWaitOnChild p flags).2.counts = p.counts ∧
      (canWaitOnChild p flags).2.state = p.state := by
  obtain ⟨_, _, heq⟩ := canWaitOnChild_eq p flags
  rw [heq]
  exact ⟨rfl, rfl, rfl⟩

/-- The child that is found has a place in the table. -/
theorem doneChild_lt {child : ℕ}
    (h : s.doneChild curr waitPid flags = some child) : child < maxProcessCount := by
  rw [doneChild] at h
  split at h
  · have hfound := find?_some h
    exact (decide_eq_true_eq.mp hfound).1.1
  · split at h
    · rename_i hlt
      cases h
      exact hlt.1
    · cases h

theorem reportChild_balanced {child : ℕ} (hs : Balanced s) :
    Post (reportChild depth copied flags child) s (Ends Balanced) := by
  have hnoted : Balanced (s.modProc child fun p => (canWaitOnChild p flags).2) :=
    BalancedBut.modProc hs canWaitOnChild_same.1 canWaitOnChild_same.2.1 canWaitOnChild_same.2.2
  refine .modify_bind (.get_bind (.ite (fun hzombie => ?_) fun _ => hnoted))
  have hlive : ((s.modProc child fun p => (canWaitOnChild p flags).2).procs child).Live := by
    rw [Process.Live, hzombie]
    decide
  exact ends_bind (procDestroy_stays child) (balanced_destroyRule.procDestroy [] (fun _ hs => hs)
    hnoted ⟨hlive, hzombie⟩) fun _ _ h => h

/-- A call whose last step does not change anything. -/
theorem ends_map {g : α → β}
    (h : Post m s (Ends Q)) : Post (m >>= fun a => pure (g a)) s (Ends Q) := by
  refine h.bind (fun e s' he => ?_) fun a s' ha => ha
  cases e <;> exact he

theorem beginWait_balanced (hs : Balanced s) :
    Balanced (s.beginWait tid waitPid flags) :=
  BalancedBut.modProc (BalancedBut.modThread hs rfl rfl fun h =>
    ⟨(hs.free tid h).resumes, (hs.free tid h).unawaited⟩) rfl rfl rfl

theorem endWait_balanced (hs : Balanced s) : Balanced (s.endWait tid) :=
  BalancedBut.modProc (BalancedBut.modThread hs rfl rfl fun h =>
    ⟨(hs.free tid h).resumes, (hs.free tid h).unawaited⟩) rfl rfl rfl

theorem sWaitpid_balanced (hs : Balanced s)
    (hused : (s.threads tid).state ≠ .unused) (hrunning : ¬(s.threads tid).state.Blocked) :
    Post (sWaitpid depth cpu copied tid waitPid flags) s (Ends Balanced) := by
  refine .get_bind (.ite (fun _ => hs) fun _ => ?_)
  cases s.doneChild (s.threads tid).pid waitPid flags with
  | some child => exact ends_map (reportChild_balanced hs)
  | none =>
    refine .ite (fun _ => hs) fun _ => .modify_bind ?_
    have hstate : ((s.beginWait tid waitPid flags).threads tid).state =
        (s.threads tid).state := by
      rw [beginWait, threads_modProc, threads_modThread, if_pos rfl]
    exact ends_map (blockThread_balanced (beginWait_balanced hs) (by rwa [hstate])
      (not_wakesItself (by rwa [hstate])))

theorem sWaitpidAgain_balanced (hs : Balanced s)
    (hused : (s.threads tid).state ≠ .unused) (hrunning : ¬(s.threads tid).state.Blocked) :
    Post (sWaitpidAgain depth cpu copied tid) s (Ends Balanced) := by
  refine .get_bind ?_
  cases s.doneChild (s.threads tid).pid (s.threads tid).waitingForPid
      (s.threads tid).waitingForFlags with
  | some child =>
    exact .modify_bind (ends_map (reportChild_balanced (endWait_balanced hs)))
  | none => exact ends_map (blockThread_balanced hs hused (not_wakesItself hrunning))

end Sched

end OsPi
