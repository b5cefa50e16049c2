import OsPi.Sched.Processes

/-!
# Threads that a Call does not Touch

Which threads a call can change: those it is about, and the threads that wait for children, because
changes of states are told to parents. A thread that sleeps and is none of these is left alone by
all calls. In this module that is stated and proved for each call, for an arbitrary set of threads
that has those the call is about and all threads that wait for children among it.
-/

namespace OsPi

open Comp List

/-- A thread is kept from running until something wakes it; it may have been stopped meanwhile. -/
def Thread.InSleep (t : Thread) : Prop :=
  t.state.Blocked ∨ t.state = .stopped ∧ t.stoppedState.Blocked

instance (t : Thread) : Decidable t.InSleep := inferInstanceAs (Decidable (_ ∨ _))

theorem Thread.InSleep.not_runnable {t : Thread} (h : t.InSleep) : ¬Sched.Runnable t.state := by
  rcases h with h | ⟨h, -⟩
  · rintro (heq | heq) <;> rw [heq] at h <;> exact h
  · rintro (heq | heq) <;> rw [heq] at h <;> cases h

theorem Thread.InSleep.used {t : Thread} (h : t.InSleep) : t.state ≠ .unused := by
  rcases h with h | ⟨h, -⟩ <;> intro heq <;> rw [heq] at h
  · exact h
  · cases h

namespace Sched

variable {W : ℕ → Prop} {s s' s'' : Sched} {tid pid cpu depth signal : ℕ} {copied : ℕ → Bool}
  {flags : BitVec 32}

/-- A change that lets all threads sleep but those in `W`: sleeping threads are left as they are,
and nobody else is put in a queue for children or in the list of a process. -/
structure LetsSleep (W : ℕ → Prop) (s s' : Sched) : Prop where
  keeps : ∀ t, ¬W t → t < s.threadCount → (s.threads t).InSleep →
    s'.threads t = s.threads t ∧ t < s'.threadCount
  awaits : ∀ t, s'.Awaits t → s.Awaits t ∨ W t
  tids : ∀ pid, ∀ t ∈ (s'.procs pid).tids, t ∈ (s.procs pid).tids ∨ W t
  timers : s'.timers = s.timers
  now : s'.now = s.now

/-- All threads that wait for children are in the set. -/
def CoversAwaits (W : ℕ → Prop) (s : Sched) : Prop := ∀ t, s.Awaits t → W t

namespace LetsSleep

theorem refl (s : Sched) : LetsSleep W s s :=
  ⟨fun _ _ hlt _ => ⟨rfl, hlt⟩, fun _ => .inl, fun _ _ => .inl, rfl, rfl⟩

theorem trans (h : LetsSleep W s s') (h' : LetsSleep W s' s'') : LetsSleep W s s'' where
  keeps t hW hlt hsleep := by
    obtain ⟨heq, hlt'⟩ := h.keeps t hW hlt hsleep
    obtain ⟨heq', hlt''⟩ := h'.keeps t hW hlt' (heq ▸ hsleep)
    exact ⟨heq'.trans heq, hlt''⟩
  awaits t hawaits := by
    rcases h'.awaits t hawaits with hawaits | hW
    · exact h.awaits t hawaits
    · exact .inr hW
  tids pid t hmem := by
    rcases h'.tids pid t hmem with hmem | hW
    · exact h.tids pid t hmem
    · exact .inr hW
  timers := h'.timers.trans h.timers
  now := h'.now.trans h.now

theorem covers (h : LetsSleep W s s') (hs : CoversAwaits W s) : CoversAwaits W s' :=
  fun t hawaits => (h.awaits t hawaits).elim (hs t) id

theorem of_woken {who : ℕ → Prop} (h : Woken who s s') (hwho : ∀ t, who t → W t) :
    LetsSleep W s s' where
  keeps t hW hlt _ := by
    rcases h.threads t with heq | ⟨ht, -, -⟩
    · exact ⟨heq, h.threadCount ▸ hlt⟩
    · exact absurd (hwho t ht) hW
  awaits t hawaits := .inl (h.awaits_iff.mp hawaits)
  tids pid t hmem := by
    rw [h.procs pid] at hmem
    exact .inl hmem
  timers := h.timers
  now := h.now

theorem of_ticked (h : Ticked s s') : LetsSleep W s s' where
  keeps t _ hlt hsleep := by
    rcases h.threads t with heq | ⟨hrunnable, -⟩
    · exact ⟨heq, h.threadCount ▸ hlt⟩
    · exact absurd hrunnable hsleep.not_runnable
  awaits t := by
    rintro ⟨pid, hmem⟩
    rw [h.procs] at hmem
    exact .inl ⟨pid, hmem⟩
  tids pid t hmem := by
    rw [h.procs] at hmem
    exact .inl hmem
  timers := h.timers
  now := h.now

theorem modThread {f : Thread → Thread} (hW : W tid) : LetsSleep W s (s.modThread tid f) where
  keeps t ht hlt _ := by
    have hne : t ≠ tid := by
      rintro rfl
      exact ht hW
    rw [threads_modThread, if_neg hne]
    exact ⟨rfl, hlt⟩
  awaits _ := .inl
  tids _ _ := .inl
  timers := rfl
  now := rfl

theorem modProc {f : Process → Process}
    (hqueue : ∀ t ∈ (f (s.procs pid)).childWaitq, t ∈ (s.procs pid).childWaitq ∨ W t)
    (htids : ∀ t ∈ (f (s.procs pid)).tids, t ∈ (s.procs pid).tids ∨ W t) :
    LetsSleep W s (s.modProc pid f) where
  keeps _ _ hlt _ := ⟨rfl, hlt⟩
  awaits t := by
    rintro ⟨pid', hmem⟩
    rw [procs_modProc] at hmem
    split at hmem
    · exact (hqueue t hmem).imp_left fun h => ⟨pid, h⟩
    · exact .inl ⟨pid', hmem⟩
  tids pid' t hmem := by
    rw [procs_modProc] at hmem
    split at hmem
    · rename_i heq
      rw [heq]
      exact htids t hmem
    · exact .inl hmem
  timers := rfl
  now := rfl

theorem of_procs (hthreads : s'.threads = s.threads) (hprocs : s'.procs = s.procs)
    (hcount : s'.threadCount = s.threadCount) (htimers : s'.timers = s.timers)
    (hnow : s'.now = s.now) : LetsSleep W s s' where
  keeps t _ hlt _ := ⟨by rw [hthreads], hcount ▸ hlt⟩
  awaits t := by
    rintro ⟨pid, hmem⟩
    rw [hprocs] at hmem
    exact .inl ⟨pid, hmem⟩
  tids pid t hmem := by
    rw [hprocs] at hmem
    exact .inl hmem
  timers := htimers
  now := hnow

end LetsSleep

/-- A call that lets all threads sleep but those in `W`. -/
abbrev Gentle {α : Type} (W : ℕ → Prop) (m : SchedM α) (s : Sched) : Prop :=
  m.Post s fun _ s' => LetsSleep W s s'

/-- **The sequence rule** for calls that let threads sleep. -/
theorem gentle_bind {α β : Type} {m : SchedM α} {f : α → SchedM β}
    (hm : Gentle W m s) (hf : ∀ a s', LetsSleep W s s' → Gentle W (f a) s') :
    Gentle W (m >>= f) s :=
  .seq hm fun a s' h => (hf a s' h).mono fun _ _ h' => h.trans h'

theorem gentle_modify {β : Type} {g : Sched → Sched} {f : PUnit → SchedM β}
    (hg : LetsSleep W s (g s)) (hf : Gentle W (f ⟨⟩) (g s)) : Gentle W (modify g >>= f) s :=
  .modify_bind (hf.mono fun _ _ h => hg.trans h)

/-! ### Changing the states of threads -/

theorem pcbThreadChangeState_gentle {old new : ThreadState} (hs : CoversAwaits W s) :
    Gentle W (pcbThreadChangeState depth pid old new) s :=
  .of_woken (pcbThreadChangeState_woken depth s pid old new) hs

theorem unblockThread_gentle (hs : CoversAwaits W s) (hW : W tid) :
    Gentle W (unblockThread depth tid) s := by
  refine .of_woken (unblockThread_woken depth tid s) ?_
  rintro t (rfl | ht)
  · exact hW
  · exact hs t ht

theorem enterState_gentle {new : ThreadState} (hs : CoversAwaits W s) (hW : W tid) :
    Gentle W (enterState depth cpu tid new) s := by
  refine .get_bind (gentle_bind (pcbThreadChangeState_gentle hs) fun _ s₁ _ =>
    gentle_modify (.modThread hW) (.get_bind (.ite (fun _ => ?_) fun _ => .refl _)))
  exact .of_ticked ticked_schedulerTick

theorem stopThread_gentle (hs : CoversAwaits W s) (hW : W tid) :
    Gentle W (stopThread depth cpu tid) s := by
  refine .get_bind (.ite (fun _ => .refl s) fun _ => ?_)
  have hset : LetsSleep W s (s.modThread tid fun t => { t with stoppedState := t.state }) :=
    .modThread hW
  exact gentle_modify hset (enterState_gentle (hset.covers hs) hW)

theorem terminateThread_gentle (hs : CoversAwaits W s) (hW : W tid) :
    Gentle W (terminateThread depth cpu tid) s :=
  .get_bind (.ite (fun _ => .refl s) fun _ => enterState_gentle hs hW)

theorem blockThread_gentle {blocked : ThreadState} (hs : CoversAwaits W s) (hW : W tid) :
    Gentle W (blockThread depth cpu tid blocked) s :=
  .ite (fun _ => enterState_gentle hs hW) fun _ => .refl s

theorem continueThread_gentle (hs : CoversAwaits W s) (hW : W tid) :
    Gentle W (continueThread depth tid) s := by
  refine .get_bind (.ite (fun _ => ?_) fun _ => .refl s)
  refine gentle_bind (pcbThreadChangeState_gentle hs) fun _ s₁ _ =>
    gentle_modify (.modThread hW) (.ite (fun _ => ?_) fun _ => .refl _)
  exact .of_ticked sameTables_addThreadLocked.ticked

/-- `send_unblock_event` leaves a thread alone that does not wait for the event. -/
theorem sendUnblockEvent_gentle {event : BitVec 32} (hs : CoversAwaits W s)
    (hW : (s.threads tid).state.Blocked → (s.threads tid).blockedUntil &&& event ≠ 0 → W tid) :
    Gentle W (sendUnblockEvent depth tid event) s := by
  refine .get_bind (.ite (fun hwaits => ?_) fun _ => .refl s)
  exact gentle_bind (unblockThread_gentle hs (hW hwaits.2.1 hwaits.2.2)) fun _ s₁ _ =>
    .refl s₁

/-! ### Signals -/

theorem handleInterruptableSignal_gentle (hs : CoversAwaits W s) (hW : W tid) :
    Gentle W (handleInterruptableSignal depth cpu tid signal) s := by
  have hclear : LetsSleep W s (s.modThread tid fun t =>
      { t with pending := t.pending &&& ~~~sigBit signal }) := .modThread hW
  have hcovers := hclear.covers hs
  refine .get_bind (.ite (fun _ => gentle_modify hclear (terminateThread_gentle hcovers hW))
    fun _ => ?_)
  split
  · refine .ite (fun _ => gentle_modify hclear (terminateThread_gentle hcovers hW)) fun _ =>
      .ite (fun _ => gentle_modify hclear (stopThread_gentle hcovers hW)) fun _ =>
      .ite (fun _ => .refl s) fun _ => unblockThread_gentle hs hW
  · exact .ite (fun _ => gentle_modify hclear (terminateThread_gentle hcovers hW)) fun _ =>
      .refl s
  · exact .ite (fun _ => gentle_modify hclear (continueThread_gentle hcovers hW)) fun _ =>
      .refl s
  · exact .refl s

theorem pthreadKill_gentle (hs : CoversAwaits W s) (hW : W tid) :
    Gentle W (pthreadKill depth cpu tid signal) s := by
  have hnote : LetsSleep W s (s.setPending tid signal) := .modThread hW
  refine .get_bind (.ite (fun _ => .refl s) fun _ => .ite (fun _ => .refl s) fun _ =>
    gentle_modify hnote (.ite (fun _ => ?_) fun _ => .refl _))
  refine gentle_bind (gentle_bind (sendUnblockEvent_gentle (hnote.covers hs) fun _ _ => hW)
    fun _ s₁ h₁ => .get_bind (.ite (fun _ => ?_) fun _ => .refl s₁)) fun _ s₂ _ => .refl s₂
  exact handleInterruptableSignal_gentle (h₁.covers (hnote.covers hs)) hW

theorem killThreads_gentle {tids : List ℕ} {sent : Bool} (hs : CoversAwaits W s)
    (hW : ∀ t ∈ tids, W t) : Gentle W (killThreads depth cpu signal tids sent) s := by
  induction tids generalizing s sent with
  | nil => exact .refl s
  | cons tid rest ih =>
    exact gentle_bind (pthreadKill_gentle hs (hW tid mem_cons_self)) fun _ s₁ h₁ =>
      ih (h₁.covers hs) fun t ht => hW t (mem_cons_of_mem tid ht)

theorem killAny_gentle (hs : CoversAwaits W s)
    (hW : ∀ t ∈ (s.procs pid).tids, W t) : Gentle W (killAny depth cpu pid signal) s := by
  refine .get_bind ?_
  split
  · rename_i tid hfound
    have htid := hW tid (mem_of_find?_eq_some hfound)
    have hnote : LetsSleep W s (s.setPending tid signal) := .modThread htid
    exact gentle_modify hnote (handleInterruptableSignal_gentle (hnote.covers hs) htid)
  · have hpending : LetsSleep W s (s.modProc pid fun p =>
        { p with pending := p.pending ||| sigBit signal }) := .modProc (fun _ => .inl) fun _ => .inl
    exact hpending

theorem killProcess_gentle (hs : CoversAwaits W s)
    (hW : ∀ t ∈ (s.procs pid).tids, W t) : Gentle W (killProcess depth cpu pid signal) s := by
  refine .get_bind (.ite (fun _ => .refl s) fun _ => ?_)
  have hall : Gentle W (killThreads depth cpu signal (s.procs pid).tids false >>= fun sent =>
      pure (if sent then 0 else esrch)) s :=
    gentle_bind (killThreads_gentle hs hW) fun _ s₁ _ => .refl s₁
  split
  · exact hall
  · exact hall
  · exact hall
  · exact .refl s
  · exact gentle_bind (killAny_gentle hs hW) fun _ s₁ _ => .refl s₁

theorem killMembers_gentle {pids : List ℕ} {sent : Bool} (hs : CoversAwaits W s)
    (hW : ∀ pid ∈ pids, ∀ t ∈ (s.procs pid).tids, W t) :
    Gentle W (killMembers depth cpu signal pids sent) s := by
  induction pids generalizing s sent with
  | nil => exact .refl s
  | cons pid rest ih =>
    refine gentle_bind (killProcess_gentle hs (hW pid mem_cons_self)) fun _ s₁ h₁ =>
      ih (h₁.covers hs) fun pid' hpid' t ht => ?_
    rcases h₁.tids pid' t ht with ht | ht
    · exact hW pid' (mem_cons_of_mem pid hpid') t ht
    · exact ht

/-- The processes that `s_kill` sends a signal to. -/
def KillTarget (s : Sched) (pid : ℤ) (target : ℕ) : Prop :=
  if pid < 0 then ∃ g, s.pgrps (-pid) = some g ∧ target ∈ g.pids else target = pid.toNat

theorem sKill_gentle {pid signal : ℤ} (hs : CoversAwaits W s)
    (hW : ∀ target, s.KillTarget pid target → ∀ t ∈ (s.procs target).tids, W t) :
    Gentle W (sKill depth cpu pid signal) s := by
  refine .get_bind (.ite (fun _ => .refl s) fun _ => .ite (fun hneg => ?_) fun hneg => ?_)
  · cases hgroup : s.pgrps (-pid) with
    | none => exact .refl s
    | some g =>
      refine gentle_bind (killMembers_gentle hs fun target htarget => hW target ?_)
        fun _ s₁ _ => .refl s₁
      rw [KillTarget, if_pos hneg]
      exact ⟨g, hgroup, htarget⟩
  · refine killProcess_gentle hs (hW pid.toNat ?_)
    rw [KillTarget, if_neg hneg]

/-! ### Exits -/

theorem terminateOthers_gentle {curr : ℕ} {tids : List ℕ} (hs : CoversAwaits W s)
    (hW : ∀ t ∈ tids, W t) : Gentle W (terminateOthers depth cpu curr tids) s := by
  induction tids generalizing s with
  | nil => exact .refl s
  | cons tid rest ih =>
    have hrest : ∀ t ∈ rest, W t := fun t ht => hW t (mem_cons_of_mem tid ht)
    refine .get_bind (.ite (fun _ => ?_) fun _ => ih hs hrest)
    exact gentle_bind (terminateThread_gentle hs (hW tid mem_cons_self)) fun _ s₁ h₁ =>
      ih (h₁.covers hs) hrest

theorem exitProcess_gentle {code : BitVec 32} (hs : CoversAwaits W s) (hcurr : W tid)
    (hW : ∀ t ∈ (s.procs (s.threads tid).pid).tids, W t) :
    Gentle W (exitProcess depth cpu tid code) s := by
  have hcode : LetsSleep W s (s.modProc (s.threads tid).pid fun p => { p with exitCode := code }) :=
    .modProc (fun _ => .inl) fun _ => .inl
  refine .get_bind (gentle_modify hcode (gentle_bind
    (terminateOthers_gentle (hcode.covers hs) hW) fun _ s₁ h₁ => ?_))
  exact terminateThread_gentle (h₁.covers (hcode.covers hs)) hcurr

/-! ### Threads and processes that come and go -/

/-- The number of a new thread is not that of a thread in use. -/
theorem ne_unusedTid {t : ℕ} (ht : s.HasThread t) : t ≠ s.unusedTid := by
  rintro rfl
  rw [HasThread, unusedTid] at ht
  cases hfind : (List.range s.threadCount).find? fun tid =>
      decide ((s.threads tid).state = .unused) with
  | none =>
    rw [hfind] at ht
    exact Nat.lt_irrefl _ ht.1
  | some tid =>
    have hunused := find?_some hfind
    rw [hfind] at ht
    exact ht.2 (of_decide_eq_true hunused)

theorem addThread_gentle (hW : W s.unusedTid) : LetsSleep W s (s.addThread pid) where
  keeps t ht hlt _ := by
    have hne : t ≠ s.unusedTid := by
      rintro rfl
      exact ht hW
    have hcount : (s.addThread pid).threadCount = max s.threadCount (s.unusedTid + 1) := rfl
    rw [threads_addThread, if_neg hne]
    exact ⟨rfl, hcount ▸ Nat.lt_of_lt_of_le hlt (Nat.le_max_left ..)⟩
  awaits t := by
    rintro ⟨pid', hmem⟩
    rw [procs_addThread] at hmem
    exact .inl ⟨pid', hmem⟩
  tids pid' t hmem := by
    rw [procs_addThread] at hmem
    split at hmem
    · rcases mem_append.mp hmem with hmem | hmem
      · exact .inl hmem
      · rw [mem_singleton.mp hmem]
        exact .inr hW
    · exact .inl hmem
  timers := rfl
  now := rfl

theorem threadCreate_gentle (hs : CoversAwaits W s) (hW : W s.unusedTid) :
    Gentle W (threadCreate depth pid) s := by
  have hadd : LetsSleep W s (s.addThread pid) := addThread_gentle hW
  exact .get_bind (gentle_modify hadd (gentle_bind
    (pcbThreadChangeState_gentle (hadd.covers hs)) fun _ s₁ _ => .refl s₁))

theorem fillProcess_gentle {ppid : ℕ} : LetsSleep W s (s.fillProcess pid ppid) := by
  rw [fillProcess]
  split
  · exact .modProc nofun nofun
  · rename_i parent _
    have hchild : LetsSleep W s (s.modProc parent fun p =>
        { p with children := p.children ++ [pid] }) := .modProc (fun _ => .inl) fun _ => .inl
    exact hchild.trans (.modProc nofun nofun)

theorem addToPgrp_gentle : LetsSleep W s (s.addToPgrp pid) := by
  obtain ⟨_, heq⟩ := @addToPgrp_eq s pid
  rw [heq]
  exact .of_procs rfl rfl rfl rfl rfl

theorem spawn_gentle {ppid : ℕ} (hs : CoversAwaits W s) (hW : W s.unusedTid) :
    Gentle W (spawn depth ppid) s := by
  have hcreate : Gentle W (procCreate depth ppid) s := by
    refine .get_bind ?_
    cases s.unusedPid with
    | none => exact .refl s
    | some pid =>
      have hfill : LetsSleep W s (s.fillProcess pid ppid) := fillProcess_gentle
      have hunused : (s.fillProcess pid ppid).unusedTid = s.unusedTid := by
        rw [fillProcess]
        split <;> rfl
      refine gentle_modify hfill (gentle_bind (threadCreate_gentle (hfill.covers hs) ?_)
        fun _ s₁ _ => gentle_modify addToPgrp_gentle (.refl _))
      rwa [hunused]
  refine gentle_bind hcreate fun created s₁ _ => ?_
  cases created with
  | none => exact .refl s₁
  | some pid => exact gentle_modify (.of_ticked sameTables_addThreadLocked.ticked) (.refl _)

theorem dropThread_gentle (hW : W tid) : LetsSleep W s (s.dropThread tid) where
  keeps t ht hlt _ := by
    have hne : t ≠ tid := by
      rintro rfl
      exact ht hW
    have hcount : (s.dropThread tid).threadCount =
        if tid + 1 = s.threadCount then tid else s.threadCount := rfl
    rw [threads_dropThread, if_neg hne, hcount]
    refine ⟨rfl, ?_⟩
    split
    · omega
    · exact hlt
  awaits t := by
    rintro ⟨pid', hmem⟩
    rw [procs_dropThread] at hmem
    exact .inl ⟨pid', hmem⟩
  tids pid' t hmem := by
    rw [procs_dropThread] at hmem
    split at hmem
    · exact .inl (mem_of_mem_erase hmem)
    · exact .inl hmem
  timers := rfl
  now := rfl

/-! ### Reaping -/

/-- To be among the processes that may be destroyed together with a process: it is the process
itself, or a child of one of them. -/
inductive Under (s : Sched) (root : ℕ) : ℕ → Prop
  | root : Under s root root
  | child {pid child : ℕ} (h : Under s root pid) (hchild : child ∈ (s.procs pid).children) :
      Under s root child

/-- A set of processes `D` that has the children of its members, with their threads in `W`, and
everybody in `W` who may be woken. -/
structure Within (D W : ℕ → Prop) (s : Sched) : Prop where
  closed : ∀ pid, D pid → ∀ child ∈ (s.procs pid).children, D child
  tids : ∀ pid, D pid → ∀ t ∈ (s.procs pid).tids, W t
  awaits : CoversAwaits W s
  newChild : ∀ t, (s.threads t).state.Blocked →
    (s.threads t).blockedUntil &&& blockUntilNewChild ≠ 0 → W t

variable {D : ℕ → Prop}

/-- The set stays closed, and nobody begins to wait. -/
theorem Within.of_letsSleep (h : Within D W s) (hs : LetsSleep W s s')
    (hchildren : ∀ pid, D pid → ∀ child ∈ (s'.procs pid).children, D child)
    (hthreads : ∀ t, s'.threads t = s.threads t ∨ ¬(s'.threads t).state.Blocked) :
    Within D W s' where
  closed := hchildren
  tids pid hpid t ht := (hs.tids pid t ht).elim (h.tids pid hpid t) id
  awaits := hs.covers h.awaits
  newChild t hblocked hevent := by
    rcases hthreads t with heq | hnot
    · rw [heq] at hblocked hevent
      exact h.newChild t hblocked hevent
    · exact absurd hblocked hnot

/-- What destroying processes does. -/
def Destroys (D W : ℕ → Prop) (s s' : Sched) : Prop := Within D W s' ∧ LetsSleep W s s'

theorem Destroys.trans (h : Destroys D W s s') (h' : Destroys D W s' s'') : Destroys D W s s'' :=
  ⟨h'.1, h.2.trans h'.2⟩

theorem destroys_bind {α β : Type} {m : SchedM α} {f : α → SchedM β}
    (hm : Post m s fun _ s' => Destroys D W s s')
    (hf : ∀ a s', Within D W s' → Post (f a) s' fun _ s'' => Destroys D W s' s'') :
    Post (m >>= f) s fun _ s' => Destroys D W s s' :=
  .seq hm fun a s' h => (hf a s' h.1).mono fun _ _ h' => h.trans h'

theorem destroys_modify {β : Type} {g : Sched → Sched} {f : PUnit → SchedM β}
    (hg : Destroys D W s (g s)) (hf : Post (f ⟨⟩) (g s) fun _ s' => Destroys D W (g s) s') :
    Post (modify g >>= f) s fun _ s' => Destroys D W s s' :=
  .modify_bind (hf.mono fun _ _ h => hg.trans h)

/-- A change of processes alone. -/
theorem destroys_of_procs (h : Within D W s) (hs : LetsSleep W s s')
    (hthreads : s'.threads = s.threads)
    (hchildren : ∀ pid, D pid → ∀ child ∈ (s'.procs pid).children, D child) : Destroys D W s s' :=
  ⟨h.of_letsSleep hs hchildren fun t => .inl (by rw [hthreads]), hs⟩

theorem destroys_of_woken {who : ℕ → Prop} (h : Within D W s) (hs : LetsSleep W s s')
    (hwoken : Woken who s s') : Destroys D W s s' := by
  refine ⟨h.of_letsSleep hs (fun pid hpid => ?_) fun t => ?_, hs⟩
  · rw [hwoken.procs pid]
    exact h.closed pid hpid
  · rcases hwoken.threads t with heq | ⟨-, -, heq⟩
    · exact .inl heq
    · rw [heq]
      exact .inr not_false

theorem threadCleanup_destroys (h : Within D W s) (hW : W tid) :
    Post (threadCleanup depth tid) s fun _ s' => Destroys D W s s' := by
  have hlets : LetsSleep W s (s.dropThread tid) := dropThread_gentle hW
  have hdrop : Destroys D W s (s.dropThread tid) := by
    refine ⟨h.of_letsSleep hlets (fun pid hpid => ?_) fun t => ?_, hlets⟩
    · rw [procs_dropThread]
      exact h.closed pid hpid
    · rw [threads_dropThread]
      split
      · exact .inr not_false
      · exact .inl rfl
  exact .get_bind (destroys_modify hdrop (destroys_of_woken hdrop.1
    (pcbThreadChangeState_gentle hdrop.1.awaits) (pcbThreadChangeState_woken ..)))

theorem cleanupThreads_destroys {turns : ℕ} (h : Within D W s) (hpid : D pid) :
    Post (cleanupThreads depth pid turns) s fun _ s' => Destroys D W s s' := by
  induction turns generalizing s with
  | zero => exact .get_bind (.ite (fun _ => ⟨h, .refl s⟩) fun _ => ⟨h, .refl s⟩)
  | succ turns ih =>
    refine .get_bind ?_
    split
    · exact ⟨h, .refl s⟩
    · rename_i tid rest htids
      have htid : W tid := h.tids pid hpid tid (htids ▸ mem_cons_self)
      refine .ite (fun _ => destroys_bind (threadCleanup_destroys h htid) fun _ _ h₁ => ih h₁)
        fun _ => ?_
      have hlets : LetsSleep W s (s.modProc pid fun p => { p with tids := rest }) :=
        .modProc (fun _ => .inl) fun t ht => .inl (htids ▸ mem_cons_of_mem tid ht)
      have hrest : Destroys D W s (s.modProc pid fun p => { p with tids := rest }) := by
        refine destroys_of_procs h hlets rfl fun pid' hpid' => ?_
        rw [procs_modProc]
        split
        · exact h.closed pid hpid
        · exact h.closed pid' hpid'
      exact destroys_modify hrest (ih hrest.1)

theorem leaveParent_destroys (h : Within D W s) : Destroys D W s (s.leaveParent pid) := by
  have hgone : Destroys D W s (s.modProc pid fun p => { p with state := .unused }) := by
    refine destroys_of_procs h (.modProc (fun _ => .inl) fun _ => .inl) rfl fun pid' hpid' => ?_
    rw [procs_modProc]
    split
    · rename_i heq
      exact h.closed pid (heq ▸ hpid')
    · exact h.closed pid' hpid'
  rw [leaveParent]
  split
  · refine hgone.trans (destroys_of_procs hgone.1 (.modProc (fun _ => .inl) fun _ => .inl) rfl
      fun pid' hpid' child hchild => ?_)
    rw [procs_modProc] at hchild
    split at hchild
    · rename_i heq
      exact hgone.1.closed _ (heq ▸ hpid') child (mem_of_mem_erase hchild)
    · exact hgone.1.closed pid' hpid' child hchild
  · exact hgone

theorem adopt_destroys {child : ℕ} (h : Within D W s) (hchild : D child) :
    Destroys D W s (s.adopt child) := by
  have hlist : Destroys D W s (s.modProc 0 fun p =>
      { p with children := p.children ++ [child] }) := by
    refine destroys_of_procs h (.modProc (fun _ => .inl) fun _ => .inl) rfl
      fun pid hpid child' hmem => ?_
    rw [procs_modProc] at hmem
    split at hmem
    · rename_i heq
      rcases mem_append.mp hmem with hmem | hmem
      · exact h.closed 0 (heq ▸ hpid) child' hmem
      · rwa [mem_singleton.mp hmem]
    · exact h.closed pid hpid child' hmem
  refine hlist.trans (destroys_of_procs hlist.1 (.modProc (fun _ => .inl) fun _ => .inl) rfl
    fun pid hpid => ?_)
  rw [adopt, procs_modProc]
  split
  · rename_i heq
    exact hlist.1.closed child (heq ▸ hpid)
  · exact hlist.1.closed pid hpid

theorem leaveChildren_destroys {destroy : ℕ → SchedM Unit} {children : List ℕ}
    (hdestroy : ∀ pid s, Within D W s → D pid →
      Post (destroy pid) s fun _ s' => Destroys D W s s') (h : Within D W s)
    (hD : ∀ child ∈ children, D child) :
    Post (leaveChildren destroy children) s fun _ s' => Destroys D W s s' := by
  induction children generalizing s with
  | nil => exact ⟨h, .refl s⟩
  | cons child rest ih =>
    have hchild := hD child mem_cons_self
    have hrest : ∀ child ∈ rest, D child := fun c hc => hD c (mem_cons_of_mem child hc)
    refine .get_bind (.ite (fun _ => ih h hrest) fun _ => .ite (fun _ => ?_) fun _ =>
      .ite (fun _ => ⟨h, .refl s⟩) fun _ => ?_)
    · exact destroys_bind (hdestroy child s h hchild) fun _ _ h₁ => ih h₁ hrest
    · have hadopt := adopt_destroys h hchild
      exact destroys_modify hadopt (destroys_bind (ih hadopt.1 hrest) fun _ s₁ h₁ =>
        ⟨h₁, .refl s₁⟩)

theorem sendUnblockEvent_destroys (h : Within D W s) :
    Post (sendUnblockEvent depth tid blockUntilNewChild) s fun _ s' => Destroys D W s s' := by
  refine .get_bind (.ite (fun hwaits => ?_) fun _ => ⟨h, .refl s⟩)
  have hW : W tid := h.newChild tid hwaits.2.1 hwaits.2.2
  exact destroys_bind (destroys_of_woken h (unblockThread_gentle h.awaits hW)
    (unblockThread_woken depth tid s)) fun _ s₁ h₁ => ⟨h₁, .refl s₁⟩

theorem procDestroy_destroys {nest : ℕ} (h : Within D W s) (hpid : D pid) :
    Post (procDestroy depth copied nest pid) s fun _ s' => Destroys D W s s' := by
  induction nest generalizing s pid with
  | zero => exact ⟨h, .refl s⟩
  | succ nest ih =>
    refine .ite (fun _ => ⟨h, .refl s⟩) fun _ => ?_
    have hremoved : Destroys D W s (s.removeFromPgrp pid) := by
      obtain ⟨_, heq⟩ := @removeFromPgrp_eq s pid
      rw [heq]
      exact destroys_of_procs h (.of_procs rfl rfl rfl rfl rfl) rfl h.closed
    refine destroys_modify hremoved (.get_bind (destroys_bind
      (cleanupThreads_destroys hremoved.1 hpid) fun _ s₁ h₁ => ?_))
    have hleft : Destroys D W s₁ (s₁.leaveParent pid) := leaveParent_destroys h₁
    have hbare : Destroys D W (s₁.leaveParent pid)
        ((s₁.leaveParent pid).modProc pid fun p => { p with children := [] }) := by
      refine destroys_of_procs hleft.1 (.modProc (fun _ => .inl) fun _ => .inl) rfl
        fun pid' hpid' child hchild => ?_
      rw [procs_modProc] at hchild
      split at hchild
      · exact (not_mem_nil hchild).elim
      · exact hleft.1.closed pid' hpid' child hchild
    refine destroys_modify hleft (.get_bind (destroys_modify hbare (destroys_bind
      (leaveChildren_destroys (fun _ _ h hpid => ih h hpid) hbare.1 fun child hchild =>
        hleft.1.closed pid hpid child (mem_reverse.mp hchild)) fun added s₂ h₂ => ?_)))
    refine .ite (fun _ => .get_bind ?_) fun _ => ⟨h₂, .refl s₂⟩
    exact destroys_bind (sendUnblockEvent_destroys h₂) fun _ s₃ h₃ => ⟨h₃, .refl s₃⟩

/-- Whom the end of `s_waitpid_impl` can touch: if the child is dead, the threads of the processes
that are destroyed, and threads that wait for a new child. -/
def ReapTouches (s : Sched) (child t : ℕ) : Prop :=
  (s.procs child).state = .zombie ∧
    ((∃ pid, s.Under child pid ∧ t ∈ (s.procs pid).tids) ∨
      (s.threads t).state.Blocked ∧ (s.threads t).blockedUntil &&& blockUntilNewChild ≠ 0)

/-- The queues for children do not matter for this. -/
theorem reapTouches_endWait {child t : ℕ} (h : (s.endWait tid).ReapTouches child t) :
    s.ReapTouches child t := by
  have hprocs : ∀ pid, ((s.endWait tid).procs pid).state = (s.procs pid).state ∧
      ((s.endWait tid).procs pid).tids = (s.procs pid).tids ∧
      ((s.endWait tid).procs pid).children = (s.procs pid).children := fun pid =>
    ⟨modProc_congr Process.state rfl pid, modProc_congr Process.tids rfl pid,
      modProc_congr Process.children rfl pid⟩
  have hthreads : ((s.endWait tid).threads t).state = (s.threads t).state ∧
      ((s.endWait tid).threads t).blockedUntil = (s.threads t).blockedUntil := by
    rw [endWait, threads_modProc]
    exact ⟨modThread_congr Thread.state rfl t, modThread_congr Thread.blockedUntil rfl t⟩
  have hunder : ∀ pid, (s.endWait tid).Under child pid → s.Under child pid := by
    intro pid hpid
    induction hpid with
    | root => exact .root
    | child _ hchild ih => exact .child ih ((hprocs _).2.2 ▸ hchild)
  obtain ⟨hzombie, htouches⟩ := h
  rw [(hprocs child).1] at hzombie
  refine ⟨hzombie, htouches.imp ?_ ?_⟩
  · rintro ⟨pid, hpid, ht⟩
    exact ⟨pid, hunder pid hpid, (hprocs pid).2.1 ▸ ht⟩
  · rw [hthreads.1, hthreads.2]
    exact id

theorem reportChild_gentle {child : ℕ}
    (hs : CoversAwaits W s) (hW : ∀ t, s.ReapTouches child t → W t) :
    Gentle W (reportChild depth copied flags child) s := by
  obtain ⟨_, _, hchild⟩ := canWaitOnChild_eq (s.procs child) flags
  have hnote : LetsSleep W s (s.modProc child fun p => (canWaitOnChild p flags).2) := by
    refine .modProc (fun t ht => .inl ?_) fun t ht => .inl ?_ <;> rwa [hchild] at ht
  refine gentle_modify hnote (.get_bind (.ite (fun hzombie => ?_) fun _ => .refl _))
  have hprocs : ∀ pid, ((s.modProc child fun p => (canWaitOnChild p flags).2).procs pid).children =
        (s.procs pid).children := modProc_congr Process.children (by rw [hchild])
  rw [procs_modProc, if_pos rfl, hchild] at hzombie
  have hwithin : Within (s.Under child) W
      (s.modProc child fun p => (canWaitOnChild p flags).2) := by
    refine ⟨fun pid hpid c hc => ?_, fun pid hpid t ht => ?_, hnote.covers hs,
      fun t hblocked hevent => hW t ⟨hzombie, .inr ⟨hblocked, hevent⟩⟩⟩
    · rw [hprocs] at hc
      exact .child hpid hc
    · rcases hnote.tids pid t ht with ht | ht
      · exact hW t ⟨hzombie, .inl ⟨pid, hpid, ht⟩⟩
      · exact ht
  exact gentle_bind ((procDestroy_destroys hwithin .root).mono fun _ _ h => h.2) fun _ s₁ _ =>
    .refl s₁

theorem beginWait_gentle {waitPid : ℤ} (hW : W tid) :
    LetsSleep W s (s.beginWait tid waitPid flags) := by
  have hthread : LetsSleep W s (s.modThread tid fun t =>
      { t with waitingForPid := waitPid, waitingForFlags := flags }) := .modThread hW
  refine hthread.trans (.modProc (fun t ht => ?_) fun _ => .inl)
  rcases mem_append.mp ht with ht | ht
  · exact .inl ht
  · rw [mem_singleton.mp ht]
    exact .inr hW

theorem endWait_gentle (hW : W tid) : LetsSleep W s (s.endWait tid) := by
  have hthread : LetsSleep W s (s.modThread tid fun t => { t with waitingForPid := -2 }) :=
    .modThread hW
  exact hthread.trans (.modProc (fun t ht => .inl (mem_of_mem_erase ht)) fun _ => .inl)

theorem sWaitpid_gentle {waitPid : ℤ} (hs : CoversAwaits W s) (hcurr : W tid)
    (hW : ∀ child, s.doneChild (s.threads tid).pid waitPid flags = some child →
      ∀ t, s.ReapTouches child t → W t) :
    Gentle W (sWaitpid depth cpu copied tid waitPid flags) s := by
  refine .get_bind (.ite (fun _ => .refl s) fun _ => ?_)
  cases hdone : s.doneChild (s.threads tid).pid waitPid flags with
  | some child =>
    exact gentle_bind (reportChild_gentle hs (hW child hdone)) fun _ s₁ _ => .refl s₁
  | none =>
    have hbegin : LetsSleep W s (s.beginWait tid waitPid flags) := beginWait_gentle hcurr
    exact .ite (fun _ => .refl s) fun _ => gentle_modify hbegin (gentle_bind
      (blockThread_gentle (hbegin.covers hs) hcurr) fun _ s₁ _ => .refl s₁)

theorem sWaitpidAgain_gentle (hs : CoversAwaits W s) (hcurr : W tid)
    (hW : ∀ child, s.doneChild (s.threads tid).pid (s.threads tid).waitingForPid
      (s.threads tid).waitingForFlags = some child → ∀ t, s.ReapTouches child t → W t) :
    Gentle W (sWaitpidAgain depth cpu copied tid) s := by
  refine .get_bind ?_
  cases hdone : s.doneChild (s.threads tid).pid (s.threads tid).waitingForPid
      (s.threads tid).waitingForFlags with
  | some child =>
    have hend : LetsSleep W s (s.endWait tid) := endWait_gentle hcurr
    exact gentle_modify hend (gentle_bind (reportChild_gentle (hend.covers hs)
      fun t ht => hW child hdone t (reapTouches_endWait ht)) fun _ s₁ _ => .refl s₁)
  | none =>
    exact gentle_bind (blockThread_gentle hs hcurr) fun _ s₁ _ => .refl s₁

end Sched

end OsPi
