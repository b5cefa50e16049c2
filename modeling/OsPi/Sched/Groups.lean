import Mathlib.Data.List.Nodup
import OsPi.Lib.Machine
import OsPi.Sched.Ownership

/-!
# Process Groups

The group of a process is stored twice: the process has the number of its group, and the table of
groups has, under that number, the list of its members. This module shows that the two stay in step
over every sequence of process creations, calls of `setpgrp`, exits and reaps, when there is memory.

While a process is moved it is in no group for a while; `Apart` is the invariant for that time.
-/

namespace OsPi

open Function Comp List Option

namespace Sched

variable {s s' : Sched} {pid depth nest : ℕ} {out : ℕ → Prop}

/-- The processes, except for some that are in no group, and the table of groups are in step. -/
structure GroupedBut (out : ℕ → Prop) (s : Sched) : Prop where
  listed : ∀ pid, s.HasProc pid → ¬out pid →
    ∃ g, s.pgrps (s.procs pid).pgid = some g ∧ pid ∈ g.pids
  members : ∀ pgid g, s.pgrps pgid = some g → ∀ pid ∈ g.pids,
    s.HasProc pid ∧ ¬out pid ∧ (s.procs pid).pgid = pgid
  nodup : ∀ pgid g, s.pgrps pgid = some g → g.pids.Nodup
  refcount : ∀ pgid g, s.pgrps pgid = some g → g.refcount = g.pids.length
  nonempty : ∀ pgid g, s.pgrps pgid = some g → g.pids ≠ []

/-- Every process is in its group. -/
abbrev Grouped (s : Sched) : Prop := GroupedBut (fun _ => False) s

/-- One process is in no group, and every other one is in its group. -/
abbrev Apart (pid : ℕ) (s : Sched) : Prop := GroupedBut (· = pid) s

theorem grouped_zero : Grouped Sched.zero :=
  ⟨fun _ h => absurd rfl h.2, nofun, nofun, nofun, nofun⟩

/-- What groups depend on. -/
theorem GroupedBut.of_same (h : GroupedBut out s) (hlive : SameLive s s')
    (hpgid : ∀ pid, (s'.procs pid).pgid = (s.procs pid).pgid) (hpgrps : s'.pgrps = s.pgrps) :
    GroupedBut out s' where
  listed pid hpid hout := by
    rw [hpgrps, hpgid]
    exact h.listed pid (hlive.hasProc_iff.mp hpid) hout
  members pgid g hg pid hmem := by
    rw [hpgrps] at hg
    rw [hlive.hasProc_iff, hpgid]
    exact h.members pgid g hg pid hmem
  nodup pgid g hg := h.nodup pgid g (hpgrps ▸ hg)
  refcount pgid g hg := h.refcount pgid g (hpgrps ▸ hg)
  nonempty pgid g hg := h.nonempty pgid g (hpgrps ▸ hg)

theorem GroupedBut.of_family (h : GroupedBut out s) (hsame : SameFamily s s') : GroupedBut out s' :=
  h.of_same hsame.live hsame.pgid hsame.pgrps

/-- A change of the children or of the parent of a process. -/
theorem GroupedBut.modProc {f : Process → Process} (h : GroupedBut out s)
    (hlive : (f (s.procs pid)).Live ↔ (s.procs pid).Live)
    (hpgid : (f (s.procs pid)).pgid = (s.procs pid).pgid) : GroupedBut out (s.modProc pid f) := by
  exact h.of_same (.modProc hlive) (modProc_congr Process.pgid hpgid) rfl

namespace Apart

/-- Any change of the process that is in no group. -/
theorem modProc {f : Process → Process} (h : Apart pid s) : Apart pid (s.modProc pid f) where
  listed pid' hpid' hne := by
    have heq : (s.modProc pid f).procs pid' = s.procs pid' := by rw [procs_modProc, if_neg hne]
    rw [HasProc, heq] at hpid'
    rw [heq]
    exact h.listed pid' hpid' hne
  members pgid g hg pid' hmem := by
    obtain ⟨hpid', hne, hpgid⟩ := h.members pgid g hg pid' hmem
    have heq : (s.modProc pid f).procs pid' = s.procs pid' := by rw [procs_modProc, if_neg hne]
    rw [HasProc, heq]
    exact ⟨hpid', hne, hpgid⟩
  nodup := h.nodup
  refcount := h.refcount
  nonempty := h.nonempty

theorem of_grouped (h : Grouped s) (hdead : ¬(s.procs pid).Live) : Apart pid s where
  listed pid' hpid' _ := h.listed pid' hpid' not_false
  members pgid g hg pid' hmem := by
    obtain ⟨hpid', -, hpgid⟩ := h.members pgid g hg pid' hmem
    refine ⟨hpid', ?_, hpgid⟩
    rintro rfl
    exact hdead hpid'.2
  nodup := h.nodup
  refcount := h.refcount
  nonempty := h.nonempty

theorem grouped (h : Apart pid s) (hdead : ¬(s.procs pid).Live) : Grouped s where
  listed pid' hpid' _ := by
    refine h.listed pid' hpid' ?_
    rintro rfl
    exact hdead hpid'.2
  members pgid g hg pid' hmem := by
    obtain ⟨hpid', -, hpgid⟩ := h.members pgid g hg pid' hmem
    exact ⟨hpid', not_false, hpgid⟩
  nodup := h.nodup
  refcount := h.refcount
  nonempty := h.nonempty

end Apart

/-! ### Leaving and joining a group -/

@[simp] theorem procs_addToPgrp : (s.addToPgrp pid).procs = s.procs := by
  obtain ⟨_, heq⟩ := @addToPgrp_eq s pid
  rw [heq]

@[simp] theorem procs_removeFromPgrp : (s.removeFromPgrp pid).procs = s.procs := by
  obtain ⟨_, heq⟩ := @removeFromPgrp_eq s pid
  rw [heq]

/-- A process that has left its group is in none, and the group is dropped if it is empty now. -/
theorem removeFromPgrp_apart (h : Grouped s) (hpid : s.HasProc pid) :
    Apart pid (s.removeFromPgrp pid) := by
  obtain ⟨g, hg, hmem⟩ := h.listed pid hpid not_false
  have hcount := h.refcount _ g hg
  have hlen := length_erase_of_mem hmem
  have hpos := length_pos_of_mem hmem
  -- a group that is left was there before, and is its own part without the process
  have hleft : ∀ pgid g', (s.removeFromPgrp pid).pgrps pgid = some g' →
      pgid ≠ (s.procs pid).pgid ∧ s.pgrps pgid = some g' ∨
      pgid = (s.procs pid).pgid ∧ g' = ⟨g.pids.erase pid, g.refcount - 1⟩ ∧ 0 < g.refcount - 1 := by
    intro pgid g' hg'
    rw [removeFromPgrp, if_pos hpid, hg] at hg'
    dsimp only at hg'
    rw [update_apply, Pgrp.without, if_pos hmem] at hg'
    split at hg'
    · rename_i heq
      split at hg'
      · cases hg'
      · rename_i hcount
        exact .inr ⟨heq, (some.inj hg').symm, Int.not_le.mp hcount⟩
    · exact .inl ⟨‹_›, hg'⟩
  refine ⟨fun pid' hpid' hne => ?_, fun pgid g' hg' pid' hmem' => ?_, fun pgid g' hg' => ?_,
    fun pgid g' hg' => ?_, fun pgid g' hg' => ?_⟩
  · rw [HasProc, procs_removeFromPgrp] at hpid'
    obtain ⟨g', hg', hmem'⟩ := h.listed pid' hpid' not_false
    rw [removeFromPgrp, if_pos hpid, hg]
    dsimp only
    rw [update_apply, Pgrp.without, if_pos hmem]
    split
    · rename_i heq
      rw [heq, hg] at hg'
      obtain rfl : g = g' := some.inj hg'
      have hmem'' : pid' ∈ g.pids.erase pid := (mem_erase_of_ne hne).mpr hmem'
      have hpos' := length_pos_of_mem hmem''
      rw [if_neg (by dsimp only; omega)]
      exact ⟨_, rfl, hmem''⟩
    · exact ⟨g', hg', hmem'⟩
  · rw [HasProc, procs_removeFromPgrp]
    rcases hleft pgid g' hg' with ⟨hne, hold⟩ | ⟨rfl, rfl, -⟩
    · obtain ⟨hpid', -, hpgid⟩ := h.members pgid g' hold pid' hmem'
      refine ⟨hpid', ?_, hpgid⟩
      rintro rfl
      exact hne hpgid.symm
    · obtain ⟨hpid', -, hpgid⟩ := h.members _ g hg pid' (mem_of_mem_erase hmem')
      refine ⟨hpid', ?_, hpgid⟩
      rintro rfl
      exact (h.nodup _ g hg).not_mem_erase hmem'
  · rcases hleft pgid g' hg' with ⟨-, hold⟩ | ⟨-, rfl, -⟩
    · exact h.nodup pgid g' hold
    · exact (h.nodup _ g hg).erase pid
  · rcases hleft pgid g' hg' with ⟨-, hold⟩ | ⟨-, rfl, -⟩
    · exact h.refcount pgid g' hold
    · dsimp only
      omega
  · rcases hleft pgid g' hg' with ⟨-, hold⟩ | ⟨-, rfl, hcount'⟩
    · exact h.nonempty pgid g' hold
    · refine ne_nil_of_length_pos ?_
      dsimp only
      omega

/-- A process that is in no group joins the one it has the number of. -/
theorem addToPgrp_grouped (h : Apart pid s) (hpid : s.HasProc pid) : Grouped (s.addToPgrp pid) := by
  -- the group that the process has joined, and the others
  have hjoined : ∃ g, (s.addToPgrp pid).pgrps = update s.pgrps (s.procs pid).pgid (some g) ∧
      pid ∈ g.pids ∧ g.pids.Nodup ∧ g.refcount = g.pids.length ∧
      (∀ g', s.pgrps (s.procs pid).pgid = some g' → ∀ pid' ∈ g'.pids, pid' ∈ g.pids) ∧
      ∀ pid' ∈ g.pids, s.HasProc pid' ∧ (s.procs pid').pgid = (s.procs pid).pgid := by
    rw [addToPgrp, if_pos hpid]
    split
    · rename_i hnone
      refine ⟨_, rfl, mem_singleton_self _, pairwise_singleton .., rfl, ?_, ?_⟩
      · intro g' hg'
        rw [hnone] at hg'
        cases hg'
      · intro pid' hmem
        rw [mem_singleton.mp hmem]
        exact ⟨hpid, rfl⟩
    · rename_i g hg
      have hnot : pid ∉ g.pids := fun hmem => (h.members _ g hg pid hmem).2.1 rfl
      rw [if_neg hnot]
      refine ⟨_, rfl, mem_append_right _ (mem_singleton_self _), ?_, ?_, ?_, ?_⟩
      · refine nodup_append.mpr ⟨h.nodup _ g hg, pairwise_singleton .., ?_⟩
        rintro pid' hmem pid'' hmem' rfl
        rw [mem_singleton.mp hmem'] at hmem
        exact hnot hmem
      · have := h.refcount _ g hg
        rw [length_append, length_singleton]
        dsimp only
        omega
      · intro g' hg' pid' hmem
        obtain rfl : g = g' := some.inj (hg.symm.trans hg')
        exact mem_append_left _ hmem
      · intro pid' hmem
        rcases mem_append.mp hmem with hmem | hmem
        · obtain ⟨hpid', -, hpgid⟩ := h.members _ g hg pid' hmem
          exact ⟨hpid', hpgid⟩
        · rw [mem_singleton.mp hmem]
          exact ⟨hpid, rfl⟩
  obtain ⟨g, hpgrps, hmem, hnodup, hcount, hold, hmembers⟩ := hjoined
  have hcases : ∀ pgid g', (s.addToPgrp pid).pgrps pgid = some g' →
      pgid = (s.procs pid).pgid ∧ g' = g ∨ s.pgrps pgid = some g' := by
    intro pgid g' hg'
    rw [hpgrps, update_apply] at hg'
    split at hg'
    · exact .inl ⟨‹_›, (some.inj hg').symm⟩
    · exact .inr hg'
  refine ⟨fun pid' hpid' _ => ?_, fun pgid g' hg' pid' hmem' => ?_, fun pgid g' hg' => ?_,
    fun pgid g' hg' => ?_, fun pgid g' hg' => ?_⟩
  · rw [HasProc, procs_addToPgrp] at hpid'
    rw [procs_addToPgrp, hpgrps, update_apply]
    by_cases heq : pid' = pid
    · rw [heq, if_pos rfl]
      exact ⟨g, rfl, hmem⟩
    · obtain ⟨g', hg', hmem'⟩ := h.listed pid' hpid' heq
      split
      · rename_i hsame
        rw [hsame] at hg'
        exact ⟨g, rfl, hold g' hg' pid' hmem'⟩
      · exact ⟨g', hg', hmem'⟩
  · rw [HasProc, procs_addToPgrp]
    rcases hcases pgid g' hg' with ⟨rfl, rfl⟩ | hold'
    · exact ⟨(hmembers pid' hmem').1, not_false, (hmembers pid' hmem').2⟩
    · obtain ⟨hpid', -, hpgid⟩ := h.members pgid g' hold' pid' hmem'
      exact ⟨hpid', not_false, hpgid⟩
  · rcases hcases pgid g' hg' with ⟨rfl, rfl⟩ | hold'
    · exact hnodup
    · exact h.nodup pgid g' hold'
  · rcases hcases pgid g' hg' with ⟨rfl, rfl⟩ | hold'
    · exact hcount
    · exact h.refcount pgid g' hold'
  · rcases hcases pgid g' hg' with ⟨rfl, rfl⟩ | hold'
    · exact ne_nil_of_mem hmem
    · exact h.nonempty pgid g' hold'

theorem hasProc_of_procs (h : s'.procs = s.procs) : s'.HasProc pid ↔ s.HasProc pid := by
  rw [HasProc, HasProc, h]

theorem moveTo_grouped {pgid : ℤ} (h : Grouped s) (hpid : s.HasProc pid) :
    Grouped (s.moveTo pid pgid) := by
  refine addToPgrp_grouped (Apart.modProc (removeFromPgrp_apart h hpid)) ⟨hpid.1, ?_⟩
  rw [procs_modProc, if_pos rfl, procs_removeFromPgrp]
  exact hpid.2

/-! ### Creating and reaping processes -/

/-- The invariant of the calls. -/
structure InStep (s : Sched) : Prop where
  owned : Owned s
  grouped : Grouped s

theorem InStep.of_settled (h : InStep s) (hsettled : Settled s s') : InStep s' :=
  ⟨hsettled.owned, h.grouped.of_family hsettled.family⟩

theorem owned_addToPgrp (hs : Owned s) : Owned (s.addToPgrp pid) := by
  obtain ⟨_, heq⟩ := @addToPgrp_eq s pid
  rw [heq]
  exact ⟨hs.bound, hs.live, hs.listed, hs.used, hs.nodup⟩

theorem owned_removeFromPgrp (hs : Owned s) : Owned (s.removeFromPgrp pid) := by
  obtain ⟨_, heq⟩ := @removeFromPgrp_eq s pid
  rw [heq]
  exact ⟨hs.bound, hs.live, hs.listed, hs.used, hs.nodup⟩

theorem fillProcess_apart {ppid : ℕ} (h : Grouped s) (hdead : ¬(s.procs pid).Live) :
    Apart pid (s.fillProcess pid ppid) := by
  have hapart := Apart.of_grouped h hdead
  rw [fillProcess]
  split
  · exact hapart.modProc
  · rename_i parent hparent
    have hchild : Apart pid (s.modProc parent fun p => { p with children := p.children ++ [pid] }) :=
      GroupedBut.modProc hapart .rfl rfl
    exact hchild.modProc

theorem spawn_inStep {ppid : ℕ} (h : InStep s) :
    Post (spawn depth ppid) s (Returned fun _ s' => InStep s') := by
  refine spawn_returns h (fun pid hpid => ?_) fun s₁ tid h₁ => h₁.of_settled
    ((Quiet.of_ticked sameTables_addThreadLocked.ticked).settled h₁.owned)
  obtain ⟨hlt, hdead⟩ := unusedPid_spec hpid
  have howned : Owned (s.fillProcess pid ppid) := owned_fillProcess h.owned hdead
  have hfilled : (s.fillProcess pid ppid).HasProc pid := hasProc_fillProcess hlt
  refine returned_of_post (threadCreate_settled howned hfilled) fun tid s₁ h₁ => ?_
  have hapart := (fillProcess_apart h.grouped hdead).of_family h₁.family
  exact ⟨owned_addToPgrp h₁.owned,
    addToPgrp_grouped hapart (h₁.family.live.hasProc_iff.mpr hfilled)⟩

/-- A process that has left its group and has no threads gives up its place. -/
theorem leaveParent_grouped (h : Apart pid s) : Grouped (s.leaveParent pid) := by
  have hgone : Apart pid (s.modProc pid fun p => { p with state := .unused }) := h.modProc
  have hdead : ¬((s.modProc pid fun p => { p with state := .unused }).procs pid).Live := by
    rw [procs_modProc, if_pos rfl]
    exact fun hlive => hlive rfl
  have hgrouped := hgone.grouped hdead
  rw [leaveParent]
  split
  · exact hgrouped.modProc .rfl rfl
  · exact hgrouped

theorem inStep_destroyRule :
    DestroyRule depth (fun pid s => s.HasProc pid) fun _ s => InStep s where
  dead hpid _ := hpid
  threads {_ pid _} h hpid := by
    refine returned_of_post (cleanupThreads_settled (owned_removeFromPgrp h.owned))
      fun _ s₁ ⟨hsettled, hnil⟩ => ?_
    have hapart := (removeFromPgrp_apart h.grouped hpid).of_family hsettled.family
    exact ⟨owned_modProc (owned_leaveParent hsettled.owned hnil) rfl fun _ h => h,
      (leaveParent_grouped hapart).modProc .rfl rfl⟩
  skip h _ := h
  adopt h _ := ⟨owned_adopt h.owned, (h.grouped.modProc .rfl rfl).modProc .rfl rfl⟩
  unblock h := returned_of_post (sendUnblockEvent_quiet h.owned) fun _ _ h₁ =>
    h.of_settled (h₁.settled h.owned)

/-! ### Runs -/

/-- The calls that make, move and remove processes. A reap is of any process that is in use; the
copy of its descriptors is made. -/
inductive GroupCall
  | create (ppid : ℕ)
  | setpgrp (curr : ℕ) (pid pgid : ℤ)
  | exit (cpu tid : ℕ) (code : BitVec 32)
  | reap (pid : ℕ)

/-- The state in which a call leaves the kernel, unless it hangs. -/
def outcome {α : Type} : Except Leave α × Sched → Option Sched
  | (.error .hang, _) => none
  | (_, s) => some s

/-- A call, if there is somebody to make it. A process is created successfully or not at all. -/
def groupMachine (depth nest : ℕ) : Machine Sched GroupCall
  | s, .create ppid =>
    match (spawn depth ppid).eval s with
    | (.ok (some _), s') => some s'
    | _ => none
  | s, .setpgrp curr pid pgid =>
    if s.HasProc curr then outcome ((Sched.setpgrp curr pid pgid).eval s) else none
  | s, .exit cpu tid code =>
    if s.HasThread tid then outcome ((exitProcess depth cpu tid code).eval s) else none
  | s, .reap pid =>
    if s.HasProc pid then
      match (procDestroy depth (fun _ => true) nest pid).eval s with
      | (.ok _, s') => some s'
      | _ => none
    else none

theorem setpgrp_inStep {curr : ℕ} {pid' pgid : ℤ} (h : InStep s) (hcurr : s.HasProc curr) :
    Post (Sched.setpgrp curr pid' pgid) s fun _ s' => InStep s' := by
  refine .get_bind ?_
  cases htarget : s.targetOf curr pid' with
  | none => exact h
  | some pid =>
    have hpid : s.HasProc pid := by
      rw [targetOf] at htarget
      split at htarget
      · cases htarget
        exact hcurr
      · split at htarget
        · rename_i hfound
          cases htarget
          exact hfound.2
        · cases htarget
    refine .ite (fun _ => h) fun _ => .modify_bind ⟨?_, moveTo_grouped h.grouped hpid⟩
    exact owned_addToPgrp (owned_modProc (owned_removeFromPgrp h.owned) rfl fun _ h => h)

/-- What holds of the outcome of a call, whatever it is, holds of the state it leaves. -/
theorem post_outcome {α : Type} {m : SchedM α} {P : Sched → Prop}
    (h : Post m s fun _ s' => P s') (hout : outcome (m.eval s) = some s') : P s' := by
  unfold Post at h
  rcases hm : m.eval s with ⟨r, s₁⟩
  rw [hm] at h hout
  rcases r with ⟨_ | _⟩ | a <;> cases hout <;> exact h

theorem inStep_step {call : GroupCall} (h : InStep s)
    (hstep : groupMachine depth nest s call = some s') : InStep s' := by
  cases call with
  | create ppid =>
    rw [groupMachine] at hstep
    split at hstep
    · rename_i hspawn
      have hpost : Post (spawn depth ppid) s _ := spawn_inStep h
      unfold Post at hpost
      rw [hspawn] at hpost
      cases hstep
      exact hpost
    · cases hstep
  | setpgrp curr pid pgid =>
    rw [groupMachine] at hstep
    split at hstep
    · rename_i hcurr
      exact post_outcome (setpgrp_inStep h hcurr) hstep
    · cases hstep
  | exit cpu tid code =>
    rw [groupMachine] at hstep
    split at hstep
    · rename_i hhas
      exact h.of_settled ((post_outcome (exitProcess_quiet h.owned hhas.2) hstep).settled h.owned)
    · cases hstep
  | reap pid =>
    rw [groupMachine] at hstep
    split at hstep
    · rename_i hpid
      split at hstep
      · rename_i hreap
        have hpost : Post (procDestroy depth (fun _ => true) nest pid) s _ :=
          inStep_destroyRule.procDestroy [] nofun h hpid
        unfold Post at hpost
        rw [hreap] at hpost
        cases hstep
        exact hpost
      · cases hstep
    · cases hstep

/-- **Process groups.** Over all runs from the state without processes, every process is listed
once, in the group stored under its number and in no other, the count of a group is the length of
its list, and there are no empty groups. -/
theorem groups_in_step (hrun : (groupMachine depth nest).Run Machine.Any Sched.zero s) :
    (∀ pid, s.HasProc pid →
      (∃ g, s.pgrps (s.procs pid).pgid = some g ∧ g.pids.count pid = 1) ∧
      ∀ pgid g, s.pgrps pgid = some g → pgid ≠ (s.procs pid).pgid → pid ∉ g.pids) ∧
    ∀ pgid g, s.pgrps pgid = some g → g.refcount = g.pids.length ∧ g.pids ≠ [] := by
  have h : InStep s := hrun.invariant ⟨owned_zero, grouped_zero⟩
    fun _ _ _ hs _ hstep => inStep_step hs hstep
  refine ⟨fun pid hpid => ⟨?_, fun pgid g hg hne hmem => ?_⟩, fun pgid g hg => ?_⟩
  · obtain ⟨g, hg, hmem⟩ := h.grouped.listed pid hpid not_false
    exact ⟨g, hg, count_eq_one_of_mem (h.grouped.nodup _ g hg) hmem⟩
  · exact hne (h.grouped.members pgid g hg pid hmem).2.2.symm
  · exact ⟨h.grouped.refcount pgid g hg, h.grouped.nonempty pgid g hg⟩

/-- Three processes are created, the second one makes a group of its own and takes the third one
along, exits and is reaped. -/
def movedGroups : Sched :=
  (groupMachine 8 256).after Sched.zero
    [.create 0, .create 0, .create 1, .setpgrp 1 0 0, .setpgrp 1 2 1, .exit 0 1 0, .reap 1]

theorem groups_in_step_moved :
    (∃ g, movedGroups.pgrps (movedGroups.procs 2).pgid = some g ∧ g.pids.count 2 = 1) ∧
      (movedGroups.procs 2).pgid = 1 ∧ ¬movedGroups.HasProc 1 := by
  have hrun : (groupMachine 8 256).Run Machine.Any Sched.zero movedGroups :=
    Machine.run_after (by decide +kernel)
  exact ⟨((groups_in_step hrun).1 2 (by decide +kernel)).1, by decide +kernel, by decide +kernel⟩

end Sched

end OsPi
