import Mathlib.Tactic.IntervalCases
import OsPi.Sched.Queues

/-!
# Turns of the Ready Queues

No thread starves. Between the picks of `get_next_thread_locked` threads are added behind the
others and taken out, so a ready thread does not fall back in its queue, and every pick from another
queue leaves fewer that can come before its turn (`ahead`).
-/

namespace OsPi.Sched

open Function List

variable {s : Sched} {p tid curr : ℕ} {counters : ℕ → ℕ}

/-! ### The turns -/

/-- The picks that a queue can still have before its turn is over. -/
def left (counters : ℕ → ℕ) (pri : ℕ) : ℕ := max 1 (maxPriCntrs pri + 1 - counters pri)

/-- The picks that can still go to other queues before it is the turn of queue `p`. -/
def ahead (p curr : ℕ) (counters : ℕ → ℕ) : ℕ :=
  if curr = p then 0
  else left counters curr + if (curr + 1) % 3 = p then 0 else left counters ((curr + 1) % 3)

/-- The picks in a row one of which goes to queue `p`. -/
def window : ℕ → ℕ
  | 0 => 13
  | 1 => 16
  | _ => 18

section Ahead

variable (hp : p < 3) (hcurr : curr < 3)
include hp hcurr

theorem ahead_lt_window (counters : ℕ → ℕ) : ahead p curr counters < window p := by
  interval_cases curr <;> interval_cases p <;> simp [ahead, left, maxPriCntrs, window] <;> omega

variable (hne : curr ≠ p)
include hne

/-- A queue without ready threads is passed over. -/
theorem ahead_skip : ahead p ((curr + 1) % 3) counters ≤ ahead p curr counters := by
  interval_cases curr <;> interval_cases p <;> simp_all [ahead]

/-- A queue has its last pick. -/
theorem ahead_last :
    ahead p ((curr + 1) % 3) (update counters curr 0) < ahead p curr counters := by
  interval_cases curr <;> interval_cases p <;> simp_all [ahead, left, maxPriCntrs]

/-- A queue has another pick. -/
theorem ahead_another (hle : ¬maxPriCntrs curr < counters curr + 1) :
    ahead p curr (update counters curr (counters curr + 1)) < ahead p curr counters := by
  interval_cases curr <;> interval_cases p <;> simp_all [ahead, left, maxPriCntrs] <;> omega

end Ahead

/-- A thread stands ready in queue `p`. -/
structure Stands (s : Sched) (p tid : ℕ) : Prop where
  mem : tid ∈ s.queues p
  ready : (s.threads tid).state = .ready
  currPri : s.currPri < 3

/-- The picks that can go to other threads before it is the turn of a thread in queue `p`. -/
def rank (s : Sched) (p tid : ℕ) : ℕ :=
  (s.queues p).idxOf tid * window p + ahead p s.currPri s.priCounters

theorem queues_setQueue_of_ne (s : Sched) {pri : ℕ} (hne : p ≠ pri) (q : List ℕ) :
    (s.setQueue pri q).queues p = s.queues p :=
  update_of_ne hne ..

/-! ### A pick -/

/-- A pick from another queue brings the turn nearer. -/
theorem Stands.countPick (h : s.Stands p tid) (hp : p < 3) :
    s.countPick.Stands p tid ∧ (s.currPri ≠ p → s.countPick.rank p tid < s.rank p tid) := by
  rw [Sched.countPick]
  split_ifs with hover
  · exact ⟨⟨h.mem, h.ready, Nat.mod_lt _ (by decide)⟩,
      fun hne => Nat.add_lt_add_left (ahead_last hp h.currPri hne) _⟩
  · exact ⟨⟨h.mem, h.ready, h.currPri⟩,
      fun hne => Nat.add_lt_add_left (ahead_another hp h.currPri hne hover) _⟩

/-- A pick from a queue takes a ready thread of it or one before it. -/
theorem takeReady_of_mem {q : List ℕ} (hmem : tid ∈ q) (hready : (s.threads tid).state = .ready) :
    ∃ t q', s.takeReady q = (some t, q') ∧ (t = tid ∨ tid ∈ q' ∧ q'.idxOf tid < q.idxOf tid) := by
  induction q with
  | nil => cases hmem
  | cons t q ih =>
    rw [takeReady]
    by_cases ht : t = tid
    · exact ⟨t, q, if_pos (ht ▸ hready), .inl ht⟩
    · have hmem' : tid ∈ q := (mem_cons.mp hmem).resolve_left (Ne.symm ht)
      rw [idxOf_cons, beq_false_of_ne ht, cond_false]
      split_ifs with hpick
      · exact ⟨t, q, rfl, .inr ⟨hmem', Nat.lt_succ_self _⟩⟩
      · obtain ⟨u, q', htake, hu⟩ := ih hmem'
        exact ⟨u, q', htake, hu.imp_right fun hu => ⟨hu.1, hu.2.trans (Nat.lt_succ_self _)⟩⟩

/-- A pick takes the thread or brings its turn nearer. -/
theorem Stands.getNextFrom (h : s.Stands p tid) (hp : p < 3) {turns : ℕ}
    (hturns : (p + 3 - s.currPri) % 3 < turns) :
    (getNextFrom turns s).1 = some tid ∨
      (getNextFrom turns s).2.Stands p tid ∧ (getNextFrom turns s).2.rank p tid < s.rank p tid := by
  induction turns generalizing s with
  | zero => omega
  | succ turns ih =>
    rw [Sched.getNextFrom]
    have hcurr := h.currPri
    rcases eq_or_ne s.currPri p with rfl | hne
    · obtain ⟨t, q, htake, rfl | ⟨hmem, hidx⟩⟩ := takeReady_of_mem h.mem h.ready
      all_goals rw [htake]
      · exact .inl rfl
      · have hset : (s.setQueue s.currPri q).Stands s.currPri tid :=
          ⟨by simpa [setQueue] using hmem, h.ready, hcurr⟩
        have hpick := (hset.countPick hp).1
        have hlt := ahead_lt_window hp hpick.currPri (s.setQueue s.currPri q).countPick.priCounters
        have hmul := Nat.mul_le_mul_right (window s.currPri) (Nat.succ_le_of_lt hidx)
        refine .inr ⟨hpick, ?_⟩
        simp only [rank, queues_countPick, setQueue, update_self, Nat.succ_mul] at hlt hmul ⊢
        omega
    · have hkeep := s.queues_setQueue_of_ne hne.symm
      rcases s.takeReady (s.queues s.currPri) with ⟨_ | t, q⟩
      · -- no thread of the other queue is ready
        have hnext : Stands { s.setQueue s.currPri q with currPri := (s.currPri + 1) % 3 } p tid :=
          ⟨(hkeep q).symm ▸ h.mem, h.ready, Nat.mod_lt _ (by decide)⟩
        refine (ih hnext ?_).imp_right fun hrank => ⟨hrank.1, hrank.2.trans_le ?_⟩
        · change (p + 3 - (s.currPri + 1) % 3) % 3 < turns
          omega
        · simp only [rank, hkeep]
          exact Nat.add_le_add_left (ahead_skip hp hcurr hne) _
      · have hset : (s.setQueue s.currPri q).Stands p tid :=
          ⟨(hkeep q).symm ▸ h.mem, h.ready, hcurr⟩
        refine .inr ⟨(hset.countPick hp).1, ((hset.countPick hp).2 hne).trans_eq ?_⟩
        rw [rank, hkeep]
        rfl

/-! ### Runs -/

/-- A thread has stood ready in queue `p`, at first behind `k` others, during `n` picks that took
other threads. -/
inductive Waiting (p tid k : ℕ) : ℕ → Sched → Prop
  | start {s : Sched} (h : s.Stands p tid) (hk : (s.queues p).idxOf tid = k) : Waiting p tid k 0 s
  | add {n : ℕ} {s : Sched} (h : Waiting p tid k n s) (t : ℕ) :
      Waiting p tid k n (s.addThreadLocked t)
  | remove {n t : ℕ} {s : Sched} (h : Waiting p tid k n s) (hne : t ≠ tid) :
      Waiting p tid k n (s.removeThread t)
  | other {n : ℕ} {s s' : Sched} (h : Waiting p tid k n s) (hqueues : s'.queues = s.queues)
      (hcurr : s'.currPri = s.currPri) (hcounters : s'.priCounters = s.priCounters)
      (hready : (s'.threads tid).state = .ready) : Waiting p tid k n s'
  | pass {n : ℕ} {s : Sched} (h : Waiting p tid k n s) (hne : s.getNextThread.1 ≠ some tid) :
      Waiting p tid k (n + 1) s.getNextThread.2

/-- Adding a thread does not move another back. -/
theorem Stands.addThreadLocked (h : s.Stands p tid) (t : ℕ) :
    (s.addThreadLocked t).Stands p tid ∧ (s.addThreadLocked t).rank p tid = s.rank p tid := by
  rw [Sched.addThreadLocked]
  split_ifs
  · exact ⟨h, rfl⟩
  · rcases eq_or_ne p (s.threads t).priority with rfl | hne
    · refine ⟨⟨by simp [setQueue, h.mem], h.ready, h.currPri⟩, ?_⟩
      simp [rank, setQueue, idxOf_append, h.mem]
    · have hkeep := s.queues_setQueue_of_ne hne
      exact ⟨⟨(hkeep _).symm ▸ h.mem, h.ready, h.currPri⟩, by rw [rank, hkeep]; rfl⟩

/-- Taking out a thread does not move another back. -/
theorem idxOf_filter_le {t : ℕ} (hne : t ≠ tid) (q : List ℕ) :
    (q.filter (· ≠ t)).idxOf tid ≤ q.idxOf tid := by
  induction q with
  | nil => exact le_rfl
  | cons u q ih =>
    rcases eq_or_ne u t with rfl | hu
    · rw [filter_cons_of_neg (by simp), idxOf_cons, beq_false_of_ne hne]
      exact ih.trans (Nat.le_succ _)
    · rw [filter_cons_of_pos (by simpa using hu), idxOf_cons, idxOf_cons]
      cases u == tid
      · exact Nat.succ_le_succ ih
      · exact le_rfl

theorem Waiting.rank_lt {k n : ℕ} (h : Waiting p tid k n s) (hp : p < 3) :
    s.Stands p tid ∧ n + s.rank p tid < (k + 1) * window p := by
  induction h with
  | start h hk =>
    refine ⟨h, ?_⟩
    rw [Nat.succ_mul, Nat.zero_add, rank, hk]
    exact Nat.add_lt_add_left (ahead_lt_window hp h.currPri _) _
  | add _ t ih =>
    obtain ⟨hs, hrank⟩ := ih.1.addThreadLocked t
    exact ⟨hs, hrank ▸ ih.2⟩
  | @remove n t s _ hne ih =>
    obtain ⟨hs, hrank⟩ := ih
    have hidx := Nat.mul_le_mul_right (window p) (idxOf_filter_le hne (s.queues p))
    refine ⟨⟨mem_filter.mpr ⟨hs.mem, by simpa using hne.symm⟩, hs.ready, hs.currPri⟩, ?_⟩
    simp only [rank, removeThread] at hrank ⊢
    omega
  | other _ hqueues hcurr hcounters hready ih =>
    refine ⟨⟨hqueues ▸ ih.1.mem, hready, hcurr ▸ ih.1.currPri⟩, ?_⟩
    rw [rank, hqueues, hcurr, hcounters]
    exact ih.2
  | pass _ hne ih =>
    have hpick := ih.1.getNextFrom hp (Nat.mod_lt _ (Nat.zero_lt_succ 2))
    obtain ⟨hs, hrank⟩ := hpick.resolve_left hne
    exact ⟨hs, by rw [getNextThread]; omega⟩

/-- **No thread starves**: one that stands ready behind `k` others in queue `p` is picked within
`(k + 1) * window p` picks. -/
theorem Waiting.lt_window {k n : ℕ} (h : Waiting p tid k n s) (hp : p < 3) :
    n < (k + 1) * window p :=
  (Nat.le_add_right n _).trans_lt (h.rank_lt hp).2

/-- A pick from the first queue while a thread stands second in the next one. -/
theorem Waiting.lt_window_pass : ∃ s, Waiting 1 7 1 1 s ∧ 1 < (1 + 1) * window 1 := by
  let s : Sched :=
    { Sched.zero with
      queues := update (update (fun _ => []) 0 [5]) 1 [6, 7]
      threads := fun _ => { Thread.zero with state := .ready } }
  have h : Waiting 1 7 1 0 s := .start ⟨by decide, rfl, by decide⟩ (by decide)
  exact ⟨_, h.pass (by decide), (h.pass (by decide)).lt_window (by decide)⟩

end OsPi.Sched
