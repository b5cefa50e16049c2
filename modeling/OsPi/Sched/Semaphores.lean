import Mathlib.Algebra.Ring.Int.Defs
import OsPi.Sched.Orderly

/-!
# Counting Semaphores

Threads wait for semaphores and post them, and the scheduler picks them whenever one yields. The
count of a semaphore, its list of threads and the states of these threads change at different
moments; the machine keeps a record of the calls, which the kernel does not have: how many calls of
`sem_wait` have returned, which threads began to wait, and which have been released.

The count is an `int`, and `sem_post` adds to it without a test. As long as it does not overflow
(`semaphores_keep_their_promise`), no more calls have returned than there were permits, the list is
as long as the count is below zero, and threads are released in the order in which they began to
wait. A post at the greatest `int` breaks it (`broken_of_overflow`).
-/

namespace OsPi

open Function List Option

theorem toInt_add_one {c : BitVec 32} (h : c.toInt < 2 ^ 31 - 1) :
    (c + 1).toInt = c.toInt + 1 := by
  have hone : (1 : BitVec 32).toInt = 1 := by decide
  have hlow := c.le_toInt
  rw [BitVec.toInt_add, hone]
  apply Int.bmod_eq_of_le <;> omega

theorem toInt_sub_one {c : BitVec 32} (h : -2 ^ 31 < c.toInt) : (c - 1).toInt = c.toInt - 1 := by
  have hone : (1 : BitVec 32).toInt = 1 := by decide
  have hhigh := c.toInt_lt
  rw [BitVec.toInt_sub, hone]
  apply Int.bmod_eq_of_le <;> omega

theorem Locks.semPost_nil {k : Locks} {x : ℕ} (hle : ((k.semaphores x).count + 1).toInt ≤ 0)
    (hwaiting : (k.semaphores x).waiting = []) :
    k.semPost x =
      { k with
        semaphores := update k.semaphores x ⟨(k.semaphores x).count + 1, []⟩ } := by
  rw [semPost, if_pos hle, hwaiting]

theorem Locks.semPost_cons {k : Locks} {x tid : ℕ} {rest : List ℕ}
    (hle : ((k.semaphores x).count + 1).toInt ≤ 0) (hwaiting : (k.semaphores x).waiting = tid :: rest) :
    k.semPost x =
      { k with
        semaphores := update k.semaphores x ⟨(k.semaphores x).count + 1, rest⟩
        sched := k.sched.wake tid } := by
  rw [semPost, if_pos hle, hwaiting]

/-- The kernel, with a record for every semaphore: the value it was made with, the posts, the calls
of `sem_wait` that have returned, the threads that began to wait and those that were released, and
the released ones whose call has not returned yet. -/
structure SemRun where
  locks : Locks
  inside : ℕ → Option ℕ
  initial : ℕ → BitVec 32
  posts : ℕ → ℕ
  returned : ℕ → ℕ
  began : ℕ → List ℕ
  released : ℕ → List ℕ
  going : ℕ → List ℕ

namespace SemRun

section Definitions

variable (r : SemRun)

/-- The scheduler. -/
def sched : Sched := r.locks.sched

/-- A semaphore. -/
def sem (x : ℕ) : Semaphore := r.locks.semaphores x

/-- `sem_wait`, up to where the thread waits. -/
def wait (cpu tid x : ℕ) : SemRun :=
  if 0 ≤ ((r.sem x).count - 1).toInt then
    { r with
      locks := r.locks.semWait cpu tid x
      returned := update r.returned x (r.returned x + 1) }
  else
    { r with
      locks := r.locks.semWait cpu tid x
      inside := update r.inside tid (some x)
      began := update r.began x (r.began x ++ [tid]) }

/-- The thread that `sem_post` takes from the list. -/
def taken (x : ℕ) : List ℕ :=
  if ((r.sem x).count + 1).toInt ≤ 0 then (r.sem x).waiting.take 1 else []

/-- `sem_post`. -/
def post (x : ℕ) : SemRun :=
  { r with
    locks := r.locks.semPost x
    posts := update r.posts x (r.posts x + 1)
    released := update r.released x (r.released x ++ r.taken x)
    going := update r.going x (r.taken x ++ r.going x) }

/-- The rest of `sem_wait` when the thread runs again. -/
def resume (tid x : ℕ) : SemRun :=
  { r with
    inside := update r.inside tid none
    returned := update r.returned x (r.returned x + 1)
    going := update r.going x ((r.going x).erase tid) }

end Definitions

/-- What happens on a CPU. -/
inductive Event
  /-- The thread of the CPU yields, or the CPU has none and looks for one. -/
  | tick (cpu : ℕ)
  | wait (cpu x : ℕ)
  /-- A thread that was parked in `sem_wait` runs again. -/
  | resume (cpu : ℕ)
  | post (cpu x : ℕ)

/-- The machine: the calls are those of the thread that the CPU runs. A thread in `sem_wait` makes
no other call. -/
def machine : Machine SemRun Event
  | r, .tick cpu => some { r with locks := { r.locks with sched := r.sched.schedulerTick cpu } }
  | r, .wait cpu x => (r.sched.cpus cpu).bind fun tid =>
    if r.inside tid = none then some (r.wait cpu tid x) else none
  | r, .resume cpu => (r.sched.cpus cpu).bind fun tid => (r.inside tid).map fun x => r.resume tid x
  | r, .post cpu x => (r.sched.cpus cpu).bind fun tid =>
    if r.inside tid = none then some (r.post x) else none

/-- The scheduler is in order, and the semaphores are as `sem_init` leaves them. -/
structure Start (r : SemRun) : Prop where
  orderly : r.sched.Orderly
  sems : ∀ x, r.sem x = ⟨r.initial x, []⟩
  initial : ∀ x, 0 ≤ (r.initial x).toInt
  inside : ∀ tid, r.inside tid = none
  records : ∀ x, r.posts x = 0 ∧ r.returned x = 0 ∧ r.began x = [] ∧ r.released x = [] ∧
    r.going x = []

/-- The count does not overflow. -/
def Clean (r : SemRun) : Event → Prop
  | .wait _ x => -2 ^ 31 < (r.sem x).count.toInt
  | .post _ x => (r.sem x).count.toInt < 2 ^ 31 - 1
  | _ => True

instance (r : SemRun) (e : Event) : Decidable (r.Clean e) := by
  cases e <;> unfold Clean <;> infer_instance

/-- **What a semaphore promises.** -/
structure Promise (r : SemRun) (x : ℕ) : Prop where
  /-- No more calls of `sem_wait` have returned than there were permits. -/
  permits : (r.returned x : ℤ) ≤ (r.initial x).toInt + r.posts x
  /-- The list is as long as the count is below zero. -/
  length : ((r.sem x).waiting.length : ℤ) = max 0 (-(r.sem x).count.toInt)
  /-- Those that have been released are the first of those that began to wait, in this order. -/
  order : r.began x = r.released x ++ (r.sem x).waiting
  /-- A thread in `sem_wait` is on the list, or it has been released and can run. -/
  running : ∀ tid, r.inside tid = some x →
    tid ∈ (r.sem x).waiting ∧ (r.sched.threads tid).state = .stopped ∨
      tid ∈ r.released x ∧ r.sched.CanRun tid

/-! ### The threads of a semaphore -/

/-- The threads in `sem_wait` for a semaphore: those on its list are stopped, and those that go on
can run. -/
structure Places (inside : ℕ → Option ℕ) (s : Sched) (x : ℕ) (waiting going : List ℕ) : Prop where
  nodup : waiting.Nodup
  goingNodup : going.Nodup
  waiting : ∀ tid, tid ∈ waiting ↔ inside tid = some x ∧ s.Stopped tid
  going : ∀ tid, tid ∈ going ↔ inside tid = some x ∧ Sched.Runnable (s.threads tid).state
  inside : ∀ tid, inside tid = some x → s.Stopped tid ∨ Sched.Runnable (s.threads tid).state

section Places

variable {inside inside' : ℕ → Option ℕ} {s s' : Sched} {cpu tid x : ℕ} {waiting going : List ℕ}

/-- A step that does not concern the threads of a semaphore. -/
theorem Places.congr (h : Places inside s x waiting going)
    (hinside : ∀ t, inside' t = some x ↔ inside t = some x)
    (hstopped : ∀ t, inside t = some x → (s'.Stopped t ↔ s.Stopped t))
    (hrun : ∀ t, inside t = some x →
      (Sched.Runnable (s'.threads t).state ↔ Sched.Runnable (s.threads t).state)) :
    Places inside' s' x waiting going where
  nodup := h.nodup
  goingNodup := h.goingNodup
  waiting t := by
    rw [hinside, h.waiting]
    exact and_congr_right fun hin => (hstopped t hin).symm
  going t := by
    rw [hinside, h.going]
    exact and_congr_right fun hin => (hrun t hin).symm
  inside t hin := by
    have hin := (hinside t).mp hin
    exact (h.inside t hin).imp (hstopped t hin).mpr (hrun t hin).mpr

/-- A thread that was in no call is parked. -/
theorem Places.park (h : Places inside s x waiting going) (hnone : inside tid = none) :
    Places (update inside tid (some x)) (s.park cpu tid) x (waiting ++ [tid]) going := by
  have hother : ∀ t, inside t = some x → t ≠ tid := fun t hin heq => by
    rw [heq, hnone] at hin
    cases hin
  have hparked : (s.park cpu tid).Stopped tid := (Sched.stopped_park s cpu tid tid).mpr (.inl rfl)
  have hnot : ¬Sched.Runnable ((s.park cpu tid).threads tid).state := by
    rw [show ((s.park cpu tid).threads tid).state = .stopped from hparked]
    rintro (hrun | hrun) <;> cases hrun
  have hcongr : Places inside (s.park cpu tid) x waiting going := h.congr (fun _ => Iff.rfl)
    (fun t hin => (Sched.stopped_park s cpu tid t).trans (or_iff_right (hother t hin)))
    fun t hin => Sched.runnable_park (hother t hin)
  have hin : ∀ t, t ≠ tid → update inside tid (some x) t = inside t := fun t ht =>
    update_of_ne ht _ _
  refine ⟨?_, h.goingNodup, fun t => ?_, fun t => ?_, fun t ht => ?_⟩
  · refine h.nodup.append (nodup_singleton tid) (disjoint_singleton.mpr fun hmem => ?_)
    exact hother tid ((h.waiting tid).mp hmem).1 rfl
  · rw [mem_append, mem_singleton]
    by_cases ht : t = tid
    · rw [ht, update_self]
      exact iff_of_true (.inr rfl) ⟨rfl, hparked⟩
    · rw [or_iff_left ht, hin t ht]
      exact hcongr.waiting t
  · by_cases ht : t = tid
    · rw [ht]
      exact iff_of_false (fun hmem => hother tid ((h.going tid).mp hmem).1 rfl) fun hrun =>
        hnot hrun.2
    · rw [hin t ht]
      exact hcongr.going t
  · by_cases heq : t = tid
    · exact .inl (heq ▸ hparked)
    · rw [hin t heq] at ht
      exact hcongr.inside t ht

/-- The first thread of the list is released. -/
theorem Places.release (h : Places inside s x (tid :: waiting) going) :
    Places inside ((s.setState tid .ready).addThreadLocked tid) x waiting (tid :: going) := by
  obtain ⟨hinside, hstopped⟩ := (h.waiting tid).mp mem_cons_self
  obtain ⟨hnot, hnodup⟩ := nodup_cons.mp h.nodup
  refine ⟨hnodup, nodup_cons.mpr ⟨fun hmem => ?_, h.goingNodup⟩, fun t => ?_, fun t => ?_,
    fun t hin => ?_⟩
  · have hrun := ((h.going tid).mp hmem).2
    rw [show (s.threads tid).state = .stopped from hstopped] at hrun
    rcases hrun with hrun | hrun <;> cases hrun
  · rw [Sched.stopped_ready]
    have hold := h.waiting t
    by_cases ht : t = tid
    · exact iff_of_false (ht ▸ hnot) fun hne => hne.2.1 ht
    · rw [mem_cons, or_iff_right ht] at hold
      exact hold.trans (and_congr_right' (and_iff_right ht).symm)
  · rw [Sched.runnable_ready, mem_cons, h.going, and_or_left]
    exact or_congr_left ⟨fun ht => ⟨ht ▸ hinside, ht⟩, fun hin => hin.2⟩
  · rw [Sched.stopped_ready, Sched.runnable_ready]
    by_cases ht : t = tid
    · exact .inr (.inl ht)
    · exact (h.inside t hin).imp (fun hs => ⟨ht, hs⟩) .inr

/-- The call of a thread that runs returns. -/
theorem Places.return (h : Places inside s x waiting going)
    (hrun : (s.threads tid).state = .running) :
    Places (update inside tid none) s x waiting (going.erase tid) := by
  have hin : ∀ t, update inside tid none t = some x ↔ t ≠ tid ∧ inside t = some x :=
    fun t => by
      by_cases ht : t = tid
      · simp [ht]
      · rw [update_of_ne ht]
        exact (and_iff_right ht).symm
  refine ⟨h.nodup, h.goingNodup.erase tid, fun t => ?_, fun t => ?_, fun t ht => ?_⟩
  · rw [hin, h.waiting]
    refine ⟨fun ⟨hx, hs⟩ => ⟨⟨fun heq => ?_, hx⟩, hs⟩, fun ⟨⟨_, hx⟩, hs⟩ => ⟨hx, hs⟩⟩
    rw [heq, Sched.Stopped, hrun] at hs
    cases hs
  · rw [hin, h.goingNodup.mem_erase_iff, h.going, and_assoc]
  · exact h.inside t ((hin t).mp ht).2

end Places

/-! ### The invariant -/

/-- What the records of a semaphore say about its count and its list. -/
structure Sums (r : SemRun) (x : ℕ) : Prop where
  sum : (r.sem x).count.toInt + r.returned x + (r.going x).length + (r.sem x).waiting.length =
    (r.initial x).toInt + r.posts x
  length : ((r.sem x).waiting.length : ℤ) = max 0 (-(r.sem x).count.toInt)
  order : r.began x = r.released x ++ (r.sem x).waiting
  gone : ∀ tid, tid ∈ r.going x → tid ∈ r.released x

/-- What holds between the calls. -/
structure Kept (r : SemRun) : Prop where
  orderly : r.sched.Orderly
  places : ∀ x, Places r.inside r.sched x (r.sem x).waiting (r.going x)
  sums : ∀ x, r.Sums x

variable {r r' : SemRun} {cpu tid x y : ℕ}

theorem Start.kept (h : r.Start) : r.Kept := by
  refine ⟨h.orderly, fun x => ?_, fun x => ?_⟩
  all_goals
    obtain ⟨hposts, hreturned, hbegan, hreleased, hgoing⟩ := h.records x
  · rw [h.sems, hgoing]
    refine ⟨nodup_nil, nodup_nil, fun tid => ?_, fun tid => ?_, fun tid => ?_⟩
    all_goals simp [h.inside]
  · have hnonneg := h.initial x
    constructor
    · rw [h.sems, hreturned, hgoing, hposts]
      simp
    · rw [h.sems]
      simp only [length_nil]
      omega
    · rw [hbegan, hreleased, h.sems, append_nil]
    · simp [hgoing]

theorem Kept.promise (h : r.Kept) (x : ℕ) : r.Promise x := by
  have hsums := h.sums x
  have hplaces := h.places x
  refine ⟨?_, hsums.length, hsums.order, fun tid hin => ?_⟩
  · have hsum := hsums.sum
    have hlength := hsums.length
    omega
  · rcases hplaces.inside tid hin with hstopped | hrun
    · exact .inl ⟨(hplaces.waiting tid).mpr ⟨hin, hstopped⟩, hstopped⟩
    · exact .inr ⟨hsums.gone tid ((hplaces.going tid).mpr ⟨hin, hrun⟩), h.orderly.canRun hrun⟩

/-- A step that does not concern a semaphore. -/
theorem Sums.congr (h : r.Sums y) (hsem : r'.sem y = r.sem y) (hinitial : r'.initial y = r.initial y)
    (hposts : r'.posts y = r.posts y) (hreturned : r'.returned y = r.returned y)
    (hbegan : r'.began y = r.began y) (hreleased : r'.released y = r.released y)
    (hgoing : r'.going y = r.going y) : r'.Sums y := by
  constructor
  · rw [hsem, hreturned, hgoing, hinitial, hposts]
    exact h.sum
  · rw [hsem]
    exact h.length
  · rw [hbegan, hreleased, hsem]
    exact h.order
  · rw [hgoing, hreleased]
    exact h.gone

theorem Kept.tick (h : r.Kept) (cpu : ℕ) :
    Kept { r with locks := { r.locks with sched := r.sched.schedulerTick cpu } } where
  orderly := h.orderly.tick cpu
  places x := (h.places x).congr (fun _ => Iff.rfl)
    (fun _ _ => Sched.ticked_schedulerTick.stopped) fun _ _ => Sched.ticked_schedulerTick.runnable
  sums x := (h.sums x).congr rfl rfl rfl rfl rfl rfl rfl

theorem sem_update (r : SemRun) (x : ℕ) (a : Semaphore) (y : ℕ) :
    update r.locks.semaphores x a y = if y = x then a else r.sem y :=
  update_apply ..

theorem wait_of_permit (cpu tid : ℕ) (hpermit : 0 ≤ ((r.sem x).count - 1).toInt) :
    r.wait cpu tid x = { r with
      locks := { r.locks with
        semaphores := update r.locks.semaphores x
          { r.sem x with count := (r.sem x).count - 1 } }
      returned := update r.returned x (r.returned x + 1) } := by
  have hlocks : r.locks.semWait cpu tid x = { r.locks with
      semaphores := update r.locks.semaphores x
        { r.sem x with count := (r.sem x).count - 1 } } := if_pos hpermit
  rw [wait, if_pos hpermit, hlocks]

/-- The count of a semaphore on which nobody waits changes, together with the records of posts and
returns. -/
theorem Kept.count (h : r.Kept) (count : BitVec 32) (returned posts : ℕ)
    (hold : 0 ≤ (r.sem x).count.toInt) (hnew : 0 ≤ count.toInt)
    (hsum : count.toInt + returned - posts =
      (r.sem x).count.toInt + r.returned x - r.posts x) :
    Kept { r with
      locks := { r.locks with
        semaphores := update r.locks.semaphores x { r.sem x with count } }
      returned := update r.returned x returned
      posts := update r.posts x posts } := by
  set r' : SemRun := { r with
    locks := { r.locks with
      semaphores := update r.locks.semaphores x { r.sem x with count } }
    returned := update r.returned x returned
    posts := update r.posts x posts }
  have hsem : ∀ y, r'.sem y = if y = x then { r.sem x with count } else r.sem y := r.sem_update x _
  have hwaiting : ∀ y, (r'.sem y).waiting = (r.sem y).waiting := fun y => by
    rw [hsem]
    split
    · next heq => rw [heq]
    · rfl
  have hreturned : ∀ y, r'.returned y = if y = x then returned else r.returned y := fun y =>
    update_apply ..
  have hposts : ∀ y, r'.posts y = if y = x then posts else r.posts y := fun y =>
    update_apply ..
  refine ⟨h.orderly, fun y => ?_, fun y => ?_⟩
  · rw [hwaiting]
    exact h.places y
  · by_cases hy : y = x
    · subst hy
      obtain ⟨hsum', hlength, horder, hgone⟩ := h.sums y
      refine ⟨?_, ?_, ?_, hgone⟩
      · rw [hwaiting, hsem, if_pos rfl, hreturned, if_pos rfl, hposts, if_pos rfl]
        change count.toInt + returned + (r.going y).length + _ = (r.initial y).toInt + posts
        omega
      · rw [hwaiting, hsem, if_pos rfl]
        change _ = max 0 (-count.toInt)
        omega
      · rw [hwaiting]
        exact horder
    · exact (h.sums y).congr (by rw [hsem, if_neg hy]) rfl (by rw [hposts, if_neg hy])
        (by rw [hreturned, if_neg hy]) rfl rfl rfl

/-- There is a permit. -/
theorem Kept.wait_permit (h : r.Kept) (hclean : -2 ^ 31 < (r.sem x).count.toInt)
    (hpermit : 0 ≤ ((r.sem x).count - 1).toInt) : (r.wait cpu tid x).Kept := by
  have hcount := toInt_sub_one hclean
  have hkept := h.count (x := x) ((r.sem x).count - 1) (r.returned x + 1) (r.posts x) (by omega)
    hpermit (by rw [hcount]; push_cast; omega)
  rw [update_eq_self] at hkept
  rw [wait_of_permit cpu tid hpermit]
  exact hkept

/-- There is no permit, and the thread is parked. -/
theorem Kept.wait_park (h : r.Kept) (hcpu : r.sched.cpus cpu = some tid)
    (hnone : r.inside tid = none) (hclean : -2 ^ 31 < (r.sem x).count.toInt)
    (hpermit : ¬0 ≤ ((r.sem x).count - 1).toInt) : (r.wait cpu tid x).Kept := by
  have hlocks : r.locks.semWait cpu tid x = { r.locks with
      semaphores := update r.locks.semaphores x
        ⟨(r.sem x).count - 1, (r.sem x).waiting ++ [tid]⟩
      sched := r.sched.park cpu tid } := if_neg hpermit
  have hwait : r.wait cpu tid x = { r with
      locks := r.locks.semWait cpu tid x
      inside := update r.inside tid (some x)
      began := update r.began x (r.began x ++ [tid]) } := if_neg hpermit
  rw [hlocks] at hwait
  have hsem : ∀ y, (r.wait cpu tid x).sem y =
      if y = x then ⟨(r.sem x).count - 1, (r.sem x).waiting ++ [tid]⟩ else r.sem y := fun y => by
    rw [hwait]
    exact r.sem_update x _ y
  have hsched : (r.wait cpu tid x).sched = r.sched.park cpu tid := by rw [hwait]; rfl
  have hinside : (r.wait cpu tid x).inside = update r.inside tid (some x) := by rw [hwait]
  have hgoing : (r.wait cpu tid x).going = r.going := by rw [hwait]
  have hbegan : ∀ y, (r.wait cpu tid x).began y =
      if y = x then r.began x ++ [tid] else r.began y := fun y => by
    rw [hwait]
    exact update_apply ..
  have hcount := toInt_sub_one hclean
  refine ⟨hsched ▸ h.orderly.park hcpu, fun y => ?_, fun y => ?_⟩
  · rw [hsched, hinside, hgoing, hsem]
    by_cases hy : y = x
    · rw [if_pos hy, hy]
      exact (h.places x).park hnone
    · rw [if_neg hy]
      have hother : ∀ t, r.inside t = some y → t ≠ tid := fun t hin heq => by
        rw [heq, hnone] at hin
        cases hin
      refine (h.places y).congr (fun t => ?_)
        (fun t hin => (Sched.stopped_park _ _ _ t).trans (or_iff_right (hother t hin)))
        fun t hin => Sched.runnable_park (hother t hin)
      by_cases ht : t = tid
      · rw [ht, update_self, hnone]
        exact iff_of_false (fun heq => hy (some.inj heq).symm) nofun
      · rw [update_of_ne ht]
  · by_cases hy : y = x
    · subst hy
      obtain ⟨hsum, hlength, horder, hgone⟩ := h.sums y
      constructor
      · rw [hgoing, hsem, if_pos rfl, hwait]
        simp only [hcount, length_append, length_singleton]
        omega
      · rw [hsem, if_pos rfl]
        simp only [hcount, length_append, length_singleton]
        omega
      · rw [hbegan, if_pos rfl, hsem, if_pos rfl, horder, hwait, append_assoc]
      · rw [hwait]
        exact hgone
    · refine (h.sums y).congr (by rw [hsem, if_neg hy]) ?_ ?_ ?_ (by rw [hbegan, if_neg hy]) ?_ ?_
      all_goals rw [hwait]

/-- Nobody waits. -/
theorem Kept.post_permit (h : r.Kept) (hclean : (r.sem x).count.toInt < 2 ^ 31 - 1)
    (hnone : ¬((r.sem x).count + 1).toInt ≤ 0) : (r.post x).Kept := by
  have hlocks : r.locks.semPost x = { r.locks with
      semaphores := update r.locks.semaphores x
        { r.sem x with count := (r.sem x).count + 1 } } := if_neg hnone
  have hpost : r.post x = { r with
      locks := r.locks.semPost x
      posts := update r.posts x (r.posts x + 1)
      released := update r.released x (r.released x ++ r.taken x)
      going := update r.going x (r.taken x ++ r.going x) } := rfl
  have htaken : r.taken x = [] := if_neg hnone
  rw [hlocks, htaken, append_nil, nil_append, update_eq_self, update_eq_self] at hpost
  have hcount := toInt_add_one hclean
  have hkept := h.count (x := x) ((r.sem x).count + 1) (r.returned x) (r.posts x + 1) (by omega)
    (by omega) (by rw [hcount]; push_cast; omega)
  rw [update_eq_self] at hkept
  rw [hpost]
  exact hkept

/-- The thread that has waited longest is released. -/
theorem Kept.post_release (h : r.Kept) (hclean : (r.sem x).count.toInt < 2 ^ 31 - 1)
    (hle : ((r.sem x).count + 1).toInt ≤ 0) : (r.post x).Kept := by
  have hcount := toInt_add_one hclean
  obtain ⟨first, rest, hlist⟩ : ∃ first rest, (r.sem x).waiting = first :: rest := by
    refine exists_cons_of_ne_nil fun hnil => ?_
    have hlength := (h.sums x).length
    rw [hnil, length_nil] at hlength
    omega
  have hplaces := h.places x
  rw [hlist] at hplaces
  obtain ⟨hin, hstopped⟩ := (hplaces.waiting first).mp mem_cons_self
  have hwake : r.sched.wake first = (r.sched.setState first .ready).addThreadLocked first :=
    if_pos ⟨h.orderly.hasThread hstopped, hstopped⟩
  have htaken : r.taken x = [first] := by
    rw [taken, if_pos hle, hlist]
    rfl
  have hpost : r.post x = { r with
      locks := { r.locks with
        semaphores := update r.locks.semaphores x ⟨(r.sem x).count + 1, rest⟩
        sched := (r.sched.setState first .ready).addThreadLocked first }
      posts := update r.posts x (r.posts x + 1)
      released := update r.released x (r.released x ++ [first])
      going := update r.going x (first :: r.going x) } := by
    rw [post, Locks.semPost_cons hle hlist, htaken, ← hwake]
    rfl
  have hsem : ∀ y, (r.post x).sem y =
      if y = x then ⟨(r.sem x).count + 1, rest⟩ else r.sem y := fun y => by
    rw [hpost]
    exact r.sem_update x _ y
  have hsched : (r.post x).sched = (r.sched.setState first .ready).addThreadLocked first := by
    rw [hpost]
    rfl
  have hinside : (r.post x).inside = r.inside := by rw [hpost]
  have hgoing : ∀ y, (r.post x).going y = if y = x then first :: r.going x else r.going y :=
    fun y => by
      rw [hpost]
      exact update_apply ..
  have hreleased : ∀ y, (r.post x).released y =
      if y = x then r.released x ++ [first] else r.released y := fun y => by
    rw [hpost]
    exact update_apply ..
  have hposts : ∀ y, (r.post x).posts y = if y = x then r.posts x + 1 else r.posts y := fun y => by
    exact update_apply ..
  refine ⟨hsched ▸ h.orderly.ready hstopped, fun y => ?_, fun y => ?_⟩
  · rw [hsched, hinside, hgoing, hsem]
    by_cases hy : y = x
    · rw [if_pos hy, if_pos hy, hy]
      exact hplaces.release
    · rw [if_neg hy, if_neg hy]
      have hother : ∀ t, r.inside t = some y → t ≠ first := fun t ht heq =>
        hy (some.inj (ht.symm.trans (heq ▸ hin)))
      exact (h.places y).congr (fun _ => Iff.rfl)
        (fun t ht => (Sched.stopped_ready _ _ t).trans (and_iff_right (hother t ht)))
        fun t ht => (Sched.runnable_ready _ _ t).trans (or_iff_right (hother t ht))
  · by_cases hy : y = x
    · subst hy
      obtain ⟨hsum, hlength, horder, hgone⟩ := h.sums y
      rw [hlist] at hsum hlength horder
      rw [length_cons] at hsum hlength
      constructor
      · rw [hgoing, if_pos rfl, hsem, if_pos rfl, hposts, if_pos rfl, hpost]
        simp only [hcount, length_cons]
        omega
      · rw [hsem, if_pos rfl]
        simp only [hcount]
        omega
      · rw [hreleased, if_pos rfl, hsem, if_pos rfl, hpost, append_assoc]
        exact horder
      · rw [hgoing, if_pos rfl, hreleased, if_pos rfl]
        intro t ht
        rcases mem_cons.mp ht with rfl | ht
        · exact mem_append_right _ (mem_singleton.mpr rfl)
        · exact mem_append_left _ (hgone t ht)
    · refine (h.sums y).congr (by rw [hsem, if_neg hy]) ?_ (by rw [hposts, if_neg hy]) ?_ ?_
        (by rw [hreleased, if_neg hy]) (by rw [hgoing, if_neg hy])
      all_goals rw [hpost]

/-- A thread that has been released returns. -/
theorem Kept.resume (h : r.Kept) (hcpu : r.sched.cpus cpu = some tid)
    (hin : r.inside tid = some x) : (r.resume tid x).Kept := by
  have hrunning := h.orderly.busy cpu tid hcpu
  have hmem : tid ∈ r.going x := ((h.places x).going tid).mpr ⟨hin, .inr hrunning⟩
  have hgoing : ∀ y, (r.resume tid x).going y = if y = x then (r.going x).erase tid else r.going y :=
    fun y => update_apply ..
  have hreturned : ∀ y, (r.resume tid x).returned y =
      if y = x then r.returned x + 1 else r.returned y := fun y => update_apply ..
  refine ⟨h.orderly, fun y => ?_, fun y => ?_⟩
  · change Places (update r.inside tid none) r.sched y (r.sem y).waiting _
    rw [hgoing]
    by_cases hy : y = x
    · rw [if_pos hy, hy]
      exact (h.places x).return hrunning
    · rw [if_neg hy]
      refine (h.places y).congr (fun t => ?_) (fun _ _ => Iff.rfl) fun _ _ => Iff.rfl
      by_cases ht : t = tid
      · rw [ht, update_self, hin]
        exact iff_of_false nofun fun heq => hy (some.inj heq).symm
      · rw [update_of_ne ht]
  · by_cases hy : y = x
    · subst hy
      obtain ⟨hsum, hlength, horder, hgone⟩ := h.sums y
      have herase := length_erase_of_mem hmem
      have hpos := length_pos_of_mem hmem
      refine ⟨?_, hlength, horder, fun t ht => ?_⟩
      · change (r.sem y).count.toInt + _ + _ + (r.sem y).waiting.length =
          (r.initial y).toInt + r.posts y
        rw [hgoing, if_pos rfl, hreturned, if_pos rfl]
        omega
      · rw [hgoing, if_pos rfl] at ht
        exact hgone t (mem_of_mem_erase ht)
    · exact (h.sums y).congr rfl rfl rfl (by rw [hreturned, if_neg hy]) rfl rfl
        (by rw [hgoing, if_neg hy])

theorem Kept.step {e : Event} (h : r.Kept) (hclean : r.Clean e) (hstep : machine r e = some r') :
    r'.Kept := by
  cases e with
  | tick cpu =>
    obtain rfl := some.inj hstep
    exact h.tick cpu
  | wait cpu x =>
    simp only [machine, bind_eq_some_iff, ite_none_right_eq_some, some.injEq] at hstep
    obtain ⟨tid, hcpu, hnone, rfl⟩ := hstep
    by_cases hpermit : 0 ≤ ((r.sem x).count - 1).toInt
    · exact h.wait_permit hclean hpermit
    · exact h.wait_park hcpu hnone hclean hpermit
  | resume cpu =>
    simp only [machine, bind_eq_some_iff, map_eq_some_iff] at hstep
    obtain ⟨tid, hcpu, x, hin, rfl⟩ := hstep
    exact h.resume hcpu hin
  | post cpu x =>
    simp only [machine, bind_eq_some_iff, ite_none_right_eq_some, some.injEq] at hstep
    obtain ⟨tid, -, -, rfl⟩ := hstep
    by_cases hle : ((r.sem x).count + 1).toInt ≤ 0
    · exact h.post_release hclean hle
    · exact h.post_permit hclean hle

/-- **Semaphores keep their promise** in every state of every run in which no count overflows, for
any number of threads, semaphores and CPUs. -/
theorem semaphores_keep_their_promise {r₀ : SemRun} (h₀ : r₀.Start)
    (hrun : machine.Run Clean r₀ r) (x : ℕ) : r.Promise x :=
  (hrun.invariant h₀.kept fun _ _ _ h hclean hstep => h.step hclean hstep).promise x

/-- Three threads, and semaphores with the given value. -/
def three (value : BitVec 32) : SemRun where
  locks := ⟨Sched.three, fun _ => ⟨none, 0, []⟩, fun _ => ⟨value, []⟩⟩
  inside _ := none
  initial _ := value
  posts _ := 0
  returned _ := 0
  began _ := []
  released _ := []
  going _ := []

theorem three_start {value : BitVec 32} (h : 0 ≤ value.toInt) : (three value).Start :=
  ⟨Sched.three_orderly, fun _ => rfl, fun _ => h, fun _ => rfl, fun _ => ⟨rfl, rfl, rfl, rfl, rfl⟩⟩

/-- Two threads wait for a semaphore without permits, and the third one posts it. -/
def postedOnce : List Event := [.tick 0, .wait 0 0, .wait 0 0, .post 0 0]

/-- The thread that began to wait first has been released. -/
theorem semaphores_keep_their_promise_posted :
    (machine.after (three 0) postedOnce).began 0 = [0, 1] ∧
      (machine.after (three 0) postedOnce).released 0 = [0] ∧
      (machine.after (three 0) postedOnce).Promise 0 := by
  have hmeets : machine.Meets Clean (three 0) postedOnce :=
    ⟨trivial, by decide, by decide, by decide, trivial⟩
  exact ⟨by decide, by decide, semaphores_keep_their_promise (three_start (by decide))
    (Machine.run_of_meets (by decide) hmeets) 0⟩

/-- A semaphore is made with the greatest `int` and posted once: its count is the least `int`, and
nobody is on its list. -/
theorem semaphore_overflow : (three (BitVec.intMax 32)).Start ∧
    machine.Run Machine.Any (three (BitVec.intMax 32))
      (machine.after (three (BitVec.intMax 32)) [.tick 0, .post 0 0]) ∧
    ¬(machine.after (three (BitVec.intMax 32)) [.tick 0, .post 0 0]).Promise 0 := by
  refine ⟨three_start (by decide), Machine.run_after (by decide), fun h => ?_⟩
  have hcount : ((machine.after (three (BitVec.intMax 32)) [.tick 0, .post 0 0]).sem 0).count.toInt =
      -2 ^ 31 := by decide
  have hlist : ((machine.after (three (BitVec.intMax 32)) [.tick 0, .post 0 0]).sem 0).waiting =
      [] := by decide
  have hlength := h.length
  cases hlength

/-- The condition is exact: a count that overflows does not belong to its list. -/
theorem broken_of_overflow {r₀ : SemRun} {e : Event} (h₀ : r₀.Start)
    (hrun : machine.Run Clean r₀ r) (hnot : ¬r.Clean e) (hstep : machine r e = some r') :
    ∃ x, ¬r'.Promise x := by
  have h : r.Kept := hrun.invariant h₀.kept fun _ _ _ h hclean hstep => h.step hclean hstep
  cases e with
  | tick cpu => exact absurd trivial hnot
  | resume cpu => exact absurd trivial hnot
  | wait cpu x =>
    simp only [machine, bind_eq_some_iff, ite_none_right_eq_some, some.injEq] at hstep
    obtain ⟨tid, -, -, rfl⟩ := hstep
    have hcount : (r.sem x).count = BitVec.intMin 32 := by
      refine BitVec.eq_of_toInt_eq ?_
      have hlow := (r.sem x).count.le_toInt
      have hmin : (BitVec.intMin 32).toInt = -2 ^ 31 := by decide
      rw [Clean] at hnot
      omega
    have hpermit : 0 ≤ ((r.sem x).count - 1).toInt := by
      rw [hcount]
      decide
    have hsem : (r.wait cpu tid x).sem x = { r.sem x with count := (r.sem x).count - 1 } := by
      rw [wait_of_permit cpu tid hpermit]
      exact update_self ..
    refine ⟨x, fun hpromise => ?_⟩
    have hlength := hpromise.length
    have hold := (h.sums x).length
    rw [hsem] at hlength
    simp only [hcount] at hlength hold
    rw [hold] at hlength
    revert hlength
    decide
  | post cpu x =>
    simp only [machine, bind_eq_some_iff, ite_none_right_eq_some, some.injEq] at hstep
    obtain ⟨tid, -, -, rfl⟩ := hstep
    have hcount : (r.sem x).count = BitVec.intMax 32 := by
      refine BitVec.eq_of_toInt_eq ?_
      have hhigh := (r.sem x).count.toInt_lt
      have hmax : (BitVec.intMax 32).toInt = 2 ^ 31 - 1 := by decide
      rw [Clean] at hnot
      omega
    have hnil : (r.sem x).waiting = [] := by
      have hlength := (h.sums x).length
      have hmax : (BitVec.intMax 32).toInt = 2 ^ 31 - 1 := by decide
      rw [hcount, hmax] at hlength
      refine eq_nil_of_length_eq_zero ?_
      omega
    have hle : ((r.sem x).count + 1).toInt ≤ 0 := by
      rw [hcount]
      decide
    have hsem : (r.post x).sem x = ⟨(r.sem x).count + 1, []⟩ := by
      rw [post, Locks.semPost_nil hle hnil]
      exact update_self ..
    refine ⟨x, fun hpromise => ?_⟩
    have hlength := hpromise.length
    rw [hsem, hcount] at hlength
    revert hlength
    decide

/-- A post at the greatest `int`. -/
theorem broken_of_overflow_post :
    ∃ x, ¬(machine.after (three (BitVec.intMax 32)) [.tick 0, .post 0 0]).Promise x :=
  broken_of_overflow (r := machine.after (three (BitVec.intMax 32)) [.tick 0]) (e := .post 0 0)
    (three_start (by decide)) (Machine.run_of_meets (by decide) ⟨trivial, trivial⟩) (by decide) rfl

end SemRun

end OsPi
