import OsPi.Memory.RegionLists

/-!
# Calls on Regions

How `add_vm_region`, `mmap`, `munmap` and `load_segment_page_for_fault` end, from a state with the
lock free: `AddOutcome`, `UnmapOutcome` and `LoadOutcome` list everything they can do.

Two results follow. The list of regions stays in order in every run of calls that are answered
rightly, and a call is answered rightly exactly when what refuses a region is that it overlaps
another (`regions_ordered_of_agreeing_calls`). The lock is taken once at a time and is free when a
call returns, exactly when no region is refused by the scan and none has to be split
(`metadata_lock_disciplined_iff`).
-/

namespace OsPi

open Comp Option

/-! ### The calls -/

/-- The regions of the page table. -/
def Vm.regions (v : Vm) : List MemSegment := v.segments.getD []

/-- The `page_table_t` is missing and cannot be made. -/
def Allocs.NoTable (mem : Allocs) (v : Vm) : Prop :=
  v.segments = none ∧ ¬(mem.pageTable = true ∧ mem.vecNew = true ∧ mem.hashmapPut = true)

/-- The allocations of `add_vm_region` before the scan fail. -/
def Allocs.Short (mem : Allocs) (v : Vm) : Prop :=
  mem.NoTable v ∨ mem.segment = false

/-- The vector of a new `page_table_t` cannot be made, which is fatal. -/
def Allocs.Stops (mem : Allocs) (v : Vm) : Prop :=
  v.segments = none ∧ mem.pageTable = true ∧ mem.vecNew = false

instance (mem : Allocs) (v : Vm) : Decidable (mem.NoTable v) :=
  inferInstanceAs (Decidable (_ ∧ _))

instance (mem : Allocs) (v : Vm) : Decidable (mem.Stops v) :=
  inferInstanceAs (Decidable (_ ∧ _))

instance (mem : Allocs) (v : Vm) : Decidable (mem.Short v) :=
  inferInstanceAs (Decidable (_ ∨ _))

variable {mem : Allocs} {v : Vm} {segment : MemSegment}

theorem lockMetadata_of_free (h : v.lock = false) :
    lockMetadata.eval v = (.ok (), { v with lock := true }) := by
  simp [lockMetadata, eval_bind, h]

@[simp] theorem unlockMetadata_eval : unlockMetadata.eval v = (.ok (), { v with lock := false }) :=
  rfl

theorem noteFaultError_of_free (h : v.lock = false) :
    noteFaultError.eval v = (.ok .error, v) := by
  unfold noteFaultError
  rw [eval_bind_of_ok (lockMetadata_of_free h), eval_bind_of_ok unlockMetadata_eval, eval_pure, ← h]

theorem ensurePageTable_of_noTable (h : mem.NoTable v) :
    (ensurePageTable mem).eval v = (.ok (.error .invalidArgs), v) ∧ ¬mem.Stops v ∨
      (ensurePageTable mem).eval v = (.error .fatal, v) ∧ mem.Stops v := by
  obtain ⟨hnone, hmem⟩ := h
  unfold Allocs.Stops
  cases hp : mem.pageTable with
  | false => exact .inl (by simp [ensurePageTable, eval_bind, hnone, hp])
  | true =>
    cases hv : mem.vecNew with
    | false => exact .inr (by simp [ensurePageTable, eval_bind, hnone, hp, hv])
    | true =>
      have hput : mem.hashmapPut = false := by simpa [hp, hv] using hmem
      exact .inl (by simp [ensurePageTable, eval_bind, hnone, hp, hv, hput])

theorem Allocs.Stops.noTable (h : mem.Stops v) : mem.NoTable v :=
  ⟨h.1, by simp [h.2.2]⟩

theorem ensurePageTable_of_table (h : ¬mem.NoTable v) :
    (ensurePageTable mem).eval v = (.ok (.ok v.regions), { v with segments := some v.regions }) := by
  unfold Allocs.NoTable at h
  obtain ⟨lock, segments, va, table, pool⟩ := v
  cases segments with
  | none =>
    obtain ⟨hp, hv, hput⟩ : mem.pageTable = true ∧ mem.vecNew = true ∧ mem.hashmapPut = true := by
      simpa using h
    simp [ensurePageTable, eval_bind, Vm.regions, hp, hv, hput]
  | some segments => simp [ensurePageTable, eval_bind, Vm.regions]

/-- How `add_vm_region` ends when the lock is free. Out of memory it leaves the list as it was and
the lock free, if it returns; where it refuses the region the lock stays held. -/
inductive AddOutcome (mem : Allocs) (segment : MemSegment) (v : Vm) :
    Except Stop (Except Err Unit) × Vm → Prop
  | short (hmem : mem.Short v) (hgo : ¬mem.Stops v) {v' : Vm} (hregions : v'.regions = v.regions)
      (hlock : v'.lock = false) (hva : v'.currMmapVa = v.currMmapVa) :
      AddOutcome mem segment v (.ok (.error .invalidArgs), v')
  | stopped (hmem : mem.Stops v ∨ ¬mem.Short v ∧ mem.vecReserve = false ∧
        insertSegment v.regions segment ≠ none) {v' : Vm} :
      AddOutcome mem segment v (.error .fatal, v')
  | refused (hmem : ¬mem.Short v) (hins : insertSegment v.regions segment = none) :
      AddOutcome mem segment v
        (.ok (.error .invalidArgs), { v with lock := true, segments := some v.regions })
  | added {l : List MemSegment} (hmem : ¬mem.Short v) (hroom : mem.vecReserve = true)
      (hins : insertSegment v.regions segment = some l) :
      AddOutcome mem segment v (.ok (.ok ()), { v with lock := false, segments := some l })

theorem addVmRegion_of_locked (h : v.lock = true) :
    (addVmRegion mem segment).eval v = (.error .deadlock, v) := by
  simp [addVmRegion, lockMetadata, eval_bind, h]

theorem addVmRegion_outcome (mem : Allocs) (segment : MemSegment) (h : v.lock = false) :
    AddOutcome mem segment v ((addVmRegion mem segment).eval v) := by
  unfold addVmRegion
  rw [eval_bind_of_ok (lockMetadata_of_free h)]
  by_cases htable : mem.NoTable { v with lock := true }
  · have hmem : mem.Short v := .inl htable
    rcases ensurePageTable_of_noTable htable with ⟨he, hgo⟩ | ⟨he, hstop⟩
    · rw [eval_bind_of_ok he]
      exact .short hmem hgo rfl rfl rfl
    · rw [eval_bind_of_error he]
      exact .stopped (.inl (show mem.Stops v from hstop))
  · rw [eval_bind_of_ok (ensurePageTable_of_table htable)]
    have hregions : ({ v with lock := true } : Vm).regions = v.regions := rfl
    cases hseg : mem.segment with
    | false =>
      have hgo : ¬mem.Stops v := fun hstop => htable hstop.noTable
      exact .short (.inr hseg) hgo rfl rfl rfl
    | true =>
      have hmem : ¬mem.Short v := by
        rintro (hno | hno)
        · exact htable hno
        · simp [hseg] at hno
      simp only [Bool.not_true, Bool.false_eq_true, if_false, hregions]
      cases hins : insertSegment v.regions segment with
      | none =>
        exact .refused hmem hins
      | some l =>
        cases hroom : mem.vecReserve with
        | false =>
          exact .stopped (.inr ⟨hmem, hroom, by simp [hins]⟩)
        | true =>
          simp only [Bool.not_true, Bool.false_eq_true, if_false, unlockMetadata,
            eval_bind, eval_modify, eval_pure]
          exact .added hmem hroom hins

/-- A call on one address space. For `mmap` this is what it does once it knows what to map. -/
inductive VmCall
  | add (mem : Allocs) (segment : MemSegment)
  | mmap (mem : Allocs) (args : MmapArgs) (region : MmapRegion)
  | munmap (mem : Allocs) (addr length : ℕ)
  deriving DecidableEq, Repr

namespace VmCall

/-- The result of a call: `mmap` and `add_vm_region` accept a region or not. -/
def run : VmCall → VmM Bool
  | add mem segment => do
    let r ← addVmRegion mem segment
    pure (r matches .ok _)
  | mmap mem args region => do
    let r ← mmapRegister mem args region
    pure (r != 0)
  | munmap mem addr length => do
    let r ← OsPi.munmap mem addr length
    pure (r == 0)

/-- The region a call asks for, with its allocations. -/
def asked (v : Vm) : VmCall → Option (Allocs × MemSegment)
  | add mem segment => some (mem, segment)
  | mmap mem args region => some (mem, args.segment region (args.place v))
  | munmap _ _ _ => none

/-- The call does not wrap around. A region of `mmap` is never at the null pointer. -/
def Valid (v : Vm) : VmCall → Prop
  | add _ segment => segment.Fits
  | mmap _ args region => args.place v ≠ 0 ∧ args.place v + region.length < 2 ^ 64
  | munmap _ addr length => addr + length < 2 ^ 64

instance (v : Vm) : (c : VmCall) → Decidable (c.Valid v)
  | add _ _ => inferInstanceAs (Decidable (_ < _))
  | mmap _ _ _ => inferInstanceAs (Decidable (_ ∧ _))
  | munmap _ _ _ => inferInstanceAs (Decidable (_ < _))

/-- A call that asks for a region is answered rightly: the region is accepted exactly when it
overlaps none. A call that does not return accepts nothing. -/
def Right (v : Vm) (c : VmCall) : Prop :=
  ∀ r, c.asked v = some r →
    ((c.run.eval v).1 = .ok true ↔ ∀ a ∈ v.regions, ¬a.Overlaps r.2)

/-- The lock is held, memory is short, or the start of the region is in another or at its end. -/
def Refuses (v : Vm) (r : Allocs × MemSegment) : Prop :=
  v.lock = true ∨ r.1.Short v ∨ r.1.vecReserve = false ∨ ∃ a ∈ v.regions, a.Meets r.2

instance (v : Vm) (r : Allocs × MemSegment) : Decidable (Refuses v r) :=
  inferInstanceAs (Decidable (_ ∨ _))

/-- The region is refused for its start, or for lack of memory or of the lock, exactly when it
overlaps another. -/
def Agrees (v : Vm) (c : VmCall) : Prop :=
  ∀ r, c.asked v = some r → (Refuses v r ↔ ∃ a ∈ v.regions, a.Overlaps r.2)

variable {mem : Allocs} {v v' : Vm} {segment : MemSegment}

/-- `add_vm_region` on an ordered list accepts a region unless something refuses it. -/
theorem addVmRegion_accepts_iff (hord : Ordered v.regions) :
    ((addVmRegion mem segment).eval v).1 = .ok (.ok ()) ↔ ¬Refuses v (mem, segment) := by
  unfold Refuses
  cases hlock : v.lock with
  | true => simp [addVmRegion_of_locked hlock]
  | false =>
    have hout := addVmRegion_outcome mem segment hlock
    have hnone := insertSegment_eq_none hord segment
    generalize (addVmRegion mem segment).eval v = out at hout ⊢
    cases hout with
    | short hmem _ _ _ _ => simp [hmem]
    | stopped hmem =>
      have hmem' : mem.Short v ∨ mem.vecReserve = false :=
        hmem.imp (fun hstop => .inl hstop.noTable) fun h => h.2.1
      simpa using fun hs hv => absurd hmem' (by simp [hs, hv])
    | refused hmem hins => simpa using fun _ _ => hnone.mp hins
    | added hmem hroom hins =>
      have hmeet : ¬∃ a ∈ v.regions, a.Meets segment := by
        rw [← hnone, hins]
        simp
      simp [hmem, hroom, hmeet]

theorem mmapRegister_eval (mem : Allocs) (args : MmapArgs) (region : MmapRegion) (v : Vm) :
    (mmapRegister mem args region).eval v =
      match (addVmRegion mem (args.segment region (args.place v))).eval (v.advance args region) with
      | (.ok (.ok _), v') => (.ok (args.place v), v')
      | (.ok (.error _), v') => (.ok 0, v')
      | (.error e, v') => (.error e, v') := by
  unfold mmapRegister
  rw [eval_get_bind, eval_bind_of_ok (eval_set v _), eval_bind]
  rcases (addVmRegion mem (args.segment region (args.place v))).eval (v.advance args region) with
    ⟨⟨e⟩ | ⟨⟨e⟩ | ⟨u⟩⟩, v'⟩ <;> rfl

theorem regions_advance (args : MmapArgs) (region : MmapRegion) :
    (v.advance args region).regions = v.regions := by
  unfold Vm.advance
  split_ifs <;> rfl

theorem refuses_advance (args : MmapArgs) (region : MmapRegion) (r : Allocs × MemSegment) :
    Refuses (v.advance args region) r ↔ Refuses v r := by
  unfold Vm.advance
  split_ifs <;> rfl

/-- A call that asks for a region is accepted unless something refuses the region. -/
theorem run_accepts_iff {c : VmCall} (hord : Ordered v.regions) (hvalid : c.Valid v)
    {r : Allocs × MemSegment} (hr : c.asked v = some r) :
    (c.run.eval v).1 = .ok true ↔ ¬Refuses v r := by
  cases c with
  | add mem segment =>
    obtain rfl := some.inj hr
    rw [← addVmRegion_accepts_iff hord]
    simp only [run, eval_bind]
    rcases (addVmRegion mem segment).eval v with ⟨⟨e⟩ | ⟨⟨e⟩ | ⟨u⟩⟩, v'⟩ <;> simp
  | mmap mem args region =>
    obtain rfl := some.inj hr
    have hne : args.place v ≠ 0 := hvalid.1
    rw [← refuses_advance args region, ← addVmRegion_accepts_iff (by rwa [regions_advance])]
    simp only [run, eval_bind, mmapRegister_eval]
    rcases (addVmRegion mem (args.segment region (args.place v))).eval (v.advance args region) with
      ⟨⟨e⟩ | ⟨⟨e⟩ | ⟨u⟩⟩, v'⟩ <;> simp [hne]
  | munmap mem addr length => simp [asked] at hr

/-- The answer is right exactly when what refuses a region is that it overlaps another. -/
theorem right_iff_agrees {c : VmCall} (hord : Ordered v.regions) (hvalid : c.Valid v) :
    c.Right v ↔ c.Agrees v := by
  refine forall_congr' fun r => forall_congr' fun hr => ?_
  have hnone : (∀ a ∈ v.regions, ¬a.Overlaps r.2) ↔ ¬∃ a ∈ v.regions, a.Overlaps r.2 := by simp
  rw [run_accepts_iff hord hvalid hr, hnone, not_iff_not]

/-- An accepted region that overlaps none leaves the list in order, and so does a refusal. -/
theorem ordered_addVmRegion (hord : Ordered v.regions) (hfits : segment.Fits)
    (hagrees : Refuses v (mem, segment) ↔ ∃ a ∈ v.regions, a.Overlaps segment)
    {r : Except Err Unit} (h : (addVmRegion mem segment).eval v = (.ok r, v')) :
    Ordered v'.regions := by
  cases hlock : v.lock with
  | true => simp [addVmRegion_of_locked hlock] at h
  | false =>
    have haccepts : _ ↔ ¬Refuses v (mem, segment) := addVmRegion_accepts_iff hord
    have hout := addVmRegion_outcome mem segment hlock
    rw [h] at hout haccepts
    cases hout with
    | short _ _ hregions _ _ => rwa [hregions]
    | refused _ _ => exact hord
    | added _ _ hins =>
      have hno : ¬∃ a ∈ v.regions, a.Overlaps segment := by
        rw [← hagrees]
        exact haccepts.mp rfl
      exact hord.insert hfits (fun a ha hov => hno ⟨a, ha, hov⟩) hins

/-- How `munmap` ends when the lock is free: without a `page_table_t`, with the list the loop
leaves, or waiting for the lock it holds. -/
inductive UnmapOutcome (addr length : ℕ) (v : Vm) : Except Stop ℤ × Vm → Prop
  | noTable (hnone : v.segments = none) :
      UnmapOutcome addr length v (.ok (-1), { v with lock := false })
  | unmapped {l l' : List MemSegment} (hsome : v.segments = some l)
      (hloop : unmapSegments addr length l = .finished l') :
      UnmapOutcome addr length v (.ok 0, { v with lock := false, segments := some l' })
  | deadlocked {l l' : List MemSegment} {tail : MemSegment} (hsome : v.segments = some l)
      (hloop : unmapSegments addr length l = .split l' tail) :
      UnmapOutcome addr length v (.error .deadlock, { v with lock := true, segments := some l' })

theorem munmap_of_locked (mem : Allocs) (addr length : ℕ) (h : v.lock = true) :
    (OsPi.munmap mem addr length).eval v = (.error .deadlock, v) := by
  simp [OsPi.munmap, lockMetadata, eval_bind, h]

theorem munmap_outcome (mem : Allocs) (addr length : ℕ) (h : v.lock = false) :
    UnmapOutcome addr length v ((OsPi.munmap mem addr length).eval v) := by
  unfold OsPi.munmap
  rw [eval_bind_of_ok (lockMetadata_of_free h), eval_get_bind]
  cases hseg : v.segments with
  | none =>
    simp only [unlockMetadata, eval_bind, eval_modify, eval_pure]
    rw [← hseg]
    exact .noTable hseg
  | some l =>
    dsimp only
    cases hloop : unmapSegments addr length l with
    | finished l' =>
      exact .unmapped hseg hloop
    | split l' tail =>
      exact .deadlocked hseg hloop

/-- A call whose answer is right, if it returns, leaves the list in order. -/
theorem ordered_run {c : VmCall} (hord : Ordered v.regions) (hvalid : c.Valid v)
    (hagrees : c.Agrees v) {b : Bool} (h : c.run.eval v = (.ok b, v')) : Ordered v'.regions := by
  cases c with
  | add mem segment =>
    obtain ⟨r, s, hr, hs⟩ := eval_bind_eq_ok.mp h
    obtain rfl : s = v' := congrArg Prod.snd hs
    exact ordered_addVmRegion hord hvalid (hagrees _ rfl) hr
  | mmap mem args region =>
    obtain ⟨addr, s, hr, hs⟩ := eval_bind_eq_ok.mp h
    obtain rfl : s = v' := congrArg Prod.snd hs
    rw [mmapRegister_eval] at hr
    have hagrees' := hagrees _ rfl
    rw [← refuses_advance args region, ← regions_advance args region] at hagrees'
    rw [← regions_advance args region] at hord
    have hfits : (args.segment region (args.place v)).Fits := hvalid.2
    split at hr
    · rename_i heval
      simp only [Prod.mk.injEq] at hr
      exact ordered_addVmRegion hord hfits hagrees' (hr.2 ▸ heval)
    · rename_i heval
      simp only [Prod.mk.injEq] at hr
      exact ordered_addVmRegion hord hfits hagrees' (hr.2 ▸ heval)
    · simp at hr
  | munmap mem addr length =>
    obtain ⟨r, s, hr, hs⟩ := eval_bind_eq_ok.mp h
    obtain rfl : s = v' := congrArg Prod.snd hs
    cases hlock : v.lock with
    | true => simp [munmap_of_locked mem addr length hlock] at hr
    | false =>
      have hout := munmap_outcome mem addr length hlock
      rw [hr] at hout
      cases hout with
      | noTable _ => exact hord
      | @unmapped l l' hsome hloop =>
        have hl : v.regions = l := by rw [Vm.regions, hsome, getD_some]
        exact ((hl ▸ hord).unmap hvalid hloop).1

/-- One call that returns, does not wrap around and is answered rightly. -/
def Step (v v' : Vm) : Prop :=
  ∃ (c : VmCall) (b : Bool), c.Valid v ∧ c.Agrees v ∧ c.run.eval v = (.ok b, v')

end VmCall

/-- In every run of calls in which what refuses a region is that it overlaps another, the list of
regions is in order and without overlaps in every state, and the next call is answered rightly
under the same condition. -/
theorem regions_ordered_of_agreeing_calls {v₀ v : Vm} (h₀ : Ordered v₀.regions)
    (hrun : Relation.ReflTransGen VmCall.Step v₀ v) :
    Ordered v.regions ∧ ∀ c : VmCall, c.Valid v → (c.Right v ↔ c.Agrees v) := by
  have hord : Ordered v.regions := by
    induction hrun with
    | refl => exact h₀
    | tail _ hstep ih =>
      obtain ⟨c, b, hvalid, hagrees, h⟩ := hstep
      exact VmCall.ordered_run ih hvalid hagrees h
  exact ⟨hord, fun c hvalid => VmCall.right_iff_agrees hord hvalid⟩

/-- Every allocation succeeds. -/
def Allocs.plenty : Allocs := ⟨true, true, true, true, true⟩

/-- The memory of a process without regions. -/
def Vm.fresh : Vm where
  lock := false
  segments := some []
  currMmapVa := alignUp (procKernelStackTop + 1)
  table := PageTree.empty 1024
  pool := Pool.init 1025 (ramEndPhys / pageSize)

/-- A private region that maps no file and may be read and written. -/
def MemSegment.anonymous (start length : ℕ) : MemSegment :=
  ⟨start, length, invalidIno, 0, 0, 6, ⟨false, true, true, true⟩⟩

/-- The memory of a process with one such region. -/
def Vm.withRegion (start length : ℕ) : Vm :=
  ((VmCall.add .plenty (.anonymous start length)).run.eval Vm.fresh).2

theorem regions_ordered_after_one :
    Relation.ReflTransGen VmCall.Step Vm.fresh (Vm.withRegion 0x10000 0x1000) ∧
      Ordered (Vm.withRegion 0x10000 0x1000).regions := by
  have hrun : Relation.ReflTransGen VmCall.Step Vm.fresh (Vm.withRegion 0x10000 0x1000) := by
    refine .single ⟨.add .plenty (.anonymous 0x10000 0x1000), true, by decide, ?_, rfl⟩
    intro r hr
    obtain rfl := some.inj hr
    decide
  exact ⟨hrun, (regions_ordered_of_agreeing_calls (show Ordered Vm.fresh.regions from .nil) hrun).1⟩

/-- A region that begins where another ends is refused; one that runs into another is accepted,
and the list then has an overlap. -/
theorem touching_refused_and_overlapping_accepted :
    ((∀ a ∈ (Vm.withRegion 0x10000 0x1000).regions, ¬a.Overlaps (.anonymous 0x11000 0x1000)) ∧
        ((VmCall.add .plenty (.anonymous 0x11000 0x1000)).run.eval
          (Vm.withRegion 0x10000 0x1000)).1 = .ok false) ∧
      ((VmCall.add .plenty (.anonymous 0x10000 0x2000)).run.eval
          (Vm.withRegion 0x11000 0x1000)).1 = .ok true ∧
        ¬Ordered ((VmCall.add .plenty (.anonymous 0x10000 0x2000)).run.eval
          (Vm.withRegion 0x11000 0x1000)).2.regions := by
  refine ⟨⟨by decide, rfl⟩, rfl, fun h => ?_⟩
  have hno := List.rel_of_pairwise_cons h.disjoint (List.mem_singleton.mpr rfl)
  exact hno (by decide)

/-! ### Discipline of the lock -/

/-- The lock is not taken while it is held, and it is free when the call returns. -/
def Disciplined {α : Type} (m : VmM α) (v : Vm) : Prop :=
  (m.eval v).1 ≠ .error .deadlock ∧ ∀ a, (m.eval v).1 = .ok a → (m.eval v).2.lock = false

/-- The calls that take the lock. An `mmap` that fails before it has anything to map has no
region. -/
inductive LockCall
  | add (mem : Allocs) (segment : MemSegment)
  | mmap (mem : Allocs) (args : MmapArgs) (region : Option MmapRegion)
  | munmap (mem : Allocs) (addr length : ℕ)
  | load (read : MemSegment → ℕ → Option (ℕ → UInt8)) (faultVa access : ℕ)

namespace LockCall

/-- The call, without its result. -/
def run : LockCall → VmM Unit
  | add mem segment => do let _ ← addVmRegion mem segment
  | mmap mem args (some region) => do let _ ← mmapRegister mem args region
  | mmap _ _ none => pure ()
  | munmap mem addr length => do let _ ← OsPi.munmap mem addr length
  | load read faultVa access => do let _ ← loadSegmentPageForFault read faultVa access

/-- No region is refused by the scan of `add_vm_region`, and none has to be split by `munmap`. -/
def Clean (v : Vm) : LockCall → Prop
  | add mem segment => mem.Short v ∨ insertSegment v.regions segment ≠ none
  | mmap mem args (some region) =>
    mem.Short v ∨ insertSegment v.regions (args.segment region (args.place v)) ≠ none
  | mmap _ _ none => True
  | munmap _ addr length => ∀ l' tail, unmapSegments addr length v.regions ≠ .split l' tail
  | load _ _ _ => True

variable {v : Vm}

theorem disciplined_addVmRegion (mem : Allocs) (segment : MemSegment) (h : v.lock = false) :
    Disciplined (addVmRegion mem segment) v ↔
      mem.Short v ∨ insertSegment v.regions segment ≠ none := by
  have hout := addVmRegion_outcome mem segment h
  unfold Disciplined
  generalize (addVmRegion mem segment).eval v = out at hout ⊢
  cases hout with
  | short hmem _ _ hlock _ => simp [hmem, hlock]
  | stopped hmem => simpa using hmem.imp (fun hstop => .inl hstop.noTable) fun h => h.2.2
  | refused hmem hins => simp [hmem, hins]
  | added hmem _ hins => simp [hmem, hins]

theorem disciplined_bind {α : Type} {m : VmM α} :
    Disciplined (do let _ ← m) v ↔ Disciplined m v := by
  unfold Disciplined
  simp only [eval_bind]
  rcases m.eval v with ⟨⟨e⟩ | ⟨a⟩, v'⟩ <;> simp

theorem short_advance (mem : Allocs) (args : MmapArgs) (region : MmapRegion) :
    mem.Short (v.advance args region) ↔ mem.Short v := by
  unfold Vm.advance
  split_ifs <;> rfl

theorem disciplined_mmapRegister (mem : Allocs) (args : MmapArgs) (region : MmapRegion)
    (h : v.lock = false) : Disciplined (mmapRegister mem args region) v ↔
      mem.Short v ∨ insertSegment v.regions (args.segment region (args.place v)) ≠ none := by
  have hlock : (v.advance args region).lock = false := by
    unfold Vm.advance
    split_ifs <;> exact h
  rw [← short_advance mem args region, ← VmCall.regions_advance args region,
    ← disciplined_addVmRegion mem _ hlock]
  unfold Disciplined
  rw [VmCall.mmapRegister_eval]
  rcases (addVmRegion mem (args.segment region (args.place v))).eval (v.advance args region) with
    ⟨⟨e⟩ | ⟨⟨e⟩ | ⟨u⟩⟩, v'⟩ <;> simp

theorem disciplined_munmap (mem : Allocs) (addr length : ℕ) (h : v.lock = false) :
    Disciplined (OsPi.munmap mem addr length) v ↔
      ∀ l' tail, unmapSegments addr length v.regions ≠ .split l' tail := by
  have hout := VmCall.munmap_outcome mem addr length h
  unfold Disciplined Vm.regions
  generalize (OsPi.munmap mem addr length).eval v = out at hout ⊢
  cases hout with
  | noTable hnone => simp [hnone, unmapSegments]
  | unmapped hsome hloop => simp [hsome, hloop]
  | deadlocked hsome hloop => simp [hsome, hloop]

/-- How `load_segment_page_for_fault` ends when the lock is free: always with the lock free. -/
inductive LoadOutcome (read : MemSegment → ℕ → Option (ℕ → UInt8)) (faultVa access : ℕ) (v : Vm) :
    Except Stop PageFault × Vm → Prop
  | outside (hfind : v.regions.find? (fun seg => seg.Covers faultVa) = none) :
      LoadOutcome read faultVa access v (.ok .notHandled, v)
  | denied {seg : MemSegment} (hfind : v.regions.find? (fun seg => seg.Covers faultVa) = some seg)
      (hprot : seg.prot &&& access = 0) : LoadOutcome read faultVa access v (.ok .permission, v)
  | noPage (halloc : v.pool.allocPage = none) : LoadOutcome read faultVa access v (.ok .error, v)
  | unread {page : ℕ} {pool : Pool} (halloc : v.pool.allocPage = some (page, pool)) :
      LoadOutcome read faultVa access v (.ok .error, { v with pool := pool.freePage page })
  | noTable {seg : MemSegment} {page : ℕ} {pool : Pool} {data : ℕ → UInt8}
      (halloc : v.pool.allocPage = some (page, pool))
      (hdone : (ptMapPage v.table (alignDown faultVa) (Pte.userSegment seg.prot page)
        (pool.fill page data)).done = false) :
      LoadOutcome read faultVa access v (.ok .error, { v with
        table := (ptMapPage v.table (alignDown faultVa) (Pte.userSegment seg.prot page)
          (pool.fill page data)).table
        pool := (ptMapPage v.table (alignDown faultVa) (Pte.userSegment seg.prot page)
          (pool.fill page data)).pool.freePage page })
  | loaded {seg : MemSegment} {page : ℕ} {pool : Pool} {data : ℕ → UInt8}
      (hfind : v.regions.find? (fun seg => seg.Covers faultVa) = some seg)
      (hprot : seg.prot &&& access ≠ 0) (halloc : v.pool.allocPage = some (page, pool))
      (hread : read seg (alignDown faultVa) = some data)
      (hdone : (ptMapPage v.table (alignDown faultVa) (Pte.userSegment seg.prot page)
        (pool.fill page data)).done = true) :
      LoadOutcome read faultVa access v (.ok .handled, { v with
        table := (ptMapPage v.table (alignDown faultVa) (Pte.userSegment seg.prot page)
          (pool.fill page data)).table
        pool := (ptMapPage v.table (alignDown faultVa) (Pte.userSegment seg.prot page)
          (pool.fill page data)).pool })

theorem loadSegmentPageForFault_outcome (read : MemSegment → ℕ → Option (ℕ → UInt8))
    (faultVa access : ℕ) (h : v.lock = false) :
    LoadOutcome read faultVa access v ((loadSegmentPageForFault read faultVa access).eval v) := by
  have hfind : v.segments.bind (·.find? fun seg => seg.Covers faultVa) =
      v.regions.find? fun seg => seg.Covers faultVa := by
    unfold Vm.regions
    cases v.segments <;> rfl
  have hsame : ({ v with lock := false } : Vm) = v := by rw [← h]
  unfold loadSegmentPageForFault
  rw [eval_bind_of_ok (lockMetadata_of_free h), eval_get_bind]
  simp only [hfind]
  cases hseg : v.regions.find? fun seg => seg.Covers faultVa with
  | none =>
    simp only [eval_bind, unlockMetadata_eval, eval_pure]
    rw [hsame]
    exact .outside hseg
  | some seg =>
    simp only
    split_ifs with hprot
    · simp only [eval_bind, unlockMetadata_eval, eval_pure]
      rw [hsame]
      exact .denied hseg hprot
    · rw [eval_bind_of_ok unlockMetadata_eval]
      cases halloc : v.pool.allocPage with
      | none =>
        simp only
        rw [hsame, noteFaultError_of_free h]
        exact .noPage halloc
      | some r =>
        obtain ⟨page, pool⟩ := r
        cases hread : read seg (alignDown faultVa) with
        | none =>
          simp only
          rw [eval_modify_bind, noteFaultError_of_free rfl]
          rw [← h]
          exact .unread halloc
        | some data =>
          simp only
          rw [eval_bind_of_ok (lockMetadata_of_free rfl), eval_modify_bind,
            eval_bind_of_ok unlockMetadata_eval]
          split_ifs with hdone
          · rw [eval_pure, ← h]
            exact .loaded hseg hprot halloc hread hdone
          · rw [eval_modify_bind, noteFaultError_of_free rfl, ← h]
            exact .noTable halloc (by simpa using hdone)

/-- The lock is released on every path of `load_segment_page_for_fault`. -/
theorem disciplined_load (read : MemSegment → ℕ → Option (ℕ → UInt8)) (faultVa access : ℕ)
    (h : v.lock = false) : Disciplined (loadSegmentPageForFault read faultVa access) v := by
  have hout := loadSegmentPageForFault_outcome read faultVa access h
  unfold Disciplined
  generalize (loadSegmentPageForFault read faultVa access).eval v = out at hout ⊢
  cases hout <;> simp [h]

end LockCall

/-- From a state with the lock free, a call takes the lock at most once at a time and leaves it
free exactly when `add_vm_region` does not refuse a region and `munmap` does not have to split
one. -/
theorem metadata_lock_disciplined_iff (c : LockCall) {v : Vm} (h : v.lock = false) :
    Disciplined c.run v ↔ c.Clean v := by
  cases c with
  | add mem segment =>
    exact LockCall.disciplined_bind.trans (LockCall.disciplined_addVmRegion mem segment h)
  | mmap mem args region =>
    cases region with
    | none => simp [LockCall.run, LockCall.Clean, Disciplined, h]
    | some region =>
      exact LockCall.disciplined_bind.trans (LockCall.disciplined_mmapRegister mem args region h)
  | munmap mem addr length =>
    exact LockCall.disciplined_bind.trans (LockCall.disciplined_munmap mem addr length h)
  | load read faultVa access =>
    exact LockCall.disciplined_bind.trans
      (iff_of_true (LockCall.disciplined_load read faultVa access h) trivial)

theorem metadata_lock_disciplined_first_region : Vm.fresh.lock = false ∧
    (Disciplined (LockCall.add .plenty (.anonymous 0x10000 0x1000)).run Vm.fresh ↔
      (LockCall.add .plenty (.anonymous 0x10000 0x1000)).Clean Vm.fresh) :=
  ⟨rfl, metadata_lock_disciplined_iff _ rfl⟩

/-- With one region in the list, a region that touches it is refused and the lock stays held, and
removing its middle waits for a lock that is held. -/
theorem refusal_keeps_lock_and_split_deadlocks : (Vm.withRegion 0x10000 0x3000).lock = false ∧
    ((addVmRegion .plenty (.anonymous 0x13000 0x1000)).eval (Vm.withRegion 0x10000 0x3000)).1 =
      .ok (.error .invalidArgs) ∧
    ((addVmRegion .plenty (.anonymous 0x13000 0x1000)).eval
      (Vm.withRegion 0x10000 0x3000)).2.lock = true ∧
    ((munmap .plenty 0x11000 0x1000).eval (Vm.withRegion 0x10000 0x3000)).1 = .error .deadlock :=
  ⟨rfl, rfl, rfl, rfl⟩

end OsPi
