import OsPi.Memory.RegionCalls

/-!
# What `munmap` Leaves

`munmap` is to take a range out of an address space and to leave the rest of it alone
(`Unmaps`). Its loop does so for regions inside of the range and for those that reach into it
from below. A region that reaches out of it at the end is moved or has to be split, which goes
wrong, and the pages of the range stay mapped in any case: `mem_segment_destroy` passes over
them. `munmap_removes_iff` says when nothing of this matters.
-/

namespace OsPi

open List Option

variable {mem : Allocs} {v : Vm} {addr length : ℕ} {a : MemSegment} {l l' : List MemSegment}

/-! ### What a region says about an address -/

/-- What a region says about one of its addresses: how it is protected and mapped, the file with
the offset of the address in it, and whether it is in the part that the file backs. -/
structure AddressSource where
  prot : ℕ
  mapFlags : MapFlags
  ino : ℕ
  fileOffset : ℕ
  backed : Bool
  deriving DecidableEq, Repr

/-- What `read_segment_page` and the fault handler take for an address of a region. -/
def MemSegment.source (seg : MemSegment) (va : ℕ) : AddressSource where
  prot := seg.prot
  mapFlags := seg.mapFlags
  ino := seg.ino
  fileOffset := (seg.fileOffset + (va - seg.start)) % 2 ^ 64
  backed := va - seg.start < seg.fileSize

/-- The range is gone from the regions and from the page table, and what is said about the other
addresses is what was said before. -/
structure Unmaps (addr length : ℕ) (v v' : Vm) : Prop where
  covered : ∀ va, (∃ b ∈ v'.regions, b.Covers va) ↔
    (∃ a ∈ v.regions, a.Covers va) ∧ ¬(addr ≤ va ∧ va < addr + length)
  unmapped : ∀ va, addr ≤ va → va < addr + length → v'.table.walk va = none
  kept : ∀ b ∈ v'.regions, ∀ va, b.Covers va →
    ∃ a ∈ v.regions, a.Covers va ∧ b.source va = a.source va

/-- The end of the range is inside of the region: something of the region lies before it and
something after it. -/
def MemSegment.Straddles (seg : MemSegment) (stop : ℕ) : Prop :=
  seg.start < stop ∧ stop < seg.stop

instance (seg : MemSegment) (stop : ℕ) : Decidable (seg.Straddles stop) :=
  inferInstanceAs (Decidable (_ ∧ _))

/-! ### The loop -/

/-- What should be left of a region that does not reach out of the range at its end. -/
def MemSegment.minus (seg : MemSegment) (remStart remEnd : ℕ) : Option MemSegment :=
  if remStart ≤ seg.start ∧ seg.start + seg.length ≤ remEnd then none
  else if remStart < seg.start + seg.length ∧ seg.start + seg.length ≤ remEnd then
    some { seg with length := remStart - seg.start }
  else some seg

/-- **The loop** on regions that do not reach out of the range at its end. -/
theorem unmapSegments_minus (hwrap : addr + length < 2 ^ 64) (hfits : ∀ a ∈ l, a.Fits)
    (hno : ∀ a ∈ l, ¬a.Straddles (addr + length)) :
    unmapSegments addr length l = .finished (l.filterMap (·.minus addr (addr + length))) := by
  induction l with
  | nil => rfl
  | cons a l ih =>
    have ha := hfits a mem_cons_self
    have hout := hno a mem_cons_self
    have hrest := ih (fun b hb => hfits b (mem_cons_of_mem _ hb)) fun b hb =>
      hno b (mem_cons_of_mem _ hb)
    have hend : (addr + length) % 2 ^ 64 = addr + length := Nat.mod_eq_of_lt hwrap
    have hstop := ha.stop_eq
    unfold MemSegment.Straddles at hout
    unfold MemSegment.Fits at ha
    simp only [unmapSegments, hend, hstop, hrest, filterMap_cons, MemSegment.minus,
      Unmapped.cons] at hout ⊢
    split_ifs with h1 h2 h3 h4 h5 <;> first | rfl | omega | skip
    have hlen : (a.length + 2 ^ 64 - (a.start + a.length - addr)) % 2 ^ 64 = addr - a.start := by
      omega
    rw [hlen]

/-- A region that reaches out of the range at its end keeps its first address, if the loop
ends, although that address is in the range. -/
theorem unmapSegments_straddling (hwrap : addr + length < 2 ^ 64) (hfits : ∀ a ∈ l, a.Fits)
    (ha : a ∈ l) (hin : a.Straddles (addr + length))
    (hl : unmapSegments addr length l = .finished l') :
    (addr ≤ a.start ∧ a.start < addr + length) ∧ ∃ b ∈ l', b.Covers a.start := by
  induction l generalizing l' with
  | nil => cases ha
  | cons c l ih =>
    have hc := hfits c mem_cons_self
    have hend : (addr + length) % 2 ^ 64 = addr + length := Nat.mod_eq_of_lt hwrap
    rcases mem_cons.mp ha with rfl | ha
    · have hstop := hc.stop_eq
      unfold MemSegment.Straddles at hin
      unfold MemSegment.Fits at hc
      simp only [unmapSegments, hend, hstop] at hl hin
      split_ifs at hl with h1 h2 h3 h4
      · omega
      · obtain ⟨m, rfl, -⟩ := Unmapped.cons_eq_finished hl
        refine ⟨h2, _, mem_cons_self, ?_⟩
        simp only [MemSegment.Covers, MemSegment.stop]
        omega
      · omega
      · omega
    · have hrest := fun b hb => hfits b (mem_cons_of_mem _ hb)
      rcases unmapSegments_cons hwrap hc hl with hl | ⟨b, m, rfl, hm, -⟩
      · exact ih hrest ha hl
      · obtain ⟨hrange, d, hd, hcov⟩ := ih hrest ha hm
        exact ⟨hrange, d, mem_cons_of_mem _ hd, hcov⟩

/-- What is left of a region has the addresses of it that are not in the range, and says the same
about them. -/
theorem MemSegment.minus_covers (ha : a.Fits) (hno : ¬a.Straddles (addr + length)) {va : ℕ} :
    (∃ b, a.minus addr (addr + length) = some b ∧ b.Covers va) ↔
      a.Covers va ∧ ¬(addr ≤ va ∧ va < addr + length) := by
  have hstop := ha.stop_eq
  unfold Straddles at hno
  unfold Fits at ha
  rw [hstop] at hno
  unfold minus Covers
  rw [hstop]
  split_ifs with h1 h2
  · refine iff_of_false (fun ⟨b, hb, _⟩ => by cases hb) (by omega)
  · simp only [some.injEq, exists_eq_left', stop]
    omega
  · simp only [some.injEq, exists_eq_left', hstop]
    omega

theorem MemSegment.minus_source {b : MemSegment} {remEnd va : ℕ}
    (h : a.minus addr remEnd = some b) : b.source va = a.source va := by
  unfold minus at h
  split_ifs at h <;> cases h <;> rfl

/-! ### `munmap` -/

/-- `munmap` returns with the regions the loop leaves and the page table as it was, or the loop has
to split a region. -/
theorem munmap_returns (mem : Allocs) (hlock : v.lock = false) :
    (∃ r v', (munmap mem addr length).eval v = (.ok r, v') ∧ v'.table = v.table ∧
        unmapSegments addr length v.regions = .finished v'.regions) ∨
      (munmap mem addr length).eval v = (.error .deadlock, ((munmap mem addr length).eval v).2) ∧
        ∀ l, unmapSegments addr length v.regions ≠ .finished l := by
  have hout := VmCall.munmap_outcome mem addr length hlock
  generalize (munmap mem addr length).eval v = out at hout
  cases hout with
  | noTable hnone =>
    refine .inl ⟨_, _, rfl, rfl, ?_⟩
    simp only [Vm.regions, hnone, getD_none]
    rfl
  | unmapped hsome hloop =>
    refine .inl ⟨_, _, rfl, rfl, ?_⟩
    simp only [Vm.regions, hsome, getD_some]
    exact hloop
  | deadlocked hsome hloop =>
    refine .inr ⟨rfl, fun l => ?_⟩
    simp only [Vm.regions, hsome, getD_some, hloop, ne_eq, reduceCtorEq, not_false_eq_true]

/-- **`munmap` removes a range** exactly if the lock is free, no region reaches out of the range at
its end, and no page of the range is mapped to begin with. -/
theorem munmap_removes_iff (mem : Allocs) (hord : Ordered v.regions)
    (hwrap : addr + length < 2 ^ 64) :
    (∃ r v', (munmap mem addr length).eval v = (.ok r, v') ∧ Unmaps addr length v v') ↔
      v.lock = false ∧ (∀ a ∈ v.regions, ¬a.Straddles (addr + length)) ∧
        ∀ va, addr ≤ va → va < addr + length → v.table.walk va = none := by
  constructor
  · rintro ⟨r, v', heval, hrem⟩
    have hlock : v.lock = false := by
      by_contra hheld
      rw [VmCall.munmap_of_locked mem addr length (Bool.not_eq_false _ ▸ hheld)] at heval
      cases heval
    rcases munmap_returns mem hlock with ⟨r₁, v₁, heval₁, htable, hloop⟩ | ⟨hdead, -⟩
    · obtain ⟨-, rfl⟩ := Prod.mk.inj (heval₁.symm.trans heval)
      refine ⟨hlock, fun a ha hin => ?_, fun va hlo hhi => htable ▸ hrem.unmapped va hlo hhi⟩
      -- the first address of the region is in the range and is covered still
      obtain ⟨hrange, hcov⟩ := unmapSegments_straddling hwrap hord.fits ha hin hloop
      exact ((hrem.covered a.start).mp hcov).2 hrange
    · rw [hdead] at heval
      cases heval
  · rintro ⟨hlock, hno, hwalk⟩
    have hminus := unmapSegments_minus hwrap hord.fits hno
    rcases munmap_returns mem hlock with ⟨r, v', heval, htable, hloop⟩ | ⟨-, hsplit⟩
    · have hregions : v'.regions = v.regions.filterMap (·.minus addr (addr + length)) :=
        Unmapped.finished.inj (hloop.symm.trans hminus)
      refine ⟨r, v', heval, fun va => ?_, fun va hlo hhi => htable ▸ hwalk va hlo hhi, ?_⟩
      · rw [hregions]
        constructor
        · rintro ⟨b, hb, hcov⟩
          obtain ⟨a, ha, hab⟩ := mem_filterMap.mp hb
          obtain ⟨hold, hout⟩ :=
            (MemSegment.minus_covers (hord.fits a ha) (hno a ha)).mp ⟨b, hab, hcov⟩
          exact ⟨⟨a, ha, hold⟩, hout⟩
        · rintro ⟨⟨a, ha, hold⟩, hout⟩
          obtain ⟨b, hab, hcov⟩ :=
            (MemSegment.minus_covers (hord.fits a ha) (hno a ha)).mpr ⟨hold, hout⟩
          exact ⟨b, mem_filterMap.mpr ⟨a, ha, hab⟩, hcov⟩
      · intro b hb va hcov
        rw [hregions] at hb
        obtain ⟨a, ha, hab⟩ := mem_filterMap.mp hb
        have hold := (MemSegment.minus_covers (hord.fits a ha) (hno a ha)).mp ⟨b, hab, hcov⟩
        exact ⟨a, ha, hold.1, MemSegment.minus_source hab⟩
    · exact absurd hminus (hsplit _)

theorem Vm.withRegion_ordered : Ordered (Vm.withRegion 0x10000 0x2000).regions := by
  have hregions : (Vm.withRegion 0x10000 0x2000).regions = [.anonymous 0x10000 0x2000] := rfl
  rw [hregions]
  exact Ordered.nil.cons (by decide) (by simp) (by simp)

/-- A region of two pages loses the second one. -/
theorem munmap_removes_tail : ∃ r v',
    (munmap .plenty 0x11000 0x1000).eval (Vm.withRegion 0x10000 0x2000) = (.ok r, v') ∧
      Unmaps 0x11000 0x1000 (Vm.withRegion 0x10000 0x2000) v' := by
  refine (munmap_removes_iff .plenty Vm.withRegion_ordered (by decide)).mpr
    ⟨rfl, ?_, fun va _ _ => rfl⟩
  have hregions : (Vm.withRegion 0x10000 0x2000).regions = [.anonymous 0x10000 0x2000] := rfl
  rw [hregions]
  decide

/-- The first page of a region of two pages is covered after it is unmapped. -/
theorem munmap_keeps_first_page : Ordered (Vm.withRegion 0x10000 0x2000).regions ∧
    ∃ v', (munmap .plenty 0x10000 0x1000).eval (Vm.withRegion 0x10000 0x2000) = (.ok 0, v') ∧
      ∃ b ∈ v'.regions, b.Covers 0x10000 :=
  ⟨Vm.withRegion_ordered, _, rfl, .anonymous 0x10000 0x2000, by decide, by decide⟩

end OsPi
