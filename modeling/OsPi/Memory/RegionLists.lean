import OsPi.Memory.Regions

/-!
# Lists of Regions in Order

A list of regions is `Ordered` when the regions are in the order of their starts, no two share an
address, and none wraps around. The scan of `add_vm_region` refuses a region whose start is in
another region or at its end, and looks at no region that starts later
(`insertSegment_eq_none`). This is not the same as an overlap: a region that begins where another
ends is refused, and one that runs into the next is not. A region that overlaps none and is not
refused leaves the list in order (`Ordered.insert`).

The loop of `munmap` leaves a list in order, although it does not always remove the range:
`Remains` says what becomes of a region (`Ordered.unmap`).
-/

namespace OsPi

open List Option

variable {a : MemSegment} {l l' : List MemSegment}

/-! ### Regions as sets of addresses -/

namespace MemSegment

/-- Some address is in both regions. -/
def Overlaps (a b : MemSegment) : Prop :=
  ∃ x, (a.start ≤ x ∧ x < a.start + a.length) ∧ b.start ≤ x ∧ x < b.start + b.length

/-- The region does not wrap around. -/
def Fits (a : MemSegment) : Prop := a.start + a.length < 2 ^ 64

instance (a : MemSegment) : Decidable a.Fits :=
  inferInstanceAs (Decidable (_ < _))

theorem overlaps_iff {b : MemSegment} : a.Overlaps b ↔
    (0 < a.length ∧ 0 < b.length) ∧ a.start < b.start + b.length ∧ b.start < a.start + a.length := by
  constructor
  · rintro ⟨x, ⟨ha, ha'⟩, hb, hb'⟩
    omega
  · rintro ⟨⟨ha, hb⟩, hab, hba⟩
    exact ⟨max a.start b.start, by omega⟩

instance (a b : MemSegment) : Decidable (a.Overlaps b) :=
  decidable_of_iff _ overlaps_iff.symm

theorem Overlaps.symm {b : MemSegment} (h : a.Overlaps b) : b.Overlaps a :=
  h.imp fun _ hx => ⟨hx.2, hx.1⟩

theorem Fits.stop_eq (h : a.Fits) : a.stop = a.start + a.length :=
  Nat.mod_eq_of_lt h

/-- The start of one region is in the other or at its end. -/
def Meets (a b : MemSegment) : Prop :=
  a.start ≤ b.start ∧ b.start ≤ a.start + a.length

instance (a b : MemSegment) : Decidable (a.Meets b) :=
  inferInstanceAs (Decidable (_ ∧ _))

end MemSegment

/-- A list of regions in the order of their starts, no two of which overlap. -/
structure Ordered (l : List MemSegment) : Prop where
  sorted : l.Pairwise fun a b => a.start < b.start
  disjoint : l.Pairwise fun a b => ¬a.Overlaps b
  fits : ∀ a ∈ l, a.Fits

namespace Ordered

theorem nil : Ordered [] := ⟨.nil, .nil, by simp⟩

theorem tail (h : Ordered (a :: l)) : Ordered l :=
  ⟨h.sorted.tail, h.disjoint.tail, fun b hb => h.fits b (mem_cons_of_mem _ hb)⟩

theorem cons (h : Ordered l) (ha : a.Fits)
    (hlt : ∀ b ∈ l, a.start < b.start) (hno : ∀ b ∈ l, ¬a.Overlaps b) : Ordered (a :: l) :=
  ⟨.cons hlt h.sorted, .cons hno h.disjoint, by
    intro b hb
    rcases mem_cons.mp hb with rfl | hb
    · exact ha
    · exact h.fits b hb⟩

end Ordered

/-! ### Adding a region -/

/-- The scan of an ordered list refuses a region whose start is in another or at its end. -/
theorem insertSegment_eq_none (h : Ordered l) (segment : MemSegment) :
    insertSegment l segment = none ↔ ∃ a ∈ l, a.Meets segment := by
  induction l with
  | nil => simp [insertSegment]
  | cons a l ih =>
    have hstop := (h.fits a mem_cons_self).stop_eq
    have hlt := (pairwise_cons.mp h.sorted).1
    unfold insertSegment
    split_ifs with hbefore hend
    · -- Everything from here on starts after the new region.
      simp only [false_iff, not_exists, not_and]
      intro b hb hmeet
      rcases mem_cons.mp hb with rfl | hb
      · exact absurd hmeet.1 (by omega)
      · have := hlt b hb
        exact absurd hmeet.1 (by omega)
    · simp only [true_iff]
      exact ⟨a, mem_cons_self, by omega, by omega⟩
    · rw [map_eq_none_iff, ih h.tail]
      constructor
      · rintro ⟨b, hb, hmeet⟩
        exact ⟨b, mem_cons_of_mem _ hb, hmeet⟩
      · rintro ⟨b, hb, hmeet⟩
        rcases mem_cons.mp hb with rfl | hb
        · exact absurd hmeet.2 (by omega)
        · exact ⟨b, hb, hmeet⟩

theorem insertSegment_perm {segment : MemSegment}
    (h : insertSegment l segment = some l') : l'.Perm (segment :: l) := by
  induction l generalizing l' with
  | nil => simp only [insertSegment, some.injEq] at h; exact h ▸ List.Perm.refl _
  | cons a l ih =>
    unfold insertSegment at h
    split_ifs at h
    · exact some.inj h ▸ List.Perm.refl _
    · obtain ⟨m, hm, rfl⟩ := map_eq_some_iff.mp h
      exact ((ih hm).cons a).trans (.swap _ _ _)

/-- A region that overlaps no other leaves the list in order. -/
theorem Ordered.insert {segment : MemSegment} (h : Ordered l)
    (hfits : segment.Fits) (hno : ∀ a ∈ l, ¬a.Overlaps segment)
    (hins : insertSegment l segment = some l') : Ordered l' := by
  induction l generalizing l' with
  | nil =>
    simp only [insertSegment, some.injEq] at hins
    subst hins
    exact Ordered.nil.cons hfits (by simp) (by simp)
  | cons a l ih =>
    have hlt := (pairwise_cons.mp h.sorted).1
    have hdis := (pairwise_cons.mp h.disjoint).1
    have hstop := (h.fits a mem_cons_self).stop_eq
    unfold insertSegment at hins
    split_ifs at hins with hbefore hend
    · obtain rfl := some.inj hins
      refine h.cons hfits (fun b hb => ?_) fun b hb hov => hno b hb hov.symm
      rcases mem_cons.mp hb with rfl | hb
      · exact hbefore
      · exact hbefore.trans (hlt b hb)
    · obtain ⟨m, hm, rfl⟩ := map_eq_some_iff.mp hins
      have hperm := insertSegment_perm hm
      refine (ih h.tail (fun b hb => hno b (mem_cons_of_mem _ hb)) hm).cons
        (h.fits a mem_cons_self) (fun b hb => ?_) fun b hb => ?_
      · rcases mem_cons.mp (hperm.mem_iff.mp hb) with rfl | hb
        · omega
        · exact hlt b hb
      · rcases mem_cons.mp (hperm.mem_iff.mp hb) with rfl | hb
        · exact hno a mem_cons_self
        · exact hdis b hb

/-! ### Removing a range -/

theorem Unmapped.cons_eq_finished {u : Unmapped} {seg : MemSegment}
    (h : u.cons seg = .finished l) : ∃ m, l = seg :: m ∧ u = .finished m := by
  cases u with
  | finished m => exact ⟨m, by simpa [Unmapped.cons, eq_comm] using h, rfl⟩
  | split m tail => simp [Unmapped.cons] at h

/-- What the loop of `munmap` leaves of a region: it is moved down to the start of the range, or
cut off there, or it is outside of the range. -/
inductive Remains (remStart remEnd : ℕ) (a b : MemSegment) : Prop
  | moved (hstart : b.start = remStart) (hstop : b.start + b.length = a.start + a.length)
      (hlo : remStart ≤ a.start) (hin : a.start < remEnd) (hout : remEnd < a.start + a.length)
  | cut (hstart : b.start = a.start) (hstop : b.start + b.length = remStart)
      (hlo : a.start < remStart) (hin : remStart < a.start + a.length)
  | kept (heq : b = a)
      (hout : remEnd ≤ a.start ∨ a.start < remStart ∧ a.start + a.length ≤ remStart)

/-- The loop of `munmap` on a list that is not empty: the first region goes, or something of it
remains. -/
theorem unmapSegments_cons {remStart length : ℕ} (hwrap : remStart + length < 2 ^ 64)
    {rest : List MemSegment} (ha : a.Fits)
    (h : unmapSegments remStart length (a :: rest) = .finished l') :
    unmapSegments remStart length rest = .finished l' ∨
      ∃ b m, l' = b :: m ∧ unmapSegments remStart length rest = .finished m ∧
        Remains remStart (remStart + length) a b := by
  have hstop := ha.stop_eq
  have hend : (remStart + length) % 2 ^ 64 = remStart + length := Nat.mod_eq_of_lt hwrap
  unfold MemSegment.Fits at ha
  simp only [unmapSegments, hend, hstop] at h
  split_ifs at h with h1 h2 h3 h4
  · exact .inl h
  · obtain ⟨m, rfl, hm⟩ := Unmapped.cons_eq_finished h
    refine .inr ⟨_, m, rfl, hm, .moved rfl ?_ h2.1 h2.2 (by omega)⟩
    simp only
    omega
  · obtain ⟨m, rfl, hm⟩ := Unmapped.cons_eq_finished h
    refine .inr ⟨_, m, rfl, hm, .cut rfl ?_ (by omega) h3.2⟩
    simp only
    omega
  · obtain ⟨m, rfl, hm⟩ := Unmapped.cons_eq_finished h
    exact .inr ⟨_, m, rfl, hm, .kept rfl (by omega)⟩

/-- `munmap` leaves the list in order, if it returns. -/
theorem Ordered.unmap {remStart length : ℕ} (hwrap : remStart + length < 2 ^ 64)
    (h : Ordered l) (hl : unmapSegments remStart length l = .finished l') :
    Ordered l' ∧ ∀ b ∈ l', ∃ a ∈ l, Remains remStart (remStart + length) a b := by
  induction l generalizing l' with
  | nil =>
    simp only [unmapSegments, Unmapped.finished.injEq] at hl
    subst hl
    exact ⟨.nil, by simp⟩
  | cons a l ih =>
    have ha := h.fits a mem_cons_self
    rcases unmapSegments_cons hwrap ha hl with hl | ⟨b, m, rfl, hm, hrem⟩
    · obtain ⟨hord, hfrom⟩ := ih h.tail hl
      exact ⟨hord, fun b hb => (hfrom b hb).imp fun _ hc => ⟨mem_cons_of_mem _ hc.1, hc.2⟩⟩
    · obtain ⟨hord, hfrom⟩ := ih h.tail hm
      have hlt := (pairwise_cons.mp h.sorted).1
      have hdis := (pairwise_cons.mp h.disjoint).1
      -- A later region that remains starts after `b` and has no address of it.
      have hafter : ∀ c ∈ m, b.start < c.start ∧ ¬b.Overlaps c := by
        intro c hc
        obtain ⟨d, hd, hrem'⟩ := hfrom c hc
        have hstart := hlt d hd
        have hov := hdis d hd
        rw [MemSegment.overlaps_iff] at hov ⊢
        cases hrem <;> cases hrem' <;> subst_vars <;> omega
      refine ⟨hord.cons ?_ (fun c hc => (hafter c hc).1) fun c hc => (hafter c hc).2, ?_⟩
      · unfold MemSegment.Fits at ha ⊢
        cases hrem <;> subst_vars <;> omega
      · intro c hc
        rcases mem_cons.mp hc with rfl | hc
        · exact ⟨a, mem_cons_self, hrem⟩
        · obtain ⟨d, hd, hrem'⟩ := hfrom c hc
          exact ⟨d, mem_cons_of_mem _ hd, hrem'⟩

end OsPi
