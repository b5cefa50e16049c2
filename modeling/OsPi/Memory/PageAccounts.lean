import OsPi.Memory.PageTable

/-!
# Accounts of Pages

`Accounted start s maps held` is the invariant of the page allocator. Each page of the pool from
its start on has exactly one place: on the free list, among the pages `held` (the tables, and
whatever else keeps a page to itself), or mapped. `maps` has a page as often as descriptors map
it, and this is its reference count.

Every function that allocates, shares or frees pages is a move between these places, so what it
does to the accounts is one lemma. Mapping a page takes pages for new tables and nothing else
(`mapLevel_accounted`, with `pages_mapLevel` for what it does to the tree); destroying a table
gives all its places back (`destroyLevel_accounted`).
-/

namespace OsPi

open Option

/-! ### The accounts -/

/-- Each page of the pool has one place, and a mapped page has as many references as descriptors
map it. -/
structure Accounted (start : ℕ) (s : Pool) (maps held : Multiset ℕ) : Prop where
  start_le : start ≤ s.nextFreePage
  inside : ∀ p, start ≤ p → p < s.nextFreePage →
    s.freeList.count p + held.count p + min (maps.count p) 1 = 1
  outside : ∀ p, p < start ∨ s.nextFreePage ≤ p →
    s.freeList.count p + held.count p + min (maps.count p) 1 = 0
  refs : ∀ p, 0 < maps.count p → (s.pages p).refcount = maps.count p

/-- The given pages have the same contents and the same flag in both states. -/
def Pool.Same (maps : Multiset ℕ) (s s' : Pool) : Prop :=
  ∀ p ∈ maps, s'.bytes p = s.bytes p ∧ (s'.pages p).cow = (s.pages p).cow

namespace Pool.Same

variable {maps maps' : Multiset ℕ} {s s' s'' : Pool}

theorem refl (maps : Multiset ℕ) (s : Pool) : s.Same maps s := fun _ _ => ⟨rfl, rfl⟩

theorem trans (h : s.Same maps s') (h' : s'.Same maps s'') : s.Same maps s'' := fun p hp =>
  ⟨(h' p hp).1.trans (h p hp).1, (h' p hp).2.trans (h p hp).2⟩

theorem mono (h : s.Same maps s') (hle : maps' ≤ maps) : s.Same maps' s' := fun p hp =>
  h p (Multiset.mem_of_le hle hp)

end Pool.Same

namespace Accounted

variable {start : ℕ} {s s' : Pool} {maps maps' held held' : Multiset ℕ} {p : ℕ}

theorem init (start ramEnd : ℕ) : Accounted start (Pool.init start ramEnd) 0 0 := by
  refine ⟨le_rfl, fun p hlo hhi => ?_, fun p _ => rfl, fun p hp => by simp at hp⟩
  exact absurd hhi (Nat.not_lt.mpr hlo)

/-- A page has at most one place. -/
theorem place_le (h : Accounted start s maps held) (p : ℕ) :
    s.freeList.count p + held.count p + min (maps.count p) 1 ≤ 1 := by
  by_cases hp : start ≤ p ∧ p < s.nextFreePage
  · exact (h.inside p hp.1 hp.2).le
  · exact (h.outside p (by omega)).le.trans zero_le_one

/-- A page that is held is not mapped. -/
theorem not_mapped (h : Accounted start s maps (p ::ₘ held)) : maps.count p = 0 := by
  have hp := h.place_le p
  rw [Multiset.count_cons_self] at hp
  omega

/-- A move that keeps the number of places of each page. -/
theorem move (h : Accounted start s maps held) (hnext : s'.nextFreePage = s.nextFreePage)
    (hplace : ∀ q, s'.freeList.count q + held'.count q + min (maps'.count q) 1 =
      s.freeList.count q + held.count q + min (maps.count q) 1)
    (hrefs : ∀ q, 0 < maps'.count q → (s'.pages q).refcount = maps'.count q) :
    Accounted start s' maps' held' :=
  ⟨hnext ▸ h.start_le, fun q hlo hhi => (hplace q).trans (h.inside q hlo (hnext ▸ hhi)),
    fun q hq => (hplace q).trans (h.outside q (hnext ▸ hq)), hrefs⟩

/-- `alloc_page` moves a page from the free ones to the held ones. -/
theorem alloc (h : Accounted start s maps held) (ha : s.allocPage = some (p, s')) :
    Accounted start s' maps (p ::ₘ held) ∧ (s'.pages p).refcount = 1 ∧ s.Same maps s' := by
  have hnot : maps.count p = 0 := by
    rcases Pool.allocPage_cases ha with ⟨rest, hlist, -⟩ | ⟨-, rfl, -, -⟩
    · have hplace := h.place_le p
      rw [hlist, List.count_cons_self] at hplace
      omega
    · have hplace := h.outside s.nextFreePage (.inr le_rfl)
      omega
  have hne : ∀ q, 0 < maps.count q → q ≠ p := fun q hq => by rintro rfl; omega
  rcases Pool.allocPage_cases ha with ⟨rest, hlist, rfl⟩ | ⟨hlist, rfl, hend, rfl⟩
  · refine ⟨h.move rfl (fun q => ?_) fun q hq => ?_, ?_, fun q hq => ?_⟩
    · simp only [Pool.setPage_freeList, Pool.fill_freeList, hlist, List.count_cons,
        Multiset.count_cons, beq_iff_eq, eq_comm (a := q)]
      omega
    · simp [Pool.setPage_pages, hne q hq, h.refs q hq]
    · simp [Pool.setPage_pages]
    · have := hne q (Multiset.count_pos.mpr hq)
      simp [Pool.setPage_pages, Pool.fill_bytes, this]
  · refine ⟨⟨Nat.le_succ_of_le h.start_le, fun q hlo hhi => ?_, fun q hq => ?_, fun q hq => ?_⟩, ?_,
      fun q hq => ?_⟩
    · simp only [Pool.setPage_freeList, Pool.fill_freeList, Pool.setPage_nextFreePage,
        Pool.fill_nextFreePage, Multiset.count_cons] at hhi ⊢
      have hin := h.inside q hlo
      have hout := h.outside q
      by_cases hq : q = s.nextFreePage
      · rw [if_pos hq]
        have := hout (.inr hq.ge)
        omega
      · rw [if_neg hq]
        exact hin (by omega)
    · simp only [Pool.setPage_freeList, Pool.fill_freeList, Pool.setPage_nextFreePage,
        Pool.fill_nextFreePage, Multiset.count_cons] at hq ⊢
      have hstart := h.start_le
      rw [if_neg (by omega)]
      exact h.outside q (by omega)
    · simp [Pool.setPage_pages, hne q hq, h.refs q hq]
    · simp [Pool.setPage_pages]
    · have := hne q (Multiset.count_pos.mpr hq)
      simp [Pool.setPage_pages, Pool.fill_bytes, this]

/-- A held page with one reference can be mapped once. -/
theorem map_held (h : Accounted start s maps (p ::ₘ held)) (hp : (s.pages p).refcount = 1) :
    Accounted start s (p ::ₘ maps) held := by
  have hnot := h.not_mapped
  refine h.move rfl (fun q => ?_) fun q hq => ?_
  · by_cases hqp : q = p
    · subst hqp
      rw [Multiset.count_cons_self, Multiset.count_cons_self, hnot]
      omega
    · simp [hqp]
  · by_cases hqp : q = p
    · subst hqp; simp [hnot, hp]
    · simp only [Multiset.count_cons, if_neg hqp] at hq ⊢
      exact h.refs q hq

/-- A page mapped once can be held instead. -/
theorem hold (h : Accounted start s (p ::ₘ maps) held) (hp : maps.count p = 0) :
    Accounted start s maps (p ::ₘ held) := by
  refine h.move rfl (fun q => ?_) fun q hq => ?_
  · by_cases hqp : q = p
    · subst hqp
      rw [Multiset.count_cons_self, Multiset.count_cons_self, hp]
      omega
    · simp [hqp]
  · have hqp : q ≠ p := by rintro rfl; omega
    simpa [hqp] using h.refs q (by simpa [hqp] using hq)

/-- `free_page` on a page that is held. -/
theorem free (h : Accounted start s maps (p ::ₘ held)) :
    Accounted start (s.freePage p) maps held ∧ s.Same maps (s.freePage p) := by
  have hnot := h.not_mapped
  have hne : ∀ q, 0 < maps.count q → q ≠ p := fun q hq => by rintro rfl; omega
  refine ⟨h.move rfl (fun q => ?_) fun q hq => ?_, fun q hq => ?_⟩
  · simp only [Pool.freePage, List.count_cons, Multiset.count_cons, beq_iff_eq, eq_comm (a := q)]
    omega
  · simp [Pool.freePage, Pool.setPage_pages, hne q hq, h.refs q hq]
  · have := hne q (Multiset.count_pos.mpr hq)
    simp [Pool.freePage, Pool.setPage_pages, this]

/-- One descriptor less: the page is freed with the last. -/
theorem dec (h : Accounted start s (p ::ₘ maps) held) :
    ∃ s', s.decPteRefcount p = some s' ∧ Accounted start s' maps held ∧ s.Same maps s' := by
  have hrefs : (s.pages p).refcount = maps.count p + 1 := by
    rw [h.refs p (by simp), Multiset.count_cons_self]
  unfold Pool.decPteRefcount
  rw [if_neg (by omega)]
  by_cases hlast : maps.count p = 0
  · rw [if_pos (by omega)]
    exact ⟨_, rfl, (h.hold hlast).free⟩
  · rw [if_neg (by omega)]
    refine ⟨_, rfl, h.move rfl (fun q => ?_) fun q hq => ?_, fun q _ => ?_⟩
    · by_cases hqp : q = p
      · subst hqp
        simp only [Pool.setPage_freeList, Multiset.count_cons_self]
        omega
      · simp [hqp]
    · by_cases hqp : q = p
      · subst hqp; simp [Pool.setPage_pages, hrefs]
      · simpa [Pool.setPage_pages, hqp] using h.refs q (by simpa [hqp] using hq)
    · by_cases hqp : q = p
      · subst hqp; simp [Pool.setPage_pages]
      · simp [Pool.setPage_pages, hqp]

/-- Changing the flag of a page or its contents does not change the accounts. -/
theorem of_refcount (h : Accounted start s maps held) (hfree : s'.freeList = s.freeList)
    (hnext : s'.nextFreePage = s.nextFreePage)
    (hrefs : ∀ q, (s'.pages q).refcount = (s.pages q).refcount) :
    Accounted start s' maps held :=
  h.move hnext (fun q => by rw [hfree]) fun q hq => (hrefs q).trans (h.refs q hq)

theorem fill (h : Accounted start s maps held) (p : ℕ) (data : ℕ → UInt8) :
    Accounted start (s.fill p data) maps held :=
  h.of_refcount rfl rfl fun _ => rfl

end Accounted

/-! ### The pages of a table -/

variable {n : ℕ}

/-- The pages the descriptors of a table map, as often as they do. -/
def PageTree.pages {n : ℕ} (t : PageTree n) : Multiset ℕ :=
  t.leaves.map Pte.page

@[simp] theorem PageTree.pages_zero (pte : Pte) : PageTree.pages (n := 0) pte = {pte.page} := rfl

@[simp] theorem PageTree.pages_node (x : ℕ) (row : List (Option (PageTree n))) :
    PageTree.pages (n := n + 1) (Node.mk x row) = Row.sum PageTree.pages row :=
  Row.map_sum _ _ _

@[simp] theorem PageTree.pages_empty (x : ℕ) : (PageTree.empty (n := n) x).pages = 0 := rfl

@[simp] theorem PageTree.frames_empty (x : ℕ) :
    (PageTree.empty (n := n) x).frames = {x} := rfl

@[simp] theorem PageTree.lookup_empty (d : ℕ → ℕ) (x : ℕ) :
    (PageTree.empty (n := n) x).lookup d = none := rfl

/-! ### Mapping -/

section Mapping

variable {start : ℕ} {maps held : Multiset ℕ} (d : ℕ → ℕ) (pte : Pte)

/-- The table of the next level in `mapLevel`: the one that is there, or a new one. -/
theorem mapLevel_succ (x : ℕ) (row : List (Option (PageTree (n + 1)))) (s : Pool) :
    (∃ child, Row.get row (d (n + 1)) = some child ∧
        mapLevel (n := n + 1) d pte (Node.mk x row) s =
          ⟨Node.mk x (Row.put row (d (n + 1)) (mapLevel d pte child s).table),
            (mapLevel d pte child s).done, (mapLevel d pte child s).pool⟩) ∨
      (Row.get row (d (n + 1)) = none ∧ s.allocPage = none ∧
        mapLevel (n := n + 1) d pte (Node.mk x row) s = ⟨Node.mk x row, false, s⟩) ∨
      ∃ frame s', Row.get row (d (n + 1)) = none ∧ s.allocPage = some (frame, s') ∧
        mapLevel (n := n + 1) d pte (Node.mk x row) s =
          ⟨Node.mk x (Row.put row (d (n + 1)) (mapLevel d pte (PageTree.empty frame) s').table),
            (mapLevel d pte (PageTree.empty (n := n) frame) s').done,
            (mapLevel d pte (PageTree.empty (n := n) frame) s').pool⟩ := by
  cases hget : Row.get row (d (n + 1)) with
  | some child => exact .inl ⟨child, rfl, by simp [mapLevel, hget]⟩
  | none =>
    cases halloc : s.allocPage with
    | none => exact .inr (.inl ⟨rfl, rfl, by simp [mapLevel, hget, halloc]⟩)
    | some r => exact .inr (.inr ⟨r.1, r.2, rfl, rfl, by simp [mapLevel, hget, halloc]⟩)

/-- Mapping a page takes pages for tables only. -/
theorem mapLevel_accounted (t : PageTree (n + 1)) {s : Pool} (h : Accounted start s maps held) :
    ∃ new, (mapLevel d pte t s).table.frames = t.frames + new ∧
      Accounted start (mapLevel d pte t s).pool maps (new + held) ∧
      s.Same maps (mapLevel d pte t s).pool := by
  induction n generalizing s held with
  | zero =>
    obtain ⟨x, row⟩ := t
    have hsum := Row.sum_put (Radix.frames (α := Pte)) row (d 0) pte
    have hzero : (Row.get row (d 0)).elim 0 (Radix.frames (α := Pte)) = 0 := by
      cases Row.get row (d 0) <;> rfl
    refine ⟨0, ?_, by simpa [mapLevel] using h, .refl maps s⟩
    rw [hzero, Radix.frames_zero, add_zero, add_zero] at hsum
    simp only [mapLevel, Radix.frames_node, hsum, add_zero]
  | succ n ih =>
    obtain ⟨x, row⟩ := t
    rcases mapLevel_succ d pte x row s with
      ⟨child, hget, heq⟩ | ⟨-, -, heq⟩ | ⟨frame, s', hget, halloc, heq⟩
    · obtain ⟨new, hframes, hacc, hsame⟩ := ih child h
      rw [heq]
      refine ⟨new, ?_, hacc, hsame⟩
      have hsum := Row.sum_put Radix.frames row (d (n + 1)) (mapLevel d pte child s).table
      rw [hget, hframes, elim_some, add_comm child.frames, ← add_assoc] at hsum
      simp [add_right_cancel hsum]
    · rw [heq]
      exact ⟨0, by simp, by simpa using h, .refl maps s⟩
    · obtain ⟨halloc', -, hsame⟩ := h.alloc halloc
      obtain ⟨new, hframes, hacc, hsame'⟩ := ih (PageTree.empty frame) halloc'
      rw [heq]
      refine ⟨frame ::ₘ new, ?_, by simpa using hacc, hsame.trans hsame'⟩
      simp only [Radix.frames_node, Row.sum_put_of_none _ hget, hframes, PageTree.frames_empty,
        Multiset.cons_add, Multiset.singleton_add]

/-- The page that is mapped counts, and the one it replaces no longer does. -/
theorem pages_mapLevel (t : PageTree (n + 1)) (s : Pool) :
    (mapLevel d pte t s).table.pages +
        (if (mapLevel d pte t s).done then (t.lookup d).elim 0 fun old => {old.page} else 0) =
      t.pages + if (mapLevel d pte t s).done then {pte.page} else 0 := by
  induction n generalizing s with
  | zero =>
    obtain ⟨x, row⟩ := t
    have hsum := Row.sum_put (PageTree.pages (n := 0)) row (d 0) pte
    simp only [mapLevel, PageTree.pages_node, Radix.lookup_node, if_true]
    rw [← PageTree.pages_zero, ← hsum]
    cases Row.get row (d 0) <;> rfl
  | succ n ih =>
    obtain ⟨x, row⟩ := t
    rcases mapLevel_succ d pte x row s with
      ⟨child, hget, heq⟩ | ⟨-, -, heq⟩ | ⟨frame, s', hget, -, heq⟩
    · have hsum := Row.sum_put PageTree.pages row (d (n + 1)) (mapLevel d pte child s).table
      rw [hget, elim_some] at hsum
      rw [heq]
      simp only [PageTree.pages_node, Radix.lookup_node, hget, bind_some]
      refine add_right_cancel (b := child.pages) ?_
      rw [add_right_comm, hsum, add_assoc, ih child s]
      abel
    · simp [heq]
    · rw [heq]
      simp only [PageTree.pages_node, Radix.lookup_node, hget, bind_none, elim_none,
        ite_self, add_zero, Row.sum_put_of_none _ hget]
      simpa using ih (PageTree.empty frame) s'

end Mapping

/-! ### Destroying -/

section Destroying

variable {start : ℕ}

/-- The loop over a row gives back the places of its entries, if each entry does. -/
theorem destroyRow_accounted
    (hdestroy : ∀ (t : PageTree n) {s : Pool} {maps held : Multiset ℕ},
      Accounted start s (t.pages + maps) (t.frames + held) →
        ∃ s', destroyLevel t s = some s' ∧ Accounted start s' maps held ∧ s.Same maps s')
    (row : List (Option (PageTree n))) {s : Pool} {maps held : Multiset ℕ}
    (h : Accounted start s (Row.sum PageTree.pages row + maps) (Row.sum Radix.frames row + held)) :
    ∃ s', destroyRow destroyLevel row s = some s' ∧ Accounted start s' maps held ∧
      s.Same maps s' := by
  induction row generalizing s with
  | nil => exact ⟨s, rfl, by simpa using h, .refl maps s⟩
  | cons e row ih =>
    cases e with
    | none => exact ih (by simpa using h)
    | some child =>
      simp only [Row.sum_cons, elim_some, add_assoc] at h
      obtain ⟨s₁, hs₁, hacc₁, hsame₁⟩ := hdestroy child h
      obtain ⟨s₂, hs₂, hacc₂, hsame₂⟩ := ih hacc₁
      refine ⟨s₂, ?_, hacc₂, (hsame₁.mono (Multiset.le_add_left _ _)).trans hsame₂⟩
      simp [destroyRow, hs₁, hs₂]

/-- Destroying a table gives back the places of everything it has. -/
theorem destroyLevel_accounted (t : PageTree n) {s : Pool} {maps held : Multiset ℕ}
    (h : Accounted start s (t.pages + maps) (t.frames + held)) :
    ∃ s', destroyLevel t s = some s' ∧ Accounted start s' maps held ∧ s.Same maps s' := by
  induction n generalizing s maps held with
  | zero =>
    change Accounted start s ({(show Pte from t).page} + maps) (0 + held) at h
    rw [Multiset.singleton_add, zero_add] at h
    exact h.dec
  | succ n ih =>
    obtain ⟨x, row⟩ := t
    -- While the row is destroyed, the page of the table itself is still held.
    have hheld : Accounted start s (Row.sum PageTree.pages row + maps)
        (Row.sum Radix.frames row + (x ::ₘ held)) := by
      simpa [add_comm, Multiset.add_cons] using h
    obtain ⟨s₁, hs₁, hacc₁, hsame₁⟩ := destroyRow_accounted ih row hheld
    obtain ⟨hacc₂, hsame₂⟩ := hacc₁.free
    exact ⟨s₁.freePage x, by simp [destroyLevel, hs₁], hacc₂, hsame₁.trans hsame₂⟩

end Destroying

end OsPi
