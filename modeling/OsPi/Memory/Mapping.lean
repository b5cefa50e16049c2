import OsPi.Memory.PageAccounts

/-!
# Mapping into a Page Table

What `pt_map_page` and `pt_map_new_page` do to a whole page table and to the accounts of pages.
Both put a page into the slot of an address. A slot is named by 36 bits of the address, so that
addresses that differ above 48 bits share one, and whatever was in it is replaced. A page that
is replaced keeps its reference and is lost to the allocator (`ptMapPage_held`).
-/

namespace OsPi

open Option

variable {start : ℕ} {s : Pool} {maps held : Multiset ℕ} {table : PageTable}

/-- The page a descriptor maps, if there is one. -/
def pageOf (pte : Option Pte) : Multiset ℕ := pte.elim 0 fun pte => {pte.page}

@[simp] theorem pageOf_none : pageOf none = 0 := rfl

@[simp] theorem pageOf_some (pte : Pte) : pageOf (some pte) = {pte.page} := rfl

/-- The descriptor a walk ends at is one of the table. -/
theorem PageTable.mem_pages_of_walk {va : ℕ} {pte : Pte}
    (h : table.walk va = some pte) : pte.page ∈ table.pages :=
  Multiset.mem_map_of_mem Pte.page (Radix.mem_leaves.mpr ⟨_, h⟩)

/-- What `pt_map_page` does to the pages of a table: the one in its slot is replaced. -/
theorem PageTable.pages_ptMapPage (table : PageTable) (va : ℕ) (pte : Pte) (s : Pool) :
    PageTree.pages (ptMapPage table va pte s).table +
        (if (ptMapPage table va pte s).done then pageOf (table.walk va) else 0) =
      table.pages + if (ptMapPage table va pte s).done then {pte.page} else 0 := by
  unfold ptMapPage
  by_cases hva : va % pageSize ≠ 0
  · simp [hva]
  · simp only [if_neg hva]
    exact pages_mapLevel (tableIndex va) pte table s

/-- Mapping a page takes pages for tables only. -/
theorem ptMapPage_accounted (table : PageTable) (va : ℕ) (pte : Pte)
    (h : Accounted start s maps held) :
    ∃ new, Radix.frames (ptMapPage table va pte s).table = table.frames + new ∧
      Accounted start (ptMapPage table va pte s).pool maps (new + held) ∧
      s.Same maps (ptMapPage table va pte s).pool := by
  unfold ptMapPage
  by_cases hva : va % pageSize ≠ 0
  · simp only [if_pos hva]
    exact ⟨0, by simp, by simpa using h, .refl maps s⟩
  · simp only [if_neg hva]
    exact mapLevel_accounted (tableIndex va) pte table h

/-- Mapping a page that is held. Where it cannot be mapped it stays held, and where it replaces
another page, that one is held from then on by nobody that knows of it. -/
theorem ptMapPage_held {va : ℕ} (pte : Pte)
    (h : Accounted start s (table.pages + maps) (pte.page ::ₘ (table.frames + held)))
    (hone : (s.pages pte.page).refcount = 1)
    (hold : ∀ old, table.walk va = some old → (table.pages + maps).count old.page = 1) :
    Accounted start (ptMapPage table va pte s).pool
        (PageTree.pages (ptMapPage table va pte s).table + maps)
        (Radix.frames (ptMapPage table va pte s).table +
          if (ptMapPage table va pte s).done then pageOf (table.walk va) + held
          else pte.page ::ₘ held) ∧
      s.Same (table.pages + maps) (ptMapPage table va pte s).pool := by
  have hnot : (table.pages + maps).count pte.page = 0 := h.not_mapped
  obtain ⟨new, hframes, hacc, hsame⟩ := ptMapPage_accounted table va pte (h.map_held hone)
  have hpages := PageTable.pages_ptMapPage table va pte s
  refine ⟨?_, hsame.mono (Multiset.le_cons_self _ _)⟩
  rw [hframes]
  cases hdone : (ptMapPage table va pte s).done with
  | false =>
    simp only [hdone, Bool.false_eq_true, if_false, add_zero] at hpages ⊢
    rw [hpages]
    convert hacc.hold hnot using 1
    simp only [Multiset.add_cons]
    abel_nf
  | true =>
    simp only [hdone, if_true] at hpages ⊢
    have hall : pte.page ::ₘ (table.pages + maps) =
        pageOf (table.walk va) +
          (PageTree.pages (ptMapPage table va pte s).table + maps) := by
      rw [← Multiset.singleton_add, ← add_assoc, add_comm ({pte.page} : Multiset ℕ), ← hpages]
      abel
    cases hwalk : table.walk va with
    | none =>
      rw [hall, hwalk, pageOf_none, zero_add] at hacc
      rw [pageOf_none, zero_add]
      convert hacc using 1
      abel
    | some old =>
      have hcount : (PageTree.pages (ptMapPage table va pte s).table + maps).count old.page =
          0 := by
        have hone := hold old hwalk
        have hne : old.page ≠ pte.page := by
          intro heq
          rw [heq, hnot] at hone
          exact absurd hone (by decide)
        have := congrArg (Multiset.count old.page) hall
        rw [hwalk, pageOf_some, Multiset.count_cons_of_ne hne, hone, Multiset.count_add,
          Multiset.count_singleton_self] at this
        omega
      rw [hall, hwalk, pageOf_some, Multiset.singleton_add] at hacc
      rw [pageOf_some]
      convert hacc.hold hcount using 1
      rw [← Multiset.singleton_add]
      abel

/-- The pages `new` are some of `pages`, and pages that neither these nor `maps` have, each once. -/
def FreshPages (pages maps new : Multiset ℕ) : Prop :=
  ∀ p, new.count p ≤ pages.count p ∨ new.count p ≤ 1 ∧ (pages + maps).count p = 0

theorem FreshPages.refl (pages maps : Multiset ℕ) : FreshPages pages maps pages :=
  fun _ => .inl le_rfl

/-- `pt_map_new_page`, as `ptMapPage_held` and with the case that there is no page. -/
theorem ptMapNewPage_accounted (va : ℕ) {attrs : ℕ → Pte}
    (hattrs : ∀ page, (attrs page).page = page)
    (h : Accounted start s (table.pages + maps) (table.frames + held))
    (hold : ∀ old, table.walk (alignDown va) = some old →
      (table.pages + maps).count old.page = 1) :
    ∃ held', Accounted start (ptMapNewPage table va attrs s).pool
        (PageTree.pages (ptMapNewPage table va attrs s).table + maps)
        (Radix.frames (ptMapNewPage table va attrs s).table + held') ∧
      s.Same (table.pages + maps) (ptMapNewPage table va attrs s).pool ∧
      FreshPages table.pages maps (PageTree.pages (ptMapNewPage table va attrs s).table) := by
  unfold ptMapNewPage
  cases halloc : s.allocPage with
  | none => exact ⟨held, h, .refl _ _, .refl _ _⟩
  | some r =>
    obtain ⟨page, s'⟩ := r
    dsimp only
    obtain ⟨hacc, hone, hsame⟩ := h.alloc halloc
    have hmapped := ptMapPage_held (attrs page) (by rwa [hattrs]) (by rwa [hattrs]) hold
    refine ⟨_, hmapped.1, hsame.trans hmapped.2, fun p => ?_⟩
    have hpages := congrArg (Multiset.count p)
      (PageTable.pages_ptMapPage table (alignDown va) (attrs page) s')
    have hnot : (table.pages + maps).count page = 0 := hacc.not_mapped
    simp only [hattrs] at hpages
    split_ifs at hpages
    · rw [Multiset.count_add, Multiset.count_add, Multiset.count_singleton] at hpages
      split_ifs at hpages with hp
      · subst hp
        have hle : table.pages.count p ≤ (table.pages + maps).count p := by
          rw [Multiset.count_add]
          exact Nat.le_add_right _ _
        exact .inr ⟨by omega, hnot⟩
      · exact .inl (by omega)
    · exact .inl (by simpa using hpages.le)

end OsPi
