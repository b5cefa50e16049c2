import Mathlib.Tactic.Ring
import OsPi.Memory.PageTable

/-!
# Page Tables as Words of Memory

`pt_map_page` and `pt_get_mapped_page` of `memory/page_table/page_table.c` on words of 64 bits. A
table is a page of 512 descriptors, and a descriptor is valid or not and has the address of the
next table, or of the page that is mapped, in its bits 12 to 47. The functions are written out for
the four levels; `walk` and `mapAt` are the same for any number of them.

The pages of a table are those the valid descriptors lead to (`tables`). If no page is met twice
and none is free, mapping a page changes what is found for that page and nothing else
(`ptGetMappedPage_ptMapPage`).
-/

namespace OsPi

open Function List

/-! ### Descriptors -/

/-- `PTE_ADDR_MASK`. -/
def pteAddrMask : ℕ := 0x0000fffffffff000

/-- `~PTE_ADDR_MASK`. -/
def pteAttrMask : ℕ := 0xffff000000000fff

/-- `DESC_VALID`, and the bit `DESC_TABLE` that is `DESC_PAGE` in the last level. -/
def descValid : ℕ := 1

@[inherit_doc descValid] def descTable : ℕ := 2

/-- `table_desc`. -/
def tableDesc (table : ℕ) : ℕ := (table &&& pteAddrMask) ||| descValid ||| descTable

/-- The descriptor `pt_map_page` stores. -/
def pageDesc (pa attrs : ℕ) : ℕ :=
  (pa &&& pteAddrMask) ||| (attrs &&& pteAttrMask) ||| descValid ||| descTable

theorem and_pteAddrMask (x : ℕ) : x &&& pteAddrMask = x % 2 ^ 48 / 2 ^ 12 * 2 ^ 12 := by
  have hmask : pteAddrMask = (2 ^ 36 - 1) * 2 ^ 12 := by decide
  refine Nat.eq_of_testBit_eq fun i => ?_
  rw [hmask, Nat.testBit_and, Nat.testBit_mul_two_pow, Nat.testBit_mul_two_pow,
    Nat.testBit_two_pow_sub_one, Nat.testBit_div_two_pow, Nat.testBit_mod_two_pow]
  by_cases hi : 12 ≤ i
  · have hiff : i - 12 < 36 ↔ i < 48 := by omega
    simp [hi, hiff, Bool.and_comm]
  · simp [hi]

theorem pageDesc_and_mask (pa attrs : ℕ) :
    pageDesc pa attrs &&& pteAddrMask = pa &&& pteAddrMask := by
  have hattr : pteAttrMask &&& pteAddrMask = 0 := by decide
  have hvalid : descValid &&& pteAddrMask = 0 := by decide
  have htable : descTable &&& pteAddrMask = 0 := by decide
  rw [pageDesc, Nat.and_or_distrib_right, Nat.and_or_distrib_right, Nat.and_or_distrib_right,
    Nat.and_assoc, Nat.and_self, Nat.and_assoc, hattr, hvalid, htable, Nat.and_zero, Nat.or_zero,
    Nat.or_zero, Nat.or_zero]

theorem pageDesc_valid (pa attrs : ℕ) : pageDesc pa attrs &&& descValid ≠ 0 := by
  intro h
  have := congrArg (Nat.testBit · 0) h
  simp [pageDesc, descValid, descTable] at this

/-- A table descriptor is a page descriptor without attributes. -/
theorem tableDesc_eq (table : ℕ) : tableDesc table = pageDesc table 0 := by
  rw [tableDesc, pageDesc, Nat.zero_and, Nat.or_zero]

/-! ### Memory -/

/-- The words of memory by their addresses in the kernel, and the page allocator. -/
structure TableMem where
  word : ℕ → ℕ
  pool : Pool

namespace TableMem

/-- `table[index]`. -/
def load (m : TableMem) (table index : ℕ) : ℕ := m.word (table + 8 * index)

/-- `table[index] = value`. -/
def store (m : TableMem) (table index value : ℕ) : TableMem :=
  { m with word := update m.word (table + 8 * index) value }

/-- `alloc_page`, with `zero_page`. -/
def allocPage (m : TableMem) : Option (ℕ × TableMem) :=
  m.pool.allocPage.map fun r =>
    let page := kernelDirectMapVa (r.1 * pageSize)
    (page, ⟨fun a => if page ≤ a ∧ a < page + pageSize then 0 else m.word a, r.2⟩)

/-- The table a descriptor leads to. -/
def child (m : TableMem) (table index : ℕ) : ℕ :=
  kernelDirectMapVa (m.load table index &&& pteAddrMask)

/-- `next_table`; the null pointer is `0`. -/
def nextTable (m : TableMem) (table index : ℕ) : ℕ × TableMem :=
  if m.load table index &&& descValid = 0 then
    match m.allocPage with
    | none => (0, m)
    | some (next, m) =>
      let m := m.store table index (tableDesc next)
      (m.child table index, m)
  else (m.child table index, m)

/-- `pt_map_page`. -/
def ptMapPage (m : TableMem) (l0 va pa attrs : ℕ) : Bool × TableMem :=
  if l0 = 0 ∨ va % pageSize ≠ 0 ∨ pa % pageSize ≠ 0 then (false, m)
  else
    let (l1, m) := m.nextTable l0 (va >>> 39 &&& 0x1ff)
    if l1 = 0 then (false, m)
    else
      let (l2, m) := m.nextTable l1 (va >>> 30 &&& 0x1ff)
      if l2 = 0 then (false, m)
      else
        let (l3, m) := m.nextTable l2 (va >>> 21 &&& 0x1ff)
        if l3 = 0 then (false, m)
        else (true, m.store l3 (va >>> 12 &&& 0x1ff) (pageDesc pa attrs))

/-- `pt_get_mapped_page`; the null pointer is `0`. -/
def ptGetMappedPage (m : TableMem) (l0 va : ℕ) : ℕ :=
  if l0 = 0 then 0
  else if m.load l0 (va >>> 39 &&& 0x1ff) &&& descValid = 0 then 0
  else
    let l1 := m.child l0 (va >>> 39 &&& 0x1ff)
    if m.load l1 (va >>> 30 &&& 0x1ff) &&& descValid = 0 then 0
    else
      let l2 := m.child l1 (va >>> 30 &&& 0x1ff)
      if m.load l2 (va >>> 21 &&& 0x1ff) &&& descValid = 0 then 0
      else
        let l3 := m.child l2 (va >>> 21 &&& 0x1ff)
        if m.load l3 (va >>> 12 &&& 0x1ff) &&& descValid = 0 then 0
        else
          kernelDirectMapVa
            ((m.load l3 (va >>> 12 &&& 0x1ff) &&& pteAddrMask) ||| va % pageSize)

/-! ### Any number of levels -/

/-- The descriptor at the end of a walk with the indices `d` down a table of the given height. -/
def walk (m : TableMem) (d : ℕ → ℕ) : ℕ → ℕ → Option ℕ
  | 0, _ => none
  | 1, t => if m.load t (d 0) &&& descValid = 0 then none else some (m.load t (d 0))
  | n + 2, t =>
    if m.load t (d (n + 1)) &&& descValid = 0 then none
    else m.walk d (n + 1) (m.child t (d (n + 1)))

/-- Storing a descriptor at the end of such a walk. -/
def mapAt (m : TableMem) (d : ℕ → ℕ) (desc : ℕ) : ℕ → ℕ → Bool × TableMem
  | 0, _ => (false, m)
  | 1, t => (true, m.store t (d 0) desc)
  | n + 2, t =>
    let r := m.nextTable t (d (n + 1))
    if r.1 = 0 then (false, r.2) else r.2.mapAt d desc (n + 1) r.1

theorem index_eq (va k : ℕ) : va >>> (12 + 9 * k) &&& 0x1ff = tableIndex va k := by
  rw [Nat.shiftRight_eq_div_pow, tableIndex]
  exact Nat.and_two_pow_sub_one_eq_mod _ 9

theorem tableIndex_lt (va k : ℕ) : tableIndex va k < 512 := Nat.mod_lt _ (by decide)

theorem ptMapPage_eq (m : TableMem) (l0 va pa attrs : ℕ) :
    m.ptMapPage l0 va pa attrs =
      if l0 = 0 ∨ va % pageSize ≠ 0 ∨ pa % pageSize ≠ 0 then (false, m)
      else m.mapAt (tableIndex va) (pageDesc pa attrs) 4 l0 := by
  simp only [mapAt, ← index_eq]
  rfl

theorem ptGetMappedPage_eq (m : TableMem) (l0 va : ℕ) :
    m.ptGetMappedPage l0 va =
      if l0 = 0 then 0
      else (m.walk (tableIndex va) 4 l0).elim 0 fun desc =>
        kernelDirectMapVa ((desc &&& pteAddrMask) ||| va % pageSize) := by
  simp only [walk, ← index_eq, ptGetMappedPage]
  split_ifs <;> rfl

/-! ### Separation -/

/-- A page of the direct map. -/
def IsPage (t : ℕ) : Prop := ∃ pfn < 2 ^ 36, t = kernelDirectMapVa (pfn * pageSize)

/-- `alloc_page` may return the page. -/
def Free (m : TableMem) (t : ℕ) : Prop :=
  kernelVaToPfn t ∈ m.pool.freeList ∨ m.pool.nextFreePage ≤ kernelVaToPfn t

/-- The tables that valid descriptors lead to, from a table of the given height. -/
def tables (m : TableMem) : ℕ → ℕ → List ℕ
  | 0, _ => []
  | n + 1, t => t :: (List.range 512).flatMap fun i =>
    if m.load t i &&& descValid = 0 then [] else m.tables n (m.child t i)

/-- No page is on the free list twice, or both there and never used, and physical addresses have
48 bits. -/
structure Ready (s : Pool) : Prop where
  nodup : s.freeList.Nodup
  below : ∀ pfn ∈ s.freeList, pfn < s.nextFreePage
  next_le : s.nextFreePage ≤ 2 ^ 36
  ram_le : s.ramEnd ≤ 2 ^ 36

/-- A table of the given height: its tables are distinct and none of them is free. -/
structure Wf (m : TableMem) (n t : ℕ) : Prop where
  page : IsPage t
  nodup : (m.tables n t).Nodup
  held : ∀ p ∈ m.tables n t, ¬m.Free p
  ready : Ready m.pool

/-- The words of a table are the same. -/
def Agrees (m m' : TableMem) (t : ℕ) : Prop := ∀ i < 512, m'.load t i = m.load t i

variable {m m' : TableMem} {d e : ℕ → ℕ} {n t u i j desc value : ℕ}

theorem IsPage.eq (h : IsPage t) :
    t % pageSize = 0 ∧ kernelDirectMapVa (t &&& pteAddrMask) = t := by
  obtain ⟨pfn, hlt, rfl⟩ := h
  rw [and_pteAddrMask]
  unfold kernelDirectMapVa kernelVaBase pageSize
  omega

theorem IsPage.ne_zero (h : IsPage t) : t ≠ 0 := by
  obtain ⟨pfn, hlt, rfl⟩ := h
  unfold kernelDirectMapVa kernelVaBase
  omega

theorem isPage_child : IsPage (m.child t i) := by
  refine ⟨m.load t i % 2 ^ 48 / 2 ^ 12, by omega, ?_⟩
  rw [child, and_pteAddrMask]
  rfl

theorem load_store : (m.store t i value).load t j = if j = i then value else m.load t j := by
  change update m.word (t + 8 * i) value (t + 8 * j) = _
  rw [update_apply]
  by_cases h : j = i
  · rw [h, if_pos rfl, if_pos rfl]
  · rw [if_neg (by omega), if_neg h, load]

theorem agrees_store (ht : IsPage t) (hu : IsPage u) (hne : u ≠ t) (hi : i < 512) :
    Agrees m (m.store t i value) u := by
  intro j hj
  have h1 := ht.eq.1
  have h2 := hu.eq.1
  unfold pageSize at h1 h2
  exact update_of_ne (by omega) _ _

theorem Agrees.trans {m'' : TableMem} (h₁ : Agrees m m' t) (h₂ : Agrees m' m'' t) :
    Agrees m m'' t :=
  fun i hi => (h₂ i hi).trans (h₁ i hi)

/-- The allocator takes a free page, and the others stay free. -/
theorem Ready.alloc {s s' : Pool} {pfn : ℕ} (hr : Ready s) (h : s.allocPage = some (pfn, s')) :
    Ready s' ∧ pfn < 2 ^ 36 ∧ ∀ q, (q ∈ s'.freeList ∨ s'.nextFreePage ≤ q) ↔
      (q ∈ s.freeList ∨ s.nextFreePage ≤ q) ∧ q ≠ pfn := by
  have hnext := hr.next_le
  have hram := hr.ram_le
  rcases Pool.allocPage_cases h with ⟨rest, hlist, rfl⟩ | ⟨hlist, rfl, hend, rfl⟩
  · have hnodup := hr.nodup
    have hbelow := hr.below
    rw [hlist] at hnodup hbelow
    have hpfn := hbelow pfn mem_cons_self
    have hnot := (nodup_cons.mp hnodup).1
    refine ⟨⟨(nodup_cons.mp hnodup).2, fun q hq => hbelow q (mem_cons_of_mem _ hq), hnext,
      hram⟩, by omega, fun q => ?_⟩
    rw [hlist, mem_cons]
    change q ∈ rest ∨ s.nextFreePage ≤ q ↔ _
    by_cases hq : q = pfn
    · subst hq
      simp only [hnot, false_or, ne_eq, not_true_eq_false, and_false, iff_false]
      omega
    · simp [hq]
  · refine ⟨⟨hr.nodup, fun q hq => Nat.lt_succ_of_lt (hr.below q hq), by
      change s.nextFreePage + 1 ≤ _; omega, hram⟩, by omega, fun q => ?_⟩
    change q ∈ s.freeList ∨ s.nextFreePage + 1 ≤ q ↔ _
    simp only [hlist, not_mem_nil, false_or]
    omega

/-- **`alloc_page`** takes a free page and clears it. -/
theorem allocPage_spec {next : ℕ} (hr : Ready m.pool) (h : m.allocPage = some (next, m')) :
    IsPage next ∧ m.Free next ∧ (∀ i < 512, m'.load next i = 0) ∧ Ready m'.pool ∧
      ∀ u, IsPage u → (m'.Free u ↔ m.Free u ∧ u ≠ next) ∧ (u ≠ next → Agrees m m' u) := by
  obtain ⟨⟨pfn, s'⟩, hs, heq⟩ := Option.map_eq_some_iff.mp h
  obtain ⟨rfl, rfl⟩ := Prod.mk.inj heq
  obtain ⟨hready, hlt, hfree⟩ := hr.alloc hs
  have hpage : IsPage (kernelDirectMapVa (pfn * pageSize)) := ⟨pfn, hlt, rfl⟩
  have hself : kernelVaToPfn (kernelDirectMapVa (pfn * pageSize)) = pfn :=
    kernelVaToPfn_kernelDirectMapVa hlt
  refine ⟨hpage, ?_, fun i hi => if_pos ?_, hready, fun u hu => ⟨?_, fun hne i hi => if_neg ?_⟩⟩
  · rw [Free, hself]
    rcases Pool.allocPage_cases hs with ⟨rest, hlist, -⟩ | ⟨-, rfl, -, -⟩
    · exact .inl (by rw [hlist]; exact mem_cons_self)
    · exact .inr le_rfl
  · unfold pageSize
    omega
  · obtain ⟨q, hq, rfl⟩ := hu
    unfold Free
    rw [kernelVaToPfn_kernelDirectMapVa hq, hfree q]
    refine and_congr_right fun _ => not_congr ⟨fun hqp => by rw [hqp], fun heq => ?_⟩
    rw [← kernelVaToPfn_kernelDirectMapVa hq, heq, hself]
  · have h1 := hu.eq.1
    have h2 := hpage.eq.1
    dsimp only at hne ⊢
    unfold pageSize at h1 h2 hne ⊢
    omega

theorem mem_tables_child (hi : i < 512) (hv : m.load t i &&& descValid ≠ 0)
    (hu : u ∈ m.tables n (m.child t i)) : u ∈ m.tables (n + 1) t := by
  refine mem_cons_of_mem _ (mem_flatMap.mpr ⟨i, mem_range.mpr hi, ?_⟩)
  rwa [if_neg hv]

theorem isPage_of_mem (ht : IsPage t) (hu : u ∈ m.tables n t) : IsPage u := by
  induction n generalizing t with
  | zero => cases hu
  | succ n ih =>
    rcases mem_cons.mp hu with rfl | hu
    · exact ht
    · obtain ⟨i, -, hu⟩ := mem_flatMap.mp hu
      split_ifs at hu
      · cases hu
      · exact ih isPage_child hu

/-- A table below a well-formed one is well formed. -/
theorem Wf.child (h : m.Wf (n + 1) t) (hi : i < 512) (hv : m.load t i &&& descValid ≠ 0) :
    m.Wf n (m.child t i) := by
  refine ⟨isPage_child, ?_, fun u hu => h.held u (mem_tables_child hi hv hu), h.ready⟩
  have hsub := (nodup_flatMap.mp (nodup_cons.mp h.nodup).2).1 i (mem_range.mpr hi)
  rwa [if_neg hv] at hsub

theorem Wf.notMem_child (h : m.Wf (n + 1) t) (hi : i < 512) (hv : m.load t i &&& descValid ≠ 0) :
    t ∉ m.tables n (m.child t i) := by
  intro hin
  refine (nodup_cons.mp h.nodup).1 (mem_flatMap.mpr ⟨i, mem_range.mpr hi, ?_⟩)
  rwa [if_neg hv]

/-- The tables below two descriptors of a table are different ones. -/
theorem Wf.disjoint (h : m.Wf (n + 1) t) (hi : i < 512) (hj : j < 512) (hij : i ≠ j)
    (hv : m.load t i &&& descValid ≠ 0) (hv' : m.load t j &&& descValid ≠ 0)
    (hu : u ∈ m.tables n (m.child t i)) : u ∉ m.tables n (m.child t j) := by
  have hpair := (nodup_flatMap.mp (nodup_cons.mp h.nodup).2).2
  have hsymm : Std.Symm (onFun List.Disjoint fun i =>
      if m.load t i &&& descValid = 0 then [] else m.tables n (m.child t i)) :=
    ⟨fun _ _ hab => List.Disjoint.symm hab⟩
  have hdis := hpair.forall (mem_range.mpr hi) (mem_range.mpr hj) hij
  have hin : ∀ k, m.load t k &&& descValid ≠ 0 → u ∈ m.tables n (m.child t k) →
      u ∈ if m.load t k &&& descValid = 0 then [] else m.tables n (m.child t k) := fun k hk hu => by
    rwa [if_neg hk]
  exact fun hu' => hdis (hin i hv hu) (hin j hv' hu')

/-- A walk reads the tables only. -/
theorem walk_congr (he : ∀ k, e k < 512) (h : ∀ u ∈ m.tables n t, Agrees m m' u) :
    m'.walk e n t = m.walk e n t := by
  induction n generalizing t with
  | zero => rfl
  | succ n ih =>
    have ht := h t mem_cons_self
    cases n with
    | zero => rw [walk, walk, ht _ (he 0)]
    | succ n =>
      rw [walk, walk, TableMem.child, TableMem.child, ht _ (he (n + 1))]
      split_ifs with hv
      · rfl
      · exact ih fun u hu => h u (mem_tables_child (he (n + 1)) hv hu)

/-- A page of zeros is a table without others below it. -/
theorem tables_of_zero (hz : ∀ i < 512, m.load t i = 0) : m.tables (n + 1) t = [t] := by
  rw [tables, List.cons.injEq, flatMap_eq_nil_iff]
  refine ⟨rfl, fun i hi => ?_⟩
  rw [hz i (mem_range.mp hi), Nat.zero_and, if_pos rfl]

theorem walk_of_zero (he : ∀ k, e k < 512) (hz : ∀ i < 512, m.load t i = 0) :
    m.walk e (n + 1) t = none := by
  cases n <;> rw [walk, hz _ (he _), Nat.zero_and, if_pos rfl]

/-! ### Mapping -/

/-- What mapping a page leaves, below a table of the given height. -/
structure Maps (m : TableMem) (d : ℕ → ℕ) (desc n t : ℕ) (r : Bool × TableMem) : Prop where
  frame : ∀ u, IsPage u → u ∉ m.tables n t → ¬m.Free u → Agrees m r.2 u
  found : r.1 = true → r.2.walk d n t = some desc
  others : ∀ e : ℕ → ℕ, (∀ k, e k < 512) → (r.1 = true → ∃ k < n, e k ≠ d k) →
    r.2.walk e n t = m.walk e n t

/-- What is left by mapping below the descriptor `d (n + 1)` of a table. Before that the memory may
change from `m` to `m₁`, to have a table there. -/
theorem Maps.up {m₁ : TableMem} {r : Bool × TableMem} (h : m.Wf (n + 2) t) (hd : ∀ k, d k < 512)
    (hr : Maps m₁ d desc (n + 1) (m₁.child t (d (n + 1))) r)
    (hv : m₁.load t (d (n + 1)) &&& descValid ≠ 0)
    (hrow : ∀ j < 512, j ≠ d (n + 1) → m₁.load t j = m.load t j)
    (hkeep : ∀ u, IsPage u → u ≠ t → ¬m.Free u → Agrees m m₁ u)
    (hsame : ∀ e : ℕ → ℕ, (∀ k, e k < 512) → e (n + 1) = d (n + 1) →
      m₁.walk e (n + 2) t = m.walk e (n + 2) t)
    (hfree : ∀ u, IsPage u → ¬m.Free u → ¬m₁.Free u ∧
      (u ∈ m₁.tables (n + 1) (m₁.child t (d (n + 1))) → m.load t (d (n + 1)) &&& descValid ≠ 0 ∧
        u ∈ m.tables (n + 1) (m.child t (d (n + 1))))) :
    Maps m d desc (n + 2) t r := by
  have hself : ¬m.Free t := h.held t mem_cons_self
  have ht : Agrees m₁ r.2 t := by
    refine hr.frame t h.page (fun hin => ?_) (hfree t h.page hself).1
    obtain ⟨hv', hin'⟩ := (hfree t h.page hself).2 hin
    exact h.notMem_child (hd _) hv' hin'
  have hwalk : ∀ m : TableMem, ∀ e : ℕ → ℕ, m.walk e (n + 2) t =
      if m.load t (e (n + 1)) &&& descValid = 0 then none
      else m.walk e (n + 1) (kernelDirectMapVa (m.load t (e (n + 1)) &&& pteAddrMask)) :=
    fun _ _ => rfl
  refine ⟨fun u hu hnot hheld => ?_, fun hdone => ?_, fun e he hdiff => ?_⟩
  · have hne : u ≠ t := fun heq => hnot (heq ▸ mem_cons_self)
    refine (hkeep u hu hne hheld).trans (hr.frame u hu (fun hin => ?_) (hfree u hu hheld).1)
    obtain ⟨hv', hin'⟩ := (hfree u hu hheld).2 hin
    exact hnot (mem_tables_child (hd _) hv' hin')
  · rw [hwalk, ht _ (hd _), if_neg hv]
    exact hr.found hdone
  · by_cases hhead : e (n + 1) = d (n + 1)
    · -- the walk goes down the same way for one level at least
      rw [← hsame e he hhead, hwalk, hwalk, ht _ (he _), hhead, if_neg hv, if_neg hv]
      refine hr.others e he fun hdone => ?_
      obtain ⟨k, hk, hne⟩ := hdiff hdone
      have hlast : k ≠ n + 1 := fun heq => hne (heq ▸ hhead)
      exact ⟨k, by omega, hne⟩
    · rw [hwalk, hwalk, ht _ (he _), hrow _ (he _) hhead]
      split_ifs with hv'
      · rfl
      · refine walk_congr he fun u hu => ?_
        have hu' : u ∈ m.tables (n + 1) (m.child t (e (n + 1))) := hu
        have hpage := isPage_of_mem isPage_child hu'
        have hheld := h.held u (mem_tables_child (he _) hv' hu')
        have hne : u ≠ t := fun heq => h.notMem_child (he _) hv' (heq ▸ hu')
        refine (hkeep u hpage hne hheld).trans (hr.frame u hpage (fun hin => ?_)
          (hfree u hpage hheld).1)
        obtain ⟨hvd, hin'⟩ := (hfree u hpage hheld).2 hin
        exact h.disjoint (he _) (hd _) hhead hv' hvd hu' hin'

/-- `next_table` has put an empty table on the free page `next`, below the descriptor `i` of `t`. -/
structure Grown (m m₁ : TableMem) (t i next : ℕ) : Prop where
  page : IsPage next
  child : m₁.child t i = next
  valid : m₁.load t i &&& descValid ≠ 0
  row : ∀ j < 512, j ≠ i → m₁.load t j = m.load t j
  zero : ∀ j < 512, m₁.load next j = 0
  held : ¬m₁.Free next
  ready : Ready m₁.pool
  others : ∀ u, IsPage u → ¬m.Free u → u ≠ next ∧ ¬m₁.Free u ∧ (u ≠ t → Agrees m m₁ u)

theorem nextTable_grown {next : ℕ} {m₀ : TableMem} (h : m.Wf (n + 1) t) (hi : i < 512)
    (hv : m.load t i &&& descValid = 0) (halloc : m.allocPage = some (next, m₀)) :
    ∃ m₁, m.nextTable t i = (next, m₁) ∧ Grown m m₁ t i next := by
  obtain ⟨hpage, hfree, hzero, hready, hothers⟩ := allocPage_spec h.ready halloc
  have hheld : ∀ u, ¬m.Free u → u ≠ next := fun u hu heq => hu (heq ▸ hfree)
  have ht := hheld t (h.held t mem_cons_self)
  have hload : ∀ j, (m₀.store t i (tableDesc next)).load t j =
      if j = i then pageDesc next 0 else m₀.load t j := fun j => by
    rw [load_store, tableDesc_eq]
  have hchild : (m₀.store t i (tableDesc next)).child t i = next := by
    rw [child, hload, if_pos rfl, pageDesc_and_mask, hpage.eq.2]
  refine ⟨m₀.store t i (tableDesc next), ?_, hpage, hchild, ?_, fun j hj hne => ?_, fun j hj => ?_,
    fun hin => ((hothers next hpage).1.mp hin).2 rfl, hready, fun u hu hin => ?_⟩
  · rw [nextTable, if_pos hv, halloc]
    dsimp only
    rw [hchild]
  · rw [hload, if_pos rfl]
    exact pageDesc_valid next 0
  · rw [hload, if_neg hne]
    exact (hothers t h.page).2 ht j hj
  · exact (agrees_store h.page hpage ht.symm hi j hj).trans (hzero j hj)
  · exact ⟨hheld u hin, fun hin₁ => hin ((hothers u hu).1.mp hin₁).1, fun hut =>
      ((hothers u hu).2 (hheld u hin)).trans (agrees_store h.page hu hut hi)⟩

/-- **Mapping a page**, by the height of the table. -/
theorem mapAt_maps (hd : ∀ k, d k < 512) (hdesc : desc &&& descValid ≠ 0) (h : m.Wf (n + 1) t) :
    Maps m d desc (n + 1) t (m.mapAt d desc (n + 1) t) := by
  induction n generalizing m t with
  | zero =>
    refine ⟨fun u hu hnot _ => agrees_store h.page hu ?_ (hd 0), fun _ => ?_, fun e he hdiff => ?_⟩
    · exact fun heq => hnot (heq ▸ mem_cons_self)
    · rw [mapAt, walk, load_store, if_pos rfl, if_neg hdesc]
    · obtain ⟨k, hk, hne⟩ := hdiff rfl
      obtain rfl : k = 0 := by omega
      rw [mapAt, walk, walk, load_store, if_neg hne]
  | succ n ih =>
    rw [mapAt]
    by_cases hv : m.load t (d (n + 1)) &&& descValid = 0
    · cases halloc : m.allocPage with
      | none =>
        rw [nextTable, if_pos hv, halloc]
        exact ⟨fun u _ _ _ i _ => rfl, fun hdone => (by cases hdone), fun e _ _ => rfl⟩
      | some r =>
        obtain ⟨m₁, hnext, hg⟩ := nextTable_grown h (hd (n + 1)) hv halloc
        have htables := tables_of_zero (n := n) hg.zero
        have hwf : m₁.Wf (n + 1) r.1 := by
          refine ⟨hg.page, ?_, ?_, hg.ready⟩ <;> rw [htables]
          · exact nodup_singleton _
          · exact fun u hu => mem_singleton.mp hu ▸ hg.held
        rw [hnext]
        rw [if_neg hg.page.ne_zero]
        refine .up h hd (hg.child.symm ▸ ih hwf) hg.valid hg.row
          (fun u hu hut hin => (hg.others u hu hin).2.2 hut) (fun e he hhead => ?_)
          fun u hu hin => ⟨(hg.others u hu hin).2.1, fun hmem => ?_⟩
        · rw [walk, walk, hhead, if_neg hg.valid, if_pos hv, hg.child, walk_of_zero he hg.zero]
        · rw [hg.child, htables] at hmem
          exact absurd (mem_singleton.mp hmem) (hg.others u hu hin).1
    · -- the table below is there
      rw [nextTable, if_neg hv]
      rw [if_neg isPage_child.ne_zero]
      exact .up h hd (ih (h.child (hd _) hv)) hv (fun _ _ _ => rfl) (fun _ _ _ _ _ _ => rfl)
        (fun _ _ _ => rfl) fun u _ hheld => ⟨hheld, fun hin => ⟨hv, hin⟩⟩

/-! ### The four levels -/

/-- Addresses whose low 48 bits are in different pages differ in an index. -/
theorem exists_index_ne {va va' : ℕ} (h : va' % 2 ^ 48 / pageSize ≠ va % 2 ^ 48 / pageSize) :
    ∃ k < 4, tableIndex va' k ≠ tableIndex va k := by
  by_contra hnot
  push Not at hnot
  have h0 := hnot 0 (by decide)
  have h1 := hnot 1 (by decide)
  have h2 := hnot 2 (by decide)
  have h3 := hnot 3 (by decide)
  unfold tableIndex at h0 h1 h2 h3
  unfold pageSize at h
  omega

/-- **Reading over writing**: after a page has been mapped, the page is found at its address, and
what is found in every other page is as before. A call that fails changes nothing that is
found. -/
theorem ptGetMappedPage_ptMapPage {l0 va pa : ℕ} (attrs : ℕ) (h : m.Wf 4 l0) (hpa : pa < 2 ^ 48) :
    ((m.ptMapPage l0 va pa attrs).1 = true →
      (m.ptMapPage l0 va pa attrs).2.ptGetMappedPage l0 va = kernelDirectMapVa pa ∧
      ∀ va', va' % 2 ^ 48 / pageSize ≠ va % 2 ^ 48 / pageSize →
        (m.ptMapPage l0 va pa attrs).2.ptGetMappedPage l0 va' = m.ptGetMappedPage l0 va') ∧
    ((m.ptMapPage l0 va pa attrs).1 = false → ∀ va',
      (m.ptMapPage l0 va pa attrs).2.ptGetMappedPage l0 va' = m.ptGetMappedPage l0 va') := by
  have hl0 := h.page.ne_zero
  rw [ptMapPage_eq]
  split_ifs with hbad
  · exact ⟨fun hdone => (by cases hdone), fun _ _ => rfl⟩
  push Not at hbad
  have hmaps := mapAt_maps (tableIndex_lt va) (pageDesc_valid pa attrs) h
  generalize m.mapAt (tableIndex va) (pageDesc pa attrs) 4 l0 = r at hmaps ⊢
  have hlookup : ∀ va', (r.1 = true → ∃ k < 4, tableIndex va' k ≠ tableIndex va k) →
      r.2.ptGetMappedPage l0 va' = m.ptGetMappedPage l0 va' := fun va' hdiff => by
    rw [ptGetMappedPage_eq, ptGetMappedPage_eq, hmaps.others _ (tableIndex_lt va') hdiff]
  refine ⟨fun hdone => ⟨?_, fun va' hpage => ?_⟩, fun hfail va' => ?_⟩
  · rw [ptGetMappedPage_eq, if_neg hl0, hmaps.found hdone, Option.elim_some, pageDesc_and_mask,
      and_pteAddrMask, hbad.2.1, Nat.or_zero]
    have hpa' := hbad.2.2
    unfold pageSize at hpa'
    congr 1
    omega
  · exact hlookup va' fun _ => exists_index_ne hpage
  · exact hlookup va' fun hdone => absurd (hdone.symm.trans hfail) (by decide)

/-- Memory with an empty table in the first page after the kernel. -/
def cleared : TableMem := ⟨fun _ => 0, Pool.init 1025 (ramEndPhys / pageSize)⟩

/-- The address of that table. -/
def clearedTable : ℕ := kernelDirectMapVa (1024 * pageSize)

/-- A page is mapped in it. -/
theorem ptGetMappedPage_ptMapPage_first :
    (cleared.ptMapPage clearedTable 0x10000 0x500000 0x401).2.ptGetMappedPage clearedTable 0x10000 =
      kernelDirectMapVa 0x500000 := by
  have hz : ∀ i < 512, cleared.load clearedTable i = 0 := fun _ _ => rfl
  have hwf : cleared.Wf 4 clearedTable := by
    refine ⟨⟨1024, by decide, rfl⟩, ?_, ?_, ⟨nodup_nil, ?_, by decide, by decide⟩⟩
    · rw [tables_of_zero hz]
      exact nodup_singleton _
    · rw [tables_of_zero hz]
      intro p hp hfree
      rw [mem_singleton.mp hp] at hfree
      rcases hfree with hfree | hfree
      · cases hfree
      · exact absurd hfree (by decide)
    · intro pfn hpfn
      cases hpfn
  exact ((ptGetMappedPage_ptMapPage 0x401 hwf (by decide)).1 (by decide)).1

end TableMem

end OsPi
