import Mathlib.Data.List.Count
import OsPi.Memory.Addresses

/-!
# The Page Allocator

A model of the page allocator of `memory/page_table/page_table.c` and of the reference counts
and flags it keeps for pages. A page is named by its page frame number. Pages come from a list
of free pages and otherwise from the end of the pool that has never been used.

The counts live in an array that `kernel_main` allocates once. `page_struct_inside_iff` says
for which of the pages of the pool the element of the array that belongs to the page is inside
what was allocated.
-/

namespace OsPi

open Function Option

/-! ### Pages -/

/-- `struct Page`. The one flag is `PTE_FLAG_COW`. -/
structure Page where
  refcount : ℕ
  cow : Bool
  deriving DecidableEq, Repr

/-- The static variables of the page allocator, the array of pages and the pages themselves.
A page on the free list holds the link to the next one; the list stands for these links. -/
structure Pool where
  pages : ℕ → Page
  bytes : ℕ → ℕ → UInt8
  freeList : List ℕ
  nextFreePage : ℕ
  ramEnd : ℕ

namespace Pool

/-- The page `alloc_page` takes: the head of the free list, or the next page of the pool. -/
def take (s : Pool) : Option (ℕ × Pool) :=
  match s.freeList with
  | pfn :: rest => some (pfn, { s with freeList := rest })
  | [] =>
    if s.nextFreePage + 1 ≤ s.ramEnd then
      some (s.nextFreePage, { s with nextFreePage := s.nextFreePage + 1 })
    else none

/-- `pages[pfn] = page`. -/
def setPage (s : Pool) (pfn : ℕ) (page : Page) : Pool :=
  { s with pages := update s.pages pfn page }

/-- The page filled with the given bytes. -/
def fill (s : Pool) (pfn : ℕ) (data : ℕ → UInt8) : Pool :=
  { s with bytes := update s.bytes pfn data }

/-- `alloc_page`: a page of zeros with one reference and no flag. -/
def allocPage (s : Pool) : Option (ℕ × Pool) :=
  s.take.map fun r => (r.1, (r.2.fill r.1 fun _ => 0).setPage r.1 ⟨1, false⟩)

/-- `free_page`. -/
def freePage (s : Pool) (pfn : ℕ) : Pool :=
  { s.setPage pfn ⟨0, false⟩ with freeList := pfn :: s.freeList }

/-- `inc_pte_refcount_pa`, on a `uint16_t`. -/
def incPteRefcount (s : Pool) (pfn : ℕ) : Pool :=
  s.setPage pfn { s.pages pfn with refcount := ((s.pages pfn).refcount + 1) % 2 ^ 16 }

/-- `dec_pte_refcount_pa`: the last reference frees the page, and one too many is fatal. -/
def decPteRefcount (s : Pool) (pfn : ℕ) : Option Pool :=
  if (s.pages pfn).refcount = 0 then none
  else if (s.pages pfn).refcount = 1 then some (s.freePage pfn)
  else some (s.setPage pfn { s.pages pfn with refcount := (s.pages pfn).refcount - 1 })

/-- `pte_set_cow_flag` with `PTE_FLAG_COW`. -/
def pteSetCowFlag (s : Pool) (pfn : ℕ) : Pool :=
  s.setPage pfn { s.pages pfn with cow := true }

/-- `pte_clear_cow_flag` with `PTE_FLAG_COW`. -/
def pteClearCowFlag (s : Pool) (pfn : ℕ) : Pool :=
  s.setPage pfn { s.pages pfn with cow := false }

/-- `copy_phys_page`. -/
def copyPhysPage (s : Pool) (src dst : ℕ) : Pool :=
  s.fill dst (s.bytes src)

/-- The pool as `page_allocator_init` leaves it, from its first page up to the end of memory. -/
def init (start ramEnd : ℕ) : Pool where
  pages _ := ⟨0, false⟩
  bytes _ _ := 0
  freeList := []
  nextFreePage := start
  ramEnd := ramEnd

section Fields

variable (s : Pool) (pfn : ℕ) (page : Page) (data : ℕ → UInt8)

@[simp] theorem setPage_bytes : (s.setPage pfn page).bytes = s.bytes := rfl

@[simp] theorem setPage_freeList : (s.setPage pfn page).freeList = s.freeList := rfl

@[simp] theorem setPage_nextFreePage : (s.setPage pfn page).nextFreePage = s.nextFreePage := rfl

@[simp] theorem setPage_ramEnd : (s.setPage pfn page).ramEnd = s.ramEnd := rfl

theorem setPage_pages (q : ℕ) : (s.setPage pfn page).pages q = if q = pfn then page else s.pages q :=
  update_apply _ _ _ _

@[simp] theorem fill_pages : (s.fill pfn data).pages = s.pages := rfl

@[simp] theorem fill_freeList : (s.fill pfn data).freeList = s.freeList := rfl

@[simp] theorem fill_nextFreePage : (s.fill pfn data).nextFreePage = s.nextFreePage := rfl

@[simp] theorem fill_ramEnd : (s.fill pfn data).ramEnd = s.ramEnd := rfl

theorem fill_bytes (q : ℕ) : (s.fill pfn data).bytes q = if q = pfn then data else s.bytes q :=
  update_apply _ _ _ _

end Fields

/-- What `alloc_page` returns and where it leaves the pool. -/
theorem allocPage_cases {s s' : Pool} {pfn : ℕ} (h : s.allocPage = some (pfn, s')) :
    (∃ rest, s.freeList = pfn :: rest ∧
        s' = (({ s with freeList := rest } : Pool).fill pfn fun _ => 0).setPage pfn ⟨1, false⟩) ∨
      (s.freeList = [] ∧ pfn = s.nextFreePage ∧ s.nextFreePage < s.ramEnd ∧
        s' = (({ s with nextFreePage := s.nextFreePage + 1 } : Pool).fill pfn fun _ => 0).setPage
          pfn ⟨1, false⟩) := by
  unfold allocPage take at h
  split at h
  · rename_i p rest hlist
    obtain ⟨rfl, rfl⟩ := h
    exact .inl ⟨rest, hlist, rfl⟩
  · rename_i hlist
    split_ifs at h with hend
    · simp only [map_some, some.injEq, Prod.mk.injEq] at h
      obtain ⟨rfl, rfl⟩ := h
      exact .inr ⟨hlist, rfl, hend, rfl⟩
    · simp at h

/-- With no free page, `alloc_page` takes the next page of the pool. -/
theorem allocPage_of_nil {s : Pool} (hfree : s.freeList = []) (hend : s.nextFreePage < s.ramEnd) :
    s.allocPage = some (s.nextFreePage,
      (({ s with nextFreePage := s.nextFreePage + 1 } : Pool).fill s.nextFreePage
        fun _ => 0).setPage s.nextFreePage ⟨1, false⟩) := by
  unfold allocPage take
  rw [hfree]
  simp [Nat.succ_le_of_lt hend]

end Pool

/-! ### The array of pages -/

/-- `RAM_END_PHYS` of `kernel.c` and `__RAM_end_phys` of the linker script. -/
def ramEndPhys : ℕ := 0x40000000

/-- `sizeof(struct Page)`: two `uint16_t`. -/
def sizeofPage : ℕ := 4

/-- The number of bytes `kernel_main` allocates for the array. -/
def pagesBytes : ℕ := ramEndPhys / pageSize

/-- The element `pages[pfn]` is inside the array. -/
def ElementInside (pfn : ℕ) : Prop :=
  pfn * sizeofPage + sizeofPage ≤ pagesBytes

instance (pfn : ℕ) : Decidable (ElementInside pfn) :=
  inferInstanceAs (Decidable (_ ≤ _))

/-- One call of the functions that use the array. The pages handed to them have been returned
by `alloc_page` before. -/
inductive PoolStep (start : ℕ) : Pool → Pool → Prop
  | alloc {s s' : Pool} {pfn : ℕ} (h : s.allocPage = some (pfn, s')) : PoolStep start s s'
  | free {s : Pool} {pfn : ℕ} (hlo : start ≤ pfn) (hhi : pfn < s.nextFreePage) :
      PoolStep start s (s.freePage pfn)
  | inc {s : Pool} {pfn : ℕ} (hlo : start ≤ pfn) (hhi : pfn < s.nextFreePage) :
      PoolStep start s (s.incPteRefcount pfn)
  | dec {s s' : Pool} {pfn : ℕ} (hlo : start ≤ pfn) (hhi : pfn < s.nextFreePage)
      (h : s.decPteRefcount pfn = some s') : PoolStep start s s'
  | setCow {s : Pool} {pfn : ℕ} (hlo : start ≤ pfn) (hhi : pfn < s.nextFreePage) :
      PoolStep start s (s.pteSetCowFlag pfn)
  | clearCow {s : Pool} {pfn : ℕ} (hlo : start ≤ pfn) (hhi : pfn < s.nextFreePage) :
      PoolStep start s (s.pteClearCowFlag pfn)

/-- Some run of the kernel with the given first page of the pool has `alloc_page` return the
page. -/
def Returned (start pfn : ℕ) : Prop :=
  ∃ s s', Relation.ReflTransGen (PoolStep start) (Pool.init start (ramEndPhys / pageSize)) s ∧
    s.allocPage = some (pfn, s')

/-- Where the pages of a pool come from. -/
structure Pool.Within (start ramEnd : ℕ) (s : Pool) : Prop where
  ram : s.ramEnd = ramEnd
  start_le : start ≤ s.nextFreePage
  next_le : s.nextFreePage ≤ max start ramEnd
  free : ∀ pfn ∈ s.freeList, start ≤ pfn ∧ pfn < s.nextFreePage

namespace Pool.Within

variable {start ramEnd : ℕ} {s s' : Pool}

theorem init (start ramEnd : ℕ) : Within start ramEnd (Pool.init start ramEnd) :=
  ⟨rfl, le_rfl, le_max_left _ _, by simp [Pool.init]⟩

theorem alloc (hw : Within start ramEnd s) {pfn : ℕ} (h : s.allocPage = some (pfn, s')) :
    Within start ramEnd s' ∧ start ≤ pfn ∧ pfn < ramEnd := by
  have hnext := hw.next_le
  rcases Pool.allocPage_cases h with ⟨rest, hlist, rfl⟩ | ⟨hlist, rfl, hend, rfl⟩
  · have hpfn := hw.free pfn (by rw [hlist]; exact List.mem_cons_self)
    refine ⟨⟨hw.ram, hw.start_le, hnext, fun q hq => hw.free q ?_⟩, hpfn.1, by omega⟩
    rw [hlist]
    exact List.mem_cons_of_mem _ hq
  · have hstart := hw.start_le
    rw [hw.ram] at hend
    exact ⟨⟨hw.ram, Nat.le_succ_of_le hw.start_le, by simp [setPage, fill]; omega,
      by simp [setPage, fill, hlist]⟩, hw.start_le, hend⟩

theorem free_page (hw : Within start ramEnd s) {pfn : ℕ} (hlo : start ≤ pfn)
    (hhi : pfn < s.nextFreePage) : Within start ramEnd (s.freePage pfn) := by
  refine ⟨hw.ram, hw.start_le, hw.next_le, fun q hq => ?_⟩
  rcases List.mem_cons.mp hq with rfl | hq
  · exact ⟨hlo, hhi⟩
  · exact hw.free q hq

theorem step (hw : Within start ramEnd s) (h : PoolStep start s s') : Within start ramEnd s' := by
  cases h with
  | alloc h => exact (hw.alloc h).1
  | free hlo hhi => exact hw.free_page hlo hhi
  | inc _ _ => exact ⟨hw.ram, hw.start_le, hw.next_le, hw.free⟩
  | dec hlo hhi h =>
    unfold Pool.decPteRefcount at h
    split_ifs at h
    · exact some.inj h ▸ hw.free_page hlo hhi
    · exact some.inj h ▸ ⟨hw.ram, hw.start_le, hw.next_le, hw.free⟩
  | setCow _ _ => exact ⟨hw.ram, hw.start_le, hw.next_le, hw.free⟩
  | clearCow _ _ => exact ⟨hw.ram, hw.start_le, hw.next_le, hw.free⟩

theorem run (h : Relation.ReflTransGen (PoolStep start) (Pool.init start ramEnd) s) :
    Within start ramEnd s := by
  induction h with
  | refl => exact init start ramEnd
  | tail _ hstep ih => exact ih.step hstep

end Pool.Within

/-- `n` calls of `alloc_page` in a row reach a pool whose next page is `n` further on. -/
theorem exists_run_nextFreePage {start ramEnd : ℕ} (n : ℕ) (hn : start + n ≤ ramEnd) :
    ∃ s, Relation.ReflTransGen (PoolStep start) (Pool.init start ramEnd) s ∧
      s.freeList = [] ∧ s.nextFreePage = start + n ∧ s.ramEnd = ramEnd := by
  induction n with
  | zero => exact ⟨_, .refl, rfl, rfl, rfl⟩
  | succ n ih =>
    obtain ⟨s, hrun, hfree, hnext, hram⟩ := ih (by omega)
    have halloc := Pool.allocPage_of_nil hfree (by omega)
    exact ⟨_, hrun.tail (.alloc halloc), hfree, congrArg (· + 1) hnext, hram⟩

/-- The pages `alloc_page` can return are those from the start of the pool to the end of
memory. -/
theorem returned_iff {start pfn : ℕ} :
    Returned start pfn ↔ start ≤ pfn ∧ pfn < ramEndPhys / pageSize := by
  constructor
  · rintro ⟨s, s', hrun, halloc⟩
    exact ((Pool.Within.run hrun).alloc halloc).2
  · rintro ⟨hlo, hhi⟩
    obtain ⟨s, hrun, hfree, hnext, hram⟩ :=
      exists_run_nextFreePage (pfn - start) (show start + (pfn - start) ≤ ramEndPhys / pageSize by
        omega)
    obtain rfl : s.nextFreePage = pfn := by omega
    exact ⟨s, _, hrun, Pool.allocPage_of_nil hfree (by omega)⟩

/-- The array has as many bytes as there are pages, and an element has four of them: the element
of a page that `alloc_page` can return, found from the address of the page, is inside the array
for the first quarter of the memory and outside for the rest. -/
theorem page_struct_inside_iff {start pfn : ℕ} (h : Returned start pfn) :
    ElementInside (kernelVaToPfn (kernelDirectMapVa (pfn * pageSize))) ↔ pfn < 65536 := by
  have hram : ramEndPhys / pageSize = 262144 := by decide
  have hpfn := (returned_iff.mp h).2
  rw [kernelVaToPfn_kernelDirectMapVa (by omega)]
  unfold ElementInside pagesBytes sizeofPage
  omega

theorem page_struct_inside_first_page : Returned 1024 1024 ∧
    (ElementInside (kernelVaToPfn (kernelDirectMapVa (1024 * pageSize))) ↔ 1024 < 65536) :=
  ⟨returned_iff.mpr (by decide), page_struct_inside_iff 
    (show Returned 1024 1024 from returned_iff.mpr (by decide))⟩

/-- The page at 256 MiB is returned by `alloc_page`, and its element starts where the array
ends. -/
theorem page_struct_of_quarter_outside : Returned 1024 65536 ∧
    ¬ElementInside (kernelVaToPfn (kernelDirectMapVa (65536 * pageSize))) :=
  ⟨returned_iff.mpr (by decide), by decide⟩

end OsPi
