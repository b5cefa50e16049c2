import OsPi.Lib.Radix
import OsPi.Memory.Pages

/-!
# Page Tables

A model of the page tables of `memory/page_table/page_table.c`. A page table is a radix tree of
height four: its nodes are pages of the allocator, each with 512 descriptors, and its leaves are the
descriptors of the last level. A descriptor that is not valid is an empty slot.

Tables are kept as trees and not as words of memory. The two agree as long as no page is a table
twice, or a table and something else; the accounts of pages show that this is so.
-/

namespace OsPi

/-! ### Descriptors -/

/-- A descriptor of the last level: the page it maps, whether the user may access it, whether it
may be written and whether it may be executed. -/
structure Pte where
  page : ℕ
  user : Bool
  writable : Bool
  exec : Bool
  deriving DecidableEq, Repr

namespace Pte

/-- `ATTR_USER_RW`. -/
def userRw (page : ℕ) : Pte := ⟨page, true, true, false⟩

/-- `ATTR_KERNEL_RW`. -/
def kernelRw (page : ℕ) : Pte := ⟨page, false, true, false⟩

/-- `MMAP_PROT_EXEC`, `MMAP_PROT_WRITE` and `MMAP_PROT_READ` are the bits of a protection. -/
def protExec : ℕ := 1

@[inherit_doc protExec] def protWrite : ℕ := 2

@[inherit_doc protExec] def protRead : ℕ := 4

/-- `user_segment_attrs`: the user may always read. -/
def userSegment (prot page : ℕ) : Pte :=
  if prot &&& protExec ≠ 0 ∧ prot &&& protWrite ≠ 0 then ⟨page, true, true, true⟩
  else if prot &&& protExec ≠ 0 then ⟨page, true, false, true⟩
  else if prot &&& protWrite ≠ 0 then ⟨page, true, true, false⟩
  else ⟨page, true, false, false⟩

end Pte

/-- A page table of the given height: four for a whole one, zero for a descriptor. -/
abbrev PageTree := Radix Pte

/-- A page table. -/
abbrev PageTable := PageTree 4

/-- The index into the table of height `level + 1` on the way to an address. -/
def tableIndex (va level : ℕ) : ℕ :=
  va / 2 ^ (12 + 9 * level) % 512

/-- A table on a new page: no descriptor is valid. -/
def PageTree.empty {n : ℕ} (frame : ℕ) : PageTree (n + 1) :=
  (⟨frame, []⟩ : Node (PageTree n))

/-- The descriptor a walk of the table ends at. -/
def PageTable.walk (table : PageTable) (va : ℕ) : Option Pte :=
  table.lookup (tableIndex va)

/-! ### Mapping a page -/

/-- What a function that may run out of pages leaves behind: the table, whether it got to its
end, and the allocator. -/
structure Mapped (n : ℕ) where
  table : PageTree n
  done : Bool
  pool : Pool

/-- `pt_map_page` below a table of height `n + 1`. Where `next_table` finds no table it allocates
one, which stays in place if a deeper level fails. -/
def mapLevel (d : ℕ → ℕ) (pte : Pte) : {n : ℕ} → PageTree (n + 1) → Pool → Mapped (n + 1)
  | 0, t, s => ⟨(⟨t.frame, Row.put t.row (d 0) pte⟩ : Node (PageTree 0)), true, s⟩
  | n + 1, t, s =>
    match Row.get t.row (d (n + 1)) with
    | some child =>
      let r := mapLevel d pte child s
      ⟨(⟨t.frame, Row.put t.row (d (n + 1)) r.table⟩ : Node (PageTree (n + 1))), r.done, r.pool⟩
    | none =>
      match s.allocPage with
      | none => ⟨t, false, s⟩
      | some (frame, s) =>
        let r := mapLevel d pte (PageTree.empty (n := n) frame) s
        ⟨(⟨t.frame, Row.put t.row (d (n + 1)) r.table⟩ : Node (PageTree (n + 1))), r.done, r.pool⟩

/-- `pt_map_page`: whatever was mapped at the address is replaced. -/
def ptMapPage (table : PageTable) (va : ℕ) (pte : Pte) (s : Pool) : Mapped 4 :=
  if va % pageSize ≠ 0 then ⟨table, false, s⟩ else mapLevel (tableIndex va) pte table s

/-- `pt_map_new_page`: the new page is lost if it cannot be mapped. -/
def ptMapNewPage (table : PageTable) (va : ℕ) (attrs : ℕ → Pte) (s : Pool) : Mapped 4 :=
  match s.allocPage with
  | none => ⟨table, false, s⟩
  | some (page, s) => ptMapPage table (alignDown va) (attrs page) s

/-! ### Destroying a table -/

/-- The loop of `destroy_page_table_level` over the descriptors of a table. -/
def destroyRow {β : Type} (destroy : β → Pool → Option Pool) :
    List (Option β) → Pool → Option Pool
  | [], s => some s
  | none :: row, s => destroyRow destroy row s
  | some b :: row, s => do
    let s ← destroy b s
    destroyRow destroy row s

/-- `destroy_page_table_level`: the references of the descriptors are given up, and the pages of
the tables are freed. -/
def destroyLevel : {n : ℕ} → PageTree n → Pool → Option Pool
  | 0, pte, s => s.decPteRefcount (show Pte from pte).page
  | _ + 1, t, s => do
    let s ← destroyRow destroyLevel t.row s
    pure (s.freePage t.frame)

end OsPi
