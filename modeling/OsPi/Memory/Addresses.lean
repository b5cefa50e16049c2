import Mathlib.Tactic.NormNum

/-!
# Addresses

The sizes and the places of `memory/page_table/page_table.h`: pages, the part of the address
space that belongs to the kernel, and what lies where in the part of a process. All addresses are
of 64 bits.
-/

namespace OsPi

/-! ### Pages and translations -/

/-- `PAGE_SIZE`. -/
def pageSize : ℕ := 4096

/-- `KERNEL_VA_BASE`. -/
def kernelVaBase : ℕ := 0xffff000000000000

/-- `align_up`, in 64 bits. -/
def alignUp (value : ℕ) : ℕ :=
  (value + (pageSize - 1)) % 2 ^ 64 / pageSize * pageSize

/-- `align_down`. -/
def alignDown (value : ℕ) : ℕ :=
  value / pageSize * pageSize

/-- `kernel_phys_addr`: the low 48 bits of an address. -/
def kernelPhysAddr (va : ℕ) : ℕ := va % 2 ^ 48

/-- `kernel_direct_map_va`. -/
def kernelDirectMapVa (pa : ℕ) : ℕ := kernelVaBase + pa % 2 ^ 48

/-- `phys_pa_to_pfn`, where the array exists. -/
def physPaToPfn (pa : ℕ) : ℕ := kernelPhysAddr pa / pageSize

/-- `kernel_va_to_pfn`, where the array exists. -/
def kernelVaToPfn (va : ℕ) : ℕ := physPaToPfn (kernelPhysAddr va)

/-- The page frame number of a page is that of its address in the kernel. -/
theorem kernelVaToPfn_kernelDirectMapVa {pfn : ℕ} (h : pfn < 2 ^ 36) :
    kernelVaToPfn (kernelDirectMapVa (pfn * pageSize)) = pfn := by
  unfold kernelVaToPfn physPaToPfn kernelPhysAddr kernelDirectMapVa kernelVaBase pageSize
  omega

/-! ### The address space of a process -/

/-- A range of addresses: its first address and its length. -/
structure AddrRange where
  start : ℕ
  length : ℕ
  deriving DecidableEq, Repr

/-- `is_in_range`. -/
def AddrRange.Contains (r : AddrRange) (addr : ℕ) : Prop :=
  r.start ≤ addr ∧ addr < r.start + r.length

instance (r : AddrRange) (addr : ℕ) : Decidable (r.Contains addr) :=
  inferInstanceAs (Decidable (_ ∧ _))

/-- `USER_HEAP_START` and `USER_HEAP_SIZE`. -/
def userHeap : AddrRange := ⟨0x400000, 16384⟩

/-- The stack below `USER_STACK_TOP`. -/
def userStack : AddrRange := ⟨0x800000 - 8192, 8192⟩

/-- `PROC_KERNEL_STACK_TOP`. -/
def procKernelStackTop : ℕ := 0x900000

/-- The stack below `PROC_KERNEL_STACK_TOP` that the kernel uses for the process. -/
def procKernelStack : AddrRange := ⟨procKernelStackTop - 8192, 8192⟩

end OsPi
