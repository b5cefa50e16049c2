import OsPi.Lib.Bytes

/-!
# The Kernel Heap

A model of `memory/kmalloc.c`. The heap is memory between `HeapMemory` and `HeapMemoryBrk`:
the heads of six free lists, a prologue, blocks and an epilogue. A block starts and ends with
a word that holds its size and, in the lowest bit, whether it is allocated; a free block holds
the links of its free list after its first word.

Memory is made of words, each at its byte address. All accesses of the allocator are to whole
words at multiples of eight; only `kmalloc_memset` and `kmalloc_memcpy` access bytes. Sums are
taken in 64 bits. A search that does not end is `none`. The lock of the source concerns other
processors and is left out.
-/

namespace OsPi

/-- The static variables of `kmalloc.c` and the memory. -/
structure Kheap where
  /-- The words of memory, by their byte addresses. -/
  mem : ℕ → ℕ
  heapMemory : ℕ
  heapMemoryBrk : ℕ
  heapMemoryEnd : ℕ
  heapPtr : ℕ
  segListsPtr : ℕ

namespace Kheap

/-- `*(size_t *)addr`. -/
def word (h : Kheap) (addr : ℕ) : ℕ := h.mem addr

/-- `*(size_t *)addr = value`. -/
def store (h : Kheap) (addr value : ℕ) : Kheap :=
  { h with mem := Function.update h.mem addr value }

/-- `*(unsigned char *)addr`. -/
def loadByte (h : Kheap) (addr : ℕ) : ℕ := Bytes.read (h.word (addr / 8 * 8)) (addr % 8) 1

/-- `*(unsigned char *)addr = value`. -/
def storeByte (h : Kheap) (addr value : ℕ) : Kheap :=
  h.store (addr / 8 * 8) (Bytes.write (h.word (addr / 8 * 8)) (addr % 8) 1 value)

/-! ### Bytes -/

/-- `kmalloc_memset`. -/
def kmallocMemset (h : Kheap) (ptr value : ℕ) : ℕ → Kheap
  | 0 => h
  | num + 1 => (h.storeByte ptr value).kmallocMemset (ptr + 1) value num

/-- `kmalloc_memcpy`. -/
def kmallocMemcpy (h : Kheap) (dst src : ℕ) : ℕ → Kheap
  | 0 => h
  | num + 1 => (h.storeByte dst (h.loadByte src)).kmallocMemcpy (dst + 1) (src + 1) num

/-! ### The break -/

/-- `kmem_sbrk`: the old break, or nothing. -/
def kmemSbrk (h : Kheap) (incr : ℕ) : Option (ℕ × Kheap) :=
  if h.heapMemoryBrk = 0 ∨ h.heapMemoryEnd = 0 ∨ 2 ^ 63 ≤ incr then none
  else
    let nextBrk := (h.heapMemoryBrk + incr) % 2 ^ 64
    if h.heapMemoryEnd < nextBrk then none
    else some (h.heapMemoryBrk, { h with heapMemoryBrk := nextBrk })

/-! ### Free lists -/

/-- `align`. -/
def align (x : ℕ) : ℕ := 16 * ((x + 15) % 2 ^ 64 / 16) % 2 ^ 64

/-- `value & ~0xF`. -/
def sizeBits (value : ℕ) : ℕ := value / 16 * 16

/-- The index of the free list for blocks of a size. -/
def listIndex (size : ℕ) : ℕ :=
  if size ≤ 32 then 0
  else if size ≤ 64 then 1
  else if size ≤ 96 then 2
  else if size ≤ 192 then 3
  else if size ≤ 512 then 4
  else 5

/-- The address of a field of `Seg_Lists`. -/
def listAt (h : Kheap) (i : ℕ) : ℕ := h.segListsPtr + 8 * i

/-- `insert_free`. -/
def insertFree (h : Kheap) (ptr : ℕ) : Kheap :=
  let block := ptr - 8
  let size := sizeBits (h.word (ptr - 8))
  let list := h.listAt (listIndex size)
  let oldHead := h.word list
  let h := h.store (block + 16) oldHead
  let h := h.store (block + 8) 0
  let h := if oldHead ≠ 0 then h.store (oldHead + 8) block else h
  h.store list block

/-- The loop of `get_free_list` over the blocks of a list. -/
def searchList (h : Kheap) (need : ℕ) : ℕ → ℕ → Option (Option ℕ)
  | 0, _ => none
  | fuel + 1, fp =>
    if fp = 0 then some none
    else if need ≤ sizeBits (h.word fp) then some (some (fp + 8))
    else h.searchList need fuel (h.word (fp + 16))

/-- `get_free_list`: a free block, if one is found. It calls itself at most five times. -/
def getFreeList (h : Kheap) : ℕ → ℕ → Option (Option ℕ)
  | 0, _ => none
  | depth + 1, size =>
    let need := align (size + 16)
    if size ≤ 16 ∧ h.word (h.listAt 0) ≠ 0 then
      inList need 0 (getFreeList h depth 17)
    else if size ≤ 48 ∧ h.word (h.listAt 1) ≠ 0 then
      firstOf need 1 (getFreeList h depth 49)
    else if size ≤ 80 ∧ h.word (h.listAt 2) ≠ 0 then
      firstOf need 2 (getFreeList h depth 81)
    else if size ≤ 176 ∧ h.word (h.listAt 3) ≠ 0 then
      inList need 3 (getFreeList h depth 177)
    else if size ≤ 496 ∧ h.word (h.listAt 4) ≠ 0 then
      inList need 4 (getFreeList h depth 497)
    else inList need 5 (some none)
where
  /-- Look through a list, and go on otherwise. -/
  inList (need i : ℕ) (otherwise : Option (Option ℕ)) : Option (Option ℕ) :=
    match h.searchList need h.heapMemoryBrk (h.word (h.listAt i)) with
    | none => none
    | some (some ptr) => some (some ptr)
    | some none => otherwise
  /-- Look at the first block of a list, and go on otherwise. -/
  firstOf (need i : ℕ) (otherwise : Option (Option ℕ)) : Option (Option ℕ) :=
    let fp := h.word (h.listAt i)
    if need ≤ sizeBits (h.word fp) then some (some (fp + 8)) else otherwise

/-- `remove_free`. -/
def removeFree (h : Kheap) (ptr size : ℕ) : Kheap :=
  let block := ptr - 8
  let prev := h.word (block + 8)
  let next := h.word (block + 16)
  let h := if prev ≠ 0 then h.store (prev + 16) next else h.store (h.listAt (listIndex size)) next
  -- both links of the block are read again, and are as before
  if next ≠ 0 then h.store (next + 8) prev else h

/-! ### Blocks -/

/-- The part of `coalesce` for a free block before this one: the merged block and its size. -/
def coalescePrev (h : Kheap) (ptr size : ℕ) : Kheap × ℕ × ℕ :=
  if h.word (ptr - 16) % 2 = 0 then
    let prevSize := sizeBits (h.word (ptr - 16))
    let h := h.removeFree (ptr - prevSize) prevSize
    let h := h.store (ptr - prevSize - 8) (prevSize + size)
    let h := h.store (ptr + size - 16) (prevSize + size)
    (h, ptr - prevSize, prevSize + size)
  else (h, ptr, size)

/-- The part of `coalesce` for a free block after this one. -/
def coalesceNext (h : Kheap) (ptr size : ℕ) : Kheap :=
  if h.word (ptr + size - 8) % 2 = 0 then
    let nextSize := sizeBits (h.word (ptr + size - 8))
    let h := h.removeFree (ptr + size) nextSize
    let h := h.store (ptr - 8) (size + nextSize)
    h.store (ptr + size + nextSize - 16) (size + nextSize)
  else h

/-- `coalesce`: the block after merging. -/
def coalesce (h : Kheap) (ptr : ℕ) : Kheap × ℕ :=
  let size := sizeBits (h.word (ptr - 8))
  let (h, ptr, size) := h.coalescePrev ptr size
  (h.coalesceNext ptr size, ptr)

/-- `initialize_free`. -/
def initializeFree (h : Kheap) (ptr size : ℕ) : Kheap :=
  let h := h.store ptr size
  let h := h.store (ptr + size - 8) size
  let (h, ptr) := h.coalesce (ptr + 8)
  h.insertFree ptr

/-- `extend_heap`: nothing when there is no memory left. -/
def extendHeap (h : Kheap) (size : ℕ) : Option Kheap :=
  let size := align size
  match h.kmemSbrk size with
  | none => none
  | some (oldBrk, h) =>
    let headerPtr := oldBrk - 8
    let h := h.store (headerPtr + size) 1
    some (h.initializeFree headerPtr size)

/-- `PAGE_SIZE`. -/
def pageSize : ℕ := 4096

/-- `kmm_init`. -/
def kmmInit (h : Kheap) : Option Kheap := do
  let (segListsPtr, h) ← h.kmemSbrk 48
  let h := { h with segListsPtr := segListsPtr }.kmallocMemset segListsPtr 0 48
  let (heapPtr, h) ← h.kmemSbrk 24
  let h := { h with heapPtr := heapPtr }
  let h := h.store heapPtr (16 ||| 1)
  let h := h.store (heapPtr + 8) (16 ||| 1)
  let h := h.store (heapPtr + 16) 1
  h.extendHeap pageSize

/-- `kmem_init`, on memory that holds anything. -/
def kmemInit (mem : ℕ → ℕ) (start stop : ℕ) : Option Kheap :=
  kmmInit ⟨mem, start, start, stop, 0, 0⟩

/-! ### Allocating and freeing -/

/-- `get_allocation`: zero when no block is large enough. -/
def getAllocation (h : Kheap) (size : ℕ) : Option (ℕ × Kheap) :=
  match h.getFreeList 6 size with
  | none => none
  | some none => some (0, h)
  | some (some ptr) =>
    let block := ptr - 8
    let blockSize := sizeBits (h.word block)
    let h := h.removeFree ptr blockSize
    let alignedSize := align (size + 16)
    if 32 ≤ (blockSize + 2 ^ 64 - alignedSize) % 2 ^ 64 then
      let h := h.store block (alignedSize ||| 1)
      let h := h.store (block + alignedSize - 8) (alignedSize ||| 1)
      some (ptr, h.initializeFree (block + alignedSize) (blockSize - alignedSize))
    else
      let h := h.store block (blockSize ||| 1)
      some (ptr, h.store (block + blockSize - 8) (blockSize ||| 1))

/-- `kmalloc`. -/
def kmalloc (h : Kheap) (size : ℕ) : Option (ℕ × Kheap) :=
  if size = 0 then some (0, h)
  else
    match h.getAllocation size with
    | none => none
    | some (0, h) =>
      let alignedSize := align (size + 16)
      let extendSize := if pageSize < alignedSize then alignedSize else pageSize
      match h.extendHeap extendSize with
      | none => some (0, h)
      | some h => h.getAllocation size
    | some (ptr, h) => some (ptr, h)

/-- `kfree`. -/
def kfree (h : Kheap) (ptr : ℕ) : Kheap :=
  if ptr = 0 then h
  else h.initializeFree (ptr - 8) (sizeBits (h.word (ptr - 8)))

/-- The part of `krealloc` that takes the free block after this one in. -/
def expandNext (h : Kheap) (oldPtr oldSize needed : ℕ) : Option Kheap :=
  let nextHdr := oldPtr - 8 + oldSize
  let nextVal := h.word nextHdr
  let nextSize := sizeBits nextVal
  if nextVal % 2 = 0 ∧ needed ≤ oldSize + nextSize then
    let h := h.removeFree (nextHdr + 8) nextSize
    let h := h.store (oldPtr - 8) (oldSize + nextSize ||| 1)
    some (h.store (oldPtr - 8 + oldSize + nextSize - 8) (oldSize + nextSize ||| 1))
  else none

/-- `krealloc`. -/
def krealloc (h : Kheap) (oldPtr size : ℕ) : Option (ℕ × Kheap) :=
  if oldPtr = 0 then h.kmalloc size
  else if size = 0 then some (0, h.kfree oldPtr)
  else
    let oldSize := sizeBits (h.word (oldPtr - 8))
    let needed := align (size + 16)
    if needed ≤ oldSize then some (oldPtr, h)
    else
      match h.expandNext oldPtr oldSize needed with
      | some h => some (oldPtr, h)
      | none =>
        match h.kmalloc size with
        | none => none
        | some (0, h) => some (0, h)
        | some (newPtr, h) =>
          let h := h.kmallocMemcpy newPtr oldPtr (min size (oldSize - 16))
          some (newPtr, h.kfree oldPtr)

/-- `kcalloc`. -/
def kcalloc (h : Kheap) (nmemb size : ℕ) : Option (ℕ × Kheap) :=
  let size := size * nmemb % 2 ^ 64
  match h.kmalloc size with
  | none => none
  | some (0, h) => some (0, h)
  | some (ptr, h) => some (ptr, h.kmallocMemset ptr 0 size)

end Kheap

end OsPi
