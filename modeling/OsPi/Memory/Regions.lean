import OsPi.Fs.Calls
import OsPi.Memory.PageTable

/-!
# Memory Regions

A model of the regions of an address space and of the functions of
`memory/page_table/page_table.c` that work on them: `add_vm_region`, `mmap`, `munmap` and
`load_segment_page_for_fault`. Each page table has a list of regions in the order of their
starts, which says what may be loaded where.

The lists are protected by one spin lock, `page_table_metadata_lock`. Taking it a second time
never ends. The lock is part of the state, taken and released where the source does so; it is
held by the code that runs, not by another processor. The allocations of a call succeed or fail
as `Allocs` says, and running out of memory inside a `Vec` is a fatal exception.
-/

namespace OsPi

/-! ### The state -/

/-- `mem_segment_t`. -/
structure MemSegment where
  start : ℕ
  length : ℕ
  ino : ℕ
  fileOffset : ℕ
  fileSize : ℕ
  prot : ℕ
  mapFlags : MapFlags
  deriving DecidableEq, Repr

/-- The end of a region, in 64 bits. -/
def MemSegment.stop (seg : MemSegment) : ℕ := (seg.start + seg.length) % 2 ^ 64

/-- `INVALID_INO`, of a region that maps no file. -/
def invalidIno : ℕ := 0

/-- The memory of the process that runs: the lock, the regions of its page table, if it has a
`page_table_t`, where the next `mmap` goes, the page table and the page allocator. -/
structure Vm where
  lock : Bool
  segments : Option (List MemSegment)
  currMmapVa : ℕ
  table : PageTable
  pool : Pool

/-- Why a call does not return: it waits for a lock it holds, or the kernel has stopped. -/
inductive Stop
  | deadlock
  | fatal
  deriving DecidableEq, Repr

/-- Computations on the memory of a process. -/
abbrev VmM := Comp Vm Stop

/-- Which allocations succeed: the `page_table_t`, its vector, its entry in the map of all of
them, the `mem_segment_t`, and more room in the vector. -/
structure Allocs where
  pageTable : Bool
  vecNew : Bool
  hashmapPut : Bool
  segment : Bool
  vecReserve : Bool
  deriving DecidableEq, Repr

/-- `spin_lock_irqsave` on the lock. -/
def lockMetadata : VmM Unit := do
  let v ← get
  if v.lock then throw .deadlock else set { v with lock := true }

/-- `spin_unlock_irqrestore` on the lock. -/
def unlockMetadata : VmM Unit :=
  modify fun v => { v with lock := false }

/-! ### Adding a region -/

/-- The loop of `add_vm_region`: before the first region that starts later, unless a region
before it ends at the new start or after it. -/
def insertSegment : List MemSegment → MemSegment → Option (List MemSegment)
  | [], segment => some [segment]
  | seg :: rest, segment =>
    if segment.start < seg.start then some (segment :: seg :: rest)
    else if segment.start ≤ seg.stop then none
    else (insertSegment rest segment).map (seg :: ·)

/-- The `page_table_t` of the table, made if there is none. -/
def ensurePageTable (mem : Allocs) : VmM (Except Err (List MemSegment)) := do
  let v ← get
  match v.segments with
  | some segments => pure (.ok segments)
  | none =>
    if !mem.pageTable then pure (.error .invalidArgs)
    else if !mem.vecNew then throw .fatal
    else if !mem.hashmapPut then pure (.error .invalidArgs)
    else do
      set { v with segments := some [] }
      pure (.ok [])

/-- `add_vm_region`. Where the new region is refused the lock is not released. -/
def addVmRegion (mem : Allocs) (segment : MemSegment) : VmM (Except Err Unit) := do
  lockMetadata
  match ← ensurePageTable mem with
  | .error e => do
    unlockMetadata
    pure (.error e)
  | .ok segments =>
    if !mem.segment then do
      unlockMetadata
      pure (.error .invalidArgs)
    else
      match insertSegment segments segment with
      | none => pure (.error .invalidArgs)
      | some segments =>
        if !mem.vecReserve then throw .fatal
        else do
          modify fun v => { v with segments := some segments }
          unlockMetadata
          pure (.ok ())

/-! ### `mmap` and `munmap` -/

/-- The region `mmap` asks for at an address. -/
def MmapArgs.segment (args : MmapArgs) (region : MmapRegion) (addr : ℕ) : MemSegment where
  start := addr
  length := region.length
  ino := region.ino.getD invalidIno
  fileOffset := region.fileOffset
  fileSize := region.fileSize
  prot := args.prot.toNat
  mapFlags := args.flags

/-- The address `mmap` maps at: the one it is given, or the next one of its own. -/
def MmapArgs.place (args : MmapArgs) (v : Vm) : ℕ :=
  args.addr.getD v.currMmapVa

/-- Where `mmap` has chosen the address, the next one goes after the region. -/
def Vm.advance (v : Vm) (args : MmapArgs) (region : MmapRegion) : Vm :=
  if args.addr.isNone then
    { v with currMmapVa := alignUp ((v.currMmapVa + region.length) % 2 ^ 64) }
  else v

/-- The end of `mmap`, once it is known what to map; the null pointer is `0`. -/
def mmapRegister (mem : Allocs) (args : MmapArgs) (region : MmapRegion) : VmM ℕ := do
  let v ← get
  let addr := args.place v
  set (v.advance args region)
  match ← addVmRegion mem (args.segment region addr) with
  | .error _ => pure 0
  | .ok _ => pure addr

/-- Where the loop of `munmap` ends: with the regions it leaves, or at a region it has to split,
with the list at that point and the region to be added. -/
inductive Unmapped
  | finished (segments : List MemSegment)
  | split (segments : List MemSegment) (tail : MemSegment)
  deriving DecidableEq, Repr

/-- One more region in front of what the loop leaves. -/
def Unmapped.cons (seg : MemSegment) : Unmapped → Unmapped
  | .finished segments => .finished (seg :: segments)
  | .split segments tail => .split (seg :: segments) tail

/-- The loop of `munmap` over the regions. The second case moves the start of a region to the
start of the range, whichever comes first. -/
def unmapSegments (remStart length : ℕ) : List MemSegment → Unmapped
  | [] => .finished []
  | seg :: rest =>
    let remEnd := (remStart + length) % 2 ^ 64
    if remStart ≤ seg.start ∧ seg.stop ≤ remEnd then unmapSegments remStart length rest
    else if remStart ≤ seg.start ∧ seg.start < remEnd then
      (unmapSegments remStart length rest).cons
        { seg with
          start := remStart
          length := (seg.length + 2 ^ 64 - (remStart + 2 ^ 64 - seg.start) % 2 ^ 64) % 2 ^ 64
          fileOffset := (seg.fileOffset + (remStart + 2 ^ 64 - seg.start) % 2 ^ 64) % 2 ^ 64 }
    else if seg.stop ≤ remEnd ∧ remStart < seg.stop then
      (unmapSegments remStart length rest).cons
        { seg with length := (seg.length + 2 ^ 64 - (seg.stop - remStart)) % 2 ^ 64 }
    else if seg.start < remStart ∧ remEnd < seg.stop then
      .split (seg :: rest)
        { seg with
          start := remEnd
          length := (seg.length + 2 ^ 64 - length) % 2 ^ 64
          fileOffset := (seg.fileOffset + (remEnd + 2 ^ 64 - seg.start) % 2 ^ 64) % 2 ^ 64
          fileSize := (seg.fileSize + 2 ^ 64 - length) % 2 ^ 64 }
    else (unmapSegments remStart length rest).cons seg

/-- `munmap`. To split a region it calls `add_vm_region`, which takes the lock that is held here:
what `munmap` does after that call is never reached. -/
def munmap (mem : Allocs) (addr length : ℕ) : VmM ℤ := do
  lockMetadata
  let v ← get
  match v.segments with
  | none => do
    unlockMetadata
    pure (-1)
  | some segments =>
    match unmapSegments addr length segments with
    | .finished segments => do
      modify fun v => { v with segments := some segments }
      unlockMetadata
      pure 0
    | .split segments tail => do
      modify fun v => { v with segments := some segments }
      let _ ← addVmRegion mem tail
      unlockMetadata
      pure 0

/-! ### Loading a page -/

/-- The results of `load_segment_page_for_fault`. -/
inductive PageFault
  | notHandled
  | handled
  | permission
  | error
  deriving DecidableEq, Repr

/-- Whether a fault at the address is in the region. -/
def MemSegment.Covers (seg : MemSegment) (va : ℕ) : Prop :=
  seg.start ≤ va ∧ va < seg.stop

instance (seg : MemSegment) (va : ℕ) : Decidable (seg.Covers va) :=
  inferInstanceAs (Decidable (_ ∧ _))

/-- Count an error under the lock, which is all the error paths do with it. -/
def noteFaultError : VmM PageFault := do
  lockMetadata
  unlockMetadata
  pure .error

/-- `load_segment_page_for_fault`. What `read_segment_page` makes of the file is `read`; the lock
is not held meanwhile. -/
def loadSegmentPageForFault (read : MemSegment → ℕ → Option (ℕ → UInt8)) (faultVa access : ℕ) :
    VmM PageFault := do
  lockMetadata
  let v ← get
  match v.segments.bind (·.find? fun seg => seg.Covers faultVa) with
  | none => do
    unlockMetadata
    pure .notHandled
  | some seg =>
    if seg.prot &&& access = 0 then do
      unlockMetadata
      pure .permission
    else do
      unlockMetadata
      let pageVa := alignDown faultVa
      match v.pool.allocPage with
      | none => noteFaultError
      | some (page, pool) =>
        match read seg pageVa with
        | none => do
          modify fun v => { v with pool := pool.freePage page }
          noteFaultError
        | some data => do
          lockMetadata
          let r := ptMapPage v.table pageVa (Pte.userSegment seg.prot page)
            (pool.fill page data)
          modify fun v => { v with table := r.table, pool := r.pool }
          unlockMetadata
          if r.done then pure .handled
          else do
            modify fun v => { v with pool := v.pool.freePage page }
            noteFaultError

end OsPi
