import OsPi.Proc.System

/-!
# Loading a Program

A model of `fs/elf_loader.c`. `elf_exec_process` builds a new address space next to the old one
and puts it in the place of the old one at its end. Before all that it stops the other threads of
the process.

The loader works on the new address space and on the file system (`LoadM`); a returned error runs
the clean-up that the source repeats at each exit (`cleaningUp`). The calls of the file system are
a parameter, `FileCalls`, so that what is proved holds whatever file the path names; those of the
kernel, for a file of the volume, are `Env.fileCalls`. Copies of the arguments are made with
`kmalloc`, which fails where `ExecMem` says so.
-/

namespace OsPi

/-! ### Computations of the loader -/

/-- Computations on the new address space and the file system. -/
abbrev LoadM := Comp (Vm × Fs) Failure

/-- A computation on the address space. -/
def liftVm {α : Type} (m : VmM α) : LoadM α :=
  ExceptT.mk fun s => ((m.eval s.1).1.mapError Failure.stop, (m.eval s.1).2, s.2)

/-- An error of the file system, or the end of the kernel. -/
def Failure.ofErr (e : Err) : Failure := if e.fatal then .stop .fatal else .err e

/-- A call of the file system. -/
def liftFs {α : Type} (m : FsM α) : LoadM α :=
  ExceptT.mk fun s => ((m.eval s.2).1.mapError Failure.ofErr, s.1, (m.eval s.2).2)

/-- Run a computation, and the clean-up as well if it returns an error. -/
def cleaningUp {α : Type} (cleanup : LoadM Unit) (m : LoadM α) : LoadM α := do
  match ← Comp.attempt m with
  | .ok a => pure a
  | .error (.stop why) => throw (.stop why)
  | .error (.err e) => do
    cleanup
    throw (.err e)

/-- Return an error unless the condition holds. -/
def check (ok : Bool) (e : Err) : LoadM Unit := if ok then pure () else throw (.err e)

/-- The calls of the file system the loader makes: `k_open` for reading, `get_oft_entry_by_fd`,
what the inode of an entry holds, `k_lseek` from the start of a file, `k_read` with the number of
bytes and the number they spell, and `k_close`. -/
structure FileCalls where
  openRdonly : Str → FsM ℕ
  entry : ℕ → FsM OftEntry
  metadata : OftEntry → FsM Attributes
  lseek : ℕ → ℤ → FsM Unit
  read : ℕ → ℕ → FsM (ℕ × ℕ)
  close : ℕ → FsM Unit

/-- The calls of the kernel. -/
def Env.fileCalls (env : Env) : FileCalls where
  openRdonly path := kOpen env path oRdonly
  entry := getOftEntryByFd
  metadata entry := do
    let n ← cachedInode entry.inoId
    pure n.toAttributes
  lseek fd offset := do
    let _ ← kLseek env fd offset .set
  read fd n := do
    let r ← kRead env fd n
    pure (r.count.toNat, Bytes.cat (r.chunks.map fun c => (c.len, c.data)))
  close := kClose env

/-! ### The file -/

/-- The fields of `elf64_ehdr_t` that are looked at, in a header of 64 bytes. -/
structure Ehdr where
  ident : ℕ → ℕ
  type : ℕ
  machine : ℕ
  version : ℕ
  entry : ℕ
  phoff : ℕ
  ehsize : ℕ
  phentsize : ℕ
  phnum : ℕ

/-- `sizeof(elf64_ehdr_t)`. -/
def ehdrSize : ℕ := 64

/-- The header the given bytes spell. -/
def Ehdr.ofBytes (b : ℕ) : Ehdr where
  ident i := Bytes.read b i 1
  type := Bytes.read b 16 2
  machine := Bytes.read b 18 2
  version := Bytes.read b 20 4
  entry := Bytes.read b 24 8
  phoff := Bytes.read b 32 8
  ehsize := Bytes.read b 52 2
  phentsize := Bytes.read b 54 2
  phnum := Bytes.read b 56 2

/-- The fields of `elf64_phdr_t` that are looked at. -/
structure Phdr where
  type : ℕ
  offset : ℕ
  vaddr : ℕ
  filesz : ℕ
  memsz : ℕ
  deriving DecidableEq, Repr

/-- `sizeof(elf64_phdr_t)`. -/
def phdrSize : ℕ := 56

/-- The program header the given bytes spell. -/
def Phdr.ofBytes (b : ℕ) : Phdr where
  type := Bytes.read b 0 4
  offset := Bytes.read b 8 8
  vaddr := Bytes.read b 16 8
  filesz := Bytes.read b 32 8
  memsz := Bytes.read b 40 8

/-- `ELF_PH_TYPE_LOAD`. -/
def elfPhTypeLoad : ℕ := 1

/-- `validate_elf_header`. -/
def validateElfHeader (header : Ehdr) (fileSize : ℤ) : Bool :=
  decide (ehdrSize ≤ fileSize) &&
  (header.ident 0 == 0x7f && header.ident 1 == 0x45 && header.ident 2 == 0x4c &&
    header.ident 3 == 0x46) &&
  (header.ident 4 == 2 && header.ident 5 == 1 && header.ident 6 == 1) &&
  (header.type == 2 && header.machine == 183 && header.version == 1) &&
  (decide (ehdrSize ≤ header.ehsize) && header.phentsize == phdrSize) &&
  header.phnum != 0 &&
  (decide (header.phoff ≤ fileSize.toNat) &&
    decide (header.phnum ≤ (fileSize.toNat - header.phoff) / header.phentsize))

/-- The loop of `read_exact_at`. Each turn reads at least one byte, so that there are not more
turns than bytes. -/
def readExactLoop (files : FileCalls) (fd size : ℕ) : ℕ → ℕ → ℕ → LoadM ℕ
  | 0, _, buf => pure buf
  | turns + 1, total, buf =>
    if size ≤ total then pure buf
    else do
      let (count, data) ← liftFs (files.read fd (size - total))
      check (count != 0) .fileReadError
      readExactLoop files fd size turns (total + count) (Bytes.write buf total count data)

/-- `read_exact_at`. -/
def readExactAt (files : FileCalls) (fd offset size : ℕ) : LoadM ℕ := do
  liftFs (files.lseek fd (toInt32 offset))
  readExactLoop files fd size size 0 0

/-! ### Arguments -/

/-- Which allocations succeed: the copies of the arguments, what the new page table needs, and
what the region of each program header needs. -/
structure ExecMem where
  arg : ℕ → Bool
  table : Allocs
  region : ℕ → Allocs

/-- `EXEC_MAX_ARGS` and `EXEC_MAX_ARG_LEN`. -/
def execMaxArgs : ℕ := 32

@[inherit_doc execMaxArgs] def execMaxArgLen : ℕ := 256

/-- The loop of `copy_exec_args`, which returns `INVALID_ARGS` whatever goes wrong. -/
def copyExecArgsLoop (mem : ExecMem) : ℕ → List Str → Bool
  | _, [] => true
  | argc, arg :: rest =>
    decide (argc < execMaxArgs) && decide (arg.length < execMaxArgLen) && mem.arg argc &&
      copyExecArgsLoop mem (argc + 1) rest

/-- `copy_exec_args`; without a vector there are no arguments. -/
def copyExecArgs (mem : ExecMem) (argv : Option (List Str)) : Option (List Str) :=
  if copyExecArgsLoop mem 0 (argv.getD []) then some (argv.getD []) else none

/-- The loop of `copy_exec_name`: what follows the last slash that something follows. -/
def execBaseName : Str → Str → Str
  | [], name => name
  | c :: rest, name =>
    if c = slash ∧ rest ≠ [] then execBaseName rest rest else execBaseName rest name

/-- `copy_exec_name`. -/
def copyExecName (path : Str) : Str := (execBaseName path path).take 31

/-- `process_copy_name`. -/
def processCopyName (name : Str) : Str :=
  if name = [] then str "?" else name.take 31

/-! ### The stack -/

/-- Some bytes of a page replaced. -/
def putBytes (page : ℕ → UInt8) (off : ℕ) (src : List UInt8) (i : ℕ) : UInt8 :=
  if off ≤ i then src.getD (i - off) (page i) else page i

/-- The page at an address, seeded if there is none: `pt_get_mapped_page` and
`pt_seed_user_page`. -/
def stackPage (va : ℕ) : VmM (Option ℕ) := do
  let v ← get
  match v.table.walk va with
  | some pte => pure (some pte.page)
  | none => do
    let r := ptMapNewPage v.table va Pte.userRw v.pool
    set { v with table := r.table, pool := r.pool }
    pure (if r.done then (PageTable.walk r.table va).map Pte.page else none)

/-- The loop of `stack_write`. Each turn copies at least one byte. -/
def stackWriteLoop : ℕ → ℕ → List UInt8 → VmM Bool
  | 0, _, _ => pure true
  | turns + 1, va, src =>
    if src = [] then pure true
    else do
      match ← stackPage (alignDown va) with
      | none => pure false
      | some page => do
        let off := va % pageSize
        let chunk := min src.length (pageSize - off)
        modify fun v =>
          { v with pool := v.pool.fill page (putBytes (v.pool.bytes page) off (src.take chunk)) }
        stackWriteLoop turns (va + chunk) (src.drop chunk)

/-- `stack_write`. -/
def stackWrite (va : ℕ) (src : List UInt8) : VmM Bool :=
  if va < userStack.start ∨ userStack.start + userStack.length < va ∨
      userStack.start + userStack.length - va < src.length then pure false
  else stackWriteLoop src.length va src

/-- The loop of `setup_exec_stack` over the arguments, from the last to the first: where they
end up. -/
def pushArgs : List Str → ℕ → List ℕ → VmM (Option (ℕ × List ℕ))
  | [], sp, ptrs => pure (some (sp, ptrs))
  | arg :: rest, sp, ptrs =>
    let len := arg.length + 1
    if sp < userStack.start + len then pure none
    else do
      if ← stackWrite (sp - len) (arg ++ [0]) then pushArgs rest (sp - len) ((sp - len) :: ptrs)
      else pure none

/-- The bytes of a word. -/
def wordBytes (w : ℕ) : List UInt8 := (List.range 8).map fun i => UInt8.ofNat (w >>> (8 * i))

/-- `setup_exec_stack`: the stack pointer, which is where the vector of arguments starts. -/
def setupExecStack (args : List Str) : VmM (Option ℕ) := do
  match ← pushArgs args.reverse (userStack.start + userStack.length) [] with
  | none => pure none
  | some (sp, ptrs) => do
    let sp := sp / 16 * 16
    let argvBytes := (args.length + 1) * 8
    if sp < userStack.start + argvBytes then pure none
    else do
      if ← stackWrite (sp - argvBytes) ((ptrs ++ [0]).flatMap wordBytes) then
        pure (some (sp - argvBytes))
      else pure none

/-! ### The segments -/

/-- The region of a program header: `elf_load_user_segment`. -/
def Phdr.segment (phdr : Phdr) (ino : ℕ) : MemSegment where
  start := phdr.vaddr
  length := phdr.memsz
  ino := ino
  fileOffset := phdr.offset
  fileSize := phdr.filesz
  prot := Pte.protRead ||| Pte.protWrite ||| Pte.protExec
  mapFlags := { shared := false, priv := true, fixed := true, anonymous := false }

/-- Whether what a program header takes from the file is in the file. -/
def Phdr.inFile (phdr : Phdr) (fileSize : ℕ) : Bool :=
  decide (phdr.filesz ≤ phdr.memsz) && decide (phdr.offset ≤ fileSize) &&
    decide (phdr.filesz ≤ fileSize - phdr.offset)

/-- Register the region of a program header. -/
def loadSegment (mem : Allocs) (segment : MemSegment) : LoadM Unit := do
  match ← liftVm (addVmRegion mem segment) with
  | .error e => throw (.err e)
  | .ok _ => pure ()

/-- The loop over the program headers: those whose regions have been registered. -/
def loadSegments (files : FileCalls) (mem : ExecMem) (fd ino fileSize : ℕ) (header : Ehdr) :
    List ℕ → LoadM (List Phdr)
  | [] => pure []
  | i :: rest => do
    let bytes ← readExactAt files fd ((header.phoff + i * header.phentsize) % 2 ^ 64) phdrSize
    let phdr := Phdr.ofBytes bytes
    if phdr.type ≠ elfPhTypeLoad then loadSegments files mem fd ino fileSize header rest
    else do
      check (phdr.inFile fileSize) .invalidArgs
      loadSegment (mem.region i) (phdr.segment ino)
      liftFs (files.lseek fd (toInt32 (phdr.offset + phdr.filesz)))
      let phdrs ← loadSegments files mem fd ino fileSize header rest
      pure (phdr :: phdrs)

/-! ### The new address space -/

/-- What is known of the program when its address space is complete. -/
structure Image where
  entry : ℕ
  sp : ℕ
  argc : ℕ
  phdrs : List Phdr
  ino : ℕ
  deriving DecidableEq, Repr

/-- The part of `elf_exec_process` in which there is a new page table. -/
def buildImage (files : FileCalls) (mem : ExecMem) (args : List Str) (fd ino fileSize : ℕ)
    (header : Ehdr) : LoadM Image := do
  let seeded ← liftVm (seedKernelPages kernelStackPages)
  check seeded .invalidArgs
  match ← liftVm (setupExecStack args) with
  | none => throw (.err .invalidArgs)
  | some sp => do
    let phdrs ← loadSegments files mem fd ino fileSize header (List.range header.phnum)
    pure ⟨header.entry, sp, args.length, phdrs, ino⟩

/-- The part of `elf_exec_process` in which the file is open. -/
def loadImage (files : FileCalls) (mem : ExecMem) (args : List Str) (fd : ℕ) (entry : OftEntry) :
    LoadM Image := do
  let metadata ← liftFs (files.metadata entry)
  check (metadata.perm &&& 1 != 0) .invalidPermissions
  let fileSize := toInt32 metadata.size.toNat
  check (decide (0 < fileSize)) .fileReadError
  let bytes ← readExactAt files fd 0 ehdrSize
  let header := Ehdr.ofBytes bytes
  check (validateElfHeader header fileSize) .invalidArgs
  let made ← liftVm (initializeUserPageTable mem.table)
  check made .invalidArgs
  cleaningUp (liftVm destroyPageTable)
    (buildImage files mem args fd entry.inoId fileSize.toNat header)

/-- The part of `elf_exec_process` from `k_open` to `k_close`. -/
def loadProgram (files : FileCalls) (mem : ExecMem) (args : List Str) (path : Str) :
    LoadM Image := do
  let fd ← liftFs (files.openRdonly path)
  let entry ← liftFs (files.entry fd)
  let image ← cleaningUp (liftFs do let _ ← tryErr (files.close fd))
    (loadImage files mem args fd entry)
  cleaningUp (liftVm destroyPageTable) (liftFs (files.close fd))
  pure image

/-- The loop that copies the kernel stack from the old address space to the new one. -/
def copyKernelStack (old : PageTable) : List ℕ → LoadM Unit
  | [] => pure ()
  | va :: rest => do
    let (v, _) ← get
    match old.walk va, v.table.walk va with
    | some src, some dst => do
      liftVm (modify fun v => { v with pool := v.pool.copyPhysPage src.page dst.page })
      copyKernelStack old rest
    | _, _ => throw (.err .invalidArgs)

/-- The checks of the trap frame, the copy of the kernel stack, and the page of the new trap
frame. -/
def adoptFrame (old : Option PageTable) (frameVa : ℕ) : LoadM ℕ := do
  check (decide (procKernelStack.Contains frameVa)) .invalidArgs
  match old with
  | none => throw (.err .invalidArgs)
  | some old => do
    copyKernelStack old kernelStackPages
    let (v, _) ← get
    match v.table.walk (alignDown frameVa) with
    | none => throw (.err .invalidArgs)
    | some pte => pure pte.page

/-- Store a word at an address of physical memory. -/
def Pool.pokeWord (s : Pool) (addr w : ℕ) : Pool :=
  (List.range 8).foldl (fun s i =>
    s.fill ((addr + i) / pageSize)
      (putBytes (s.bytes ((addr + i) / pageSize)) ((addr + i) % pageSize)
        [UInt8.ofNat (w >>> (8 * i))])) s

/-- The words of the new trap frame, by their offsets in `struct trap_frame`. -/
def frameWords (image : Image) : List (ℕ × ℕ) :=
  [(256, image.entry), (248, image.sp), (272, 0), (280, 0), (288, 0), (296, 0)] ++
    (List.range 31).map (fun i => (8 * i, 0)) ++ [(0, image.argc), (8, image.sp)]

/-! ### `elf_exec_process` -/

/-- The arguments of `elf_exec_process`, with `none` for a null pointer. Of the trap frame only
its address matters. -/
structure ExecArgs where
  pid : Option ℕ
  path : Option Str
  argv : Option (List Str)
  frame : Bool
  frameVa : ℕ
  installTable : Bool

/-- The thread that goes on with the new program. -/
def System.execThread (sys : System) (curr : Option ℕ) (pid : ℕ) (p : Pcb) : Option ℕ :=
  match curr.bind fun tid => sys.threads[tid]?.map fun t => (tid, t.pid) with
  | some (tid, owner) =>
    if owner = pid then some tid
    else p.tids.head?.filter fun tid => (sys.thread? tid).isSome
  | none => p.tids.head?.filter fun tid => (sys.thread? tid).isSome

/-- The loop that stops the other threads. It goes on with the next index, also after a thread
has been removed from the list. -/
def System.killOthers (curr : Option ℕ) (pid execTid : ℕ) : ℕ → ℕ → System → System
  | 0, _, sys => sys
  | turns + 1, i, sys =>
    match (sys.procs[pid]?.map Pcb.tids).bind (·[i]?) with
    | none => sys
    | some tid =>
      match sys.thread? tid with
      | none => System.killOthers curr pid execTid turns (i + 1) sys
      | some t =>
        if tid = execTid then System.killOthers curr pid execTid turns (i + 1) sys
        else System.killOthers curr pid execTid turns (i + 1)
          ((sys.threadDetach curr tid).terminateThread tid t.pid)

/-- `reset_exec_signal_dispositions`; `SIGKILL` and `SIGSTOP` are 9 and 10. -/
def resetSignals (actions : List SigAction) : List SigAction :=
  actions.mapIdx fun signum a =>
    if signum ≠ 9 ∧ signum ≠ 10 ∧ a.handler = .ign then a else ⟨.dfl, 0, 0⟩

/-- An address space that has no page table yet. -/
def System.newVm (sys : System) : Vm :=
  ⟨sys.lock, none, sys.currMmapVa, PageTree.empty 0, sys.pool⟩

/-- The end of `elf_exec_process`: the new address space takes the place of the old one. -/
def System.adopt (sys : System) (v : Vm) (a : ExecArgs) (pid execTid page : ℕ) (name : Str)
    (image : Image) : System :=
  let pool := (frameWords image).foldl
    (fun s w => s.pokeWord (page * pageSize + a.frameVa % pageSize + w.1) w.2) v.pool
  (({ sys with pool }.modifyThread execTid fun t =>
      { t with ctx := ⟨a.frameVa, a.frameVa, v.table.frame⟩ }).modifyProc pid fun p =>
    { p with
      table := some v.table, segments := v.segments, tids := [execTid]
      name := processCopyName name, sigactions := resetSignals p.sigactions })

/-- Destroy the page table a process had. -/
def destroyOld (old : Option PageTable) : SysM Unit := do
  match old with
  | none => pure ()
  | some table => do
    let sys ← get
    let (r, v) := destroyPageTable.eval ⟨sys.lock, none, sys.currMmapVa, table, sys.pool⟩
    set { sys with lock := v.lock, pool := v.pool }
    match r with
    | .ok _ => pure ()
    | .error why => throw (.stop why)

/-- What the loader does once the other threads have stopped. -/
def loadAndAdopt (files : FileCalls) (mem : ExecMem) (args : List Str) (path : Str)
    (old : Option PageTable) (frameVa : ℕ) : LoadM (Image × ℕ) := do
  let image ← loadProgram files mem args path
  let page ← cleaningUp (liftVm destroyPageTable) (adoptFrame old frameVa)
  pure (image, page)

/-- `elf_exec_process`, called by the given thread. Where the source returns `SUCCESS`, what is
known of the program is returned. -/
def elfExecProcess (files : FileCalls) (mem : ExecMem) (curr : Option ℕ) (a : ExecArgs) :
    SysM Image := do
  let sys ← get
  match a.pid, a.path, a.frame with
  | some pid, some path, true =>
    match sys.procs[pid]? with
    | none => throw (.err .invalidArgs)
    | some p =>
      match sys.execThread curr pid p with
      | none => throw (.err .invalidArgs)
      | some execTid => do
        let sys := System.killOthers curr pid execTid p.tids.length 0 sys
        set sys
        match copyExecArgs mem a.argv with
        | none => throw (.err .invalidArgs)
        | some args => do
          let (r, v, fs) :=
            (loadAndAdopt files mem args path p.table a.frameVa).eval (sys.newVm, sys.fs)
          set { sys with lock := v.lock, pool := v.pool, fs }
          match r with
          | .error e => throw e
          | .ok (image, page) => do
            modify fun sys =>
              sys.adopt v a pid execTid page (copyExecName path) image
            if a.installTable then destroyOld p.table
            pure image
  | _, _, _ => throw (.err .invalidArgs)

end OsPi
