import OsPi.Fs.Names

/-!
# Making a File System

A model of `mkfs` and `validate_superblock` of `fs/disk.c` and of the functions of `fs/inodes.c`
they use. The region of the device the file system lies in is fixed; the superblock, the
bitmaps, the inode table and the root directory are written first, and the files the kernel
carries are then created with the operations of the mounted file system.

The table `user_bins` is generated when the kernel is built and is a parameter.
-/

namespace OsPi

variable (env : Env)

/-! ### The superblock -/

/-- `FS_SIGNATURE`, with its terminating NUL. -/
def fsSignature : ℕ := ofBytes (str "OSisCOOLv2")

/-- The bytes of the superblock of a layout. -/
def Layout.superblock (l : Layout) : ℕ :=
  Bytes.cat [(11, fsSignature), (1, 0), (4, l.bytesPerBlock), (4, l.totalBlocks),
    (4, l.blockBitmapStart), (4, l.blockBitmapBlocks), (4, l.inodeBitmapStart),
    (4, l.inodeBitmapBlocks), (4, l.inodeTableStart), (4, l.numTableBlocks),
    (4, l.dataStartBlock), (4, rootIno)]

/-- The layout a superblock tells. -/
def superblockLayout (data : ℕ) : Layout where
  bytesPerBlock := Bytes.read data 12 4
  totalBlocks := Bytes.read data 16 4
  blockBitmapStart := Bytes.read data 20 4
  blockBitmapBlocks := Bytes.read data 24 4
  inodeBitmapStart := Bytes.read data 28 4
  inodeBitmapBlocks := Bytes.read data 32 4
  inodeTableStart := Bytes.read data 36 4
  numTableBlocks := Bytes.read data 40 4
  dataStartBlock := Bytes.read data 44 4

/-- `fs_set_layout`. -/
def fsSetLayout (l : Layout) : FsM Unit := do
  if l.bytesPerBlock = 0 ∨ l.totalBlocks = 0 ∨ l.blockBitmapBlocks = 0 ∨
      l.inodeBitmapBlocks = 0 ∨ l.numTableBlocks = 0 ∨ l.totalBlocks ≤ l.dataStartBlock then
    throw .invalidArgs
  modify fun s => { s with layout := l }

/-! ### Writing the empty file system -/

/-- `MKFS_FILL_CHUNK_BLOCKS`. -/
def mkfsFillChunkBlocks : ℕ := 32

/-- Give `count` blocks from `start` on the same contents. -/
def Fs.fillBlocks (s : Fs) (start value : ℕ) : ℕ → Fs
  | 0 => s
  | count + 1 => (s.fillBlocks start value count).setBlock (start + count) value

/-- The loop of `write_filled_blocks`: up to 32 blocks in one device operation. -/
def writeFilledLoop (value : ℕ) : ℕ → ℕ → ℕ → FsM Unit
  | 0, _, _ => pure ()
  | fuel + 1, current, remaining =>
    if remaining = 0 then pure ()
    else do
      let chunk := min remaining mkfsFillChunkBlocks
      if ← deviceFails env then throw .fileWriteError
      modify fun s => s.fillBlocks current value chunk
      writeFilledLoop value fuel (current + chunk) (remaining - chunk)

/-- `write_filled_blocks`, where `value` is the whole block. -/
def writeFilledBlocks (startBlock blockCount value : ℕ) : FsM Unit :=
  writeFilledLoop env value blockCount startBlock blockCount

/-- The first `n` bits of a block of a bitmap, as `set_bitmap_bit_in_memory` sets them. -/
def bitmapOf (bit : ℕ → Bool) : ℕ → ℕ
  | 0 => 0
  | n + 1 => if bit n then assignBit (bitmapOf bit n) n true else bitmapOf bit n

/-- The number of blocks of a bitmap from `block` on that satisfy `p` one after the other. -/
def runLength (p : ℕ → Bool) (block limit : ℕ) : ℕ :=
  ((List.range' block (limit - block)).takeWhile p).length

/-- The loop of `write_block_bitmap`. Blocks of one value are written in runs. -/
def writeBlockBitmapLoop (l : Layout) : ℕ → ℕ → FsM Unit
  | 0, _ => pure ()
  | fuel + 1, block =>
    if l.blockBitmapBlocks ≤ block then pure ()
    else if isFull block then do
      let run := runLength isFull block l.blockBitmapBlocks
      writeFilledBlocks env (l.blockBitmapStart + block) run (2 ^ l.bitsPerBlock - 1)
      writeBlockBitmapLoop l fuel (block + run)
    else if isClear block then do
      let run := runLength isClear block l.blockBitmapBlocks
      writeFilledBlocks env (l.blockBitmapStart + block) run 0
      writeBlockBitmapLoop l fuel (block + run)
    else do
      let bit := fun i => decide (block * l.bitsPerBlock + i < l.dataStartBlock + 1) ||
        decide (l.totalBlocks ≤ block * l.bitsPerBlock + i)
      writeBlock env (bitmapOf bit l.bitsPerBlock) (l.blockBitmapStart + block)
      writeBlockBitmapLoop l fuel (block + 1)
where
  /-- Every bit of the block is set. -/
  isFull (block : ℕ) : Bool :=
    decide ((block + 1) * l.bitsPerBlock ≤ l.dataStartBlock + 1) ||
      decide (l.totalBlocks ≤ block * l.bitsPerBlock)
  /-- No bit of the block is set. -/
  isClear (block : ℕ) : Bool :=
    decide (l.dataStartBlock + 1 ≤ block * l.bitsPerBlock) &&
      decide ((block + 1) * l.bitsPerBlock ≤ l.totalBlocks)

/-- The loop of `write_inode_bitmap` over the given blocks. -/
def writeInodeBitmapLoop (l : Layout) : List ℕ → FsM Unit
  | [] => pure ()
  | block :: rest => do
    let bit := fun i => decide (block * l.bitsPerBlock + i = 0) ||
      decide (l.inodeCapacity ≤ block * l.bitsPerBlock + i)
    writeBlock env (bitmapOf bit l.bitsPerBlock) (l.inodeBitmapStart + block)
    writeInodeBitmapLoop l rest

/-- The root directory of an empty file system. -/
def rootInode (l : Layout) (now : UInt64) : Inode :=
  { Inode.zero with
    linksCount := 2, type := directoryType, perm := 7, iBlocks := 1, mtime := now }.setBlk 0
    l.dataStartBlock

/-- `mkfs_inode`. -/
def mkfsInode : FsM Unit := do
  let s ← get
  let l := s.layout
  writeBlock env 0 0
  writeBlockBitmapLoop env l l.blockBitmapBlocks 0
  writeInodeBitmapLoop env l (List.range l.inodeBitmapBlocks)
  writeBlock env (storeInode 0 0 (rootInode l (env.ticks rootIno))) l.inodeTableStart
  writeFilledBlocks env (l.inodeTableStart + 1) (l.numTableBlocks - 1) 0
  writeBlock env
    (setDirentAt (setDirentAt 0 0 (Dirent.emit (str ".") rootIno)) 1
      (Dirent.emit (str "..") rootIno))
    l.dataStartBlock
  writeBlock env l.superblock 0

/-! ### The files the kernel carries -/

/-- `user_bin_t`: the path of a program and its bytes. -/
structure UserBin where
  path : Str
  size : ℕ
  data : ℕ

/-- `fs_seed_file_t`. -/
structure SeedFile where
  path : Str
  contents : Str
  executable : Bool

/-- The lines of a script. -/
def script (lines : List String) : Str := lines.flatMap fun line => str line ++ [10]

/-- `test_scripts`. -/
def testScripts : List SeedFile := [
  { path := str "/tests/README.sh"
    executable := true
    contents := script [
      "#!/bin/sh",
      "# OS-PI smoke test index. Run one script at a time from /tests.",
      "echo OS-PI test scripts",
      "echo Each script prints what it is about to do and what success looks like",
      "sleep 1000",
      "echo Run /tests/all.sh for a full smoke pass",
      "echo Run /tests/multicore.sh to show four CPU-bound jobs sharing CPUs",
      "echo Run /tests/stress.sh to leave cpubusy jobs running until killed",
      "echo Run /tests/vfs.sh to exercise file directory link and procfs paths",
      "echo Run /tests/vm.sh to exercise user heap and process VM maps",
      "sleep 1000",
      "echo Available tests are:",
      "ls /tests"] },
  { path := str "/tests/all.sh"
    executable := true
    contents := script [
      "#!/bin/sh",
      "# Runs the main scripted smoke tests.",
      "echo BEGIN all-tests",
      "echo This runs proc vfs vm and multicore tests in order",
      "echo Success means each section reaches its END marker without fatal exceptions",
      "sleep 1500",
      "/tests/proc.sh",
      "sleep 1500",
      "/tests/vfs.sh",
      "sleep 1500",
      "/tests/vm.sh",
      "sleep 1500",
      "/tests/multicore.sh",
      "sleep 1500",
      "echo END all-tests"] },
  { path := str "/tests/proc.sh"
    executable := true
    contents := script [
      "#!/bin/sh",
      "# Shows kernel state exported by procfs.",
      "echo BEGIN procfs-test",
      "echo Step 1 list /proc",
      "echo Success looks like entries such as cpuinfo processes meminfo timers interrupts",
      "sleep 1000",
      "ls /proc",
      "sleep 1500",
      "echo Step 2 print /proc/cpuinfo",
      "echo Success looks like online_processors and per_cpu rows for each CPU",
      "sleep 1000",
      "cat /proc/cpuinfo",
      "sleep 1500",
      "echo Step 3 print process table",
      "echo Success looks like init shell and this script runner in the table",
      "sleep 1000",
      "cat /proc/processes",
      "sleep 1500",
      "echo Step 4 print timer and interrupt state",
      "echo Success looks like readable counters without errors",
      "sleep 1000",
      "cat /proc/timers",
      "sleep 1000",
      "cat /proc/interrupts",
      "sleep 1000",
      "echo END procfs-test"] },
  { path := str "/tests/vfs.sh"
    executable := true
    contents := script [
      "#!/bin/sh",
      "# Exercises VFS, regular files, stat, copy, rename, hard links, and symlinks.",
      "echo BEGIN vfs-test",
      "echo Step 1 create test directories under /tmp",
      "echo It is OK if mkdir says the directory already exists from an earlier run",
      "sleep 1000",
      "mkdir /tmp",
      "mkdir /tmp/vfs-test",
      "sleep 1000",
      "echo Step 2 create a regular file through shell redirection",
      "echo Success looks like cat printing alpha beta gamma",
      "sleep 1000",
      "echo alpha beta gamma > /tmp/vfs-test/input.txt",
      "cat /tmp/vfs-test/input.txt",
      "sleep 1500",
      "echo Step 3 count and search the file",
      "echo Success looks like wc counts and grep printing the same line",
      "sleep 1000",
      "wc /tmp/vfs-test/input.txt",
      "grep beta /tmp/vfs-test/input.txt",
      "sleep 1500",
      "echo Step 4 copy rename hardlink and symlink the file",
      "sleep 1000",
      "cp /tmp/vfs-test/input.txt /tmp/vfs-test/copy.txt",
      "mv /tmp/vfs-test/copy.txt /tmp/vfs-test/moved.txt",
      "ln /tmp/vfs-test/input.txt /tmp/vfs-test/hardlink.txt",
      "ln -s /tmp/vfs-test/input.txt /tmp/vfs-test/symlink.txt",
      "sleep 1500",
      "echo Step 5 inspect link and inode metadata",
      "echo Success looks like readlink target and stat output for both files",
      "sleep 1000",
      "readlink /tmp/vfs-test/symlink.txt",
      "stat /tmp/vfs-test/input.txt",
      "stat /tmp/vfs-test/hardlink.txt",
      "sleep 1500",
      "echo Step 6 list directory and verify moved copy contents",
      "sleep 1000",
      "ls /tmp/vfs-test",
      "cat /tmp/vfs-test/moved.txt",
      "sleep 1500",
      "echo Step 7 remove the moved copy and list again",
      "echo Success looks like moved.txt is gone while input and links remain",
      "sleep 1000",
      "rm /tmp/vfs-test/moved.txt",
      "ls /tmp/vfs-test",
      "sleep 1000",
      "echo END vfs-test"] },
  { path := str "/tests/vm.sh"
    executable := true
    contents := script [
      "#!/bin/sh",
      "# Exercises process VM visibility, heap growth, and scheduler process views.",
      "echo BEGIN vm-test",
      "echo Step 1 show user heap accounting before a workload",
      "echo Success looks like heap total used and free values",
      "sleep 1000",
      "free",
      "sleep 1500",
      "echo Step 2 run cpubusy for a short timed workload",
      "echo Success looks like cpubusy start and cpubusy done with checksum",
      "sleep 1000",
      "cpubusy 300 vm",
      "sleep 1500",
      "echo Step 3 print kernel memory and VM counters",
      "echo Success looks like readable meminfo and vmstat output",
      "sleep 1000",
      "cat /proc/meminfo",
      "sleep 1000",
      "cat /proc/vmstat",
      "sleep 1500",
      "echo Step 4 print init process maps and process table",
      "echo Success looks like virtual address ranges followed by ps output",
      "sleep 1000",
      "cat /proc/0/maps",
      "sleep 1000",
      "ps",
      "cat /proc/processes",
      "sleep 1000",
      "echo END vm-test"] },
  { path := str "/tests/multicore.sh"
    executable := true
    contents := script [
      "#!/bin/sh",
      "# Starts one busy loop per expected CPU and displays CPU/process/timer state.",
      "echo BEGIN multicore-test",
      "echo Step 1 show CPU state before load",
      "echo Success looks like online_processors is 4 on QEMU -smp 4 or Pi 5",
      "sleep 1000",
      "cat /proc/cpuinfo",
      "sleep 1500",
      "echo Step 2 start four CPU-bound workers with staggered launches",
      "echo Success looks like four cpubusy start lines and no SDHCI errors",
      "sleep 1000",
      "echo Launching worker cpu0",
      "cpubusy 2000 cpu0 &",
      "sleep 1000",
      "echo Launching worker cpu1",
      "cpubusy 2000 cpu1 &",
      "sleep 1000",
      "echo Launching worker cpu2",
      "cpubusy 2000 cpu2 &",
      "sleep 1000",
      "echo Launching worker cpu3",
      "cpubusy 2000 cpu3 &",
      "sleep 1500",
      "echo Step 3 inspect process table while workers are active",
      "echo Success looks like several cpubusy processes running",
      "sleep 1000",
      "ps",
      "cat /proc/processes",
      "sleep 1500",
      "echo Step 4 inspect per-CPU scheduler ticks during load",
      "echo Success looks like scheduler_ticks values have increased on online CPUs",
      "sleep 1000",
      "cat /proc/cpuinfo",
      "sleep 1000",
      "cat /proc/timers",
      "echo Step 5 wait for timed workers to finish",
      "echo Success looks like cpubusy done lines then no fatal exceptions",
      "sleep 10000",
      "sleep 1000",
      "ps",
      "cat /proc/cpuinfo",
      "sleep 1000",
      "echo END multicore-test"] },
  { path := str "/tests/stress.sh"
    executable := true
    contents := script [
      "#!/bin/sh",
      "# Leaves background burners running until killed. Use ps, then kill PIDs.",
      "echo BEGIN stress-test",
      "echo Step 1 show CPU state before infinite workers",
      "echo Success looks like all expected CPUs online",
      "sleep 1000",
      "cat /proc/cpuinfo",
      "sleep 1500",
      "echo Step 2 start four infinite CPU burners with staggered launches",
      "echo Success looks like four cpubusy start lines and a responsive shell afterward",
      "sleep 1000",
      "echo Launching stress0",
      "cpubusy 0 stress0 &",
      "sleep 1000",
      "echo Launching stress1",
      "cpubusy 0 stress1 &",
      "sleep 1000",
      "echo Launching stress2",
      "cpubusy 0 stress2 &",
      "sleep 1000",
      "echo Launching stress3",
      "cpubusy 0 stress3 &",
      "sleep 1500",
      "echo Step 3 print process and CPU state while burners continue running",
      "echo Success looks like cpubusy PIDs in ps and scheduler_ticks increasing",
      "sleep 1000",
      "ps",
      "cat /proc/cpuinfo",
      "sleep 1000",
      "echo Step 4 leave workers running for manual inspection",
      "echo Use kill PID to stop each cpubusy worker shown by ps",
      "echo Example kill 7",
      "echo END stress-test"] }]

/-- `mark_user_bin_executable`. -/
def markUserBinExecutable (path : Str) : FsM Unit := do
  let out ← getDirentByPath env env.depth path (.uninitialised env)
  match out.err with
  | some e => throw e
  | none => updateInodeMetadata env out.dirent.ino editPerm 0 1 0

/-- `k_check_if_exists`. -/
def kCheckIfExists (fName : Str) : FsM Bool := do
  let s ← get
  if !s.isMounted then pure true
  else do
    let out ← getDirentByPath env env.depth fName (.uninitialised env)
    pure out.err.isNone

/-- The loop that writes the contents of a new file. -/
def writeAll (fd buf len : ℕ) : ℕ → ℕ → FsM Unit
  | 0, _ => throw .fault
  | fuel + 1, written =>
    if len ≤ written then pure ()
    else do
      let n := len - written
      match ← tryErr (kWrite env fd (Bytes.read buf written n) n) with
      | .error e => do
        let _ ← tryErr (kClose env fd)
        throw e
      | .ok chunk =>
        if chunk ≤ 0 then do
          let _ ← tryErr (kClose env fd)
          throw .fileWriteError
        else writeAll fd buf len fuel (written + chunk.toNat)

/-- The common part of `seed_write_file` and `seed_user_bin_file`: create a file, write it
and close it. -/
def createFile (path : Str) (buf len : ℕ) : FsM Unit := do
  let fd ← kOpen env path (oCreat ||| oWronly)
  writeAll env fd buf len (len + 1) 0
  kClose env fd

/-- `seed_write_file`. -/
def seedWriteFile (file : SeedFile) : FsM Unit := do
  if ← kCheckIfExists env file.path then kUnlink env file.path
  createFile env file.path (ofBytes file.contents) file.contents.length
  if file.executable then markUserBinExecutable env file.path

/-- `seed_user_bin_file`. -/
def seedUserBinFile (bin : UserBin) : FsM Unit := do
  if ← kCheckIfExists env bin.path then markUserBinExecutable env bin.path
  else do
    createFile env bin.path bin.data bin.size
    markUserBinExecutable env bin.path

/-- The first part of `seed_user_bins` and of `seed_tests`: make sure that the directory
exists. -/
def seedDirectory (path : Str) : FsM Unit := do
  let out ← getDirentByPath env env.depth path (.uninitialised env)
  let err ←
    match out.err with
    | some e => pure (some e)
    | none => do
      let metadata ← getInodeMetadata env out.dirent.ino
      if metadata.type ≠ directoryType then do
        kUnlink env path
        pure (some .fileNotCreated)
      else pure none
  match err with
  | some .fileNotCreated | some .fileNotFound => kMakeDirectory env path
  | some e => throw e
  | none => pure ()

/-- The loop over the entries of a table. -/
def seedEach {α : Type} (seed : α → FsM Unit) : List α → FsM Unit
  | [] => pure ()
  | a :: rest => do
    seed a
    seedEach seed rest

/-- `seed_user_bins`. -/
def seedUserBins (bins : List UserBin) : FsM Unit := do
  seedDirectory env (str "/bin")
  seedEach (seedUserBinFile env) bins

/-- `seed_tests`. -/
def seedTests : FsM Unit := do
  seedDirectory env (str "/tests")
  seedEach (seedWriteFile env) testScripts

/-- `unmount_inode`. -/
def unmountInode : FsM Unit := do
  let _ ← Comp.attempt (emptyInodeCache env)

/-- `seed_user_bins_for_mkfs`. The block cache writes through, so that emptying it changes
nothing. -/
def seedUserBinsForMkfs (bins : List UserBin) : FsM Unit := do
  modify fun s => { s with isMounted := true }
  initializeOft env
  let err ← tryErr do
    seedUserBins env bins
    seedTests env
  emptyOft env
  modify fun s => { s with isMounted := false }
  unmountInode env
  ofExcept err

/-! ### Making, mounting and unmounting -/

/-- The block size a configuration stands for. -/
def blockSizeOf : ℤ → Option ℕ
  | 0 => some 256
  | 1 => some 512
  | 2 => some 1024
  | 3 => some 2048
  | 4 => some 4096
  | _ => none

/-- The layout `mkfs` computes, in 32-bit arithmetic. -/
def mkfsLayout (bytesPerBlock totalBlocks inodeTableBlocks inodeCount : ℕ) : Layout :=
  let bitsPerBlock := bytesPerBlock * 8
  let blockBitmapBlocks := (totalBlocks + bitsPerBlock - 1) % 2 ^ 32 / bitsPerBlock
  let inodeBitmapBlocks := (inodeCount + bitsPerBlock - 1) % 2 ^ 32 / bitsPerBlock
  let inodeBitmapStart := (1 + blockBitmapBlocks) % 2 ^ 32
  let inodeTableStart := (inodeBitmapStart + inodeBitmapBlocks) % 2 ^ 32
  { bytesPerBlock, totalBlocks
    blockBitmapStart := 1
    blockBitmapBlocks, inodeBitmapStart, inodeBitmapBlocks, inodeTableStart
    numTableBlocks := inodeTableBlocks
    dataStartBlock := (inodeTableStart + inodeTableBlocks) % 2 ^ 32 }

/-- `mkfs`. -/
def mkfs (bins : List UserBin) (inodeTableBlocks blockSizeConfig : ℤ) : FsM Unit := do
  if inodeTableBlocks ≤ 0 then throw .invalidArgs
  match blockSizeOf blockSizeConfig with
  | none => throw .invalidArgs
  | some newBytesPerBlock => do
    let s ← get
    if newBytesPerBlock ≠ s.deviceBlockSize then throw .invalidArgs
    if s.blockCount = 0 ∨ 2 ^ 32 ≤ s.blockCount then throw .invalidArgs
    let tableBlocks := inodeTableBlocks.toNat
    let inodeCount := tableBlocks * (newBytesPerBlock / inodeSize)
    if inodeCount = 0 ∨ 2 ^ 32 ≤ inodeCount then throw .invalidArgs
    let l := mkfsLayout newBytesPerBlock s.blockCount tableBlocks inodeCount
    if l.totalBlocks ≤ l.dataStartBlock then throw .invalidArgs
    fsSetLayout l
    mkfsInode env
    seedUserBinsForMkfs env bins

/-- `range_is_valid`. -/
def rangeIsValid (start count total : ℕ) : Bool :=
  count ≠ 0 && start < total && count ≤ total - start

/-- `validate_superblock`. -/
def validateSuperblock (data : ℕ) : FsM Unit := do
  let s ← get
  let l := superblockLayout data
  if Bytes.read data 0 11 ≠ fsSignature then throw .fsInvalid
  if l.bytesPerBlock ≠ s.deviceBlockSize ∨ l.totalBlocks = 0 ∨ l.totalBlocks ≠ s.blockCount ∨
      Bytes.read data 48 4 ≠ rootIno then throw .fsInvalid
  if l.blockBitmapStart ≠ 1 ∨
      !rangeIsValid l.blockBitmapStart l.blockBitmapBlocks l.totalBlocks ∨
      !rangeIsValid l.inodeBitmapStart l.inodeBitmapBlocks l.totalBlocks ∨
      !rangeIsValid l.inodeTableStart l.numTableBlocks l.totalBlocks ∨
      l.inodeBitmapStart < (l.blockBitmapStart + l.blockBitmapBlocks) % 2 ^ 32 ∨
      l.inodeTableStart < (l.inodeBitmapStart + l.inodeBitmapBlocks) % 2 ^ 32 ∨
      l.dataStartBlock < (l.inodeTableStart + l.numTableBlocks) % 2 ^ 32 ∨
      l.totalBlocks ≤ l.dataStartBlock then throw .fsInvalid

end OsPi
