import OsPi.Proc.FailedExec
import OsPi.Syscall.Mmap

/-!
# Where Regions Are

`exec` and `mmap` are the two ways to get a region. The first takes its place from a program header
of the file, the second from the caller or from a counter of the kernel, and `add_vm_region` only
looks at the other regions. `regions_placed_iff` says what this leaves: a region is apart from the
heap and the stacks and inside the part of the user exactly when what was asked for is.
-/

namespace OsPi

open Comp Option

/-! ### Where regions are -/

/-- The addresses from `start` on do not wrap around, are in the part of the address space that
belongs to the user, and are apart from the heap, the stack and the kernel stack. -/
structure Placed (start length : ℕ) : Prop where
  below : start + length ≤ 2 ^ 48
  apart : ∀ r ∈ [userHeap, userStack, procKernelStack], ∀ x, start ≤ x → x < start + length →
    ¬r.Contains x

/-- A region is where it may be. -/
def MemSegment.Placed (seg : MemSegment) : Prop := OsPi.Placed seg.start seg.length

/-- The regions of a process. -/
def System.regions (sys : System) (pid : ℕ) : List MemSegment :=
  ((sys.procs[pid]?.bind Pcb.segments).getD [])

/-- Nothing is asked of the address space. -/
theorem LoaderInvariant.trivial : LoaderInvariant (fun _ => True) (fun _ => True) where
  mapNew _ _ _ _ _ := True.intro
  fill _ _ _ _ _ := True.intro
  congr _ _ _ _ _ := True.intro
  init mem v _ := by
    unfold Post
    generalize (initializeUserPageTable mem).eval v = out
    obtain ⟨⟨why⟩ | ⟨made⟩, v'⟩ := out
    · exact True.intro
    · exact ⟨True.intro, fun _ => True.intro⟩
  destroy v _ := by
    unfold Post
    generalize destroyPageTable.eval v = out
    obtain ⟨⟨why⟩ | ⟨u⟩, v'⟩ := out <;> exact True.intro

/-- After a successful `exec` the regions of the process are those of the program headers. -/
theorem elfExecProcess_regions {files : FileCalls} {mem : ExecMem} {curr : Option ℕ}
    {a : ExecArgs} {sys sys' : System} {pid : ℕ} {image : Image} (hpid : a.pid = some pid)
    (hok : (elfExecProcess files mem curr a).eval sys = (.ok image, sys')) :
    (sys'.regions pid).Perm (image.phdrs.map fun phdr => phdr.segment image.ino) := by
  have hout := elfExecProcess_outcome files mem curr sys hpid
  rw [hok] at hout
  generalize hr : ((.ok image, sys') : Except Failure Image × System) = out at hout
  cases hout with
  | refused h => cases hr
  | noArgs hbegin => cases hr
  | failed hbegin hkilled hload => cases hr
  | adopted hbegin hkilled hload hout =>
    rename_i p path execTid killed args image' page v fs
    subst hout
    obtain ⟨-, himage, hprocs⟩ := adopting_eval
      (fun sys => sys.adopt v a pid execTid page (copyExecName path) image') a.installTable p.table
      image' { killed with lock := v.lock, pool := v.pool, fs }
    rw [← hr] at himage hprocs
    dsimp only at hprocs
    obtain rfl := himage image rfl
    have hpost := LoaderInvariant.trivial.loadAndAdopt_post files mem
      (s := (killed.newVm, killed.fs)) args path p.table a.frameVa True.intro
    rw [Post, hload] at hpost
    have hlength : pid < killed.procs.length := by
      rw [hkilled, (Weakened.killOthers ..).length]
      exact (List.getElem?_eq_some_iff.mp hbegin.proc).1
    have hregions : sys'.regions pid = v.regions := by
      simp [System.regions, hprocs, System.adopt, System.modifyProc, System.modifyThread,
        List.getElem?_eq_getElem hlength, Vm.regions]
    rw [hregions]
    exact hpost.2

/-- What `mmap` maps has the length its arguments were found to ask for. -/
theorem mmap_length {env : Env} {args : MmapArgs} {s : Fs} {region : MmapRegion}
    (h : ((mmap env args).eval s).1 = .ok (some region)) : args.check = some region.length := by
  cases hcheck : args.check with
  | none => simp [mmap, hcheck] at h
  | some length =>
    cases hanon : args.flags.anonymous with
    | true =>
      simp only [mmap, hcheck, hanon, if_true] at h
      split_ifs at h
      · simp at h
      · simp only [eval_pure, Except.ok.injEq, some.injEq] at h
        exact h ▸ rfl
    | false =>
      cases hfd : args.fd with
      | none => simp [mmap, hcheck, hanon, hfd] at h
      | some fd =>
        rw [mmap_file_result s hcheck hanon hfd] at h
        split at h
        · rename_i entry _
          cases hsize : ((entrySize env entry).eval s).1 with
          | error e => simp [hsize] at h
          | ok size =>
            rw [hsize, except_map_ok] at h
            split_ifs at h
            · cases h
            · exact some.inj (Except.ok.inj h) ▸ rfl
        · simp at h

/-- Where `mmap` returns an address, there is one more region, at that address. -/
theorem mmapCall_regions {env : Env} {mem : Allocs} {args : MmapArgs} {v v' : Vm} {s s' : Fs}
    {addr : ℕ} (hok : (mmapCall env mem args).eval (v, s) = (.ok addr, v', s')) (haddr : addr ≠ 0) :
    ∃ seg length, args.check = some length ∧ seg.start = args.place v ∧ seg.length = length ∧
      v'.regions.Perm (seg :: v.regions) := by
  unfold mmapCall at hok
  rw [eval_get_bind, eval_bind_of_ok (eval_set _ _)] at hok
  cases hfile : ((mmap env args).eval s).1 with
  | error e => simp [hfile] at hok
  | ok region =>
    cases region with
    | none =>
      simp only [hfile, eval_pure, Prod.mk.injEq, Except.ok.injEq] at hok
      exact absurd hok.1.symm haddr
    | some region =>
      refine ⟨args.segment region (args.place v), region.length, mmap_length hfile, rfl, rfl, ?_⟩
      have hpost := addVmRegion_post mem (args.segment region (args.place v))
        (v.advance args region)
      simp only [hfile, onVm_eval, VmCall.mmapRegister_eval] at hok
      rw [Post] at hpost
      generalize (addVmRegion mem (args.segment region (args.place v))).eval
        (v.advance args region) = out at hok hpost
      obtain ⟨⟨e⟩ | ⟨⟨e⟩ | ⟨u⟩⟩, v''⟩ := out
      · simp at hok
      · simp only [Prod.mk.injEq, Except.ok.injEq] at hok
        exact absurd hok.1.symm haddr
      · simp only [Prod.mk.injEq] at hok
        have hperm := hpost.2.2 rfl
        rw [VmCall.regions_advance] at hperm
        exact hok.2.1 ▸ hperm

/-- **Where regions are registered.** `exec` takes the addresses of regions from the program headers
and `mmap` from its arguments or from a counter, and nobody looks at them: the regions are where
they may be exactly when what they are taken from is. -/
theorem regions_placed_iff (files : FileCalls) (execMem : ExecMem) (curr : Option ℕ) (a : ExecArgs)
    (sys : System) (env : Env) (mem : Allocs) (args : MmapArgs) (v : Vm) (s : Fs) :
    (∀ (sys' : System) (pid : ℕ) (image : Image), a.pid = some pid →
      (elfExecProcess files execMem curr a).eval sys = (.ok image, sys') →
      ((∀ seg ∈ sys'.regions pid, seg.Placed) ↔
        ∀ phdr ∈ image.phdrs, Placed phdr.vaddr phdr.memsz)) ∧
    (∀ (v' : Vm) (s' : Fs) (addr : ℕ),
      (mmapCall env mem args).eval (v, s) = (.ok addr, v', s') → addr ≠ 0 →
      ∃ seg length, args.check = some length ∧ v'.regions.Perm (seg :: v.regions) ∧
        (seg.Placed ↔ Placed (args.place v) length)) := by
  refine ⟨fun sys' pid image hpid hok => ?_, fun v' s' addr hok haddr => ?_⟩
  · have hperm := elfExecProcess_regions hpid hok
    constructor
    · intro h phdr hphdr
      exact h (phdr.segment image.ino) (hperm.mem_iff.mpr (List.mem_map_of_mem hphdr))
    · intro h seg hseg
      obtain ⟨phdr, hphdr, rfl⟩ := List.mem_map.mp (hperm.mem_iff.mp hseg)
      exact h phdr hphdr
  · obtain ⟨seg, length, hcheck, hstart, hlength, hperm⟩ := mmapCall_regions hok haddr
    refine ⟨seg, length, hcheck, hperm, ?_⟩
    rw [MemSegment.Placed, hstart, hlength]

/-- A program with its segment at the given address is run. -/
def execProgram (vaddr : ℕ) : Except Failure Image × System :=
  (elfExecProcess Env.calm.fileCalls .plenty (some 0) (execOf "p")).eval
    (bootSystem [0] (programFs vaddr 4096))

/-- A page without a file at the given address. -/
def mapFixed (addr : ℕ) : MmapArgs := ⟨some addr, 4096, 6, ⟨false, true, true, true⟩, none, 0⟩

/-- The mapping in a new address space. -/
def mappedAt (addr : ℕ) : Except Stop ℕ × Vm × Fs :=
  (mmapCall .calm .plenty (mapFixed addr)).eval (bootVm.2, Fs.small)

/-- The page after the first 64 KiB is apart from everything else. -/
theorem placed_low : Placed 0x10000 4096 := by
  have habove : ∀ r ∈ [userHeap, userStack, procKernelStack], 0x10000 + 4096 ≤ r.start := by decide
  exact ⟨by norm_num, fun r hr x _ hhi hx => absurd (hhi.trans_le (habove r hr)) (not_lt.mpr hx.1)⟩

/-- A program and a mapping at a low address get a region in a free place. -/
theorem regions_placed_low :
    (∃ image sys', execProgram 0x10000 = (.ok image, sys') ∧
      ∀ seg ∈ sys'.regions 0, seg.Placed) ∧
    ∃ v' s' seg, mappedAt 0x10000 = (.ok 0x10000, v', s') ∧ v'.regions.Perm [seg] ∧ seg.Placed := by
  constructor
  · have hok : (execProgram 0x10000).1.toOption.map Image.phdrs =
        some [⟨1, 0, 0x10000, 120, 4096⟩] := by decide +kernel
    rcases hexec : execProgram 0x10000 with ⟨⟨f⟩ | ⟨image⟩, sys'⟩ <;> rw [hexec] at hok
    · simp [Except.toOption] at hok
    · refine ⟨image, sys', rfl, ?_⟩
      have hphdrs : image.phdrs = [⟨1, 0, 0x10000, 120, 4096⟩] := by
        simpa [Except.toOption] using hok
      refine ((regions_placed_iff _ _ _ _ _ Env.calm .plenty (mapFixed 0) bootVm.2 Fs.small).1 _ 0 image rfl
        hexec).mpr fun phdr hphdr => ?_
      rw [hphdrs, List.mem_singleton] at hphdr
      exact hphdr ▸ placed_low
  · have hok : (mappedAt 0x10000).1 = .ok 0x10000 := by decide +kernel
    have hbare : bootVm.2.regions = [] := by decide +kernel
    rcases hmap : mappedAt 0x10000 with ⟨result, v', s'⟩
    rw [hmap] at hok
    obtain rfl : result = .ok 0x10000 := hok
    obtain ⟨seg, length, hlength, hperm, hplaced⟩ :=
      (regions_placed_iff Env.calm.fileCalls .plenty none (execOf "p") (bootSystem [0] Fs.small)
        _ _ _ _ _).2 _ _ _ hmap (by norm_num)
    obtain rfl : length = 4096 := (some.inj hlength).symm
    have hplace : (mapFixed 0x10000).place bootVm.2 = 0x10000 := by
      simp [mapFixed, MmapArgs.place]
    exact ⟨v', s', seg, rfl, hperm, hplaced.mpr (hplace ▸ placed_low)⟩

/-- A program whose segment is on the kernel stack of the process is run, and a page is mapped on
its user stack. -/
theorem regions_on_stacks :
    (execProgram 0x8fe000).1.toOption.isSome = true ∧
      (∃ seg ∈ (execProgram 0x8fe000).2.regions 0, procKernelStack.Contains seg.start ∧ ¬seg.Placed) ∧
    (mappedAt 0x7fe000).1 = .ok 0x7fe000 ∧
      ∃ seg ∈ (mappedAt 0x7fe000).2.1.regions, userStack.Contains seg.start ∧ ¬seg.Placed := by
  have hapart : ∀ seg : MemSegment, ∀ r ∈ [userHeap, userStack, procKernelStack],
      r.Contains seg.start ∧ 0 < seg.length → r.Contains seg.start ∧ ¬seg.Placed := by
    intro seg r hr h
    exact ⟨h.1, fun hp => hp.apart r hr seg.start le_rfl (Nat.lt_add_of_pos_right h.2) h.1⟩
  have hexec : (execProgram 0x8fe000).1.toOption.isSome = true ∧
      ∃ seg ∈ (execProgram 0x8fe000).2.regions 0,
        procKernelStack.Contains seg.start ∧ 0 < seg.length := by decide +kernel
  have hmap : (mappedAt 0x7fe000).1 = .ok 0x7fe000 ∧
      ∃ seg ∈ (mappedAt 0x7fe000).2.1.regions, userStack.Contains seg.start ∧ 0 < seg.length := by
    decide +kernel
  obtain ⟨hran, seg, hseg, hin⟩ := hexec
  obtain ⟨hmapped, seg', hseg', hin'⟩ := hmap
  exact ⟨hran, ⟨seg, hseg, hapart seg _ (by simp) hin⟩, hmapped, seg', hseg',
    hapart seg' _ (by simp) hin'⟩

end OsPi
