import OsPi.Fs.Operations

/-!
# Pointers in the Inode Table

An inode in the inode table is the memory image of `struct inode_st`, with the pointers it had
when it was written: the table of operations, and the pointer to the state of an open directory,
a pipe or a process. `get_inode_raw` replaces the table of operations of directories and regular
files by the default one and hands out everything else as it stands on the disk.
-/

namespace OsPi

/-- The contents of two blocks agree outside the pointers of the inode at the given place. -/
def AgreeOutsidePointers (index data data' : ℕ) : Prop :=
  ∀ k, k < inodeSize * index + 32 ∨ inodeSize * index + 48 ≤ k →
    Bytes.read data k 1 = Bytes.read data' k 1

section Load

variable {env env' : Env} {s s' t t' : Fs} {n n' : Inode} {id index data data' : ℕ}

theorem AgreeOutsidePointers.type (h : AgreeOutsidePointers index data data') :
    (inodeAt data index).type = (inodeAt data' index).type := by
  have hread : ∀ b, Bytes.read (Bytes.read b (inodeSize * index) inodeSize) 2 1 =
      Bytes.read b (inodeSize * index + 2) 1 := fun b => Bytes.read_read (by decide)
  change UInt8.ofNat _ = UInt8.ofNat _
  rw [hread, hread, h _ (.inl (by omega))]

/-- What a load returns, whichever device operations fail. -/
theorem getInodeRaw_ok (h : (getInodeRaw env id).eval s = (.ok n, t)) : n = s.diskInode id := by
  rw [getInodeRaw, Comp.eval_get_bind] at h
  obtain ⟨data, s₁, hread, h⟩ := Comp.eval_bind_eq_ok.mp h
  have hdata : data = s.block (s.layout.inodeBlock id) := by
    by_cases hnum : s.layout.inodeBlock id < s.blockCount
    · rcases readBlock_cases env s hnum with ⟨ios, hcase, -⟩ | ⟨ios, hcase, -⟩
      · cases hread.symm.trans hcase
        rfl
      · cases hread.symm.trans hcase
    · cases hread.symm.trans (readBlock_eval_error (Nat.not_lt.mp hnum))
  cases h
  rw [hdata, Fs.diskInode]

/-- **Two loads of an inode** from blocks that agree outside its pointers give the same pointers
if and only if the blocks agree in the state pointer too and, unless the inode is a directory or
a regular file, in the table of operations. -/
theorem getInodeRaw_same_pointers_iff (hlayout : s'.layout = s.layout)
    (hagree : AgreeOutsidePointers (s.layout.inodeIndex id) (s.block (s.layout.inodeBlock id))
      (s'.block (s.layout.inodeBlock id)))
    (h : (getInodeRaw env id).eval s = (.ok n, t))
    (h' : (getInodeRaw env' id).eval s' = (.ok n', t')) :
    n.fops = n'.fops ∧ n.iDir = n'.iDir ↔
      (inodeAt (s.block (s.layout.inodeBlock id)) (s.layout.inodeIndex id)).iDir =
        (inodeAt (s'.block (s.layout.inodeBlock id)) (s.layout.inodeIndex id)).iDir ∧
      (n.type = directoryType ∨ n.type = fileType ∨
        (inodeAt (s.block (s.layout.inodeBlock id)) (s.layout.inodeIndex id)).fops =
          (inodeAt (s'.block (s.layout.inodeBlock id)) (s.layout.inodeIndex id)).fops) := by
  rw [getInodeRaw_ok h, getInodeRaw_ok h', Fs.diskInode, Fs.diskInode, hlayout]
  have htype := hagree.type
  generalize inodeAt (s.block (s.layout.inodeBlock id)) (s.layout.inodeIndex id) = raw at htype ⊢
  generalize inodeAt (s'.block (s.layout.inodeBlock id)) (s.layout.inodeIndex id) = raw'
    at htype ⊢
  unfold normalizeDefaultInodeFops
  rw [← htype]
  by_cases hdir : raw.type = directoryType
  · simp [hdir]
  · by_cases hfile : raw.type = fileType
    · simp [hfile, show fileType ≠ directoryType by decide]
    · simp [hdir, hfile, and_comm]

theorem agree_write (index data off len v : ℕ) (hoff : 32 ≤ off) (hlen : off + len ≤ 48) :
    AgreeOutsidePointers index data (Bytes.write data (inodeSize * index + off) len v) := by
  intro k hk
  rw [Bytes.read_write_of_disjoint (by omega)]

/-- A disk with a table of one block of inodes. -/
def Fs.oneTable (data : ℕ) : Fs :=
  { Fs.blank 256 4 with layout := ⟨256, 4, 1, 1, 2, 1, 3, 1, 3⟩, disk := [0, 0, 0, data] }

theorem getInodeRaw_oneTable (data : ℕ) : (getInodeRaw .calm 1).eval (.oneTable data) =
    (.ok ((Fs.oneTable data).diskInode 1), .oneTable data) :=
  getInodeRaw_eval Env.calm_reliable (show Layout.inodeBlock ⟨256, 4, 1, 1, 2, 1, 3, 1, 3⟩ 1 < 4 by
    decide)

/-- A directory whose table of operations has been changed on the disk. -/
theorem getInodeRaw_same_pointers_directory :
    ∃ n n' t t', (getInodeRaw .calm 1).eval (.oneTable 0) = (.ok n, t) ∧
      (getInodeRaw .calm 1).eval (.oneTable (Bytes.write 0 (inodeSize * 0 + 32) 8 1)) =
        (.ok n', t') ∧ n.fops = n'.fops ∧ n.iDir = n'.iDir := by
  have hlayout : ∀ data, (Fs.oneTable data).layout = (Fs.oneTable 0).layout := fun _ => rfl
  have hblock : ∀ data, (Fs.oneTable data).block 3 = data := fun _ => rfl
  have hplace : (Fs.oneTable 0).layout.inodeBlock 1 = 3 ∧
      (Fs.oneTable 0).layout.inodeIndex 1 = 0 := by decide
  refine ⟨_, _, _, _, getInodeRaw_oneTable _, getInodeRaw_oneTable _, ?_⟩
  refine (getInodeRaw_same_pointers_iff (hlayout _) ?_ (getInodeRaw_oneTable _)
    (getInodeRaw_oneTable _)).mpr (by decide +kernel)
  rw [hplace.1, hplace.2, hblock, hblock]
  exact agree_write 0 0 32 8 1 (by decide) (by decide)

/-- **A pointer from the disk**: a directory that is loaded with the state pointer someone has
written to the disk. -/
theorem getInodeRaw_trusts_disk :
    AgreeOutsidePointers 0 0 (Bytes.write 0 (inodeSize * 0 + 40) 8 1) ∧
      ((getInodeRaw .calm 1).eval (.oneTable 0)).1.toOption.map (·.iDir) = some 0 ∧
      ((getInodeRaw .calm 1).eval
        (.oneTable (Bytes.write 0 (inodeSize * 0 + 40) 8 1))).1.toOption.map (·.iDir) = some 1 :=
  ⟨agree_write 0 0 40 8 1 (by decide) (by decide), by decide +kernel, by decide +kernel⟩

end Load

end OsPi
