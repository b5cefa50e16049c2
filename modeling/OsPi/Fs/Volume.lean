import OsPi.Fs.RemoveLast

/-!
# The Volume Behind the Caches

An inode is where the inode cache has it, and in the inode table otherwise. `Fs.inode` is
the current inode, and `Fs.volume` the contents of the file system in terms of it: the
current inodes, the two bitmaps, the superblock and the blocks of the data area. Taking and
dropping references moves inodes between the cache and the table and leaves the volume as
it is; every other operation is specified by what it does to the volume.
-/

namespace OsPi

/-! ### The inode table -/

/-- The inode table has a place for the inode. -/
def Layout.HasId (l : Layout) (id : ℕ) : Prop := 1 ≤ id ∧ id ≤ l.inodeCapacity

instance (l : Layout) (id : ℕ) : Decidable (l.HasId id) :=
  inferInstanceAs (Decidable (1 ≤ id ∧ id ≤ l.inodeCapacity))

namespace Layout.HasId

variable {l : Layout} {id id' : ℕ} (h : l.HasId id) (hl : l.Wf)
include h

theorem sub_one_mod : (id + 2 ^ 32 - 1) % 2 ^ 32 = id - 1 := by
  have h1 : l.inodeCapacity < 2 ^ 32 := Nat.mod_lt _ (by decide)
  obtain ⟨hlo, hhi⟩ := h
  omega

theorem inodeBlock_eq : l.inodeBlock id = (id - 1) / l.inodesPerBlock + l.inodeTableStart := by
  rw [Layout.inodeBlock, h.sub_one_mod]

include hl

/-- The inode lies in a block of the inode table. -/
theorem inodeBlock_range :
    l.inodeTableStart ≤ l.inodeBlock id ∧ l.inodeBlock id < l.dataStartBlock := by
  have hlt : (id - 1) / l.inodesPerBlock < l.numTableBlocks := by
    rw [Nat.div_lt_iff_lt_mul hl.inodesPerBlock_pos, ← hl.inodeCapacity_eq]
    obtain ⟨hlo, hhi⟩ := h
    omega
  rw [h.inodeBlock_eq, hl.dataStartBlock]
  generalize (id - 1) / l.inodesPerBlock = q at hlt ⊢
  omega

end Layout.HasId

/-- The bits of the inode bitmap lie in its blocks. -/
theorem Layout.Wf.inodeBit_div_lt {l : Layout} (hl : l.Wf) {id : ℕ} (h : l.HasId id) :
    (id - 1) / l.bitsPerBlock < l.inodeBitmapBlocks := by
  rw [Nat.div_lt_iff_lt_mul hl.bitsPerBlock_pos]
  have h1 := hl.inodeBits
  rw [← hl.inodeCapacity_eq] at h1
  have h2 := h.1
  have h3 := h.2
  omega

namespace Fs

/-- The inode in the inode table, as `get_inode_raw` reads it. -/
def diskInode (s : Fs) (id : ℕ) : Inode :=
  normalizeDefaultInodeFops
    (inodeAt (s.block (s.layout.inodeBlock id)) (s.layout.inodeIndex id))

/-- The current inode: the one in the cache, or the one in the inode table. -/
def inode (s : Fs) (id : ℕ) : Inode :=
  match s.node? id with
  | some c => c.inode
  | none => s.diskInode id

/-- The bit of an inode in the inode bitmap. -/
def inodeBit (s : Fs) (id : ℕ) : Bool := s.bitAt s.layout.inodeBitmapStart (id - 1)

end Fs

/-! ### Volumes -/

/-- The contents of a file system, wherever they are held. -/
structure Volume where
  layout : Layout
  inode : ℕ → Inode
  block : ℕ → ℕ
  blockBit : ℕ → Bool
  inodeBit : ℕ → Bool

/-- The superblock and the blocks of the data area: the blocks that are not told by the
inodes and the bitmaps. -/
def Layout.Plain (l : Layout) (b : ℕ) : Prop := b = 0 ∨ l.dataStartBlock ≤ b

instance (l : Layout) (b : ℕ) : Decidable (l.Plain b) :=
  inferInstanceAs (Decidable (b = 0 ∨ l.dataStartBlock ≤ b))

/-- The volume of a state. -/
def Fs.volume (s : Fs) : Volume where
  layout := s.layout
  inode id := if s.layout.HasId id then s.inode id else Inode.zero
  block b := if s.layout.Plain b then s.block b else 0
  blockBit b := decide (b < s.layout.totalBlocks) && s.blockBit b
  inodeBit id := decide (s.layout.HasId id) && s.inodeBit id

section Table

variable {env : Env} {s : Fs} {id : ℕ}

theorem getInodeRaw_eval (hr : env.Reliable) (h : s.layout.inodeBlock id < s.blockCount) :
    (getInodeRaw env id).eval s = (.ok (s.diskInode id), s) := by
  simp [getInodeRaw, Comp.eval_bind, readBlock_eval hr h, Fs.diskInode]

end Table

end OsPi
