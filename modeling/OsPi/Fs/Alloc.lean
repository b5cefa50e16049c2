import OsPi.Fs.BlockMap

/-!
# Allocating Blocks

The layouts `mkfs` produces, the block bitmap over them, and the vocabulary in which the
effect of an operation on the disk is described: `Change` bounds what an operation writes
and gives the block bitmap after it, `Alloc` is a change that only sets clear bits.
-/

namespace OsPi

open Function List

/-! ### Layouts -/

/-- A layout as `mkfs` computes it: the regions follow each other, the bitmaps have a bit
for every block and every inode, and no more than numbers of 32 bits can name. -/
structure Layout.Wf (l : Layout) : Prop where
  size : l.bytesPerBlock ∈ [256, 512, 1024, 2048, 4096]
  blockBitmapStart : l.blockBitmapStart = 1
  inodeBitmapStart : l.inodeBitmapStart = l.blockBitmapStart + l.blockBitmapBlocks
  inodeTableStart : l.inodeTableStart = l.inodeBitmapStart + l.inodeBitmapBlocks
  dataStartBlock : l.dataStartBlock = l.inodeTableStart + l.numTableBlocks
  dataStartBlock_lt : l.dataStartBlock < l.totalBlocks
  totalBlocks_lt : l.totalBlocks < 2 ^ 32
  blockBits : l.totalBlocks ≤ l.blockBitmapBlocks * l.bitsPerBlock
  inodeBits : l.numTableBlocks * l.inodesPerBlock ≤ l.inodeBitmapBlocks * l.bitsPerBlock
  blockBits_le : l.blockBitmapBlocks * l.bitsPerBlock ≤ 2 ^ 32
  inodeBits_le : l.inodeBitmapBlocks * l.bitsPerBlock ≤ 2 ^ 32
  inodes_lt : l.numTableBlocks * l.inodesPerBlock < 2 ^ 32
  numTableBlocks_pos : 0 < l.numTableBlocks

theorem Layout.maxFileBlocks_eq (l : Layout) :
    l.maxFileBlocks = treeBase l.blocksInSinglePtr 3 := by
  simp only [Layout.maxFileBlocks, treeBase, Layout.blocksInDoublePtr, Layout.blocksInTriplePtr]
  ring

namespace Layout.Wf

variable {l : Layout} (h : l.Wf)
include h

theorem bytesPerBlock_cases :
    l.bytesPerBlock = 256 ∨ l.bytesPerBlock = 512 ∨ l.bytesPerBlock = 1024 ∨
      l.bytesPerBlock = 2048 ∨ l.bytesPerBlock = 4096 := by
  simpa using h.size

theorem blocksInSinglePtr_ge : 64 ≤ l.blocksInSinglePtr := by
  unfold Layout.blocksInSinglePtr
  rcases h.bytesPerBlock_cases with h | h | h | h | h <;> rw [h] <;> decide

theorem blocksInSinglePtr_le : l.blocksInSinglePtr ≤ 1024 := by
  unfold Layout.blocksInSinglePtr
  rcases h.bytesPerBlock_cases with h | h | h | h | h <;> rw [h] <;> decide

theorem bitsPerBlock_pos : 0 < l.bitsPerBlock := by
  unfold Layout.bitsPerBlock
  rcases h.bytesPerBlock_cases with h | h | h | h | h <;> rw [h] <;> decide

theorem inodesPerBlock_pos : 0 < l.inodesPerBlock := by
  unfold Layout.inodesPerBlock
  rcases h.bytesPerBlock_cases with h | h | h | h | h <;> rw [h] <;> decide

theorem blockBitmapBlocks_pos : 0 < l.blockBitmapBlocks := by
  rcases Nat.eq_zero_or_pos l.blockBitmapBlocks with h0 | h0
  · have h1 := h.blockBits
    have h2 := h.dataStartBlock_lt
    rw [h0] at h1
    omega
  · exact h0

theorem inodeBitmapBlocks_pos : 0 < l.inodeBitmapBlocks := by
  rcases Nat.eq_zero_or_pos l.inodeBitmapBlocks with h0 | h0
  · have h1 := h.inodeBits
    have h2 := Nat.mul_pos h.numTableBlocks_pos h.inodesPerBlock_pos
    rw [h0] at h1
    omega
  · exact h0

theorem inodeCapacity_eq : l.inodeCapacity = l.numTableBlocks * l.inodesPerBlock :=
  Nat.mod_eq_of_lt h.inodes_lt

theorem maxFileBlocks_lt : l.maxFileBlocks < 2 ^ 31 := by
  have h1 := h.blocksInSinglePtr_le
  have h2 : l.blocksInDoublePtr ≤ 1024 * 1024 := Nat.mul_le_mul h1 h1
  have h3 : l.blocksInTriplePtr ≤ 1024 * 1024 * 1024 := Nat.mul_le_mul h2 h1
  unfold Layout.maxFileBlocks
  omega

/-- The bits of the block bitmap lie in its blocks. -/
theorem blockBit_div_lt {b : ℕ} (hb : b < l.totalBlocks) :
    b / l.bitsPerBlock < l.blockBitmapBlocks :=
  (Nat.div_lt_iff_lt_mul h.bitsPerBlock_pos).mpr (Nat.lt_of_lt_of_le hb h.blockBits)

/-- The block bitmap ends before the last block. -/
theorem blockBitmap_lt : l.blockBitmapStart + l.blockBitmapBlocks < l.totalBlocks := by
  have h1 := h.inodeBitmapStart
  have h2 := h.inodeTableStart
  have h3 := h.dataStartBlock
  have h4 := h.dataStartBlock_lt
  omega

end Layout.Wf

/-- The state has a layout of `mkfs` and a disk of the size it says. -/
structure Fs.Wf (s : Fs) : Prop where
  layout : s.layout.Wf
  length_disk : s.disk.length = s.blockCount
  blockCount_eq : s.blockCount = s.layout.totalBlocks

/-! ### The block bitmap -/

namespace Fs

/-- The bit of a block in the block bitmap. -/
def blockBit (s : Fs) (b : ℕ) : Bool := s.bitAt s.layout.blockBitmapStart b

/-- Assign the bit of a block in the block bitmap. -/
def setBlockBit (s : Fs) (b : ℕ) (value : Bool) : Fs :=
  s.setBitAt s.layout.blockBitmapStart b value

/-- The pointers stored in the blocks. -/
def ptr (s : Fs) (x i : ℕ) : ℕ := ptrAt (s.block x) i

/-- The data blocks of an inode, in file order. -/
def dataBlocks (s : Fs) (n : Inode) : List ℕ :=
  dataOf s.layout.blocksInSinglePtr s.ptr n.blk n.iBlocks.toNat

/-- The single, double and triple pointer blocks of an inode. -/
def ptrBlocks (s : Fs) (n : Inode) : List ℕ :=
  ptrsOf s.layout.blocksInSinglePtr s.ptr n.blk n.iBlocks.toNat

/-- `s'` differs from `s` on the disk only: in the blocks `W` and in the block bitmap, which
now has the bits `bits`; the bits past the last block stay. -/
structure Change (s s' : Fs) (W : List ℕ) (bits : ℕ → Bool) : Prop where
  eq : s' = { s with disk := s'.disk }
  length_disk : s'.disk.length = s.disk.length
  blockBit : ∀ b < s.layout.totalBlocks, s'.blockBit b = bits b
  spare : ∀ b, s.layout.totalBlocks ≤ b → b < s.layout.blockBitmapBlocks * s.layout.bitsPerBlock →
    s'.blockBit b = s.blockBit b
  block : ∀ x, s.layout.inodeBitmapStart ≤ x ∨ x = 0 → x ∉ W → s'.block x = s.block x

namespace Change

variable {s s' s'' : Fs} {W W' : List ℕ} {bits bits' : ℕ → Bool}

theorem layout (h : Change s s' W bits) : s'.layout = s.layout := by rw [h.eq]

theorem icache (h : Change s s' W bits) : s'.icache = s.icache := by rw [h.eq]

theorem blockCount (h : Change s s' W bits) : s'.blockCount = s.blockCount := by rw [h.eq]

theorem wf (h : Change s s' W bits) (hw : s.Wf) : s'.Wf where
  layout := by rw [h.layout]; exact hw.layout
  length_disk := by rw [h.length_disk, h.blockCount]; exact hw.length_disk
  blockCount_eq := by rw [h.blockCount, h.layout]; exact hw.blockCount_eq

theorem refl (s : Fs) : Change s s [] s.blockBit where
  eq := rfl
  length_disk := rfl
  blockBit := fun _ _ => rfl
  spare := fun _ _ _ => rfl
  block := fun _ _ _ => rfl

theorem trans (h : Change s s' W bits) (h' : Change s' s'' W' bits') :
    Change s s'' (W ++ W') bits' where
  eq := by rw [h'.eq, h.eq]
  length_disk := h'.length_disk.trans h.length_disk
  blockBit := fun b hb => h'.blockBit b (by rwa [h.layout])
  spare := fun b hb hlt => by
    rw [h'.spare b (by rwa [h.layout]) (by rwa [h.layout]), h.spare b hb hlt]
  block := fun x hx hW => by
    rw [mem_append, not_or] at hW
    rw [h'.block x (by rwa [h.layout]) hW.2, h.block x hx hW.1]

theorem mono (h : Change s s' W bits) (hW : ∀ x ∈ W, x ∈ W')
    (hbits : ∀ b < s.layout.totalBlocks, bits b = bits' b) : Change s s' W' bits' where
  eq := h.eq
  length_disk := h.length_disk
  blockBit := fun b hb => (h.blockBit b hb).trans (hbits b hb)
  spare := h.spare
  block := fun x hx hW' => h.block x hx fun hxW => hW' (hW x hxW)

/-- Pointers of blocks that are not written stay. -/
theorem ptr (h : Change s s' W bits) {x : ℕ} (hx : s.layout.inodeBitmapStart ≤ x)
    (hW : x ∉ W) : s'.ptr x = s.ptr x := by
  funext i
  rw [Fs.ptr, Fs.ptr, h.block x (.inl hx) hW]

/-- Assigning a bit of the block bitmap. -/
theorem setBlockBit (hw : s.Wf) {b : ℕ} (hb : b < s.layout.totalBlocks) (value : Bool) :
    Change s (s.setBlockBit b value) [] (update s.blockBit b value) := by
  have hdiv := hw.layout.blockBit_div_lt hb
  have h1 := hw.layout.inodeBitmapStart
  have h2 := hw.layout.blockBitmap_lt
  have h3 := hw.layout.blockBitmapStart
  have hlen : s.layout.blockBitmapStart + b / s.layout.bitsPerBlock < s.disk.length := by
    rw [hw.length_disk, hw.blockCount_eq]
    generalize b / s.layout.bitsPerBlock = q at hdiv ⊢
    omega
  have hbits : ∀ c, (s.setBlockBit b value).blockBit c = update s.blockBit b value c :=
    fun c => by
      rw [update_apply]
      exact bitAt_setBitAt c hlen
  refine ⟨rfl, length_disk_setBitAt, fun c _ => hbits c, fun c hc _ => ?_, fun x hx _ => ?_⟩
  · rw [hbits, update_of_ne (by omega)]
  · refine block_setBitAt_of_ne ?_
    generalize b / s.layout.bitsPerBlock = q at hdiv ⊢
    omega

/-- Writing a block outside the block bitmap. -/
theorem setBlock (hw : s.Wf) {x data : ℕ} (hx : s.layout.inodeBitmapStart ≤ x) :
    Change s (s.setBlock x data) [x] s.blockBit := by
  have hbits : ∀ b < s.layout.blockBitmapBlocks * s.layout.bitsPerBlock,
      (s.setBlock x data).blockBit b = s.blockBit b := by
    intro b hb
    have hdiv := (Nat.div_lt_iff_lt_mul hw.layout.bitsPerBlock_pos).mpr hb
    have h1 := hw.layout.inodeBitmapStart
    rw [Fs.blockBit, Fs.blockBit, bitAt, bitAt, layout_setBlock, block_setBlock_of_ne]
    generalize b / s.layout.bitsPerBlock = q at hdiv ⊢
    omega
  exact ⟨rfl, length_disk_setBlock _ _ _, fun b hb => hbits b (hb.trans_le hw.layout.blockBits),
    fun b _ hb => hbits b hb, fun y _ hy => block_setBlock_of_ne (by simpa using hy)⟩

end Change

/-- `s'` is `s` with the bits of the blocks `new` set, all of them clear before. -/
structure Alloc (s s' : Fs) (new : List ℕ) : Prop where
  change : Change s s' [] fun b => s.blockBit b || decide (b ∈ new)
  nodup : new.Nodup
  lt : ∀ b ∈ new, b < s.layout.totalBlocks
  clear : ∀ b ∈ new, s.blockBit b = false

theorem Alloc.refl (s : Fs) : Alloc s s [] where
  change := (Change.refl s).mono (by simp) (by simp)
  nodup := nodup_nil
  lt := by simp
  clear := by simp

/-- Blocks whose bits are set are not among the new ones. -/
theorem Alloc.not_mem {s s' : Fs} {new : List ℕ} (h : Alloc s s' new) {b : ℕ}
    (hb : s.blockBit b = true) : b ∉ new := fun hmem => by
  rw [h.clear b hmem] at hb
  cases hb

end Fs

section Eval

variable {env : Env} {s s' : Fs}

theorem setBlockAllocated_eval (hr : env.Reliable) (hw : s.Wf) {b : ℕ}
    (hb : b < s.layout.totalBlocks) (value : Bool) :
    (setBlockAllocated env b value).eval s = (.ok (), s.setBlockBit b value) := by
  rw [setBlockAllocated, Comp.eval_get_bind,
    setBitInBitmapRange_eval hr hb (hw.layout.blockBit_div_lt hb)
      (hw.blockCount_eq.ge.trans' hw.layout.blockBitmap_lt.le)]
  rfl

/-- `find_free_block`, whichever device operations fail. -/
theorem findFreeBlock_searched (env : Env) (hw : s.Wf) :
    s.Searched env s.layout.blockBitmapStart s.layout.totalBlocks 0 s.layout.blockBitmapBlocks
      ((findFreeBlock env true).eval s) := by
  have hlt := hw.layout.blockBitmap_lt
  rw [findFreeBlock, Comp.eval_get_bind]
  exact findFreeFromBitmapRange_searched hw.layout.bitsPerBlock_pos
    hw.layout.blockBitmapBlocks_pos (by omega) (by rw [hw.blockCount_eq]; omega)
    hw.layout.blockBits_le

/-- **One more block**: either a clear bit is found and set, or none is left and nothing
changes. -/
theorem Fs.Alloc.findFreeBlock_eval {new : List ℕ} (h : Fs.Alloc s s' new)
    (hr : env.Reliable) (hw : s.Wf) :
    (∃ b s'', (findFreeBlock env true).eval s' = (.ok b, s'') ∧ Fs.Alloc s s'' (b :: new)) ∨
      (findFreeBlock env true).eval s' = (.error .noFreeBlocks, s') := by
  have hw' : s'.Wf := h.change.wf hw
  rcases (findFreeBlock_searched env hw').reliable hr hw'.layout.blockBits with
    ⟨b, hok, hlt, -, hclear, -⟩ | ⟨herr, -⟩
  · refine .inl ⟨b, s'.setBlockBit b true, hok, ?_⟩
    have hlt' : b < s.layout.totalBlocks := by rwa [← h.change.layout]
    have hbit : (s.blockBit b || decide (b ∈ new)) = false := by
      rw [← h.change.blockBit b hlt']
      exact hclear
    rw [Bool.or_eq_false_iff, decide_eq_false_iff_not] at hbit
    refine ⟨(h.change.trans (Fs.Change.setBlockBit hw' hlt true)).mono (by simp) ?_,
      nodup_cons.mpr ⟨hbit.2, h.nodup⟩, forall_mem_cons.mpr ⟨hlt', h.lt⟩,
      forall_mem_cons.mpr ⟨hbit.1, h.clear⟩⟩
    intro c hc
    rw [update_apply]
    split_ifs with hcb
    · simp [hcb]
    · rw [h.change.blockBit c hc]
      simp [hcb]
  · exact .inr herr

end Eval

end OsPi
