import OsPi.Fs.Alloc
import OsPi.Fs.Mkfs

/-!
# The Layout of a File System

What `mkfs` makes of its arguments, and what `validate_superblock` makes of a superblock it
finds. The layout is computed in 32-bit arithmetic. `mkfs` refuses every sum that wraps, since
a rounding that wraps leaves a bitmap without blocks; `validate_superblock` compares the
regions with each other and with the size of the region, but not the bitmaps with what they
are bitmaps of.
-/

namespace OsPi

open Comp List

variable {env : Env} {s s' : Fs} {l : Layout}

/-- A device nothing has been written to. -/
def Fs.blank (blockSize blocks : ℕ) : Fs where
  deviceBlockSize := blockSize
  blockCount := blocks
  disk := List.replicate blocks 0
  ios := 0
  layout := ⟨0, 0, 0, 0, 0, 0, 0, 0, 0⟩
  icache := []
  oft := []
  oftInitialized := false
  isMounted := false
  rootMounts := []
  strtokNext := none
  dirs := []
  pipes := []

/-! ### Regions -/

/-- A run of blocks: the first one and their number. -/
structure Region where
  start : ℕ
  count : ℕ
  deriving DecidableEq, Repr

instance : Membership ℕ Region where
  mem r b := r.start ≤ b ∧ b < r.start + r.count

namespace Layout

/-- The superblock, the bitmaps and the inode table. -/
def metadata (l : Layout) : List Region :=
  [⟨0, 1⟩, ⟨l.blockBitmapStart, l.blockBitmapBlocks⟩, ⟨l.inodeBitmapStart, l.inodeBitmapBlocks⟩,
    ⟨l.inodeTableStart, l.numTableBlocks⟩]

/-- The metadata and the data area. -/
def regions (l : Layout) : List Region :=
  l.metadata ++ [⟨l.dataStartBlock, l.totalBlocks - l.dataStartBlock⟩]

/-- Every bit of a bitmap of the given number of bits lies in a block of the bitmap, at the
place `set_bit_in_bitmap_range` looks for it. -/
def BitmapCovers (l : Layout) (bitmapBlocks bits : ℕ) : Prop :=
  ∀ bit < bits, bit / l.bitsPerBlock < bitmapBlocks

theorem bitmapCovers_iff (hpos : 0 < l.bitsPerBlock) {bitmapBlocks bits : ℕ} :
    l.BitmapCovers bitmapBlocks bits ↔ bits ≤ bitmapBlocks * l.bitsPerBlock := by
  constructor
  · intro h
    by_contra hlt
    have := h (bitmapBlocks * l.bitsPerBlock) (Nat.lt_of_not_le hlt)
    rw [Nat.mul_div_cancel _ hpos] at this
    exact lt_irrefl _ this
  · intro h bit hbit
    exact Nat.div_lt_of_lt_mul (Nat.mul_comm _ _ ▸ lt_of_lt_of_le hbit h)

end Layout

/-- Regions that follow each other without a gap. -/
def Contiguous (rs : List Region) : Prop := rs.IsChain fun a b => b.start = a.start + a.count

/-- Regions no block of which belongs to two of them, inside the first `total` blocks. -/
def DisjointIn (total : ℕ) (rs : List Region) : Prop :=
  rs.Pairwise (fun a b => ∀ x ∈ a, x ∉ b) ∧ ∀ r ∈ rs, ∀ x ∈ r, x < total

/-- Regions in order, each of which ends inside the region of the file system. -/
theorem disjointIn_of_pairwise {total : ℕ} {rs : List Region}
    (h : rs.Pairwise fun a b => a.start + a.count ≤ b.start)
    (hend : ∀ r ∈ rs, r.start + r.count ≤ total) : DisjointIn total rs := by
  refine ⟨h.imp fun hab x ha hb => ?_, fun r hr x hx => lt_of_lt_of_le hx.2 (hend r hr)⟩
  exact absurd (lt_of_lt_of_le ha.2 (hab.trans hb.1)) (lt_irrefl x)

/-! ### The superblock -/

/-- Fields of the superblock that fit in 32 bits. -/
def Layout.Fits (l : Layout) : Prop :=
  l.bytesPerBlock < 2 ^ 32 ∧ l.totalBlocks < 2 ^ 32 ∧ l.blockBitmapStart < 2 ^ 32 ∧
    l.blockBitmapBlocks < 2 ^ 32 ∧ l.inodeBitmapStart < 2 ^ 32 ∧ l.inodeBitmapBlocks < 2 ^ 32 ∧
    l.inodeTableStart < 2 ^ 32 ∧ l.numTableBlocks < 2 ^ 32 ∧ l.dataStartBlock < 2 ^ 32

/-- The superblock of a layout tells the layout, and its signature and root inode are the ones
`validate_superblock` expects. -/
theorem read_superblock (h : l.Fits) :
    superblockLayout l.superblock = l ∧ Bytes.read l.superblock 0 11 = fsSignature ∧
      Bytes.read l.superblock 48 4 = rootIno := by
  obtain ⟨h1, h2, h3, h4, h5, h6, h7, h8, h9⟩ := h
  have hread : ∀ v < 2 ^ 32, Bytes.read v 0 4 = v := fun v hv => by
    rw [Bytes.read, Nat.mul_zero, Nat.shiftRight_zero]
    exact Nat.mod_eq_of_lt hv
  refine ⟨?_, ?_, ?_⟩
  · simp (disch := decide) only [superblockLayout, Layout.superblock, Bytes.read_cat_tail,
      Bytes.read_cat_head, Nat.reduceSub]
    simp only [hread _ h1, hread _ h2, hread _ h3, hread _ h4, hread _ h5, hread _ h6, hread _ h7,
      hread _ h8, hread _ h9]
  · rw [Layout.superblock, Bytes.read_cat_head (by decide)]
    decide +kernel
  · simp (disch := decide) only [Layout.superblock, Bytes.read_cat_tail, Bytes.read_cat_head,
      Nat.reduceSub]
    decide +kernel

/-- What `validate_superblock` checks of a layout. -/
structure Layout.Checked (l : Layout) : Prop where
  totalBlocks : l.totalBlocks ≠ 0
  blockBitmapStart : l.blockBitmapStart = 1
  blockBitmap : rangeIsValid l.blockBitmapStart l.blockBitmapBlocks l.totalBlocks = true
  inodeBitmap : rangeIsValid l.inodeBitmapStart l.inodeBitmapBlocks l.totalBlocks = true
  inodeTable : rangeIsValid l.inodeTableStart l.numTableBlocks l.totalBlocks = true
  inodeBitmapStart : (l.blockBitmapStart + l.blockBitmapBlocks) % 2 ^ 32 ≤ l.inodeBitmapStart
  inodeTableStart : (l.inodeBitmapStart + l.inodeBitmapBlocks) % 2 ^ 32 ≤ l.inodeTableStart
  dataStartBlock : (l.inodeTableStart + l.numTableBlocks) % 2 ^ 32 ≤ l.dataStartBlock
  dataStartBlock_lt : l.dataStartBlock < l.totalBlocks

/-- **The superblocks `validate_superblock` accepts.** -/
theorem validateSuperblock_iff {data : ℕ} :
    (validateSuperblock data).eval s = (.ok (), s') ↔
      s' = s ∧ Bytes.read data 0 11 = fsSignature ∧ Bytes.read data 48 4 = rootIno ∧
        (superblockLayout data).bytesPerBlock = s.deviceBlockSize ∧
        (superblockLayout data).totalBlocks = s.blockCount ∧ (superblockLayout data).Checked := by
  rw [validateSuperblock, eval_get_bind]
  simp only [eval_bind, eval_ite, eval_throw, eval_pure]
  constructor
  · intro h
    split_ifs at h with h1 h2 h3
    all_goals try cases h
    push Not at h1 h2 h3
    obtain ⟨h21, h22, h23, h24⟩ := h2
    obtain ⟨h31, h32, h33, h34, h35, h36, h37, h38⟩ := h3
    exact ⟨rfl, h1, h24, h21, h23, h22, h31, by simpa using h32, by simpa using h33,
      by simpa using h34, h35, h36, h37, h38⟩
  · rintro ⟨rfl, h1, h2, h3, h4, hc⟩
    rw [if_neg (not_not.mpr h1), if_neg, if_neg]
    · push Not
      exact ⟨hc.blockBitmapStart, by simpa using hc.blockBitmap, by simpa using hc.inodeBitmap,
        by simpa using hc.inodeTable, hc.inodeBitmapStart, hc.inodeTableStart, hc.dataStartBlock,
        hc.dataStartBlock_lt⟩
    · push Not
      exact ⟨h3, hc.totalBlocks, h4, h2⟩

/-- What the checks say without the wrap-around: no sum of a start and a count wraps, since
the ranges end inside the region. -/
theorem Layout.Checked.order (h : l.Checked) (hlt : l.totalBlocks < 2 ^ 32) :
    l.blockBitmapStart = 1 ∧ 0 < l.blockBitmapBlocks ∧ 0 < l.inodeBitmapBlocks ∧
      0 < l.numTableBlocks ∧ l.blockBitmapStart + l.blockBitmapBlocks ≤ l.inodeBitmapStart ∧
      l.inodeBitmapStart + l.inodeBitmapBlocks ≤ l.inodeTableStart ∧
      l.inodeTableStart + l.numTableBlocks ≤ l.dataStartBlock ∧
      l.dataStartBlock < l.totalBlocks := by
  obtain ⟨-, h1, h2, h3, h4, h5, h6, h7, h8⟩ := h
  simp only [rangeIsValid, ne_eq, decide_not, Bool.and_eq_true, Bool.not_eq_true',
    decide_eq_false_iff_not, decide_eq_true_eq] at h2 h3 h4
  rw [Nat.mod_eq_of_lt (by omega)] at h5 h6 h7
  exact ⟨h1, by omega, by omega, by omega, h5, h6, h7, h8⟩

/-- The metadata of a layout that passes the checks is disjoint and inside the region. -/
theorem Layout.Checked.disjointIn (h : l.Checked) (hlt : l.totalBlocks < 2 ^ 32) :
    DisjointIn l.totalBlocks l.metadata := by
  obtain ⟨h1, -, -, -, h5, h6, h7, h8⟩ := h.order hlt
  refine disjointIn_of_pairwise ?_ ?_
  · simp only [Layout.metadata, pairwise_cons, mem_cons, not_mem_nil, or_false,
      forall_eq_or_imp, forall_eq, List.Pairwise.nil, and_true, IsEmpty.forall_iff, implies_true]
    omega
  · simp only [Layout.metadata, mem_cons, not_mem_nil, or_false, forall_eq_or_imp, forall_eq]
    omega

/-- **What an accepted superblock is good for**: the metadata it tells is always disjoint and
inside the region; the bitmaps cover the blocks and the inodes exactly when they are large
enough, which `validate_superblock` does not ask. -/
theorem validateSuperblock_sound_iff {data : ℕ} (hsize : 0 < s.deviceBlockSize)
    (h : (validateSuperblock data).eval s = (.ok (), s)) :
    let l := superblockLayout data
    (DisjointIn s.blockCount l.metadata ∧ l.BitmapCovers l.blockBitmapBlocks l.totalBlocks ∧
        l.BitmapCovers l.inodeBitmapBlocks (l.numTableBlocks * l.inodesPerBlock)) ↔
      l.totalBlocks ≤ l.blockBitmapBlocks * l.bitsPerBlock ∧
        l.numTableBlocks * l.inodesPerBlock ≤ l.inodeBitmapBlocks * l.bitsPerBlock := by
  obtain ⟨-, -, -, hdev, htotal, hc⟩ := validateSuperblock_iff.mp h
  have hlt : (superblockLayout data).totalBlocks < 2 ^ 32 := Bytes.read_lt _ _ _
  have hpos : 0 < (superblockLayout data).bitsPerBlock := by
    rw [Layout.bitsPerBlock, hdev]
    omega
  simp only [Layout.bitmapCovers_iff hpos, ← htotal]
  exact ⟨fun h => h.2, fun h => ⟨hc.disjointIn hlt, h⟩⟩

/-- The superblock of 5000 blocks of 512 bytes whose block bitmap has one block, of 4096
bits. -/
theorem validateSuperblock_short_bitmap :
    (validateSuperblock (Layout.superblock ⟨512, 5000, 1, 1, 2, 1, 3, 10, 13⟩)).eval
        (Fs.blank 512 5000) = (.ok (), Fs.blank 512 5000) ∧
      ¬(superblockLayout (Layout.superblock ⟨512, 5000, 1, 1, 2, 1, 3, 10, 13⟩)).BitmapCovers 1
        5000 := by
  constructor
  · refine validateSuperblock_iff.mpr ⟨rfl, ?_, ?_, ?_, ?_, ?_⟩
    case refine_5 => constructor <;> decide +kernel
    all_goals decide +kernel
  · intro h
    exact absurd (h 4096 (by decide)) (by decide +kernel)

theorem validateSuperblock_sound_iff_full :
    (superblockLayout (Layout.superblock ⟨512, 64, 1, 1, 2, 1, 3, 5, 8⟩)).BitmapCovers 1 64 := by
  have h : (validateSuperblock (Layout.superblock ⟨512, 64, 1, 1, 2, 1, 3, 5, 8⟩)).eval
      (Fs.blank 512 64) = (.ok (), Fs.blank 512 64) := by decide +kernel
  exact ((validateSuperblock_sound_iff (by decide) h).mpr (by decide +kernel)).2.1

/-! ### Making a file system -/

/-- The part of `mkfs` before anything is written. -/
def mkfsChecks (inodeTableBlocks blockSizeConfig : ℤ) : FsM Unit := do
  if inodeTableBlocks ≤ 0 then throw .invalidArgs
  match blockSizeOf blockSizeConfig with
  | none => throw .invalidArgs
  | some newBytesPerBlock => do
    let s ← get
    if newBytesPerBlock ≠ s.deviceBlockSize then throw .invalidArgs
    if s.blockCount = 0 ∨ 2 ^ 32 ≤ s.blockCount then throw .invalidArgs
    let tableBlocks := inodeTableBlocks.toNat
    let inodeCount := tableBlocks * (newBytesPerBlock / inodeSize)
    if inodeCount = 0 ∨ 2 ^ 32 ≤ inodeCount then throw .invalidArgs
    let l := mkfsLayout newBytesPerBlock s.blockCount tableBlocks inodeCount
    if l.totalBlocks ≤ l.dataStartBlock then throw .invalidArgs
    fsSetLayout l

theorem mkfs_eval (bins : List UserBin) (inodeTableBlocks blockSizeConfig : ℤ) :
    (mkfs env bins inodeTableBlocks blockSizeConfig).eval s =
      (mkfsChecks inodeTableBlocks blockSizeConfig >>= fun _ =>
        mkfsInode env >>= fun _ => seedUserBinsForMkfs env bins).eval s := by
  unfold mkfs mkfsChecks
  cases blockSizeOf blockSizeConfig with
  | none =>
    simp only [eval_bind, eval_ite, eval_throw]
    split_ifs <;> rfl
  | some bs =>
    simp only [eval_bind, eval_ite, eval_throw, eval_get]
    split_ifs <;> rfl

theorem blockSizeOf_cases {config : ℤ} {bs : ℕ} (h : blockSizeOf config = some bs) :
    bs ∈ [256, 512, 1024, 2048, 4096] := by
  unfold blockSizeOf at h
  split at h <;> first | (cases h; done) | (obtain rfl := Option.some.inj h; decide)

/-- A number of bits rounded up to blocks of a bitmap in 32 bits. When the sum wraps, no block
is left. -/
theorem roundUp_of_ne_zero {n b : ℕ} (hn : n < 2 ^ 32) (hb : 0 < b) (hb' : b < 2 ^ 32)
    (h : (n + b - 1) % 2 ^ 32 / b ≠ 0) :
    (n + b - 1) % 2 ^ 32 / b = (n + b - 1) / b ∧ n ≤ (n + b - 1) / b * b ∧
      (n + b - 1) / b * b ≤ 2 ^ 32 := by
  have hwrap : n + b - 1 < 2 ^ 32 := by
    by_contra hge
    refine h (Nat.div_eq_of_lt ?_)
    rw [Nat.mod_eq_sub_mod (by omega), Nat.mod_eq_of_lt (by omega)]
    omega
  refine ⟨by rw [Nat.mod_eq_of_lt hwrap], ?_, ((Nat.div_mul_le_self _ _).trans_lt hwrap).le⟩
  have hmod := Nat.div_add_mod (n + b - 1) b
  have hlt := Nat.mod_lt (n + b - 1) hb
  rw [Nat.mul_comm] at hmod
  omega

/-- **A layout that `fs_set_layout` accepts from `mkfs` is well formed.** -/
theorem wf_mkfsLayout {bs total table : ℕ} (hbs : bs ∈ [256, 512, 1024, 2048, 4096])
    (htotal : total < 2 ^ 32) (hcount : table * (bs / inodeSize) < 2 ^ 32)
    (hl : l = mkfsLayout bs total table (table * (bs / inodeSize)))
    (hblock : l.blockBitmapBlocks ≠ 0) (hinode : l.inodeBitmapBlocks ≠ 0)
    (htable : table ≠ 0) (hdata : l.dataStartBlock < total) : l.Wf := by
  have hbs' : bs = 256 ∨ bs = 512 ∨ bs = 1024 ∨ bs = 2048 ∨ bs = 4096 := by simpa using hbs
  have hpos : 0 < bs * 8 ∧ bs * 8 < 2 ^ 32 := by omega
  have hb := roundUp_of_ne_zero htotal hpos.1 hpos.2 (by rw [hl] at hblock; exact hblock)
  have hi := roundUp_of_ne_zero hcount hpos.1 hpos.2 (by rw [hl] at hinode; exact hinode)
  subst hl
  simp only [mkfsLayout] at hdata hblock hinode ⊢
  -- with the block size known the counts are small numbers and no later sum wraps
  have hsmall : (total + bs * 8 - 1) % 2 ^ 32 / (bs * 8) ≤ 2 ^ 21 ∧
      (table * (bs / inodeSize) + bs * 8 - 1) % 2 ^ 32 / (bs * 8) ≤ 2 ^ 21 ∧ table < 2 ^ 31 := by
    rcases hbs' with rfl | rfl | rfl | rfl | rfl <;> simp only [inodeSize] at hcount ⊢ <;> omega
  obtain ⟨hs1, hs2, hs3⟩ := hsmall
  rw [hb.1, hi.1] at hdata
  rw [hb.1] at hs1 hblock
  rw [hi.1] at hs2 hinode
  rw [hb.1, hi.1]
  obtain ⟨-, hb2, hbw⟩ := hb
  obtain ⟨-, hi2, hiw⟩ := hi
  generalize (total + bs * 8 - 1) / (bs * 8) = q at hdata hs1 hb2 hbw ⊢
  generalize (table * (bs / inodeSize) + bs * 8 - 1) / (bs * 8) = q' at hdata hs2 hi2 hiw ⊢
  refine ⟨hbs, rfl, ?_, ?_, ?_, hdata, htotal, hb2, hi2, hbw, hiw, hcount,
    Nat.pos_of_ne_zero htable⟩
  · exact Nat.mod_eq_of_lt (by omega)
  · exact Nat.mod_eq_of_lt (by omega)
  · exact Nat.mod_eq_of_lt (by omega)

/-- **The checks of `mkfs`**: the layout it has set when they pass. -/
theorem mkfsChecks_ok {table config : ℤ} (h : (mkfsChecks table config).eval s = (.ok (), s')) :
    ∃ l, s' = { s with layout := l } ∧ l.Wf ∧ l.bytesPerBlock = s.deviceBlockSize ∧
      l.totalBlocks = s.blockCount ∧ l.numTableBlocks = table.toNat := by
  unfold mkfsChecks at h
  simp only [eval_bind, eval_ite, eval_throw] at h
  split_ifs at h with h0
  · cases h
  · cases hbs : blockSizeOf config with
    | none =>
      rw [hbs] at h
      cases h
    | some bs =>
      rw [hbs] at h
      simp only [fsSetLayout, eval_bind, eval_ite, eval_throw, eval_get, eval_modify] at h
      split_ifs at h with h1 h2 h3 h4 h5
      all_goals try cases h
      push Not at h1 h2 h3 h4 h5
      refine ⟨_, rfl, ?_, h1, rfl, rfl⟩
      exact wf_mkfsLayout (blockSizeOf_cases hbs) h2.2 h3.2 rfl h5.2.2.1 h5.2.2.2.1 h5.2.2.2.2.1 h4

/-! ### Writing the superblock -/

theorem keeps_deviceFails {τ : Type} {f : Fs → τ} (hf : ∀ (s : Fs) n, f { s with ios := n } = f s) :
    Keeps f (deviceFails env) := by
  intro s
  unfold deviceFails
  cases env.fails with
  | none => rfl
  | some fails => exact hf s _

/-- Writing a block keeps what neither the blocks nor the number of operations tell. -/
theorem keeps_writeBlock {τ : Type} {f : Fs → τ} (hf : ∀ (s : Fs) n, f { s with ios := n } = f s)
    (hset : ∀ (s : Fs) b data, f (s.setBlock b data) = f s) (data num : ℕ) :
    Keeps f (writeBlock env data num) := by
  refine .bind .get fun s => .ite (fun _ => .throw_bind) fun _ => .bind (keeps_deviceFails hf)
    fun fails => .ite (fun _ => .throw_bind) fun _ => ?_
  exact .of_modify fun s => hset s num data

theorem length_disk_fillBlocks (s : Fs) (start value count : ℕ) :
    (s.fillBlocks start value count).disk.length = s.disk.length := by
  induction count with
  | zero => rfl
  | succ count ih => rw [Fs.fillBlocks, Fs.setBlock, length_set, ih]

/-- The number of blocks of the disk. -/
def Fs.diskLength (s : Fs) : ℕ := s.disk.length

theorem keepsLength_writeBlock (data num : ℕ) :
    Keeps Fs.diskLength (writeBlock env data num) :=
  keeps_writeBlock (fun _ _ => rfl) (fun _ _ _ => length_set) data num

theorem keepsLength_writeFilledLoop (value : ℕ) :
    ∀ fuel current remaining, Keeps Fs.diskLength
      (writeFilledLoop env value fuel current remaining)
  | 0, _, _ => .pure
  | fuel + 1, current, remaining => by
    refine .ite (fun _ => .pure) fun _ => .bind (keeps_deviceFails fun _ _ => rfl) fun _ =>
      .ite (fun _ => .throw_bind) fun _ => .bind (.of_modify fun s => ?_) fun _ => ?_
    · exact length_disk_fillBlocks s _ _ _
    · exact keepsLength_writeFilledLoop value fuel _ _

theorem keepsLength_writeBlockBitmapLoop (l : Layout) :
    ∀ fuel block, Keeps Fs.diskLength (writeBlockBitmapLoop env l fuel block)
  | 0, _ => .pure
  | fuel + 1, block => by
    refine .ite (fun _ => .pure) fun _ => .ite (fun _ => ?_) fun _ => .ite (fun _ => ?_) fun _ => ?_
    · exact .bind (keepsLength_writeFilledLoop _ _ _ _) fun _ =>
        keepsLength_writeBlockBitmapLoop l fuel _
    · exact .bind (keepsLength_writeFilledLoop _ _ _ _) fun _ =>
        keepsLength_writeBlockBitmapLoop l fuel _
    · exact .bind (keepsLength_writeBlock _ _) fun _ => keepsLength_writeBlockBitmapLoop l fuel _

theorem keepsLength_writeInodeBitmapLoop (l : Layout) :
    ∀ blocks, Keeps Fs.diskLength (writeInodeBitmapLoop env l blocks)
  | [] => .pure
  | _ :: rest => .bind (keepsLength_writeBlock _ _) fun _ => keepsLength_writeInodeBitmapLoop l rest

theorem block_of_writeBlock {data num : ℕ} (hlt : num < s.disk.length)
    (h : (writeBlock env data num).eval s = (.ok (), s')) : s'.block num = data := by
  rw [writeBlock, eval_get_bind, eval_ite] at h
  split_ifs at h with hcount
  · cases h
  · obtain ⟨fails, s₁, h1, h⟩ := eval_bind_eq_ok.mp h
    have hdisk : s₁.disk = s.disk := (@keeps_deviceFails env _ Fs.disk fun _ _ => rfl).of_eval h1
    rw [eval_ite] at h
    split_ifs at h
    · cases h
    · cases h
      exact Fs.block_setBlock_self (by rwa [hdisk])

/-- The superblock is the last block `mkfs_inode` writes. -/
theorem block_zero_mkfsInode (hpos : 0 < s.disk.length)
    (h : (mkfsInode env).eval s = (.ok (), s')) : s'.block 0 = s.layout.superblock := by
  rw [mkfsInode, eval_get_bind] at h
  obtain ⟨_, s₁, h1, h⟩ := eval_bind_eq_ok.mp h
  obtain ⟨_, s₂, h2, h⟩ := eval_bind_eq_ok.mp h
  obtain ⟨_, s₃, h3, h⟩ := eval_bind_eq_ok.mp h
  obtain ⟨_, s₄, h4, h⟩ := eval_bind_eq_ok.mp h
  obtain ⟨_, s₅, h5, h⟩ := eval_bind_eq_ok.mp h
  obtain ⟨_, s₆, h6, h⟩ := eval_bind_eq_ok.mp h
  refine block_of_writeBlock ?_ h
  calc 0 < s.diskLength := hpos
    _ = s₁.diskLength := ((keepsLength_writeBlock _ _).of_eval h1).symm
    _ = s₂.diskLength := ((keepsLength_writeBlockBitmapLoop _ _ _).of_eval h2).symm
    _ = s₃.diskLength := ((keepsLength_writeInodeBitmapLoop _ _).of_eval h3).symm
    _ = s₄.diskLength := ((keepsLength_writeBlock _ _).of_eval h4).symm
    _ = s₅.diskLength := ((keepsLength_writeFilledLoop _ _ _ _).of_eval h5).symm
    _ = s₆.diskLength := ((keepsLength_writeBlock _ _).of_eval h6).symm

/-! ### The layout of a new file system -/

namespace Layout.Wf

theorem contiguous (h : l.Wf) : Contiguous l.regions := by
  simp only [Contiguous, Layout.regions, Layout.metadata, cons_append, nil_append,
    isChain_cons_cons]
  exact ⟨h.blockBitmapStart, h.inodeBitmapStart, h.inodeTableStart, h.dataStartBlock, .singleton _⟩

theorem disjointIn (h : l.Wf) : DisjointIn l.totalBlocks l.regions := by
  obtain ⟨-, h1, h2, h3, h4, h5, -, -, -, -, -⟩ := h
  refine disjointIn_of_pairwise ?_ ?_
  · simp only [Layout.regions, Layout.metadata, cons_append, nil_append,
      pairwise_cons, mem_cons, not_mem_nil, or_false, forall_eq_or_imp, forall_eq,
      List.Pairwise.nil, and_true, IsEmpty.forall_iff, implies_true]
    omega
  · simp only [Layout.regions, Layout.metadata, cons_append, nil_append, mem_cons,
      not_mem_nil, or_false, forall_eq_or_imp, forall_eq]
    omega

theorem fits (h : l.Wf) : l.Fits := by
  have hsize := h.bytesPerBlock_cases
  obtain ⟨-, h1, h2, h3, h4, h5, h6, -, -, -, -⟩ := h
  unfold Layout.Fits
  omega

theorem checked (h : l.Wf) : l.Checked := by
  have hpos := h.blockBitmapBlocks_pos
  have hpos' := h.inodeBitmapBlocks_pos
  obtain ⟨-, h1, h2, h3, h4, h5, h6, -, -, -, h11⟩ := h
  refine ⟨by omega, h1, ?_, ?_, ?_, ?_, ?_, ?_, h5⟩
  all_goals first
    | (rw [Nat.mod_eq_of_lt (by omega)]; omega)
    | (simp only [rangeIsValid, ne_eq, decide_not, Bool.and_eq_true, Bool.not_eq_true',
        decide_eq_false_iff_not, decide_eq_true_eq]; omega)

end Layout.Wf

/-- **What `mkfs` sets up when it passes its checks**: regions that follow each other inside
the region of the device, bitmaps with a bit for every block and every inode, and a superblock
that `validate_superblock` accepts and that stands in block 0 once `mkfs_inode` has succeeded,
whichever device operations fail. -/
theorem mkfs_layout_sound {table config : ℤ}
    (h : (mkfsChecks table config).eval s = (.ok (), s')) :
    Contiguous s'.layout.regions ∧ DisjointIn s.blockCount s'.layout.regions ∧
      s'.layout.BitmapCovers s'.layout.blockBitmapBlocks s.blockCount ∧
      s'.layout.BitmapCovers s'.layout.inodeBitmapBlocks
        (table.toNat * s'.layout.inodesPerBlock) ∧
      (validateSuperblock s'.layout.superblock).eval s' = (.ok (), s') ∧
      ∀ env bins, (mkfs env bins table config).eval s =
          (mkfsInode env >>= fun _ => seedUserBinsForMkfs env bins).eval s' ∧
        ∀ s'', 0 < s.disk.length → (mkfsInode env).eval s' = (.ok (), s'') →
          s''.block 0 = s'.layout.superblock := by
  have hchecks := h
  obtain ⟨l, rfl, hw, hsize, htotal, htable⟩ := mkfsChecks_ok h
  obtain ⟨hlayout, hsig, hroot⟩ := read_superblock hw.fits
  refine ⟨hw.contiguous, ?_, ?_, ?_, ?_, fun env bins => ⟨?_, fun s'' hpos hinode => ?_⟩⟩
  · rw [← htotal]
    exact hw.disjointIn
  · rw [← htotal]
    exact (Layout.bitmapCovers_iff hw.bitsPerBlock_pos).mpr hw.blockBits
  · rw [← htable]
    exact (Layout.bitmapCovers_iff hw.bitsPerBlock_pos).mpr hw.inodeBits
  · refine validateSuperblock_iff.mpr ⟨rfl, hsig, hroot, ?_, ?_, ?_⟩
    · rw [hlayout]
      exact hsize
    · rw [hlayout]
      exact htotal
    · rw [hlayout]
      exact hw.checked
  · rw [mkfs_eval, eval_bind_of_ok hchecks]
  · exact block_zero_mkfsInode (s := { s with layout := l }) hpos hinode

theorem mkfs_layout_sound_blank :
    ((mkfsChecks 5 1).eval (Fs.blank 512 64)).1 = .ok () ∧
      Contiguous ((mkfsChecks 5 1).eval (Fs.blank 512 64)).2.layout.regions := by
  have h : (mkfsChecks 5 1).eval (Fs.blank 512 64) =
      (.ok (), ((mkfsChecks 5 1).eval (Fs.blank 512 64)).2) := by decide +kernel
  exact ⟨congrArg Prod.fst h, (mkfs_layout_sound h).1⟩

end OsPi
