import Mathlib.Data.List.Basic
import OsPi.Errors
import OsPi.Lib.Bytes

/-!
# The Region of the File System on a Partitioned Disk

`configure_gpt_fs_region` reads the header and the entries of a GUID partition table and puts the
file system behind the partition of the highest rank, the first of them on the disk. Header and
entries are whatever the disk holds. The block buffer lies on the stack and is filled as far as a
block reaches, and a read past its end is an error `fault` of the model; addresses and lengths
are the 64-bit words of the source.
-/

namespace OsPi

/-! ### The scan -/

/-- A block device whose reads succeed. -/
structure BlockDevice where
  blocks : UInt64
  blockSize : UInt32
  read : ℕ → ℕ

/-- `FS_MOUNT_BLOCK_BUFFER_SIZE`. -/
def fsMountBlockBufferSize : ℕ := 4096

/-- `block_read` of one block into the buffer. -/
def BlockDevice.load (dev : BlockDevice) (buffer block : ℕ) : ℕ :=
  Bytes.write buffer 0 dev.blockSize.toNat (dev.read block)

/-- Bytes of the buffer, as a little-endian number. -/
def fromBuffer (buffer off len : ℕ) : Except Err ℕ :=
  if fsMountBlockBufferSize < off + len then .error .fault else .ok (Bytes.read buffer off len)

/-- The number some bytes spell. -/
def leBytes (bytes : List ℕ) : ℕ := bytes.foldr (fun b n => b + 256 * n) 0

/-- The bytes of `EFI PART`. -/
def gptSignature : ℕ := leBytes [0x45, 0x46, 0x49, 0x20, 0x50, 0x41, 0x52, 0x54]

def efiSystemGuid : ℕ :=
  leBytes [0x28, 0x73, 0x2A, 0xC1, 0x1F, 0xF8, 0xD2, 0x11, 0xBA, 0x4B, 0x00, 0xA0, 0xC9, 0x3E, 0xC9,
    0x3B]

def microsoftBasicGuid : ℕ :=
  leBytes [0xA2, 0xA0, 0xD0, 0xEB, 0xE5, 0xB9, 0x33, 0x44, 0x87, 0xC0, 0x68, 0xB6, 0xB7, 0x26, 0x99,
    0xC7]

/-- `gpt_guid_rank`. -/
def gptGuidRank (guid : ℕ) : ℕ :=
  if guid = efiSystemGuid then 3
  else if guid = microsoftBasicGuid then 2
  else if guid ≠ 0 then 1
  else 0

/-- `fs_set_block_region`; it returns the base block and the number of blocks it sets. -/
def fsSetBlockRegion (baseBlock blockCount : UInt64) : Except Err (UInt64 × UInt64) :=
  if blockCount = 0 then .error .invalidArgs
  else if baseBlock + blockCount < baseBlock then .error .invalidArgs
  else .ok (baseBlock, blockCount)

/-- `set_fs_region_after_partition`. -/
def setFsRegionAfterPartition (partitionStart partitionBlocks deviceBlocks : UInt64) :
    Except Err (UInt64 × UInt64) :=
  let fsBase := partitionStart + partitionBlocks
  if partitionBlocks = 0 ∨ fsBase ≤ partitionStart ∨ deviceBlocks = 0 ∨ deviceBlocks ≤ fsBase then
    .error .invalidArgs
  else fsSetBlockRegion fsBase (deviceBlocks - fsBase)

/-- The variables of the loop: the buffer, the block it holds, and the best entry so far. -/
structure GptScan where
  buffer : ℕ
  loadedBlock : UInt64
  bestRank : ℕ
  bestStart : UInt64
  bestBlocks : UInt64

/-- The loop of `configure_gpt_fs_region` over the given entries. -/
def gptLoop (dev : BlockDevice) (entriesLba : UInt64) (entrySize entriesPerBlock : ℕ) :
    List ℕ → GptScan → Except Err GptScan
  | [], st => .ok st
  | i :: rest, st =>
    let entryBlock := entriesLba + UInt64.ofNat (i / entriesPerBlock)
    if dev.blocks ≤ entryBlock then .ok st
    else do
      let st := if entryBlock = st.loadedBlock then st else
        { st with buffer := dev.load st.buffer entryBlock.toNat, loadedBlock := entryBlock }
      let entry := i % entriesPerBlock * entrySize
      let rank := gptGuidRank (← fromBuffer st.buffer entry 16)
      if rank = 0 then gptLoop dev entriesLba entrySize entriesPerBlock rest st
      else do
        let firstLba := UInt64.ofNat (← fromBuffer st.buffer (entry + 32) 8)
        let lastLba := UInt64.ofNat (← fromBuffer st.buffer (entry + 40) 8)
        if lastLba < firstLba ∨ dev.blocks ≤ lastLba then
          gptLoop dev entriesLba entrySize entriesPerBlock rest st
        else if st.bestRank < rank ∨ rank = st.bestRank ∧ firstLba < st.bestStart then
          gptLoop dev entriesLba entrySize entriesPerBlock rest
            { st with
              bestRank := rank
              bestStart := firstLba
              bestBlocks := lastLba - firstLba + 1 }
        else gptLoop dev entriesLba entrySize entriesPerBlock rest st

/-- `configure_gpt_fs_region`, with what the stack holds where the buffer lies. -/
def configureGptFsRegion (dev : BlockDevice) (stack : ℕ) : Except Err (UInt64 × UInt64) := do
  if dev.blockSize = 0 ∨ fsMountBlockBufferSize < dev.blockSize.toNat then throw .invalidArgs
  let buffer := dev.load stack 1
  if (← fromBuffer buffer 0 8) ≠ gptSignature then throw .invalidArgs
  let entriesLba := UInt64.ofNat (← fromBuffer buffer 72 8)
  let entryCount ← fromBuffer buffer 80 4
  let entrySize ← fromBuffer buffer 84 4
  if entriesLba = 0 ∨ entryCount = 0 ∨ entrySize < 128 ∨ dev.blockSize.toNat < entrySize ∨
      dev.blockSize.toNat % entrySize ≠ 0 then throw .invalidArgs
  let st ← gptLoop dev entriesLba entrySize (dev.blockSize.toNat / entrySize)
    (List.range entryCount) ⟨buffer, UInt64.ofNat (2 ^ 64 - 1), 0, 0, 0⟩
  if st.bestRank = 0 then throw .invalidArgs
  setFsRegionAfterPartition st.bestStart st.bestBlocks dev.blocks

/-! ### The table on the disk -/

/-- The fields of the header that say where the entries are. -/
structure GptHeader where
  entriesLba : ℕ
  entryCount : ℕ
  entrySize : ℕ

namespace BlockDevice

/-- The header in the second block of the disk. -/
def gptHeader (dev : BlockDevice) : GptHeader :=
  ⟨Bytes.read (dev.read 1) 72 8, Bytes.read (dev.read 1) 80 4, Bytes.read (dev.read 1) 84 4⟩

variable (dev : BlockDevice) (i : ℕ)

def entriesPerBlock : ℕ := dev.blockSize.toNat / dev.gptHeader.entrySize

/-- The block of the table that holds an entry. -/
def entryBlock : ℕ := dev.gptHeader.entriesLba + i / dev.entriesPerBlock

/-- A field of an entry. -/
def entryField (off len : ℕ) : ℕ :=
  Bytes.read (dev.read (dev.entryBlock i))
    (i % dev.entriesPerBlock * dev.gptHeader.entrySize + off) len

def entryRank : ℕ := gptGuidRank (dev.entryField i 0 16)

def entryFirst : ℕ := dev.entryField i 32 8

def entryLast : ℕ := dev.entryField i 40 8

/-- The entries among which the partition is chosen: in the table, in a block on the device, in
use, and with a range of blocks on the device. -/
structure Considered : Prop where
  lt : i < dev.gptHeader.entryCount
  block_lt : dev.entryBlock i < dev.blocks.toNat
  used : dev.entryRank i ≠ 0
  order : dev.entryFirst i ≤ dev.entryLast i
  last_lt : dev.entryLast i < dev.blocks.toNat

/-- Entry `i` is preferred to entry `j`: it has the higher rank, or the same and starts no
later. -/
def Preferred (j : ℕ) : Prop :=
  dev.entryRank j < dev.entryRank i ∨
    dev.entryRank j = dev.entryRank i ∧ dev.entryFirst i ≤ dev.entryFirst j

/-- A header that is accepted. -/
structure HeaderOk : Prop where
  size_le : dev.blockSize.toNat ≤ fsMountBlockBufferSize
  signature : Bytes.read (dev.read 1) 0 8 = gptSignature
  lba_ne : dev.gptHeader.entriesLba ≠ 0
  count_ne : dev.gptHeader.entryCount ≠ 0
  entry_ge : 128 ≤ dev.gptHeader.entrySize
  entry_le : dev.gptHeader.entrySize ≤ dev.blockSize.toNat
  divides : dev.blockSize.toNat % dev.gptHeader.entrySize = 0

/-- What the scan has found among the first `k` entries. -/
def Best (k : ℕ) (st : GptScan) : Prop :=
  (st.bestRank = 0 ∧ ∀ j < k, ¬dev.Considered j) ∨
  ∃ i < k, dev.Considered i ∧ st.bestRank = dev.entryRank i ∧
    st.bestStart.toNat = dev.entryFirst i ∧
    st.bestBlocks.toNat = dev.entryLast i - dev.entryFirst i + 1 ∧
    ∀ j < k, dev.Considered j → dev.Preferred i j

/-- The buffer holds the block it is said to hold. -/
def Loaded (st : GptScan) : Prop :=
  st.loadedBlock.toNat < dev.blocks.toNat → ∀ off len, off + len ≤ dev.blockSize.toNat →
    Bytes.read st.buffer off len = Bytes.read (dev.read st.loadedBlock.toNat) off len

end BlockDevice

section Scan

variable {dev : BlockDevice} {st : GptScan} {k : ℕ}

theorem BlockDevice.HeaderOk.entry_end (h : dev.HeaderOk) (i : ℕ) :
    0 < dev.entriesPerBlock ∧
      i % dev.entriesPerBlock * dev.gptHeader.entrySize + 48 ≤ dev.blockSize.toNat := by
  have hpos : 0 < dev.entriesPerBlock :=
    Nat.div_pos h.entry_le (by have := h.entry_ge; omega)
  have hlt := Nat.mod_lt i hpos
  have hmul : (i % dev.entriesPerBlock + 1) * dev.gptHeader.entrySize ≤
      dev.entriesPerBlock * dev.gptHeader.entrySize := Nat.mul_le_mul_right _ hlt
  have hdiv : dev.entriesPerBlock * dev.gptHeader.entrySize ≤ dev.blockSize.toNat :=
    Nat.div_mul_le_self _ _
  have hge := h.entry_ge
  rw [Nat.succ_mul] at hmul
  exact ⟨hpos, by omega⟩

namespace BlockDevice.Best

theorem mono (h : dev.Best k st) {m : ℕ} (hkm : k ≤ m)
    (hnone : ∀ j, k ≤ j → ¬dev.Considered j) : dev.Best m st := by
  rcases h with ⟨h0, hno⟩ | ⟨i, hi, hc, h1, h2, h3, hbest⟩
  · refine .inl ⟨h0, fun j _ hj => ?_⟩
    rcases Nat.lt_or_ge j k with hjk | hjk
    · exact hno j hjk hj
    · exact hnone j hjk hj
  · refine .inr ⟨i, hi.trans_le hkm, hc, h1, h2, h3, fun j _ hj => ?_⟩
    rcases Nat.lt_or_ge j k with hjk | hjk
    · exact hbest j hjk hj
    · exact absurd hj (hnone j hjk)

theorem skip (h : dev.Best k st) (hnot : ¬dev.Considered k) : dev.Best (k + 1) st := by
  rcases h with ⟨h0, hno⟩ | ⟨i, hi, hc, h1, h2, h3, hbest⟩
  · refine .inl ⟨h0, Nat.forall_lt_succ_right.mpr ⟨hno, hnot⟩⟩
  · refine .inr ⟨i, Nat.lt_succ_of_lt hi, hc, h1, h2, h3, Nat.forall_lt_succ_right.mpr
      ⟨hbest, fun hk => absurd hk hnot⟩⟩

/-- The entry is better than the ones before. -/
theorem take (h : dev.Best k st) (hc : dev.Considered k) {st' : GptScan}
    (hbetter : st.bestRank < dev.entryRank k ∨
      dev.entryRank k = st.bestRank ∧ dev.entryFirst k < st.bestStart.toNat)
    (hrank : st'.bestRank = dev.entryRank k) (hstart : st'.bestStart.toNat = dev.entryFirst k)
    (hblocks : st'.bestBlocks.toNat = dev.entryLast k - dev.entryFirst k + 1) :
    dev.Best (k + 1) st' := by
  refine .inr ⟨k, Nat.lt_succ_self k, hc, hrank, hstart, hblocks,
    Nat.forall_lt_succ_right.mpr ⟨fun j hj hcj => ?_, fun _ => .inr ⟨rfl, le_rfl⟩⟩⟩
  rcases h with ⟨-, hno⟩ | ⟨i, -, -, h1, h2, -, hbest⟩
  · exact absurd hcj (hno j hj)
  · have hpref := hbest j hj hcj
    rw [h1, h2] at hbetter
    unfold BlockDevice.Preferred at hpref ⊢
    omega

/-- An entry before is at least as good. -/
theorem keep (h : dev.Best k st) (hc : dev.Considered k)
    (hnot : ¬(st.bestRank < dev.entryRank k ∨
      dev.entryRank k = st.bestRank ∧ dev.entryFirst k < st.bestStart.toNat)) :
    dev.Best (k + 1) st := by
  rcases h with ⟨h0, -⟩ | ⟨i, hi, hci, h1, h2, h3, hbest⟩
  · exact absurd (.inl (by rw [h0]; exact Nat.pos_of_ne_zero hc.used)) hnot
  · refine .inr ⟨i, Nat.lt_succ_of_lt hi, hci, h1, h2, h3,
      Nat.forall_lt_succ_right.mpr ⟨hbest, fun _ => ?_⟩⟩
    rw [h1, h2] at hnot
    unfold BlockDevice.Preferred
    omega

end BlockDevice.Best

theorem toNat_entriesLba : (UInt64.ofNat dev.gptHeader.entriesLba).toNat =
    dev.gptHeader.entriesLba :=
  UInt64.toNat_ofNat_of_lt' (Bytes.read_lt _ _ 8)

theorem ofNat_entriesLba_eq_zero :
    UInt64.ofNat dev.gptHeader.entriesLba = 0 ↔ dev.gptHeader.entriesLba = 0 := by
  rw [← UInt64.toNat_inj, toNat_entriesLba]
  rfl

/-- The number of the block of an entry does not wrap around. -/
theorem toNat_entryBlock (hwrap : dev.entryBlock k < 2 ^ 64) :
    (UInt64.ofNat dev.gptHeader.entriesLba + UInt64.ofNat (k / dev.entriesPerBlock)).toNat =
      dev.entryBlock k := by
  unfold BlockDevice.entryBlock at hwrap ⊢
  rw [UInt64.toNat_add, toNat_entriesLba, UInt64.toNat_ofNat_of_lt' (show _ < 2 ^ 64 by omega),
    Nat.mod_eq_of_lt hwrap]

theorem fromBuffer_entry (hh : dev.HeaderOk) (hload : dev.Loaded st)
    (hblock : st.loadedBlock.toNat = dev.entryBlock k) (hlt : dev.entryBlock k < dev.blocks.toNat)
    {off len : ℕ} (hoff : off + len ≤ 48) :
    fromBuffer st.buffer (k % dev.entriesPerBlock * dev.gptHeader.entrySize + off) len =
      .ok (dev.entryField k off len) := by
  have hend := (hh.entry_end k).2
  have hsize := hh.size_le
  rw [fromBuffer, if_neg (by omega), hload (by rwa [hblock]) _ _ (by omega), hblock]
  rfl

/-- The buffer after the block of an entry has been made sure of. -/
theorem loaded_entry (hload : dev.Loaded st) {entryBlock : UInt64}
    (hblock : entryBlock.toNat = dev.entryBlock k) :
    ∃ st₁ : GptScan, (if entryBlock = st.loadedBlock then st else
        { st with buffer := dev.load st.buffer entryBlock.toNat, loadedBlock := entryBlock }) = st₁ ∧
      dev.Loaded st₁ ∧ st₁.loadedBlock.toNat = dev.entryBlock k ∧
      st₁.bestRank = st.bestRank ∧ st₁.bestStart = st.bestStart ∧
      st₁.bestBlocks = st.bestBlocks := by
  refine ⟨_, rfl, ?_⟩
  split_ifs with heq
  · exact ⟨hload, heq ▸ hblock, rfl, rfl, rfl⟩
  · refine ⟨fun _ off len hlen => ?_, hblock, rfl, rfl, rfl⟩
    exact Bytes.read_write_of_le (Nat.zero_le _) (by omega)

/-- **The scan** finds the preferred entry among the ones to consider. -/
theorem gptLoop_best (hh : dev.HeaderOk) (n : ℕ) (hcount : k + n = dev.gptHeader.entryCount)
    (hwrap : dev.entryBlock k < 2 ^ 64) (hbest : dev.Best k st) (hload : dev.Loaded st) :
    ∃ st', gptLoop dev (UInt64.ofNat dev.gptHeader.entriesLba) dev.gptHeader.entrySize
        dev.entriesPerBlock (List.range' k n) st = .ok st' ∧
      dev.Best dev.gptHeader.entryCount st' := by
  induction n generalizing k st with
  | zero => exact ⟨st, rfl, hcount ▸ hbest⟩
  | succ n ih =>
    have hblock := toNat_entryBlock hwrap
    rw [List.range'_succ, gptLoop]
    generalize UInt64.ofNat dev.gptHeader.entriesLba +
      UInt64.ofNat (k / dev.entriesPerBlock) = entryBlock at hblock
    dsimp only
    by_cases hend : dev.blocks ≤ entryBlock
    · rw [if_pos hend]
      refine ⟨st, rfl, hbest.mono (by omega) fun j hj hc => ?_⟩
      have hle := UInt64.le_iff_toNat_le.mp hend
      have hmono := Nat.div_le_div_right (c := dev.entriesPerBlock) hj
      have hlt := hc.block_lt
      unfold BlockDevice.entryBlock at hblock hlt
      omega
    rw [if_neg hend]
    have hlt : dev.entryBlock k < dev.blocks.toNat := by
      rw [← hblock]
      exact Nat.not_le.mp fun h => hend (UInt64.le_iff_toNat_le.mpr h)
    obtain ⟨st₁, hst₁, hload₁, hblock₁, h1, h2, h3⟩ := loaded_entry hload hblock
    rw [hst₁]
    have hbest₁ : dev.Best k st₁ := by
      unfold BlockDevice.Best at hbest ⊢
      rwa [h1, h2, h3]
    have hfield := fun off len => @fromBuffer_entry dev st₁ k hh hload₁ hblock₁ hlt off len
    have hguid := hfield 0 16 (by decide)
    rw [Nat.add_zero] at hguid
    -- what follows the entry, whatever has become of the best one
    have hnext : ∀ st₂ : GptScan, dev.Best (k + 1) st₂ → dev.Loaded st₂ → ∃ st',
        gptLoop dev (UInt64.ofNat dev.gptHeader.entriesLba) dev.gptHeader.entrySize
          dev.entriesPerBlock (List.range' (k + 1) n) st₂ = .ok st' ∧
        dev.Best dev.gptHeader.entryCount st' := by
      intro st₂ hbest₂ hload₂
      refine ih (by omega) ?_ hbest₂ hload₂
      have hdiv : (k + 1) / dev.entriesPerBlock ≤ k / dev.entriesPerBlock + 1 := by
        rw [← Nat.add_div_right k (hh.entry_end k).1]
        exact Nat.div_le_div_right (by have := (hh.entry_end k).1; omega)
      have hdev := dev.blocks.toNat_lt
      unfold BlockDevice.entryBlock at hlt ⊢
      omega
    simp only [hguid, hfield 32 8 (by decide), hfield 40 8 (by decide), bind, Except.bind]
    by_cases hused : gptGuidRank (dev.entryField k 0 16) = 0
    · rw [if_pos hused]
      exact hnext st₁ (hbest₁.skip fun hc => hc.used hused) hload₁
    rw [if_neg hused]
    have hfirst : (UInt64.ofNat (dev.entryField k 32 8)).toNat = dev.entryFirst k :=
      UInt64.toNat_ofNat_of_lt' (Bytes.read_lt _ _ 8)
    have hlast : (UInt64.ofNat (dev.entryField k 40 8)).toNat = dev.entryLast k :=
      UInt64.toNat_ofNat_of_lt' (Bytes.read_lt _ _ 8)
    by_cases hrange : UInt64.ofNat (dev.entryField k 40 8) < UInt64.ofNat (dev.entryField k 32 8) ∨
        dev.blocks ≤ UInt64.ofNat (dev.entryField k 40 8)
    · rw [if_pos hrange]
      refine hnext st₁ (hbest₁.skip fun hc => ?_) hload₁
      rw [UInt64.lt_iff_toNat_lt, UInt64.le_iff_toNat_le, hfirst, hlast] at hrange
      have := hc.order
      have := hc.last_lt
      omega
    rw [if_neg hrange]
    rw [UInt64.lt_iff_toNat_lt, UInt64.le_iff_toNat_le, hfirst, hlast] at hrange
    have hc : dev.Considered k := ⟨by omega, hlt, hused, by omega, by omega⟩
    have hcmp : UInt64.ofNat (dev.entryField k 32 8) < st₁.bestStart ↔
        dev.entryFirst k < st₁.bestStart.toNat := by
      rw [UInt64.lt_iff_toNat_lt, hfirst]
    split_ifs with hbetter
    · rw [hcmp] at hbetter
      refine hnext _ (hbest₁.take hc hbetter rfl hfirst ?_) hload₁
      have hdev := dev.blocks.toNat_lt
      have hone : (1 : UInt64).toNat = 1 := rfl
      change (_ - _ + 1 : UInt64).toNat = _
      rw [UInt64.toNat_add, UInt64.toNat_sub_of_le _ _
        (UInt64.le_iff_toNat_le.mpr (by rw [hfirst, hlast]; exact hc.order)), hfirst, hlast, hone]
      exact Nat.mod_eq_of_lt (by omega)
    · rw [hcmp] at hbetter
      exact hnext st₁ (hbest₁.keep hc hbetter) hload₁

/-- The partition ends on the device, and the file system begins behind it. -/
theorem setFsRegionAfterPartition_best {start blocks device : UInt64} {first last : ℕ}
    (hstart : start.toNat = first) (hblocks : blocks.toNat = last - first + 1)
    (horder : first ≤ last) (hlast : last < device.toNat) :
    setFsRegionAfterPartition start blocks device =
      (if last + 1 < device.toNat then .ok (start + blocks, device - (start + blocks))
        else .error .invalidArgs) ∧ (start + blocks).toNat = last + 1 := by
  have hdev := device.toNat_lt
  have hbase : (start + blocks).toNat = last + 1 := by
    rw [UInt64.toNat_add, hstart, hblocks, Nat.mod_eq_of_lt (by omega)]
    omega
  refine ⟨?_, hbase⟩
  have hzero : (0 : UInt64).toNat = 0 := rfl
  have hargs : (blocks = 0 ∨ start + blocks ≤ start ∨ device = 0 ∨ device ≤ start + blocks) ↔
      device.toNat ≤ last + 1 := by
    rw [← UInt64.toNat_inj, ← UInt64.toNat_inj, UInt64.le_iff_toNat_le, UInt64.le_iff_toNat_le, hbase,
      hstart, hblocks, hzero]
    omega
  rw [setFsRegionAfterPartition]
  by_cases hlt : last + 1 < device.toNat
  · have hcount : (device - (start + blocks)).toNat = device.toNat - (last + 1) := by
      rw [UInt64.toNat_sub_of_le _ _ (UInt64.le_iff_toNat_le.mpr (by omega)), hbase]
    rw [if_neg (by rw [hargs]; omega), if_pos hlt, fsSetBlockRegion,
      if_neg (by rw [← UInt64.toNat_inj, hcount, hzero]; omega), if_neg]
    rw [UInt64.lt_iff_toNat_lt, UInt64.toNat_add, hcount, hbase, Nat.mod_eq_of_lt (by omega)]
    omega
  · rw [if_pos (by rw [hargs]; omega), if_neg hlt]

/-- What a caller may expect of the region that is set: the buffer has not been left; if there is
a region, it is the rest of the device behind the preferred of the entries to consider, and is not
empty; without an entry to consider there is none; and there is one if the header is accepted and
the preferred entry leaves blocks behind it. -/
structure BlockDevice.Selects (dev : BlockDevice) (r : Except Err (UInt64 × UInt64)) : Prop where
  inBuffer : r ≠ .error .fault
  region : ∀ base count, r = .ok (base, count) → ∃ i, dev.Considered i ∧
    (∀ j, dev.Considered j → dev.Preferred i j) ∧ base.toNat = dev.entryLast i + 1 ∧
    base.toNat + count.toNat = dev.blocks.toNat ∧ 0 < count.toNat
  none : (∀ i, ¬dev.Considered i) → ∃ e, r = .error e
  found : dev.HeaderOk → (∃ i, dev.Considered i) →
    (∀ i, dev.Considered i → (∀ j, dev.Considered j → dev.Preferred i j) →
      dev.entryLast i + 1 < dev.blocks.toNat) → ∃ region, r = .ok region

theorem BlockDevice.Selects.invalidArgs (hnot : ¬dev.HeaderOk) :
    dev.Selects (.error .invalidArgs) :=
  ⟨by decide, fun _ _ h => (by cases h), fun _ => ⟨_, rfl⟩, fun h => absurd h hnot⟩

/-- The choice of the best entry once the scan is done. -/
theorem BlockDevice.Best.selects (h : dev.Best dev.gptHeader.entryCount st) :
    dev.Selects (if st.bestRank = 0 then .error .invalidArgs
      else setFsRegionAfterPartition st.bestStart st.bestBlocks dev.blocks) := by
  rcases h with ⟨h0, hno⟩ | ⟨i, hi, hc, h1, h2, h3, hbest⟩
  · rw [if_pos h0]
    exact ⟨by decide, fun _ _ h => (by cases h), fun _ => ⟨_, rfl⟩,
      fun _ ⟨i, hi⟩ _ => absurd hi (hno i hi.lt)⟩
  obtain ⟨hset, hbase⟩ := setFsRegionAfterPartition_best h2 h3 hc.order hc.last_lt
  have hpref : ∀ j, dev.Considered j → dev.Preferred i j := fun j hj => hbest j hj.lt hj
  rw [if_neg (by rw [h1]; exact hc.used), hset]
  split_ifs with hlt
  · refine ⟨fun h => (by cases h), fun base count heq => ?_, fun hno => absurd hc (hno i),
      fun _ _ _ => ⟨_, rfl⟩⟩
    cases heq
    have hcount : (dev.blocks - (st.bestStart + st.bestBlocks)).toNat =
        dev.blocks.toNat - (dev.entryLast i + 1) := by
      rw [UInt64.toNat_sub_of_le _ _ (UInt64.le_iff_toNat_le.mpr (by omega)), hbase]
    exact ⟨i, hc, hpref, hbase, by omega, by omega⟩
  · exact ⟨by decide, fun _ _ h => (by cases h), fun _ => ⟨_, rfl⟩,
      fun _ _ hend => absurd (hend i hc hpref) hlt⟩

end Scan

/-- **The region of the file system**, whatever the header and the entries of the table are. -/
theorem gpt_region_selected (dev : BlockDevice) (stack : ℕ) :
    dev.Selects (configureGptFsRegion dev stack) := by
  have hread : ∀ off len, off + len ≤ 88 → fromBuffer (dev.load stack 1) off len =
      .ok (Bytes.read (dev.load stack 1) off len) := fun off len h =>
    if_neg (by rw [fsMountBlockBufferSize]; omega)
  rw [configureGptFsRegion]
  by_cases hsize : dev.blockSize = 0 ∨ fsMountBlockBufferSize < dev.blockSize.toNat
  · rw [if_pos hsize]
    refine .invalidArgs fun hh => hsize.elim (fun h => ?_) hh.size_le.not_gt
    have hle := hh.entry_ge.trans hh.entry_le
    rw [h] at hle
    exact absurd hle (by decide)
  simp only [if_neg hsize, hread 0 8 (by decide), hread 72 8 (by decide), hread 80 4 (by decide),
    hread 84 4 (by decide), bind, Except.bind]
  -- a header that is accepted lies in the part of the buffer that has been read
  have hheader : ∀ off len, 88 ≤ dev.blockSize.toNat → off + len ≤ 88 →
      Bytes.read (dev.load stack 1) off len = Bytes.read (dev.read 1) off len :=
    fun off len hge h => Bytes.read_write_of_le (Nat.zero_le _) (by omega)
  by_cases hsig : Bytes.read (dev.load stack 1) 0 8 ≠ gptSignature
  · rw [if_pos hsig]
    refine .invalidArgs fun hh => hsig ?_
    have hge := hh.entry_ge.trans hh.entry_le
    rw [hheader 0 8 (by omega) (by decide)]
    exact hh.signature
  rw [if_neg hsig]
  by_cases hbad : UInt64.ofNat (Bytes.read (dev.load stack 1) 72 8) = 0 ∨
      Bytes.read (dev.load stack 1) 80 4 = 0 ∨ Bytes.read (dev.load stack 1) 84 4 < 128 ∨
      dev.blockSize.toNat < Bytes.read (dev.load stack 1) 84 4 ∨
      dev.blockSize.toNat % Bytes.read (dev.load stack 1) 84 4 ≠ 0
  · rw [if_pos hbad]
    refine .invalidArgs fun hh => ?_
    have hge := hh.entry_ge.trans hh.entry_le
    rw [hheader 72 8 (by omega) (by decide), hheader 80 4 (by omega) (by decide),
      hheader 84 4 (by omega) (by decide)] at hbad
    obtain ⟨-, -, hlba, hcount, hmin, hmax, hdiv⟩ := hh
    rcases hbad with h | h | h | h | h
    · exact hlba (ofNat_entriesLba_eq_zero.mp h)
    · exact hcount h
    · exact absurd h (Nat.not_lt.mpr hmin)
    · exact absurd h (Nat.not_lt.mpr hmax)
    · exact h hdiv
  rw [if_neg hbad]
  have hge : 88 ≤ dev.blockSize.toNat := by omega
  simp only [hheader 72 8 hge (by decide), hheader 80 4 hge (by decide),
    hheader 84 4 hge (by decide)] at hbad ⊢
  have hh : dev.HeaderOk := by
    rw [hheader 0 8 hge (by decide), not_not] at hsig
    push Not at hsize hbad
    obtain ⟨hlba, hcount, hmin, hmax, hdiv⟩ := hbad
    exact ⟨hsize.2, hsig, fun h => hlba (ofNat_entriesLba_eq_zero.mpr h), hcount, hmin, hmax, hdiv⟩
  have hstart : dev.entryBlock 0 < 2 ^ 64 := by
    rw [BlockDevice.entryBlock, Nat.zero_div]
    exact Bytes.read_lt _ _ 8
  have hlast : dev.blocks.toNat ≤ (UInt64.ofNat (2 ^ 64 - 1)).toNat := by
    rw [UInt64.toNat_ofNat_of_lt' (by decide)]
    exact Nat.le_sub_one_of_lt dev.blocks.toNat_lt
  have hbegin : dev.Best 0 ⟨dev.load stack 1, UInt64.ofNat (2 ^ 64 - 1), 0, 0, 0⟩ :=
    .inl ⟨rfl, fun j hj => absurd hj (Nat.not_lt_zero j)⟩
  obtain ⟨st, hrun, hbest⟩ := gptLoop_best hh dev.gptHeader.entryCount (Nat.zero_add _) hstart
    hbegin (fun h => absurd h (Nat.not_lt.mpr hlast))
  rw [← List.range_eq_range'] at hrun
  dsimp only [BlockDevice.entriesPerBlock, BlockDevice.gptHeader] at hrun
  rw [hrun]
  exact hbest.selects

end OsPi
