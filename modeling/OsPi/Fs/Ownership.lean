import OsPi.Fs.References

/-!
# Block Ownership

In a volume that is `Owned`, every inode of the table owns its data and pointer blocks: they
lie in the data area, are marked in the block bitmap, and no block is owned twice. The
inodes that are not allocated are included, since an open file keeps its blocks after its
last name is gone.

`Volume.Step` is what every operation on one inode does to a volume: it leaves the other
inodes and their blocks alone, and the blocks the inode ends up with were its own or free.
`Owned.step` is the only place where the blocks of different inodes are compared.
-/

namespace OsPi

open List

namespace Volume

/-- The pointers stored in the blocks. -/
def ptr (v : Volume) (x i : ℕ) : ℕ := ptrAt (v.block x) i

/-- The data blocks of an inode, in file order. -/
def dataBlocks (v : Volume) (n : Inode) : List ℕ :=
  dataOf v.layout.blocksInSinglePtr v.ptr n.blk n.iBlocks.toNat

/-- The single, double and triple pointer blocks of an inode. -/
def ptrBlocks (v : Volume) (n : Inode) : List ℕ :=
  ptrsOf v.layout.blocksInSinglePtr v.ptr n.blk n.iBlocks.toNat

/-- All blocks of an inode. -/
def blocks (v : Volume) (n : Inode) : List ℕ := v.dataBlocks n ++ v.ptrBlocks n

/-- The blocks of an inode: within the data area, distinct, and marked in the bitmap. -/
structure InodeOk (v : Volume) (n : Inode) : Prop where
  le : n.iBlocks.toNat ≤ v.layout.maxFileBlocks
  nodup : (v.blocks n).Nodup
  range : ∀ b ∈ v.blocks n,
    v.layout.dataStartBlock ≤ b ∧ b < v.layout.totalBlocks ∧ v.blockBit b = true

/-- Every inode owns its blocks. -/
structure Owned (v : Volume) : Prop where
  wf : v.layout.Wf
  metaBits : ∀ b < v.layout.dataStartBlock, v.blockBit b = true
  ok : ∀ id, v.layout.HasId id → v.InodeOk (v.inode id)
  disjoint : ∀ id id', v.layout.HasId id → v.layout.HasId id' → id ≠ id' →
    (v.blocks (v.inode id)).Disjoint (v.blocks (v.inode id'))

/-- What an operation on the inode `id` may do. -/
structure Step (v v' : Volume) (id : ℕ) : Prop where
  layout : v'.layout = v.layout
  inode : ∀ id' ≠ id, v'.inode id' = v.inode id'
  block : ∀ x, v.blockBit x = true → x ∉ v.blocks (v.inode id) → v'.block x = v.block x
  bit : ∀ x, v.blockBit x = true → x ∉ v.blocks (v.inode id) → v'.blockBit x = true
  ok : v'.InodeOk (v'.inode id)
  new : ∀ x ∈ v'.blocks (v'.inode id), x ∈ v.blocks (v.inode id) ∨ v.blockBit x = false

variable {v v' : Volume} {n : Inode} {id : ℕ}

/-- The blocks of an inode depend on its pointer blocks only. -/
theorem blocks_congr (hlay : v'.layout = v.layout)
    (h : ∀ x ∈ v.ptrBlocks n, v'.block x = v.block x) :
    v'.dataBlocks n = v.dataBlocks n ∧ v'.ptrBlocks n = v.ptrBlocks n := by
  unfold dataBlocks ptrBlocks
  rw [hlay]
  refine map_congr (fun _ _ => rfl) fun x hx j _ => ?_
  rw [ptr, ptr, h x hx]

/-- **Ownership is kept** by every step on one inode. -/
theorem Owned.step (h : v.Owned) (hid : v.layout.HasId id) (hs : Step v v' id) : v'.Owned := by
  have hown := h.ok id hid
  -- the blocks of the other inodes are marked and not touched
  have hother : ∀ id', v.layout.HasId id' → id' ≠ id →
      v'.inode id' = v.inode id' ∧ v'.dataBlocks (v.inode id') = v.dataBlocks (v.inode id') ∧
        v'.ptrBlocks (v.inode id') = v.ptrBlocks (v.inode id') := by
    intro id' hid' hne
    refine ⟨hs.inode id' hne, blocks_congr hs.layout fun x hx => ?_⟩
    have hmem : x ∈ v.blocks (v.inode id') := mem_append_right _ hx
    exact hs.block x ((h.ok id' hid').range x hmem).2.2
      (h.disjoint id' id hid' hid hne hmem)
  have hblocks : ∀ id', v.layout.HasId id' → id' ≠ id →
      v'.blocks (v'.inode id') = v.blocks (v.inode id') := by
    intro id' hid' hne
    obtain ⟨h1, h2, h3⟩ := hother id' hid' hne
    rw [blocks, h1, h2, h3, blocks]
  -- a block of another inode is not among the blocks the inode ends up with
  have hdisj : ∀ id', v.layout.HasId id' → id' ≠ id →
      (v'.blocks (v'.inode id')).Disjoint (v'.blocks (v'.inode id)) := by
    intro id' hid' hne x hx hx'
    rw [hblocks id' hid' hne] at hx
    rcases hs.new x hx' with hold | hclear
    · exact h.disjoint id' id hid' hid hne hx hold
    · rw [((h.ok id' hid').range x hx).2.2] at hclear
      cases hclear
  refine ⟨hs.layout ▸ h.wf, ?_, ?_, ?_⟩
  · intro b hb
    rw [hs.layout] at hb
    refine hs.bit b (h.metaBits b hb) fun hmem => ?_
    have := (hown.range b hmem).1
    omega
  · intro id' hid'
    rw [hs.layout] at hid'
    by_cases hne : id' = id
    · rw [hne]
      exact hs.ok
    · have hok := h.ok id' hid'
      obtain ⟨hino, -⟩ := hother id' hid' hne
      refine ⟨?_, ?_, ?_⟩
      · rw [hino, hs.layout]
        exact hok.le
      · rw [hblocks id' hid' hne]
        exact hok.nodup
      · rw [hblocks id' hid' hne, hs.layout]
        intro b hb
        obtain ⟨h1, h2, h3⟩ := hok.range b hb
        exact ⟨h1, h2, hs.bit b h3 (h.disjoint id' id hid' hid hne hb)⟩
  · intro id₁ id₂ h₁ h₂ hne
    rw [hs.layout] at h₁ h₂
    by_cases hid₁ : id₁ = id
    · subst hid₁
      exact fun x hx hx' => hdisj id₂ h₂ (Ne.symm hne) hx' hx
    · by_cases hid₂ : id₂ = id
      · rw [hid₂]
        exact hdisj id₁ h₁ hid₁
      · rw [hblocks id₁ h₁ hid₁, hblocks id₂ h₂ hid₂]
        exact h.disjoint id₁ id₂ h₁ h₂ hne

/-- Writing blocks that are no pointer blocks keeps ownership. -/
theorem Owned.of_same (h : v.Owned) (hlay : v'.layout = v.layout) (hino : v'.inode = v.inode)
    (hbit : v'.blockBit = v.blockBit)
    (hblock : ∀ id, v.layout.HasId id → ∀ x ∈ v.ptrBlocks (v.inode id), v'.block x = v.block x) :
    v'.Owned := by
  have hblocks : ∀ id, v.layout.HasId id → v'.blocks (v'.inode id) = v.blocks (v.inode id) := by
    intro id hid
    obtain ⟨h1, h2⟩ := blocks_congr hlay (hblock id hid)
    rw [hino, blocks, h1, h2, blocks]
  refine ⟨hlay ▸ h.wf, ?_, fun id hid => ?_, fun id id' hid hid' hne => ?_⟩
  · rw [hlay, hbit]
    exact h.metaBits
  · rw [hlay] at hid
    have hok := h.ok id hid
    refine ⟨?_, ?_, ?_⟩
    · rw [hino, hlay]
      exact hok.le
    · rw [hblocks id hid]
      exact hok.nodup
    · rw [hblocks id hid, hlay, hbit]
      exact hok.range
  · rw [hlay] at hid hid'
    rw [hblocks id hid, hblocks id' hid']
    exact h.disjoint id id' hid hid' hne

end Volume

/-- Assign an inode. -/
def Volume.setInode (v : Volume) (id : ℕ) (n : Inode) : Volume :=
  { v with inode := Function.update v.inode id n }

theorem Volume.inode_setInode (v : Volume) (id : ℕ) (n : Inode) (id' : ℕ) :
    (v.setInode id n).inode id' = if id' = id then n else v.inode id' :=
  Function.update_apply _ _ _ _

/-! ### States and their volumes -/

namespace Fs

variable {s s' : Fs} {n n' : Inode} {id b : ℕ} {W new : List ℕ} {bits : ℕ → Bool}

theorem volume_block (hb : s.layout.dataStartBlock ≤ b) : s.volume.block b = s.block b :=
  if_pos (.inr hb)

theorem volume_blockBit (hb : b < s.layout.totalBlocks) :
    s.volume.blockBit b = s.blockBit b := by
  simp [Fs.volume, hb]

theorem volume_inode (h : s.layout.HasId id) : s.volume.inode id = s.inode id := if_pos h

/-- An inode has the same blocks in a state and in its volume. -/
theorem volume_blocks (h : ∀ x ∈ s.ptrBlocks n, s.layout.dataStartBlock ≤ x) :
    s.volume.dataBlocks n = s.dataBlocks n ∧ s.volume.ptrBlocks n = s.ptrBlocks n :=
  map_congr (fun _ _ => rfl) fun x hx j _ => by
    rw [Volume.ptr, volume_block (h x hx), Fs.ptr]

theorem volume_blocks' (h : ∀ x ∈ s.volume.ptrBlocks n, s.layout.dataStartBlock ≤ x) :
    s.dataBlocks n = s.volume.dataBlocks n ∧ s.ptrBlocks n = s.volume.ptrBlocks n :=
  map_congr (fun _ _ => rfl) fun x hx j _ => by
    rw [Volume.ptr, volume_block (h x hx), Fs.ptr]

theorem InodeOk.volume (h : s.InodeOk n) : s.volume.InodeOk n := by
  obtain ⟨h1, h2⟩ := volume_blocks fun x hx => (h.range x (mem_append_right _ hx)).1
  have hblocks : s.volume.blocks n = s.dataBlocks n ++ s.ptrBlocks n := by
    rw [Volume.blocks, h1, h2]
  refine ⟨h.le, hblocks ▸ h.nodup, fun b hb => ?_⟩
  rw [hblocks] at hb
  obtain ⟨h1, h2, h3⟩ := h.range b hb
  exact ⟨h1, h2, (volume_blockBit h2).trans h3⟩

theorem InodeOk.of_volume (h : s.volume.InodeOk n) : s.InodeOk n := by
  obtain ⟨h1, h2⟩ := volume_blocks' fun x hx => (h.range x (mem_append_right _ hx)).1
  have hblocks : s.dataBlocks n ++ s.ptrBlocks n = s.volume.blocks n := by
    rw [Volume.blocks, h1, h2]
  refine ⟨h.le, hblocks ▸ h.nodup, fun b hb => ?_⟩
  rw [hblocks] at hb
  obtain ⟨h1, h2, h3⟩ := h.range b hb
  exact ⟨h1, h2, (volume_blockBit h2).symm.trans h3⟩

/-- What a change of the disk in the data area does to the volume. -/
theorem Change.volume (h : Change s s' W bits) (hw : s.Wf)
    (hW : ∀ x ∈ W, s.layout.dataStartBlock ≤ x) :
    (∀ id, s'.node? id = s.node? id) ∧
    (∀ id, s.layout.HasId id → s'.diskInode id = s.diskInode id) ∧
    (∀ x ∉ W, s'.volume.block x = s.volume.block x) ∧
    (∀ x, s'.volume.blockBit x = (decide (x < s.layout.totalBlocks) && bits x)) ∧
    s'.volume.inodeBit = s.volume.inodeBit := by
  have h1 := hw.layout.blockBitmapStart
  have h2 := hw.layout.inodeBitmapStart
  have h3 := hw.layout.inodeTableStart
  have h4 := hw.layout.dataStartBlock
  have hblock : ∀ x, s.layout.inodeBitmapStart ≤ x → x < s.layout.dataStartBlock →
      s'.block x = s.block x := fun x hlo hhi =>
    h.block x (.inl hlo) fun hx => absurd (hW x hx) (by omega)
  refine ⟨fun id => by rw [Fs.node?, h.icache, Fs.node?], fun id hid => ?_, fun x hx => ?_,
    fun x => ?_, ?_⟩
  · obtain ⟨hlo, hhi⟩ := hid.inodeBlock_range hw.layout
    rw [diskInode, h.layout, hblock _ (by omega) hhi, diskInode]
  · unfold Fs.volume
    simp only [h.layout]
    split_ifs with hplain
    · refine h.block x ?_ hx
      unfold Layout.Plain at hplain
      omega
    · rfl
  · unfold Fs.volume
    simp only [h.layout]
    by_cases hx : x < s.layout.totalBlocks
    · rw [h.blockBit x hx]
    · simp [hx]
  · funext id
    unfold Fs.volume
    simp only [h.layout]
    by_cases hid : s.layout.HasId id
    · have hdiv := hw.layout.inodeBit_div_lt hid
      rw [inodeBit, inodeBit, bitAt, bitAt, h.layout, hblock]
      · generalize (id - 1) / s.layout.bitsPerBlock = q at hdiv ⊢
        omega
      · generalize (id - 1) / s.layout.bitsPerBlock = q at hdiv ⊢
        omega
    · simp [hid]

theorem volume_setInode {c : CacheNode} (hc : s.node? id = some c) (hid : s.layout.HasId id) :
    (s.setInode id n).volume = s.volume.setInode id n := by
  unfold Fs.volume Volume.setInode
  congr 1
  funext id'
  rw [Function.update_apply]
  change (if s.layout.HasId id' then (s.setInode id n).inode id' else _) = _
  rw [inode_setInode hc]
  by_cases h : id' = id
  · rw [if_pos h, if_pos h, h, if_pos hid]
  · rw [if_neg h, if_neg h]

/-- **An operation on a cached inode**: the disk changes in the data area and in the block
bitmap, in blocks the inode owns and in free ones, and `n'` is to be assigned. -/
structure Update (s s' : Fs) (id : ℕ) (n' : Inode) : Prop where
  eq : s' = { s with disk := s'.disk }
  wf : s'.Wf
  diskInode : ∀ id', s.layout.HasId id' → s'.diskInode id' = s.diskInode id'
  inodeBit : s'.volume.inodeBit = s.volume.inodeBit
  /-- The contents of the inode stay. -/
  data : ∀ x ∈ s.dataBlocks (s.inode id), s'.block x = s.block x
  step : s.volume.Step (s'.setInode id n').volume id

/-- Changes of blocks of the inode and of free blocks are an operation on it. -/
theorem Change.update {c : CacheNode} (hch : Change s s' W bits) (hw : s.Wf)
    (hc : s.node? id = some c) (hid : s.layout.HasId id) (hmeta : s.MetaBits)
    (hok : s.InodeOk c.inode)
    (hW : ∀ x ∈ W, x ∈ s.ptrBlocks c.inode ∨ s.blockBit x = false)
    (hbits : ∀ x < s.layout.totalBlocks, s.blockBit x = true →
      x ∉ s.dataBlocks c.inode ++ s.ptrBlocks c.inode → bits x = true)
    (hok' : s'.InodeOk n')
    (hnew : ∀ x ∈ s'.dataBlocks n' ++ s'.ptrBlocks n',
      x ∈ s.dataBlocks c.inode ++ s.ptrBlocks c.inode ∨ s.blockBit x = false) :
    s.Update s' id n' := by
  have hblocks : s.volume.blocks (s.volume.inode id) =
      s.dataBlocks c.inode ++ s.ptrBlocks c.inode := by
    obtain ⟨h1, h2⟩ := volume_blocks fun x hx => (hok.range x (mem_append_right _ hx)).1
    rw [volume_inode hid, Fs.inode, hc, Volume.blocks, h1, h2]
  have hWlo : ∀ x ∈ W, s.layout.dataStartBlock ≤ x := by
    intro x hx
    rcases hW x hx with h | h
    · exact (hok.range x (mem_append_right _ h)).1
    · exact hmeta.le_of_clear h
  obtain ⟨hnode, hdisk, hblock, hbit, hibit⟩ := hch.volume hw hWlo
  have hc' : s'.node? id = some c := (hnode id).trans hc
  have hid' : s'.layout.HasId id := hch.layout ▸ hid
  have hblocks' : s'.volume.blocks n' = s'.dataBlocks n' ++ s'.ptrBlocks n' := by
    obtain ⟨h1, h2⟩ := volume_blocks fun x hx => (hok'.range x (mem_append_right _ hx)).1
    rw [Volume.blocks, h1, h2]
  -- a block marked in the volume is marked in the bitmap
  have hmark : ∀ x, s.volume.blockBit x = true →
      x < s.layout.totalBlocks ∧ s.blockBit x = true := by
    intro x hx
    simpa [Fs.volume] using hx
  have hdata : ∀ x ∈ s.dataBlocks (s.inode id), s'.block x = s.block x := by
    intro x hx
    rw [Fs.inode, hc] at hx
    have hrange := hok.range x (mem_append_left _ hx)
    refine hch.block x (.inl (hw.inodeBitmapStart_le hrange.1)) fun hxW => ?_
    rcases hW x hxW with h | h
    · exact (nodup_append.mp hok.nodup).2.2 x hx x h rfl
    · rw [hrange.2.2] at h
      cases h
  refine ⟨hch.eq, hch.wf hw, hdisk, hibit, hdata, ?_⟩
  rw [volume_setInode hc' hid']
  refine ⟨hch.layout, ?_, ?_, ?_, ?_, ?_⟩
  · intro id' hne
    rw [Volume.inode_setInode, if_neg hne]
    unfold Fs.volume
    simp only [hch.layout]
    split_ifs with h
    · rw [Fs.inode, hnode, hdisk id' h, Fs.inode]
    · rfl
  · intro x hx hmem
    refine hblock x fun hxW => ?_
    rw [hblocks, mem_append, not_or] at hmem
    rcases hW x hxW with h | h
    · exact hmem.2 h
    · rw [(hmark x hx).2] at h
      cases h
  · intro x hx hmem
    rw [hblocks] at hmem
    obtain ⟨hlt, hset⟩ := hmark x hx
    refine (hbit x).trans ?_
    rw [hbits x hlt hset hmem]
    simpa using hlt
  · rw [Volume.inode_setInode, if_pos rfl]
    exact ⟨hok'.volume.le, hok'.volume.nodup, hok'.volume.range⟩
  · intro x hx
    rw [Volume.inode_setInode, if_pos rfl] at hx
    rw [hblocks]
    refine (hnew x (hblocks' ▸ hx)).imp_right fun h => ?_
    simp [Fs.volume, h]

/-- A change that leaves the pointer blocks of an inode alone leaves its blocks alone. -/
theorem Change.blocks_eq (h : Change s s' W bits) (hw : s.Wf)
    (hx : ∀ x ∈ s.ptrBlocks n, s.layout.dataStartBlock ≤ x ∧ x ∉ W) :
    s'.dataBlocks n = s.dataBlocks n ∧ s'.ptrBlocks n = s.ptrBlocks n := by
  unfold Fs.dataBlocks Fs.ptrBlocks
  rw [h.layout]
  exact map_congr (fun _ _ => rfl) fun x hmem j _ =>
    congrFun (h.ptr (hw.inodeBitmapStart_le (hx x hmem).1) (hx x hmem).2) j

/-- The first twelve data blocks are direct. -/
theorem take_dataBlocks {skip : ℕ} (hskip : skip ≤ 12) :
    (s.dataBlocks n).take skip = (List.range (min skip n.iBlocks.toNat)).map n.blk := by
  rw [Fs.dataBlocks, dataOf]
  split_ifs with h15
  · rw [← map_take, take_range]
  · rw [take_append_of_le_length (by simpa using hskip), ← map_take, take_range]
    congr 2
    omega

/-! ### The operations on the blocks of an inode -/

/-- The blocks of an inode that has grown. -/
theorem Grown.blocks_perm (hg : s.Grown n b new s' n') :
    (s'.dataBlocks n' ++ s'.ptrBlocks n').Perm
      ((s.dataBlocks n ++ s.ptrBlocks n) ++ (b :: new)) := by
  rw [hg.data]
  refine (List.Perm.append_left _ hg.ptrs).trans ?_
  rw [append_assoc, append_assoc]
  refine List.Perm.append_left _ ?_
  exact (@perm_middle _ _ (s.ptrBlocks n) _).symm

theorem Grown.inodeOk (hg : s.Grown n b new s' n') (hmeta : s.MetaBits) (hok : s.InodeOk n)
    (hlt : n.iBlocks.toNat < s.layout.maxFileBlocks) : s'.InodeOk n' := by
  refine ⟨?_, ?_, ?_⟩
  · rw [hg.iBlocks, hg.change.layout]
    exact hlt
  · refine hg.blocks_perm.nodup_iff.mpr (nodup_append.mpr ⟨hok.nodup, hg.nodup, ?_⟩)
    rintro x hx y hy rfl
    have hset := (hok.range x hx).2.2
    rw [hg.clear x hy] at hset
    cases hset
  · intro x hx
    rw [hg.change.layout]
    rcases mem_append.mp (hg.blocks_perm.mem_iff.mp hx) with h | h
    · obtain ⟨h1, h2, h3⟩ := hok.range x h
      exact ⟨h1, h2, by rw [hg.change.blockBit x h2, h3, Bool.true_or]⟩
    · have h2 := hg.lt x h
      refine ⟨hmeta.le_of_clear (hg.clear x h), h2, ?_⟩
      rw [hg.change.blockBit x h2, decide_eq_true h, Bool.or_true]

/-- Setting bits leaves the blocks of an inode. -/
theorem Alloc.inodeOk (ha : s.Alloc s' new) (hw : s.Wf) (hok : s.InodeOk n) :
    s'.InodeOk n ∧ s'.dataBlocks n = s.dataBlocks n ∧ s'.ptrBlocks n = s.ptrBlocks n := by
  obtain ⟨hdata, hptrs⟩ := ha.change.blocks_eq hw fun x hx =>
    ⟨(hok.range x (mem_append_right _ hx)).1, not_mem_nil⟩
  refine ⟨⟨ha.change.layout ▸ hok.le, by rw [hdata, hptrs]; exact hok.nodup, fun x hx => ?_⟩,
    hdata, hptrs⟩
  rw [hdata, hptrs] at hx
  obtain ⟨h1, h2, h3⟩ := hok.range x hx
  rw [ha.change.layout]
  exact ⟨h1, h2, by rw [ha.change.blockBit x h2, h3, Bool.true_or]⟩

section Steps

variable {c : CacheNode} (hw : s.Wf) (hc : s.node? id = some c) (hid : s.layout.HasId id)
  (hmeta : s.MetaBits) (hok : s.InodeOk c.inode)
include hw hc hid hmeta hok

theorem Grown.update (hg : s.Grown c.inode b new s' n')
    (hlt : c.inode.iBlocks.toNat < s.layout.maxFileBlocks) :
    s.Update s' id n' := by
  refine hg.change.update hw hc hid hmeta hok ?_ ?_ (hg.inodeOk hmeta hok hlt) ?_
  · intro x hx
    rcases mem_append.mp hx with h | h
    · exact .inl h
    · exact .inr (hg.clear x (mem_cons_of_mem _ h))
  · intro x _ hx _
    simp [hx]
  · intro x hx
    rcases mem_append.mp (hg.blocks_perm.mem_iff.mp hx) with h | h
    · exact .inl h
    · exact .inr (hg.clear x h)

theorem Alloc.update (ha : s.Alloc s' new) : s.Update s' id c.inode := by
  obtain ⟨hok', hdata, hptrs⟩ := ha.inodeOk hw hok
  refine ha.change.update hw hc hid hmeta hok (by simp) (fun x _ hx _ => by simp [hx]) hok' ?_
  intro x hx
  rw [hdata, hptrs] at hx
  exact .inl hx

theorem Freed.update {L : List ℕ} {skip : ℕ} (hf : s.Freed s' L)
    (hL : L.Perm ((s.dataBlocks c.inode).drop skip ++ s.ptrBlocks c.inode)) (hskip : skip ≤ 12)
    (hn : n'.iBlocks.toNat = min skip c.inode.iBlocks.toNat)
    (hblk : n'.blk = c.inode.blk) :
    s.Update s' id n' := by
  have hblocks : s'.dataBlocks n' ++ s'.ptrBlocks n' = (s.dataBlocks c.inode).take skip := by
    rw [Fs.dataBlocks, Fs.ptrBlocks, dataOf, ptrsOf, hn, if_pos (by omega), if_pos (by omega),
      append_nil, hblk, take_dataBlocks hskip]
  have hsub : ∀ x ∈ (s.dataBlocks c.inode).take skip,
      x ∈ s.dataBlocks c.inode ++ s.ptrBlocks c.inode := fun x hx =>
    mem_append_left _ (mem_of_mem_take hx)
  have hnot : ∀ x ∈ (s.dataBlocks c.inode).take skip, x ∉ L := by
    intro x hx hxL
    have hnd := hok.nodup
    rw [← take_append_drop skip (s.dataBlocks c.inode), append_assoc] at hnd
    exact (nodup_append.mp hnd).2.2 x hx x (hL.mem_iff.mp hxL) rfl
  refine Change.update hf hw hc hid hmeta hok (by simp) (fun x _ hx hmem => ?_) ?_ ?_
  · have hxL : x ∉ L := fun h => hmem (by
      rcases mem_append.mp (hL.mem_iff.mp h) with h | h
      · exact mem_append_left _ (mem_of_mem_drop h)
      · exact mem_append_right _ h)
    simp [hx, hxL]
  · refine ⟨?_, ?_, fun x hx => ?_⟩
    · rw [Change.layout hf, hn]
      exact le_trans (Nat.min_le_right _ _) hok.le
    · rw [hblocks]
      exact (nodup_append.mp hok.nodup).1.sublist (take_sublist _ _)
    · rw [hblocks] at hx
      obtain ⟨h1, h2, h3⟩ := hok.range x (hsub x hx)
      rw [Change.layout hf]
      exact ⟨h1, h2, by rw [Change.blockBit hf x h2, h3, decide_eq_true (hnot x hx)]; rfl⟩
  · intro x hx
    rw [hblocks] at hx
    exact .inl (hsub x hx)

end Steps

end Fs

end OsPi
