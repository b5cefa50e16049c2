import OsPi.Fs.FileIo
import OsPi.Fs.StoreOps

/-!
# Files as Sequences of Bytes

The bytes of a file in the store, the block that looking up an index of an open file finds, and
the conversions between `int`, `uint32_t` and `size_t` on the values that a file within the
range of `int` leads to.
-/

namespace OsPi

open List

/-! ### Conversions -/

theorem toInt32_of_lt {x : ℤ} (h0 : 0 ≤ x) (h : x < 2 ^ 31) : toInt32 x = x :=
  Int.bmod_eq_of_le (by omega) (by omega)

/-- `int` differences are those of the numbers they come from. -/
theorem toInt32_sub_toInt32 (x y : ℤ) : toInt32 (toInt32 x - toInt32 y) = toInt32 (x - y) := by
  simp only [toInt32, Int.bmod_sub_bmod, Int.sub_bmod_bmod]

theorem toUint32_of_lt {x : ℕ} (h : x < 2 ^ 32) : toUint32 x = x := by
  rw [toUint32]
  omega

theorem toUint32_toInt32 {x : ℕ} (h : x < 2 ^ 32) : toUint32 (toInt32 x) = x := by
  have hmod : toInt32 x % 2 ^ 32 = (x : ℤ) % 2 ^ 32 := Int.bmod_emod
  rw [toUint32, hmod]
  omega

theorem toSizeT_of_lt {x : ℕ} (h : x < 2 ^ 64) : toSizeT x = x := by
  rw [toSizeT]
  omega

/-! ### Bytes -/

/-- The byte of a file at a position, with blocks of `bs` bytes. -/
def Store.byte (st : Store) (bs id k : ℕ) : ℕ :=
  Bytes.byte ((st.file id).getD (k / bs) 0) (k % bs)

theorem Layout.Wf.bytesPerBlock_bounds {l : Layout} (h : l.Wf) :
    256 ≤ l.bytesPerBlock ∧ l.bytesPerBlock ≤ 4096 := by
  rcases h.bytesPerBlock_cases with h | h | h | h | h <;> omega

/-- A block of a file is on the disk and holds what the store says. -/
theorem Fs.Sound.block_of_file {s : Fs} {id k b : ℕ} (h : s.Sound) (hid : s.layout.HasId id)
    (hb : (s.store.blocks id)[k]? = some b) :
    b < s.blockCount ∧ s.block b = (s.store.file id).getD k 0 := by
  obtain ⟨hblocks, hfile⟩ := h.store_blocks hid
  rw [hblocks] at hb
  have hrange := (h.inodeOk hid).range b (mem_append_left _ (mem_of_getElem? hb))
  refine ⟨h.wf.blockCount_eq.symm ▸ hrange.2.1, ?_⟩
  rw [hfile, getD_eq_getElem?_getD, getElem?_map, hb]
  rfl

/-! ### Looking up blocks of open files -/

section Lookup

variable {env : Env} {s : Fs} {id i : ℕ} {c : CacheNode} (h : s.Sound) (hc : s.node? id = some c)
include hc

theorem getIthBlockOfFile_inode :
    (getIthBlockOfFile env id i).eval s = (getBlockNumFromInode env (s.inode id) i).eval s := by
  rw [getIthBlockOfFile, Comp.eval_bind_of_ok (cachedInode_eq hc)]

include h

theorem getIthBlockOfFile_found {k : ℕ} (hr : env.Reliable) (hi : i < (s.store.blocks id).length)
    (hk : s.layout.lookupIndex i = some k) :
    (getIthBlockOfFile env id i).eval s = (.ok ((s.store.blocks id).getD k 0), s) ∧ k ≤ i := by
  have hid := h.cache.hasId id c hc
  rw [h.length_blocks hid] at hi
  rw [getIthBlockOfFile_inode hc, (h.store_blocks hid).1]
  exact lookup_found h.wf (h.inodeOk hid) hi hr hk

theorem getIthBlockOfFile_wild (hi : i < (s.store.blocks id).length)
    (hk : s.layout.lookupIndex i = none) :
    ∃ x j, ∀ env : Env, env.Reliable →
      (getIthBlockOfFile env id i).eval s = (.ok (env.wild x j % 2 ^ 32), s) := by
  have hid := h.cache.hasId id c hc
  rw [h.length_blocks hid] at hi
  obtain ⟨x, j, hwild⟩ := lookup_wild h.wf (h.inodeOk hid) hi hk
  exact ⟨x, j, fun env hr => (getIthBlockOfFile_inode hc).trans (hwild env hr)⟩

/-- A lookup on a reliable device returns and changes nothing. -/
theorem getIthBlockOfFile_ok (hr : env.Reliable) (i : ℕ) :
    ∃ x, (getIthBlockOfFile env id i).eval s = (.ok x, s) := by
  by_cases hi : (s.store.blocks id).length ≤ i
  · exact ⟨_, getIthBlockOfFile_eval hr h hc (.inr hi)⟩
  · cases hk : s.layout.lookupIndex i with
    | some k => exact ⟨_, (getIthBlockOfFile_found h hc hr (Nat.not_le.mp hi) hk).1⟩
    | none =>
      obtain ⟨x, j, hwild⟩ := getIthBlockOfFile_wild h hc (Nat.not_le.mp hi) hk
      exact ⟨_, hwild env hr⟩

end Lookup

/-! ### Sound states, from their parts -/

/-- The numbers of the inodes of a volume. -/
def Layout.ids (l : Layout) : List ℕ := List.range' 1 (l.numTableBlocks * l.inodesPerBlock)

/-- All blocks of an inode. -/
def Fs.blocksOf (s : Fs) (id : ℕ) : List ℕ :=
  s.dataBlocks (s.inode id) ++ s.ptrBlocks (s.inode id)

/-- What makes a state with the layout `l` sound, as conditions that can be computed. -/
def Fs.Parts (s : Fs) (l : Layout) : Prop :=
  (s.layout = l ∧ s.disk.length = s.blockCount ∧ s.blockCount = s.layout.totalBlocks) ∧
  (s.icache.map CacheNode.id).Nodup ∧
  (∀ c ∈ s.icache, s.layout.HasId c.id ∧ 1 ≤ c.numRefs ∧
    normalizeDefaultInodeFops c.inode = c.inode ∧ (c.dirty = false → s.diskInode c.id = c.inode)) ∧
  (∀ b < s.layout.dataStartBlock, s.blockBit b = true) ∧
  (∀ id ∈ s.layout.ids, (s.inode id).iBlocks.toNat ≤ s.layout.maxFileBlocks) ∧
  (s.layout.ids.flatMap s.blocksOf).Nodup ∧
  ∀ b ∈ s.layout.ids.flatMap s.blocksOf,
    s.layout.dataStartBlock ≤ b ∧ b < s.layout.totalBlocks ∧ s.blockBit b = true

instance (s : Fs) (l : Layout) : Decidable (s.Parts l) := by
  unfold Fs.Parts
  infer_instance

theorem Fs.Parts.sound {s : Fs} {l : Layout} (h : s.Parts l) (hl : l.Wf) : s.Sound := by
  obtain ⟨⟨rfl, hlen, hcount⟩, hnd, hcache, hmeta, hle, hblocks, hrange⟩ := h
  have hw : s.Wf := ⟨hl, hlen, hcount⟩
  have hids : ∀ id, s.layout.HasId id → id ∈ s.layout.ids := by
    intro id hid
    have hlt := hid.2
    rw [hw.layout.inodeCapacity_eq] at hlt
    refine mem_range'_1.mpr ⟨hid.1, ?_⟩
    omega
  have hnode : ∀ id c, s.node? id = some c → c ∈ s.icache ∧ c.id = id := by
    intro id c hc
    have hmem := mem_of_find?_eq_some hc
    have hid := find?_some hc
    exact ⟨hmem, by simpa using hid⟩
  have hok : ∀ id, s.layout.HasId id → s.InodeOk (s.inode id) := by
    intro id hid
    refine ⟨hle id (hids id hid), (nodup_flatMap.mp hblocks).1 id (hids id hid), ?_⟩
    intro b hb
    exact hrange b (mem_flatMap.mpr ⟨id, hids id hid, hb⟩)
  have hvol : ∀ id, s.layout.HasId id →
      s.volume.blocks (s.volume.inode id) = s.blocksOf id := by
    intro id hid
    obtain ⟨h1, h2⟩ := Fs.volume_blocks
      fun x hx => ((hok id hid).range x (mem_append_right _ hx)).1
    rw [Fs.volume_inode hid, Volume.blocks, h1, h2, Fs.blocksOf]
  refine ⟨hw, ⟨hnd, ?_, ?_, ?_⟩, ⟨hw.layout, ?_, ?_, ?_⟩, ?_⟩
  · rintro id c hc
    obtain ⟨hmem, rfl⟩ := hnode id c hc
    exact (hcache c hmem).1
  · rintro id c hc
    exact (hcache c (hnode id c hc).1).2.1
  · rintro id c hc
    exact (hcache c (hnode id c hc).1).2.2.1
  · intro b hb
    have hlt : b < s.layout.totalBlocks := lt_trans hb hw.layout.dataStartBlock_lt
    simp [Fs.volume, hmeta b hb, hlt]
  · intro id hid
    rw [Fs.volume_inode hid]
    exact (hok id hid).volume
  · intro id id' hid hid' hne
    rw [hvol id hid, hvol id' hid']
    have hpair := pairwise_iff_getElem.mp (nodup_flatMap.mp hblocks).2
    obtain ⟨i, hi, rfl⟩ := mem_iff_getElem.mp (hids id hid)
    obtain ⟨j, hj, rfl⟩ := mem_iff_getElem.mp (hids id' hid')
    have hij : i ≠ j := fun h => hne (by subst h; rfl)
    rcases Nat.lt_or_gt_of_ne hij with hlt | hgt
    · exact hpair i j hi hj hlt
    · exact fun x hx hx' => hpair j i hj hi hgt hx' hx
  · rintro id c hc hdirty
    obtain ⟨hmem, rfl⟩ := hnode id c hc
    exact .inl ((hcache c hmem).2.2.2 hdirty)

/-- The layout of the small volume. -/
def smallLayout : Layout := ⟨512, 64, 1, 1, 2, 1, 3, 5, 8⟩

theorem smallLayout_wf : smallLayout.Wf := by
  constructor <;> decide

end OsPi
