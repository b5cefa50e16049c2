import OsPi.Fs.Store

/-!
# Operations on the Store

On a reliable device, each function that reads or changes an inode or a block of a file is
given its effect on the store. Below this module the blocks, bitmaps and cache nodes are
visible; above it only files and attributes are.
-/

namespace OsPi

open List Option

variable {env : Env} {s s' : Fs} {id i data : ℕ} {c : CacheNode} {n' : Inode}
  {st : Store}

/-! ### Normal inodes -/

theorem setFops_eq_self {n : Inode} {fops : UInt64} : { n with fops } = n ↔ n.fops = fops := by
  constructor
  · intro h
    rw [← h]
  · rintro rfl
    rfl

/-- Directories and regular files have the tables of their types. -/
theorem normal_iff {n : Inode} :
    normalizeDefaultInodeFops n = n ↔
      (n.type = directoryType → n.fops = defaultDirFops) ∧
        (n.type = fileType → n.fops = defaultFops) := by
  have hne : fileType ≠ directoryType := by decide
  unfold normalizeDefaultInodeFops
  split_ifs with hd hf
  · rw [setFops_eq_self]
    simp [hd, hne.symm]
  · rw [setFops_eq_self]
    simp [hf, hne]
  · simp [hd, hf]

theorem normal_of_attrs {n n' : Inode} (hn : normalizeDefaultInodeFops n = n)
    (htype : n'.type = n.type) (hfops : n'.fops = n.fops) :
    normalizeDefaultInodeFops n' = n' := by
  rw [normal_iff] at hn ⊢
  rwa [htype, hfops]

/-! ### Reading -/

theorem cachedInode_eq (hc : s.node? id = some c) :
    (cachedInode id).eval s = (.ok (s.inode id), s) := by
  rw [cachedInode_eval hc, Fs.inode_of_node? hc]

theorem getFileSize_eval (h : s.Sound) (hc : s.node? id = some c) :
    (getFileSize id).eval s = (.ok (s.store.attrs id).size.toNat, s) := by
  rw [getFileSize, Comp.eval_bind_of_ok (cachedInode_eq hc), Fs.store_attrs (h.cache.hasId id c hc)]
  rfl

section Reading

variable (hr : env.Reliable) (h : s.Sound)
include hr h

theorem getIthBlockOfFile_eval (hc : s.node? id = some c)
    (hi : i < 12 + 2 * s.layout.blocksInSinglePtr ∨ (s.store.blocks id).length ≤ i) :
    (getIthBlockOfFile env id i).eval s = (.ok ((s.store.blocks id).getD i 0), s) := by
  have hid := h.cache.hasId id c hc
  rw [getIthBlockOfFile, Comp.eval_bind_of_ok (cachedInode_eq hc)]
  rw [h.length_blocks hid] at hi
  rw [getBlockNumFromInode_eval hr h.wf (h.inodeOk hid) rfl hi, (h.store_blocks hid).1]

end Reading

/-! ### Writing a block -/

/-- **Writing a block of a file** changes that block of that file only. -/
theorem Fs.Sound.setBlock_effect (h : s.Sound) {b : ℕ} (hid : s.layout.HasId id)
    (hb : (s.store.blocks id)[i]? = some b) (data : ℕ) :
    s.Effect (s.store.write id i data) (s.setBlock b data) := by
  have hmem : b ∈ s.volume.dataBlocks (s.volume.inode id) := mem_of_getElem? hb
  have hown := h.owned.ok id hid
  obtain ⟨hlo, hhi, -⟩ := hown.range b (mem_append_left _ hmem)
  have hlen : b < s.disk.length := by
    rw [h.wf.length_disk, h.wf.blockCount_eq]
    exact hhi
  have hch := @Fs.Change.setBlock s h.wf b data (h.wf.inodeBitmapStart_le hlo)
  obtain ⟨hnode, hdisk, hblock, hbit, hibit⟩ := hch.volume h.wf
    (by simpa using (show s.layout.dataStartBlock ≤ b from hlo))
  have hlay : (s.setBlock b data).volume.layout = s.volume.layout := rfl
  have hino : (s.setBlock b data).volume.inode = s.volume.inode := by
    funext id'
    change (if s.layout.HasId id' then _ else _) = if s.layout.HasId id' then _ else _
    split_ifs with h'
    · rw [Fs.inode, hdisk id' h', Fs.inode]
      rfl
    · rfl
  have hbits : (s.setBlock b data).volume.blockBit = s.volume.blockBit := by
    funext x
    rw [hbit]
    rfl
  -- the block is no pointer block
  have hptr : ∀ id', s.layout.HasId id' → ∀ x ∈ s.volume.ptrBlocks (s.volume.inode id'), x ≠ b := by
    rintro id' h' x hx rfl
    by_cases hne : id' = id
    · rw [hne] at hx
      exact (nodup_append.mp hown.nodup).2.2 x hmem x hx rfl
    · exact h.owned.disjoint id' id h' hid hne (mem_append_right _ hx)
        (mem_append_left _ hmem)
  have hother : ∀ x ≠ b, (s.setBlock b data).volume.block x = s.volume.block x := fun x hx =>
    hblock x (by simpa using hx)
  have hsame : ∀ id', (s.setBlock b data).volume.dataBlocks (s.volume.inode id') =
      s.volume.dataBlocks (s.volume.inode id') := by
    intro id'
    by_cases h' : s.layout.HasId id'
    · exact (Volume.blocks_congr hlay fun x hx => hother x (hptr id' h' x hx)).1
    · have hzero : s.volume.inode id' = Inode.zero := if_neg h'
      simp [hzero, Volume.dataBlocks, dataOf, Inode.zero]
  have hself : (s.setBlock b data).volume.block b = data := by
    rw [Fs.volume_block (s := s.setBlock b data) hlo, Fs.block_setBlock_self hlen]
  refine ⟨⟨hch.wf h.wf, ⟨h.cache.nodup, h.cache.hasId, h.cache.refs, h.cache.normal⟩, ?_, ?_⟩,
    ?_, rfl, rfl⟩
  · exact h.owned.of_same hlay hino hbits fun id' h' x hx => hother x (hptr id' h' x hx)
  · intro id' d hd hdirty
    rw [hdisk id' (h.cache.hasId id' d hd)]
    exact h.clean id' d hd hdirty
  · unfold Fs.store Store.write
    rw [Store.mk.injEq, hino]
    refine ⟨rfl, funext hsame, ?_, hibit, ?_⟩
    · funext id'
      rw [hsame id', Function.update_apply]
      split_ifs with hne
      · -- the blocks of the file are distinct, so only this one changes
        rw [hne]
        have hnd := (nodup_append.mp hown.nodup).1
        refine ext_getElem? fun j => ?_
        have hlt : i < (s.volume.dataBlocks (s.volume.inode id)).length :=
          (List.getElem?_eq_some_iff.mp hb).1
        rw [getElem?_map, getElem?_set]
        by_cases hij : i = j
        · rw [if_pos hij, if_pos (by simpa using hlt), ← hij]
          change Option.map _ ((s.store.blocks id)[i]?) = _
          rw [hb, map_some, hself]
        · rw [if_neg hij, getElem?_map]
          cases hj : (s.volume.dataBlocks (s.volume.inode id))[j]? with
          | none => rfl
          | some x =>
            rw [map_some, map_some, hother]
            rintro rfl
            exact hij ((getElem?_inj hlt hnd).mp (hb.trans hj.symm))
      · refine map_congr_left fun x hx => hother x ?_
        rintro rfl
        by_cases h' : s.layout.HasId id'
        · exact h.owned.disjoint id' id h' hid hne (mem_append_left _ hx)
            (mem_append_left _ hmem)
        · have hzero : s.volume.inode id' = Inode.zero := if_neg h'
          rw [hzero] at hx
          cases hx
    · refine hother 0 ?_
      have h1 := h.wf.layout.blockBitmapStart
      have h2 := h.wf.layout.inodeBitmapStart
      have h3 := h.wf.layout.inodeTableStart
      have h4 := h.wf.layout.dataStartBlock
      have hlo' : s.layout.dataStartBlock ≤ b := hlo
      omega

/-! ### Working on a cached inode -/

section Cached

variable (h : s.Sound) (hc : s.node? id = some c)

theorem Fs.Update.node? (hu : s.Update s' id n') (id' : ℕ) : s'.node? id' = s.node? id' := by
  rw [Fs.node?, show s'.icache = s.icache by rw [hu.eq], Fs.node?]

include hc in
theorem markDirty_eq : (markDirty id).eval s = (.ok (), s.setInode id c.inode) := by
  rw [markDirty_eval, Fs.setInode]
  exact congrArg _ (Fs.modifyNode_congr hc rfl)

include hc in
/-- Work on an inode that has been marked as changed. -/
theorem onCachedInode_dirty {α : Type} {m : InodeM α} {r : Except Err α}
    (hm : m.eval (c.inode, s) = (r, (n', s'))) (hu : s.Update s' id n')
    (hd : c.dirty = true) : (onCachedInode id m).eval s = (r, s'.setInode id n') := by
  rw [onCachedInode_eval m hc, hm]
  have hc' : s'.node? id = some c := (hu.node? id).trans hc
  simp only
  rw [Fs.setInode, Fs.modifyNode_congr hc' (g := fun c' => { c' with inode := n', dirty := true })]
  simp only [hd]

include h hc

/-- Marking an inode as changed. -/
theorem setInode_self_effect : s.Effect s.store (s.setInode id c.inode) := by
  have he := (@Fs.Sound.update_attrs s id c c.inode h hc rfl rfl).effect h hc (h.cache.normal id c hc)
  have hid := h.cache.hasId id c hc
  have hino := Fs.inode_of_node? hc
  obtain ⟨h1, h2⟩ := h.store_blocks hid
  rw [hino] at h1 h2
  rw [← h2, ← h1, Store.assign_self, ← hino, ← Fs.store_attrs hid, Store.setAttrs_self, hino] at he
  exact he

omit h in
theorem setInode_self_node : (s.setInode id c.inode).node? id = some { c with dirty := true } := by
  rw [Fs.node?_setInode, if_pos rfl, hc]
  rfl

end Cached

/-- **Work on a cached inode**, with what it makes of the store. -/
structure Fs.Work (s s' : Fs) (id : ℕ) (n' : Inode) (st : Store) : Prop where
  update : s.Update s' id n'
  normal : normalizeDefaultInodeFops n' = n'
  store : s.store.assign id n'.toAttributes (s'.dataBlocks n') ((s'.dataBlocks n').map s'.block) =
    st

/-- Work on the cached inode `id` after which `P` holds of the result and the store. -/
def InodeM.Works {α : Type} (m : InodeM α) (s : Fs) (id : ℕ) (c : CacheNode)
    (P : Except Err α → Store → Prop) : Prop :=
  ∃ r n' s' st, m.eval (c.inode, s) = (r, (n', s')) ∧ s.Work s' id n' st ∧ P r st

theorem Fs.Work.effect (hw : s.Work s' id n' st) (h : s.Sound)
    (hc : s.node? id = some c) : s.Effect st (s'.setInode id n') := by
  have he := hw.update.effect h hc hw.normal
  rwa [hw.store] at he

section Specs

variable (hr : env.Reliable) (h : s.Sound) (hc : s.node? id = some c)
include h hc

/-- The store at a cached inode. -/
theorem store_cached :
    s.store.attrs id = c.inode.toAttributes ∧ s.store.blocks id = s.dataBlocks c.inode ∧
      s.store.file id = (s.dataBlocks c.inode).map s.block := by
  have hid := h.cache.hasId id c hc
  have hino := Fs.inode_of_node? hc
  obtain ⟨h1, h2⟩ := h.store_blocks hid
  rw [hino] at h1 h2
  exact ⟨by rw [Fs.store_attrs hid, hino], h1, h2⟩

/-- Assigning attributes other than the number of blocks. -/
theorem attrs_work (hblk : n'.blk = c.inode.blk) (hcount : n'.iBlocks = c.inode.iBlocks)
    (hn : normalizeDefaultInodeFops n' = n') :
    s.Work s id n' (s.store.setAttrs id n'.toAttributes) := by
  obtain ⟨-, h2, h3⟩ := store_cached h hc
  have hdata : s.dataBlocks n' = s.dataBlocks c.inode := by
    rw [Fs.dataBlocks, hblk, hcount, Fs.dataBlocks]
  refine ⟨h.update_attrs hc hblk hcount, hn, ?_⟩
  rw [hdata, ← h3, ← h2, Store.assign_self]

include hr

/-- **Appending a block**: the file has one block more, or nothing changes. -/
theorem allocate_work :
    (allocateBlockForFileInode env).Works s id c (s.store.Appends id) := by
  have hid := h.cache.hasId id c hc
  have hok := h.cachedOk hc
  obtain ⟨h1, h2, h3⟩ := store_cached h hc
  have hlen := h.length_blocks hid
  rw [Fs.inode_of_node? hc] at hlen
  have hnormal := h.cache.normal id c hc
  rcases allocateBlockForFileInode_spec hr h.wf h.metaBits hok with
    ⟨b, n', s', new, heval, hg, hlt⟩ | ⟨e, s', new, heval, ha, he⟩
  · have hu := hg.update h.wf hc hid h.metaBits hok hlt
    refine ⟨.ok b, n', s', _, heval, ⟨hu, ?_, rfl⟩, .inl ⟨b, s'.block b, rfl, ?_⟩⟩
    · exact normal_of_attrs hnormal (by rw [hg.attrs]) (by rw [hg.attrs])
    · have hdata : (s.dataBlocks c.inode).map s'.block = s.store.file id := by
        rw [h3]
        refine map_congr_left fun x hx => hu.data x ?_
        rwa [Fs.inode_of_node? hc]
      have hcount : c.inode.iBlocks + 1 = UInt32.ofNat (s.store.blocks id ++ [b]).length := by
        rw [length_append, length_singleton, hlen]
        apply UInt32.toNat_inj.mp
        rw [hok.toNat_succ h.wf, UInt32.toNat_ofNat_of_lt']
        have := hok.le
        have := h.wf.layout.maxFileBlocks_lt
        exact show _ < 2 ^ 32 by omega
      rw [Store.append, Store.setBlocks, h1, ← hcount, hg.attrs, hg.data, map_append, hdata, ← h2]
      rfl
  · refine ⟨.error e, c.inode, s', _, heval, ⟨ha.update h.wf hc hid h.metaBits hok, hnormal, rfl⟩,
      .inr ⟨e, rfl, ?_, he.imp_right fun h => h.1⟩⟩
    have hsame := (ha.change.blocks_eq h.wf fun x hx =>
      ⟨(hok.range x (mem_append_right _ hx)).1, not_mem_nil⟩).1
    have hdata : (s.dataBlocks c.inode).map s'.block = s.store.file id := by
      rw [h3]
      exact map_congr_left fun x hx => ha.change.block x
        (.inl (h.wf.inodeBitmapStart_le (hok.range x (mem_append_left _ hx)).1))
        not_mem_nil
    rw [hsame, hdata, ← h2, ← h1, Store.assign_self, Store.setAttrs_self]

/-- **Clearing a file**, all but its first blocks. -/
theorem clear_work {skip : ℕ} (hskip : skip ≤ 12) :
    (clearBlocksOfInode env skip).Works s id c fun r st =>
      r = .ok () ∧ st = s.store.truncate id skip := by
  have hid := h.cache.hasId id c hc
  have hok := h.cachedOk hc
  obtain ⟨h1, h2, h3⟩ := store_cached h hc
  have hlen := h.length_blocks hid
  rw [Fs.inode_of_node? hc] at hlen
  have hmin : (UInt32.ofNat (min skip c.inode.iBlocks.toNat)).toNat =
      min skip c.inode.iBlocks.toNat := by
    have := c.inode.iBlocks.toNat_lt
    exact UInt32.toNat_ofNat_of_lt' (show _ < 2 ^ 32 by omega)
  obtain ⟨s', L, heval, hf, hL⟩ := clearBlocksOfInode_spec hr h.wf hok hskip
  refine ⟨.ok (), _, s', _, heval,
    ⟨hf.update h.wf hc hid h.metaBits hok hL hskip hmin rfl, ?_, rfl⟩, rfl, ?_⟩
  · exact normal_of_attrs (h.cache.normal id c hc) rfl rfl
  · have hblocks : s'.dataBlocks { c.inode with
        iBlocks := UInt32.ofNat (min skip c.inode.iBlocks.toNat), size := 0 } =
        (s.dataBlocks c.inode).take skip := by
      rw [Fs.dataBlocks, dataOf]
      simp only [hmin]
      rw [if_pos (by omega), Fs.take_dataBlocks hskip]
      rfl
    have hdata : ((s.dataBlocks c.inode).take skip).map s'.block =
        (s.store.file id).take skip := by
      rw [h3, ← map_take]
      refine map_congr_left fun x hx => Fs.Change.block hf x
        (.inl (h.wf.inodeBitmapStart_le (hok.range x (mem_append_left _ ?_)).1))
        not_mem_nil
      exact mem_of_mem_take hx
    rw [hblocks, hdata, Store.truncate, h1, h2, ← hlen, h2]

end Specs

/-! ### Working on an open file -/

section Open

variable {α : Type} {m : InodeM α} {r : Except Err α}

/-- Marking the inode of an open file as changed. -/
theorem markDirty_open (h : s.Sound) (hc : s.node? id = some c) :
    ∃ s₁, (markDirty id).eval s = (.ok (), s₁) ∧ s.Effect s.store s₁ ∧
      s₁.node? id = some { c with dirty := true } :=
  ⟨_, markDirty_eq hc, setInode_self_effect h hc, setInode_self_node hc⟩

/-- Work on the inode of an open file that has been marked as changed. -/
theorem onCachedInode_open (h : s.Sound) (hc : s.node? id = some c) (hd : c.dirty = true)
    (hm : m.eval (c.inode, s) = (r, (n', s'))) (hw : s.Work s' id n' st) :
    ∃ s₁, (onCachedInode id m).eval s = (r, s₁) ∧ s.Effect st s₁ ∧
      ∃ c₁, s₁.node? id = some c₁ ∧ c₁.dirty = true := by
  refine ⟨_, onCachedInode_dirty hc hm hw.update hd, hw.effect h hc, ?_⟩
  rw [Fs.node?_setInode, if_pos rfl, hw.update.node?, hc]
  exact ⟨_, rfl, rfl⟩

/-- Marking the inode of an open file as changed, and work on it. -/
theorem work_open {P : Except Err α → Store → Prop} (h : s.Sound) (hc : s.node? id = some c)
    (hm : ∀ s₁ c, s₁.Sound → s₁.store = s.store → s₁.node? id = some c → m.Works s₁ id c P) :
    ∃ r st, FsM.Runs (markDirty id >>= fun _ => onCachedInode id m) s r st ∧ P r st := by
  obtain ⟨s₁, h1, he1, hc1⟩ := markDirty_open h hc
  obtain ⟨r, n', s', st, hm, hw, hP⟩ := hm s₁ _ he1.sound he1.store hc1
  obtain ⟨s₂, h2, he2, -⟩ := onCachedInode_open he1.sound hc1 rfl hm hw
  exact ⟨r, st, ⟨s₂, (Comp.eval_bind_of_ok h1).trans h2, he1.trans he2⟩, hP⟩

end Open

/-! ### Blocks of a file -/

section Ops

variable (hr : env.Reliable) (h : s.Sound)
include hr h

/-- `allocate_new_block_for_file`. -/
theorem allocateNewBlockForFile_runs (hc : s.node? id = some c) :
    ∃ r st, (allocateNewBlockForFile env id).Runs s r st ∧ s.store.Appends id r st := by
  refine work_open h hc fun s₁ c₁ h₁ hst hc₁ => ?_
  rw [← hst]
  exact allocate_work hr h₁ hc₁

/-- `clear_blocks_of_file`. -/
theorem clearBlocksOfFile_runs (hc : s.node? id = some c) :
    (clearBlocksOfFile env id).Runs s (.ok ()) (s.store.truncate id 1) := by
  obtain ⟨r, st, hruns, rfl, rfl⟩ := work_open (P := fun r st => r = .ok () ∧
    st = s.store.truncate id 1) (m := clearBlocksOfInode env 1) h hc fun s₁ c₁ h₁ hst hc₁ => by
      rw [← hst]
      exact clear_work hr h₁ hc₁ (by decide)
  exact hruns

end Ops

/-! ### Attributes -/

section Attributes

variable {g : Attributes → Attributes} (h : s.Sound)

/-- A change of attributes that keeps the blocks, the type and the operations of a file. -/
structure Attributes.Editing (g : Attributes → Attributes) : Prop where
  iBlocks : ∀ a, (g a).iBlocks = a.iBlocks
  type : ∀ a, (g a).type = a.type
  fops : ∀ a, (g a).fops = a.fops

include h in
theorem modifyInode_works (hg : Attributes.Editing g) (hc : s.node? id = some c) :
    (modifyInode fun n => { n with toAttributes := g n.toAttributes }).Works s id c fun r st =>
      r = .ok () ∧ st = s.store.setAttrs id (g (s.store.attrs id)) := by
  obtain ⟨h1, -, -⟩ := store_cached h hc
  refine ⟨.ok (), { c.inode with toAttributes := g c.inode.toAttributes }, s, _, rfl,
    attrs_work h hc rfl (hg.iBlocks _) ?_, rfl, ?_⟩
  · exact normal_of_attrs (h.cache.normal id c hc) (hg.type _) (hg.fops _)
  · rw [h1]

include h in
/-- `update_file_size`. -/
theorem updateFileSize_runs (hc : s.node? id = some c) (k : ℕ) :
    (updateFileSize id k).Runs s (.ok ())
      (s.store.setAttrs id { s.store.attrs id with size := UInt32.ofNat k }) := by
  obtain ⟨r, st, hruns, rfl, rfl⟩ := work_open (P := fun r st => r = .ok () ∧
    st = s.store.setAttrs id { s.store.attrs id with size := UInt32.ofNat k })
    (m := modifyInode fun n => { n with size := UInt32.ofNat k }) h hc fun s₁ c₁ h₁ hst hc₁ => by
      rw [← hst]
      exact modifyInode_works (g := fun a => { a with size := UInt32.ofNat k }) h₁
        ⟨fun _ => rfl, fun _ => rfl, fun _ => rfl⟩ hc₁
  exact hruns

end Attributes

end OsPi
