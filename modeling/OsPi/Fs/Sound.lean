import OsPi.Fs.Ownership

/-!
# The Invariant of the File System State

`Fs.Sound` is kept by every operation on inodes: the disk has a layout of `mkfs`, the inode
cache is well formed, every inode owns its blocks, and a cached inode that is not marked as
changed is the one in the inode table. The last condition has an exception: an inode number
that is given out again while an open file still refers to it has a fresh, empty inode in
the table and the old one in the cache.
-/

namespace OsPi

/-- **The invariant of the file system state.** -/
structure Fs.Sound (s : Fs) : Prop where
  wf : s.Wf
  cache : s.CacheOk
  owned : s.volume.Owned
  clean : ∀ id c, s.node? id = some c → c.dirty = false →
    s.diskInode id = c.inode ∨ (s.diskInode id).iBlocks = 0

namespace Fs

variable {s s' : Fs} {id : ℕ} {c : CacheNode} {n' : Inode}

theorem modifyNode_congr {f g : CacheNode → CacheNode} (hc : s.node? id = some c)
    (h : f c = g c) : s.modifyNode id f = s.modifyNode id g := by
  have hlist : ∀ cs : List CacheNode, cs.find? (fun c => c.id = id) = some c →
      OsPi.modifyNode id f cs = OsPi.modifyNode id g cs := by
    intro cs
    induction cs with
    | nil => simp
    | cons d ds ih =>
      intro hd
      by_cases hid : d.id = id
      · simp only [List.find?_cons, hid, decide_true] at hd
        obtain rfl := Option.some.inj hd
        simp only [OsPi.modifyNode, hid, if_true, h]
      · simp only [List.find?_cons, hid, decide_false] at hd
        simp only [OsPi.modifyNode, hid, if_false, ih hd]
  rw [Fs.modifyNode, Fs.modifyNode, hlist s.icache hc]

theorem inode_of_node? (hc : s.node? id = some c) : s.inode id = c.inode := by
  rw [Fs.inode, hc]

namespace Sound

theorem metaBits (h : s.Sound) : s.MetaBits := by
  intro b hb
  have hbit := h.owned.metaBits b hb
  simp only [Fs.volume, Bool.and_eq_true] at hbit
  exact hbit.2

theorem inodeOk (h : s.Sound) (hid : s.layout.HasId id) : s.InodeOk (s.inode id) := by
  have hok := h.owned.ok id hid
  rw [volume_inode hid] at hok
  exact .of_volume hok

theorem cachedOk (h : s.Sound) (hc : s.node? id = some c) : s.InodeOk c.inode := by
  rw [← inode_of_node? hc]
  exact h.inodeOk (h.cache.hasId id c hc)

/-! ### Assigning a cached inode -/

/-- An operation on a cached inode keeps the invariant. -/
theorem setInode (h : s.Sound) (hc : s.node? id = some c) (hu : s.Update s' id n')
    (hn : normalizeDefaultInodeFops n' = n') : (s'.setInode id n').Sound := by
  have hicache : s'.icache = s.icache := by rw [hu.eq]
  have hlay : s'.layout = s.layout := by rw [hu.eq]
  have hnode : ∀ id', s'.node? id' = s.node? id' := fun id' => by
    rw [Fs.node?, hicache, Fs.node?]
  have hcache : s'.CacheOk := by
    refine ⟨by rw [hicache]; exact h.cache.nodup, fun id' d hd => ?_, fun id' d hd => ?_,
      fun id' d hd => ?_⟩ <;> rw [hnode] at hd
    · rw [hlay]
      exact h.cache.hasId id' d hd
    · exact h.cache.refs id' d hd
    · exact h.cache.normal id' d hd
  refine ⟨⟨hu.wf.layout, hu.wf.length_disk, hu.wf.blockCount_eq⟩, hcache.setInode hn,
    h.owned.step (h.cache.hasId id c hc) hu.step, fun id' d hd hdirty => ?_⟩
  rw [node?_setInode] at hd
  split_ifs at hd with hne
  · obtain ⟨d', -, rfl⟩ := Option.map_eq_some_iff.mp hd
    cases hdirty
  · rw [hnode] at hd
    rw [Fs.setInode, diskInode_modifyNode, hu.diskInode id' (h.cache.hasId id' d hd)]
    exact h.clean id' d hd hdirty

end Sound

/-- Assigning the attributes of an inode, but not the number of its blocks, is an operation
on it that leaves the disk alone. -/
theorem Sound.update_attrs (h : s.Sound) (hc : s.node? id = some c)
    (hblk : n'.blk = c.inode.blk) (hcount : n'.iBlocks = c.inode.iBlocks) :
    s.Update s id n' := by
  have hid := h.cache.hasId id c hc
  have hdata : s.dataBlocks n' = s.dataBlocks c.inode := by
    rw [Fs.dataBlocks, hblk, hcount, Fs.dataBlocks]
  have hptrs : s.ptrBlocks n' = s.ptrBlocks c.inode := by
    rw [Fs.ptrBlocks, hblk, hcount, Fs.ptrBlocks]
  have hok := h.cachedOk hc
  refine (Change.refl s).update h.wf hc hid h.metaBits hok (by simp) (fun _ _ hx _ => hx) ?_ ?_
  · refine ⟨by rw [hcount]; exact hok.le, ?_, ?_⟩ <;> rw [hdata, hptrs]
    · exact hok.nodup
    · exact hok.range
  · intro x hx
    rw [hdata, hptrs] at hx
    exact .inl hx

end Fs
end OsPi
