import OsPi.Fs.Volume

/-!
# References to Cached Inodes

What a reference to a cached inode is and what assigning to a cached inode does to the state.
`CacheOk` is the invariant of the inode cache.
-/

namespace OsPi

open List

/-! ### Frames and references -/

/-- What a caller sees of a state besides the contents of files and the references to inodes. -/
structure Frame where
  deviceBlockSize : ℕ
  blockCount : ℕ
  layout : Layout
  oft : List (Option OftEntry)
  oftInitialized : Bool
  isMounted : Bool
  rootMounts : List RootMount

/-- The frame of a state. -/
def Fs.frame (s : Fs) : Frame where
  deviceBlockSize := s.deviceBlockSize
  blockCount := s.blockCount
  layout := s.layout
  oft := s.oft
  oftInitialized := s.oftInitialized
  isMounted := s.isMounted
  rootMounts := s.rootMounts

/-- The number of references to an inode. -/
def Fs.refs (s : Fs) (id : ℕ) : ℕ :=
  match s.node? id with
  | some c => c.numRefs
  | none => 0

/-! ### Nodes of the cache -/

section Nodes

variable {cs : List CacheNode} {id id' : ℕ} {f : CacheNode → CacheNode}

theorem map_id_modifyNode (hf : ∀ c, (f c).id = c.id) :
    (modifyNode id f cs).map CacheNode.id = cs.map CacheNode.id := by
  induction cs with
  | nil => rfl
  | cons c cs ih =>
    rw [modifyNode]
    split_ifs
    · rw [map_cons, map_cons, hf]
    · rw [map_cons, map_cons, ih]

theorem find?_modifyNode (hf : ∀ c, (f c).id = c.id) :
    (modifyNode id f cs).find? (fun c => c.id = id') =
      if id' = id then (cs.find? fun c => c.id = id').map f else cs.find? fun c => c.id = id' := by
  induction cs with
  | nil => simp [modifyNode]
  | cons c cs ih =>
    rw [modifyNode]
    by_cases hc : c.id = id
    · by_cases h : id' = id
      · simp [hc, h, hf]
      · simp [hc, hf, h, Ne.symm h]
    · rw [if_neg hc, find?_cons, find?_cons, ih]
      by_cases h : id' = id
      · simp [h, hc]
      · simp [h]

theorem modifyNode_modifyNode (f g : CacheNode → CacheNode) (hf : ∀ c, (f c).id = c.id) :
    modifyNode id g (modifyNode id f cs) = modifyNode id (fun c => g (f c)) cs := by
  induction cs with
  | nil => rfl
  | cons c cs ih =>
    by_cases hc : c.id = id
    · simp [modifyNode, hc, hf]
    · simp [modifyNode, hc, ih]

/-- A change that leaves the node it finds as it is. -/
theorem modifyNode_eq_self {c : CacheNode} (hc : cs.find? (fun c => c.id = id) = some c)
    (hf : f c = c) : modifyNode id f cs = cs := by
  induction cs with
  | nil => rfl
  | cons d cs ih =>
    rw [find?_cons] at hc
    by_cases hd : d.id = id
    · obtain rfl : d = c := by simpa [hd] using hc
      simp [modifyNode, hd, hf]
    · simp only [hd, decide_false] at hc
      simp [modifyNode, hd, ih hc]

theorem unlinkNode_append_singleton {c : CacheNode} (hnone : cs.find? (fun c => c.id = id) = none)
    (hc : c.id = id) : unlinkNode id (cs ++ [c]) = cs := by
  induction cs with
  | nil => simp [unlinkNode, hc]
  | cons d cs ih =>
    rw [find?_cons] at hnone
    by_cases hd : d.id = id
    · simp [hd] at hnone
    · simp only [hd, decide_false] at hnone
      simp [unlinkNode, hd, ih hnone]

theorem map_id_unlinkNode_sublist :
    ((unlinkNode id cs).map CacheNode.id).Sublist (cs.map CacheNode.id) := by
  induction cs with
  | nil => exact List.Sublist.refl _
  | cons c cs ih =>
    rw [unlinkNode]
    split_ifs
    · exact sublist_cons_self _ _
    · exact ih.cons_cons _

theorem find?_unlinkNode (hnd : (cs.map CacheNode.id).Nodup) :
    (unlinkNode id cs).find? (fun c => c.id = id') =
      if id' = id then none else cs.find? fun c => c.id = id' := by
  induction cs with
  | nil => simp [unlinkNode]
  | cons c cs ih =>
    obtain ⟨hc, hnd⟩ := nodup_cons.mp hnd
    rw [unlinkNode]
    by_cases hid : c.id = id
    · rw [if_pos hid, find?_cons]
      by_cases h : id' = id
      · rw [if_pos h, find?_eq_none]
        intro d hd
        simp only [decide_eq_true_eq, h, ← hid]
        exact fun hdc => hc (hdc ▸ List.mem_map_of_mem hd)
      · simp [h, hid, Ne.symm h]
    · rw [if_neg hid, find?_cons, find?_cons, ih hnd]
      by_cases h : id' = id
      · simp [h, hid]
      · simp [h]

end Nodes

/-! ### Taking and dropping references -/

namespace Fs

/-- The invariant of the inode cache: one node for an inode of the table, with at least one
reference. -/
structure CacheOk (s : Fs) : Prop where
  nodup : (s.icache.map CacheNode.id).Nodup
  hasId : ∀ id c, s.node? id = some c → s.layout.HasId id
  refs : ∀ id c, s.node? id = some c → 1 ≤ c.numRefs
  normal : ∀ id c, s.node? id = some c → normalizeDefaultInodeFops c.inode = c.inode

variable {s : Fs} {id id' : ℕ} {f : CacheNode → CacheNode} {c : CacheNode}

theorem node?_modifyNode (hf : ∀ c, (f c).id = c.id) :
    (s.modifyNode id f).node? id' =
      if id' = id then (s.node? id').map f else s.node? id' :=
  find?_modifyNode hf

@[simp] theorem diskInode_modifyNode : (s.modifyNode id f).diskInode id' = s.diskInode id' := by
  simp only [Fs.diskInode, Fs.modifyNode, Fs.block]

/-! ### Working on a cached inode -/

/-- Assign the cached inode and mark it as changed. -/
def setInode (s : Fs) (id : ℕ) (n : Inode) : Fs :=
  s.modifyNode id fun c => { c with inode := n, dirty := true }

theorem node?_setInode {n : Inode} :
    (s.setInode id n).node? id' =
      if id' = id then (s.node? id').map fun c => { c with inode := n, dirty := true }
      else s.node? id' :=
  node?_modifyNode fun _ => rfl

theorem inode_setInode {n : Inode} (hc : s.node? id = some c) :
    (s.setInode id n).inode id' = if id' = id then n else s.inode id' := by
  rw [Fs.inode, node?_setInode, setInode, diskInode_modifyNode]
  by_cases hid : id' = id
  · simp [hid, hc]
  · simp only [hid, if_false, Fs.inode]

theorem CacheOk.setInode (hok : s.CacheOk) {n : Inode}
    (hn : normalizeDefaultInodeFops n = n) : (s.setInode id n).CacheOk := by
  have hnode : ∀ id' d, (s.setInode id n).node? id' = some d →
      s.layout.HasId id' ∧ 1 ≤ d.numRefs ∧ normalizeDefaultInodeFops d.inode = d.inode := by
    intro id' d hd
    rw [node?_setInode] at hd
    split_ifs at hd with hid
    · obtain ⟨c, hc, rfl⟩ := Option.map_eq_some_iff.mp hd
      exact ⟨hok.hasId id' c hc, hok.refs id' c hc, hn⟩
    · exact ⟨hok.hasId id' d hd, hok.refs id' d hd, hok.normal id' d hd⟩
  refine ⟨?_, fun id' d hd => (hnode id' d hd).1, fun id' d hd => (hnode id' d hd).2.1,
    fun id' d hd => (hnode id' d hd).2.2⟩
  rw [Fs.setInode, Fs.modifyNode, map_id_modifyNode (by intro; rfl)]
  exact hok.nodup

end Fs

section Cached

variable {env : Env} {s : Fs} {id : ℕ} {c : CacheNode}

theorem onCachedInode_eval_none {α : Type} (m : InodeM α) (hc : s.node? id = none) :
    (onCachedInode id m).eval s = (.error .fault, s) := by
  unfold onCachedInode Comp.eval
  dsimp only [ExceptT.mk, ExceptT.run, StateT.run]
  rw [hc]

theorem onCachedInode_eval {α : Type} (m : InodeM α) (hc : s.node? id = some c) :
    (onCachedInode id m).eval s =
      ((m.eval (c.inode, s)).1, (m.eval (c.inode, s)).2.2.modifyNode id fun c' =>
        { c' with inode := (m.eval (c.inode, s)).2.1 }) := by
  unfold onCachedInode Comp.eval
  dsimp only [ExceptT.mk, ExceptT.run, StateT.run]
  rw [hc]

@[simp] theorem markDirty_eval :
    (markDirty id).eval s = (.ok (), s.modifyNode id fun c => { c with dirty := true }) := rfl

theorem cachedInode_eval (hc : s.node? id = some c) :
    (cachedInode id).eval s = (.ok c.inode, s) := by
  simp [cachedInode, Comp.eval_bind, hc]

end Cached

end OsPi
