import OsPi.Fs.Names
import OsPi.Fs.References
import OsPi.Lib.Triple

/-!
# References Are Balanced

Every operation of the file system drops the references to cached inodes that it takes, whatever
it returns and whichever device operations fail, and touches neither the open file table nor the
mounts. `Fs.Same` says so of two states. Operations that hand a reference to their caller are
described by `Fs.Held`, and those that drop one by `Fs.Dropped`.

Operations that only read change nothing at all but the tokenizer and the count of device
operations. `Fs.Quiet`, `Fs.Lent` and `Fs.Returned` are the three relations for them; each implies
its counterpart.

After a fatal error there is no kernel left whose references could be counted.
-/

open Std.Do

namespace OsPi

open Function List Option

set_option mvcgen.warning false

/-! ### Counting references -/

namespace Fs

/-- The cache has one node for an inode at most, nodes without references do not stay, and the
inode of a node has a place in the inode table. -/
structure Counted (s : Fs) : Prop where
  disk : s.disk.length = s.blockCount
  nodup : (s.icache.map CacheNode.id).Nodup
  pos : ∀ id c, s.node? id = some c → 1 ≤ c.numRefs
  loaded : ∀ id c, s.node? id = some c → s.layout.inodeBlock id < s.blockCount

/-- The frame is the same, and the counts of references have changed by `f`. -/
structure Shift (f : (ℕ → ℕ) → ℕ → ℕ) (s s' : Fs) : Prop where
  frame : s'.frame = s.frame
  counted : s.Counted → s'.Counted
  refs : s.Counted → s'.refs = f s.refs

/-- The same references are held. -/
def Same (s s' : Fs) : Prop := s.Shift (fun ρ => ρ) s'

/-- One more reference is held. -/
def Held (id : ℕ) (s s' : Fs) : Prop := s.Shift (fun ρ => update ρ id (ρ id + 1)) s'

/-- One reference less is held, if there was one. -/
def Dropped (id : ℕ) (s s' : Fs) : Prop := s.Shift (fun ρ => update ρ id (ρ id - 1)) s'

variable {s s' s'' : Fs} {f g : (ℕ → ℕ) → ℕ → ℕ} {id : ℕ} {c : CacheNode}

theorem Shift.comp (h : s.Shift f s') (h' : s'.Shift g s'') : s.Shift (fun ρ => g (f ρ)) s'' where
  frame := h'.frame.trans h.frame
  counted hc := h'.counted (h.counted hc)
  refs hc := by rw [h'.refs (h.counted hc), h.refs hc]

@[grind .] theorem Same.refl (s : Fs) : s.Same s := ⟨rfl, fun h => h, fun _ => rfl⟩

@[grind →] theorem Same.trans (h : s.Same s') (h' : s'.Same s'') : s.Same s'' := h.comp h'

@[grind →] theorem Same.held (h : s.Same s') (h' : s'.Held id s'') : s.Held id s'' := h.comp h'

@[grind →] theorem Held.same (h : s.Held id s') (h' : s'.Same s'') : s.Held id s'' := h.comp h'

@[grind →] theorem Same.dropped (h : s.Same s') (h' : s'.Dropped id s'') : s.Dropped id s'' :=
  h.comp h'

@[grind →] theorem Dropped.same (h : s.Dropped id s') (h' : s'.Same s'') : s.Dropped id s'' :=
  h.comp h'

@[grind →] theorem Held.dropped (h : s.Held id s') (h' : s'.Dropped id s'') : s.Same s'' := by
  have hc := h.comp h'
  refine ⟨hc.frame, hc.counted, fun hs => ?_⟩
  rw [hc.refs hs, update_self, update_idem, Nat.add_sub_cancel, update_eq_self]

theorem layout_of_frame (h : s'.frame = s.frame) : s'.layout = s.layout := congrArg Frame.layout h

theorem blockCount_of_frame (h : s'.frame = s.frame) : s'.blockCount = s.blockCount :=
  congrArg Frame.blockCount h

theorem refs_of_node? (hc : s.node? id = some c) : s.refs id = c.numRefs := by
  rw [refs, hc]

theorem refs_of_none (hc : s.node? id = none) : s.refs id = 0 := by
  rw [refs, hc]

/-- Nothing that references are counted by has changed. -/
theorem Same.of_icache (hf : s'.frame = s.frame) (hd : s'.disk.length = s.disk.length)
    (hc : s'.icache = s.icache) : s.Same s' := by
  have hnode : ∀ id, s'.node? id = s.node? id := fun id => by rw [node?, node?, hc]
  refine ⟨hf, fun h => ⟨?_, hc ▸ h.nodup, fun id c h' => h.pos id c (hnode id ▸ h'),
    fun id c h' => ?_⟩, fun _ => ?_⟩
  · rw [hd, blockCount_of_frame hf, h.disk]
  · rw [layout_of_frame hf, blockCount_of_frame hf]
    exact h.loaded id c (hnode id ▸ h')
  · funext id
    rw [refs, refs, hnode]

@[grind .] theorem Same.setBlock (h : s.Same s') {num data : ℕ} :
    s.Same (s'.setBlock num data) :=
  h.trans (Same.of_icache rfl (length_set ..) rfl)

/-- A change of nodes that keeps what `k` says about their counts. -/
theorem shift_modifyNode {h : CacheNode → CacheNode} {k : ℕ → ℕ} (hid : ∀ c, (h c).id = c.id)
    (hnum : ∀ c, (h c).numRefs = k c.numRefs)
    (hpos : ∀ c, s.node? id = some c → 1 ≤ c.numRefs → 1 ≤ k c.numRefs)
    (hnone : s.node? id = none → k 0 = 0) :
    s.Shift (fun ρ => update ρ id (k (ρ id))) (s.modifyNode id h) := by
  refine ⟨rfl, fun hs => ⟨hs.disk, ?_, fun id' d hd => ?_, fun id' d hd => ?_⟩, fun hs => ?_⟩
  · rw [modifyNode, map_id_modifyNode hid]
    exact hs.nodup
  · rw [node?_modifyNode hid] at hd
    split_ifs at hd with h'
    · obtain ⟨c, hc, rfl⟩ := map_eq_some_iff.mp hd
      rw [hnum]
      exact hpos c (h' ▸ hc) (hs.pos id' c hc)
    · exact hs.pos id' d hd
  · rw [node?_modifyNode hid] at hd
    split_ifs at hd with h'
    · obtain ⟨c, hc, -⟩ := map_eq_some_iff.mp hd
      exact hs.loaded id' c hc
    · exact hs.loaded id' d hd
  · funext id'
    rw [refs, node?_modifyNode hid, update_apply]
    split_ifs with h'
    · subst h'
      cases hc : s.node? id' with
      | none =>
        rw [refs_of_none hc, hnone hc]
        rfl
      | some c =>
        rw [refs_of_node? hc]
        exact hnum c
    · rfl

/-- Changing an inode or its dirty flag does not concern references. -/
theorem Same.modifyNode {h : CacheNode → CacheNode} (hid : ∀ c, (h c).id = c.id)
    (hnum : ∀ c, (h c).numRefs = c.numRefs) : s.Same (s.modifyNode id h) := by
  have hs : s.Shift (fun ρ => update ρ id (ρ id)) (s.modifyNode id h) :=
    shift_modifyNode (k := fun n => n) hid hnum (fun _ _ h => h) fun _ => rfl
  refine ⟨hs.frame, hs.counted, fun hc => ?_⟩
  rw [hs.refs hc, update_eq_self]

/-- A cached inode with one more reference. -/
theorem held_modifyNode (hc : s.node? id = some c) :
    s.Held id (s.modifyNode id fun c => { c with numRefs := c.numRefs + 1 }) :=
  shift_modifyNode (fun _ => rfl) (fun _ => rfl) (fun _ _ h => Nat.le_succ_of_le h)
    fun h => absurd (hc.symm.trans h) (some_ne_none _)

/-- An inode with one reference less, but not without any. -/
theorem dropped_modifyNode (hc : s.node? id = some c) (hlt : ¬c.numRefs ≤ 1) :
    s.Dropped id (s.modifyNode id fun c => { c with numRefs := c.numRefs - 1 }) := by
  refine shift_modifyNode (k := fun n => n - 1) (fun _ => rfl) (fun _ => rfl) (fun d hd _ => ?_)
    fun _ => rfl
  obtain rfl := some.inj (hd.symm.trans hc)
  omega

/-- There is no reference to drop. -/
theorem dropped_of_none (hc : s.node? id = none) : s.Dropped id s := by
  refine ⟨rfl, fun h => h, fun _ => ?_⟩
  have hpred : s.refs id - 1 = s.refs id := by rw [refs_of_none hc]
  rw [hpred, update_eq_self]

/-- The cache with a new node. -/
theorem held_append {n : Inode} (hc : s.node? id = none)
    (hb : s.layout.inodeBlock id < s.blockCount) :
    s.Held id { s with icache := s.icache ++ [⟨id, 1, false, n⟩] } := by
  have hnode : ∀ id', Fs.node? { s with icache := s.icache ++ [⟨id, 1, false, n⟩] } id' =
      if id' = id then some ⟨id, 1, false, n⟩ else s.node? id' := by
    intro id'
    unfold Fs.node? at hc ⊢
    rw [find?_append]
    split_ifs with h'
    · rw [h', hc]
      simp
    · have : ¬(id = id') := fun h => h' h.symm
      simp [this]
  refine ⟨rfl, fun hs => ⟨hs.disk, ?_, fun id' d hd => ?_, fun id' d hd => ?_⟩, fun hs => ?_⟩
  · rw [map_append, nodup_append]
    refine ⟨hs.nodup, nodup_singleton _, ?_⟩
    intro a ha b hb hab
    obtain ⟨d, hd, rfl⟩ := List.mem_map.mp ha
    have hne := find?_eq_none.mp hc d hd
    rw [mem_singleton.mp hb] at hab
    simp [hab] at hne
  · rw [hnode] at hd
    split_ifs at hd with h'
    · obtain rfl := some.inj hd
      exact Nat.le_refl _
    · exact hs.pos id' d hd
  · rw [hnode] at hd
    split_ifs at hd with h'
    · rw [h']
      exact hb
    · exact hs.loaded id' d hd
  · funext id'
    rw [refs, hnode, update_apply]
    split_ifs with h'
    · rw [refs_of_none hc]
    · rfl

/-- The cache without the node whose last reference is dropped. -/
theorem dropped_unlinkNode (hc : s.node? id = some c) (hle : c.numRefs ≤ 1) :
    s.Dropped id { s with icache := unlinkNode id s.icache } := by
  have hnode : ∀ id', s.Counted → Fs.node? { s with icache := unlinkNode id s.icache } id' =
      if id' = id then none else s.node? id' := fun id' hs => find?_unlinkNode hs.nodup
  refine ⟨rfl, fun hs => ⟨hs.disk, hs.nodup.sublist map_id_unlinkNode_sublist,
    fun id' d hd => ?_, fun id' d hd => ?_⟩, fun hs => ?_⟩
  · rw [hnode id' hs] at hd
    split_ifs at hd
    exact hs.pos id' d hd
  · rw [hnode id' hs] at hd
    split_ifs at hd
    exact hs.loaded id' d hd
  · funext id'
    rw [refs, hnode id' hs, update_apply]
    split_ifs with h'
    · rw [refs_of_node? hc, Nat.sub_eq_zero_of_le hle]
    · rfl

/-! ### Only reading -/

/-- A state without what reading changes. -/
def still (s : Fs) : Fs := { s with ios := 0, strtokNext := none }

/-- Nothing but the tokenizer and the number of device operations has changed. -/
structure Quiet (s s' : Fs) : Prop where
  frame : s'.frame = s.frame
  still : s.Counted → s'.still = s.still

/-- The nodes of the cache after a reference has been taken. -/
def LentNodes (id : ℕ) (cs cs' : List CacheNode) : Prop :=
  (∃ c, cs.find? (fun c => c.id = id) = some c ∧
    cs' = OsPi.modifyNode id (fun c => { c with numRefs := c.numRefs + 1 }) cs) ∨
  (cs.find? (fun c => c.id = id) = none ∧ ∃ n, cs' = cs ++ [⟨id, 1, false, n⟩])

/-- Besides, a reference has been taken. -/
structure Lent (id : ℕ) (s s' : Fs) : Prop where
  frame : s'.frame = s.frame
  still : s.Counted → s.layout.inodeBlock id < s.blockCount ∧
    ∃ cs, LentNodes id s.icache cs ∧ s'.still = Fs.still { s with icache := cs }

/-- The nodes of the cache after a reference has been dropped. -/
def dropNodes (id : ℕ) (cs : List CacheNode) : List CacheNode :=
  match cs.find? fun c => c.id = id with
  | none => cs
  | some c =>
    if c.numRefs ≤ 1 then unlinkNode id cs
    else OsPi.modifyNode id (fun c => { c with numRefs := c.numRefs - 1 }) cs

/-- A reference has been dropped, and besides nothing has changed unless a node was written
back. -/
structure Returned (id : ℕ) (s s' : Fs) : Prop where
  dropped : s.Dropped id s'
  still : (∀ c, s.node? id = some c → c.numRefs ≤ 1 → c.dirty = false) →
    s'.still = Fs.still { s with icache := dropNodes id s.icache }

theorem icache_of_still {t : Fs} (h : s'.still = t.still) : s'.icache = t.icache := by
  have hic : s'.still.icache = t.still.icache := by rw [h]
  exact hic

theorem still_icache {t : Fs} {cs : List CacheNode} (h : s'.still = t.still) :
    Fs.still { s' with icache := cs } = Fs.still { t with icache := cs } := by
  have hset : { s'.still with icache := cs } = { t.still with icache := cs } := by rw [h]
  exact hset

theorem disk_of_still {t : Fs} (h : s'.still = t.still) : s'.disk = t.disk := by
  have hdisk : s'.still.disk = t.still.disk := by rw [h]
  exact hdisk

theorem frame_of_still {t : Fs} (h : s'.still = t.still) : s'.frame = t.frame := by
  have hframe : s'.still.frame = t.still.frame := by rw [h]
  exact hframe

theorem Same.of_still (h : s'.still = s.still) : s.Same s' :=
  Same.of_icache (frame_of_still h) (by rw [disk_of_still h]) (icache_of_still h)

@[grind .] theorem Quiet.refl (s : Fs) : s.Quiet s := ⟨rfl, fun _ => rfl⟩

@[grind →] theorem Quiet.trans (h : s.Quiet s') (h' : s'.Quiet s'') : s.Quiet s'' where
  frame := h'.frame.trans h.frame
  still hs := (h'.still ((Same.of_still (h.still hs)).counted hs)).trans (h.still hs)

@[grind →] theorem Quiet.same (h : s.Quiet s') : s.Same s' := by
  have hs := fun hs => Same.of_still (h.still hs)
  exact ⟨h.frame, fun hc => (hs hc).counted hc, fun hc => (hs hc).refs hc⟩

theorem Quiet.of_still (h : s'.still = s.still) : s.Quiet s' := ⟨frame_of_still h, fun _ => h⟩

@[grind →] theorem Quiet.lent (h : s.Quiet s') (h' : s'.Lent id s'') : s.Lent id s'' where
  frame := h'.frame.trans h.frame
  still hs := by
    have heq := h.still hs
    obtain ⟨hb, cs, hcs, hstill⟩ := h'.still ((Same.of_still heq).counted hs)
    rw [icache_of_still heq] at hcs
    rw [layout_of_frame h.frame, blockCount_of_frame h.frame] at hb
    exact ⟨hb, cs, hcs, hstill.trans (still_icache heq)⟩

@[grind →] theorem Lent.held (h : s.Lent id s') : s.Held id s' := by
  have hs : s.Counted → s.Held id s' := by
    intro hs
    obtain ⟨hb, cs, hcs, hstill⟩ := h.still hs
    have hsame : Fs.Same { s with icache := cs } s' := Same.of_still hstill
    obtain ⟨c, hc, rfl⟩ | ⟨hc, n, rfl⟩ := hcs
    · exact (held_modifyNode hc).same hsame
    · exact (held_append hc hb).same hsame
  exact ⟨h.frame, fun hc => (hs hc).counted hc, fun hc => (hs hc).refs hc⟩

@[grind →] theorem Lent.quiet (h : s.Lent id s') (h' : s'.Quiet s'') : s.Lent id s'' where
  frame := h'.frame.trans h.frame
  still hs := by
    obtain ⟨hb, cs, hcs, hstill⟩ := h.still hs
    exact ⟨hb, cs, hcs, (h'.still (h.held.counted hs)).trans hstill⟩

@[grind →] theorem Returned.gone (h : s.Returned id s') : s.Dropped id s' := h.dropped

/-- The node a reference is taken to has others, or it is not dirty. -/
theorem dropNodes_lent {cs cs' : List CacheNode} (h : LentNodes id cs cs')
    (hpos : ∀ c, cs.find? (fun c => c.id = id) = some c → 1 ≤ c.numRefs) :
    dropNodes id cs' = cs ∧
      ∀ c, cs'.find? (fun c => c.id = id) = some c → c.numRefs ≤ 1 → c.dirty = false := by
  obtain ⟨c, hc, rfl⟩ | ⟨hc, n, rfl⟩ := h
  · have hfind : List.find? (fun c => c.id = id)
        (OsPi.modifyNode id (fun c => { c with numRefs := c.numRefs + 1 }) cs) =
        some { c with numRefs := c.numRefs + 1 } := by
      rw [find?_modifyNode (by intro; rfl), if_pos rfl, hc]
      rfl
    have hlt := hpos c hc
    refine ⟨?_, fun d hd hle => ?_⟩
    · have hnle : ¬c.numRefs + 1 ≤ 1 := by omega
      simp only [dropNodes, hfind, if_neg hnle]
      rw [OsPi.modifyNode_modifyNode _ _ (by intro; rfl)]
      exact modifyNode_eq_self hc rfl
    · obtain rfl := some.inj (hfind.symm.trans hd)
      dsimp only at hle
      omega
  · have hfind : List.find? (fun c => c.id = id) (cs ++ [(⟨id, 1, false, n⟩ : CacheNode)]) =
        some ⟨id, 1, false, n⟩ := by
      rw [find?_append, hc]
      simp
    refine ⟨?_, fun d hd _ => ?_⟩
    · simp only [dropNodes, hfind, le_refl, if_true]
      exact unlinkNode_append_singleton hc rfl
    · obtain rfl := some.inj (hfind.symm.trans hd)
      rfl

/-- The node of an inode that was not cached is put in the cache after it has been read. -/
theorem Quiet.load {n : Inode} (h : s.Quiet s') (hc : s.node? id = none)
    (hb : s.layout.inodeBlock id < s.blockCount) :
    s.Lent id { s' with icache := s'.icache ++ [⟨id, 1, false, n⟩] } where
  frame := h.frame
  still hs := by
    refine ⟨hb, s.icache ++ [⟨id, 1, false, n⟩], .inr ⟨hc, n, rfl⟩, ?_⟩
    rw [icache_of_still (h.still hs)]
    exact still_icache (h.still hs)

theorem Returned.of_none (hc : s.node? id = none) : s.Returned id s := by
  refine ⟨dropped_of_none hc, fun _ => ?_⟩
  have hdrop : dropNodes id s.icache = s.icache := by
    rw [node?] at hc
    rw [dropNodes, hc]
  rw [hdrop]

theorem Returned.of_unlinkNode (hc : s.node? id = some c) (hle : c.numRefs ≤ 1)
    (h : Fs.Same { s with icache := unlinkNode id s.icache } s')
    (heq : c.dirty = false → s' = { s with icache := unlinkNode id s.icache }) :
    s.Returned id s' := by
  refine ⟨(dropped_unlinkNode hc hle).same h, fun hclean => ?_⟩
  have hdrop : dropNodes id s.icache = unlinkNode id s.icache := by
    rw [node?] at hc
    simp only [dropNodes, hc, if_pos hle]
  rw [heq (hclean c hc hle), hdrop]

theorem Returned.of_modifyNode (hc : s.node? id = some c) (hlt : ¬c.numRefs ≤ 1) :
    s.Returned id (s.modifyNode id fun c => { c with numRefs := c.numRefs - 1 }) := by
  refine ⟨dropped_modifyNode hc hlt, fun _ => ?_⟩
  have hdrop : dropNodes id s.icache =
      OsPi.modifyNode id (fun c => { c with numRefs := c.numRefs - 1 }) s.icache := by
    rw [node?] at hc
    simp only [dropNodes, hc, if_neg hlt]
  rw [hdrop]
  rfl

@[grind →] theorem Lent.returned (h : s.Lent id s') (h' : s'.Returned id s'') : s.Quiet s'' where
  frame := h'.dropped.frame.trans h.frame
  still hs := by
    obtain ⟨-, cs, hcs, hstill⟩ := h.still hs
    have hic : s'.icache = cs := icache_of_still (t := { s with icache := cs }) hstill
    obtain ⟨hdrop, hclean⟩ := dropNodes_lent hcs (hs.pos id)
    have hstill' := h'.still (by rwa [node?, hic])
    rw [hic, hdrop] at hstill'
    exact hstill'.trans (still_icache (t := { s with icache := cs }) hstill)

end Fs

@[grind =] theorem Err.fatal_fault : Err.fault.fatal = true := rfl

@[grind =] theorem Err.fatal_stackOverflow : Err.stackOverflow.fatal = true := rfl

/-! ### Triples -/

section

variable {α : Type}

/-- Whatever the outcome, the states before and after are related by `r`. -/
abbrev Steady (r : Fs → Fs → Prop) (m : FsM α) (s₀ : Fs) : Prop :=
  ⦃fun s => ⌜s = s₀⌝⦄ m ⦃post⟨fun _ s => ⌜r s₀ s⌝, fun _ s => ⌜r s₀ s⌝⟩⦄

/-- They are, unless there is a fatal error. -/
abbrev Balanced (r : Fs → Fs → Prop) (m : FsM α) (s₀ : Fs) : Prop :=
  ⦃fun s => ⌜s = s₀⌝⦄ m ⦃post⟨fun _ s => ⌜r s₀ s⌝, fun e s => ⌜e.fatal ∨ r s₀ s⌝⟩⦄

/-- They are, and only fatal errors keep the computation from returning. -/
abbrev Returns (r : Fs → Fs → Prop) (m : FsM α) (s₀ : Fs) : Prop :=
  ⦃fun s => ⌜s = s₀⌝⦄ m ⦃post⟨fun _ s => ⌜r s₀ s⌝, fun e s => ⌜e.fatal ∧ r s₀ s⌝⟩⦄

/-- A computation on an inode that touches no references. -/
abbrev SteadyOn (m : InodeM α) (s₀ : Inode × Fs) : Prop :=
  ⦃fun s => ⌜s = s₀⌝⦄ m ⦃post⟨fun _ s => ⌜s₀.2.Same s.2⌝, fun _ s => ⌜s₀.2.Same s.2⌝⟩⦄

variable {r : Fs → Fs → Prop} {m : FsM α} {s₀ : Fs}

/- The generator of verification conditions takes the state a last call starts in for the one its
caller starts in when their postconditions have the same form. It does not when the
postcondition is a variable, which is what these rules are for. -/

theorem Steady.of (h : ∀ P : Fs → Prop, (∀ s, r s₀ s → P s) →
      ⦃fun s => ⌜s = s₀⌝⦄ m ⦃post⟨fun _ s => ⌜P s⌝, fun _ s => ⌜P s⌝⟩⦄) : Steady r m s₀ :=
  h _ fun _ h => h

theorem Balanced.of (h : ∀ (P : Fs → Prop) (E : Err → Fs → Prop), (∀ s, r s₀ s → P s) →
      (∀ e s, e.fatal ∨ r s₀ s → E e s) →
      ⦃fun s => ⌜s = s₀⌝⦄ m ⦃post⟨fun _ s => ⌜P s⌝, fun e s => ⌜E e s⌝⟩⦄) : Balanced r m s₀ :=
  h _ _ (fun _ h => h) fun _ _ h => h

theorem Balanced.throw {e : Err} (he : e.fatal = true) : Balanced r (throw e : FsM α) s₀ := by
  mvcgen
  exact .inl he

theorem Returns.of (h : ∀ P : Fs → Prop, (∀ s, r s₀ s → P s) →
      ⦃fun s => ⌜s = s₀⌝⦄ m ⦃post⟨fun _ s => ⌜P s⌝, fun e s => ⌜e.fatal ∧ P s⌝⟩⦄) :
    Returns r m s₀ :=
  h _ fun _ h => h

theorem SteadyOn.of {m : InodeM α} {s₀ : Inode × Fs}
    (h : ∀ P : Fs → Prop, (∀ s, s₀.2.Same s → P s) →
      ⦃fun s => ⌜s = s₀⌝⦄ m ⦃post⟨fun _ s => ⌜P s.2⌝, fun _ s => ⌜P s.2⌝⟩⦄) : SteadyOn m s₀ :=
  h _ fun _ h => h

attribute [spec] tryErr

@[spec] theorem onFs_spec {σ : Type} (m : FsM α)
    (Q : PostCond α (.except Err (.arg (σ × Fs) .pure))) :
    ⦃fun s => wp⟦m⟧ (fun a t => Q.1 a (s.1, t), fun e t => Q.2.1 e (s.1, t), ()) s.2⦄
    onFs m ⦃Q⦄ := by
  intro s h
  dsimp only at h
  rw [Comp.wp_eq] at h ⊢
  have heval : (onFs m).eval s = ((m.eval s.2).1, (s.1, (m.eval s.2).2)) := rfl
  rw [heval]
  rcases hm : m.eval s.2 with ⟨r, s'⟩
  rw [hm] at h
  cases r <;> exact h

/-- Work on a cached inode touches references no more than the work itself does. -/
theorem onCachedInode_steady (id : ℕ) {m : InodeM α} (hm : ∀ s, SteadyOn m s) (s₀ : Fs) :
    Steady Fs.Same (onCachedInode id m) s₀ := by
  rintro s rfl
  rw [Comp.wp_eq]
  cases hc : s.node? id with
  | none =>
    rw [onCachedInode_eval_none m hc]
    exact Fs.Same.refl s
  | some c =>
    have hrun := Comp.eval_of_triple (hm (c.inode, s))
    rw [onCachedInode_eval m hc]
    rcases hres : m.eval (c.inode, s) with ⟨r, n, t⟩
    rw [hres] at hrun
    have hmodify : t.Same (t.modifyNode id fun c' => { c' with inode := n }) :=
      Fs.Same.modifyNode (fun _ => rfl) fun _ => rfl
    cases r <;> exact Fs.Same.trans hrun hmodify

end

section

variable (env : Env) (s₀ : Fs)

@[spec] theorem ofExcept_steady {α : Type} (r : Except Err α) :
    Steady Fs.Quiet (ofExcept r) s₀ := by
  mvcgen [ofExcept]
  all_goals grind

/-! ### Blocks and bitmaps -/

@[spec] theorem deviceFails_returns :
    ⦃fun s => ⌜s = s₀⌝⦄ deviceFails env ⦃post⟨fun _ s => ⌜s₀.Quiet s⌝, fun _ _ => ⌜False⌝⟩⦄ := by
  mvcgen [deviceFails]
  all_goals subst_vars
  · exact Fs.Quiet.refl _
  · exact Fs.Quiet.of_still rfl

@[spec] theorem readBlock_steady (num : ℕ) :
    ⦃fun s => ⌜s = s₀⌝⦄ readBlock env num
    ⦃post⟨fun _ s => ⌜s₀.Quiet s ∧ num < s₀.blockCount⌝, fun _ s => ⌜s₀.Quiet s⌝⟩⦄ := by
  mvcgen [readBlock]
  all_goals grind -ring -linarith

@[spec] theorem writeBlock_steady (data num : ℕ) : Steady Fs.Same (writeBlock env data num) s₀ := by
  mvcgen [writeBlock]
  all_goals grind

@[spec] theorem setBitInBitmapRange_steady (bitmapStart bitmapBlocks validBits bitIdx : ℕ)
    (setBit : Bool) :
    Steady Fs.Same (setBitInBitmapRange env bitmapStart bitmapBlocks validBits bitIdx setBit) s₀ := by
  refine .of fun P hP => ?_
  mvcgen [setBitInBitmapRange]
  all_goals grind

/-- What a search of a bitmap finds is one of its bits. -/
abbrev Finds (valid : ℕ) (m : FsM ℕ) (s₀ : Fs) : Prop :=
  ⦃fun s => ⌜s = s₀⌝⦄ m ⦃post⟨fun bit s => ⌜s₀.Same s ∧ bit < valid⌝, fun _ s => ⌜s₀.Same s⌝⟩⦄

theorem finds_of {valid : ℕ} {m : FsM ℕ} {s₀ : Fs}
    (h : ∀ (P : ℕ → Fs → Prop) (E : Fs → Prop), (∀ bit s, s₀.Same s → bit < valid → P bit s) →
      (∀ s, s₀.Same s → E s) →
      ⦃fun s => ⌜s = s₀⌝⦄ m ⦃post⟨fun bit s => ⌜P bit s⌝, fun _ s => ⌜E s⌝⟩⦄) : Finds valid m s₀ :=
  h _ _ (fun _ _ h h' => ⟨h, h'⟩) fun _ h => h

theorem add_lt_of_scanBlock {data first valid width bit : ℕ}
    (h : scanBlock data (min (valid - first) width) = some bit) : first + bit < valid := by
  have hbit := (scanBlock_some h).1
  omega

grind_pattern add_lt_of_scanBlock => scanBlock data (min (valid - first) width), some bit

@[spec] theorem findFreeLoop_finds (bitmapStart validBits : ℕ)
    (updateTaken : Bool) (blocks : List ℕ) :
    Finds validBits (findFreeLoop env bitmapStart validBits updateTaken blocks) s₀ := by
  induction blocks generalizing s₀ with
  | nil =>
    refine finds_of fun P E hP hE => ?_
    mvcgen [findFreeLoop]
    all_goals grind
  | cons block rest ih =>
    refine finds_of fun P E hP hE => ?_
    mvcgen [findFreeLoop, ih]
    all_goals grind

@[spec] theorem findFreeFromBitmapRange_finds (bitmapStart bitmapBlocks validBits : ℕ)
    (updateTaken : Bool) :
    Finds validBits (findFreeFromBitmapRange env bitmapStart bitmapBlocks validBits updateTaken)
      s₀ := by
  refine finds_of fun P E hP hE => ?_
  mvcgen [findFreeFromBitmapRange]
  all_goals grind

/-! ### Inodes -/

@[spec] theorem setBlockAllocated_steady (blockNum : ℕ) (allocated : Bool) :
    Steady Fs.Same (setBlockAllocated env blockNum allocated) s₀ := by
  mvcgen [setBlockAllocated]

@[spec] theorem setInodeAllocated_steady (inodeId : ℕ) (allocated : Bool) :
    Steady Fs.Same (setInodeAllocated env inodeId allocated) s₀ := by
  mvcgen [setInodeAllocated]
  all_goals grind

@[spec] theorem findFreeBlock_steady (updateTaken : Bool) :
    Steady Fs.Same (findFreeBlock env updateTaken) s₀ := by
  mvcgen [findFreeBlock]
  all_goals grind

@[spec] theorem findFreeInode_steady (updateTaken : Bool) :
    ⦃fun s => ⌜s = s₀⌝⦄ findFreeInode env updateTaken
    ⦃post⟨fun id s => ⌜s₀.Same s ∧ id ≠ 0 ∧ id ≤ s₀.layout.inodeCapacity⌝,
      fun _ s => ⌜s₀.Same s⌝⟩⦄ := by
  mvcgen [findFreeInode]
  all_goals grind -ring -linarith

end

section

variable (env : Env) (s₀ : Inode × Fs)

@[spec] theorem theInode_returns :
    ⦃fun s => ⌜s = s₀⌝⦄ theInode ⦃post⟨fun _ s => ⌜s₀.2.Same s.2⌝, fun _ _ => ⌜False⌝⟩⦄ := by
  mvcgen [theInode]
  all_goals grind

@[spec] theorem modifyInode_returns (f : Inode → Inode) :
    ⦃fun s => ⌜s = s₀⌝⦄ modifyInode f ⦃post⟨fun _ s => ⌜s₀.2.Same s.2⌝, fun _ _ => ⌜False⌝⟩⦄ := by
  mvcgen [modifyInode]
  all_goals grind

@[spec] theorem appendSingle_steady (blockWasAlloc : ℕ) :
    SteadyOn (appendSingle env blockWasAlloc) s₀ := by
  refine .of fun P hP => ?_
  mvcgen [appendSingle]
  all_goals grind

@[spec] theorem appendDouble_steady (blockWasAlloc : ℕ) :
    SteadyOn (appendDouble env blockWasAlloc) s₀ := by
  refine .of fun P hP => ?_
  mvcgen [appendDouble]
  all_goals grind

@[spec] theorem appendTriple_steady (blockWasAlloc : ℕ) :
    SteadyOn (appendTriple env blockWasAlloc) s₀ := by
  refine .of fun P hP => ?_
  mvcgen [appendTriple]
  all_goals grind

@[spec] theorem allocateBlockForFileInode_steady : SteadyOn (allocateBlockForFileInode env) s₀ := by
  mvcgen [allocateBlockForFileInode]
  all_goals grind

@[spec] theorem removeLastDirect_steady (blockIdx : ℕ) :
    SteadyOn (removeLastDirect env blockIdx) s₀ := by
  mvcgen [removeLastDirect]
  all_goals grind

@[spec] theorem removeLastSixteenth_steady (blockIdx : ℕ) :
    SteadyOn (removeLastSixteenth env blockIdx) s₀ := by
  refine .of fun P hP => ?_
  mvcgen [removeLastSixteenth]
  all_goals grind

@[spec] theorem removeLastSingle_steady (blockIdx : ℕ) :
    SteadyOn (removeLastSingle env blockIdx) s₀ := by
  refine .of fun P hP => ?_
  mvcgen [removeLastSingle]
  all_goals grind

@[spec] theorem removeLastDouble_steady (blockIdx : ℕ) :
    SteadyOn (removeLastDouble env blockIdx) s₀ := by
  refine .of fun P hP => ?_
  mvcgen [removeLastDouble]
  all_goals grind

@[spec] theorem removeLastTriple_steady (blockIdx : ℕ) :
    SteadyOn (removeLastTriple env blockIdx) s₀ := by
  refine .of fun P hP => ?_
  mvcgen [removeLastTriple]
  all_goals grind

@[spec] theorem removeLastBlockOfInode_steady : SteadyOn (removeLastBlockOfInode env) s₀ := by
  mvcgen [removeLastBlockOfInode]
  all_goals grind

@[spec] theorem keepFirst_steady (skipFirst : ℕ) : SteadyOn (keepFirst skipFirst) s₀ := by
  mvcgen [keepFirst]
  all_goals grind

end

section

variable (env : Env) (s₀ : Fs)

@[spec] theorem freeEntries_steady (data iBlocks : ℕ) (entries : List ℕ) (totalRemoved : ℕ) :
    Steady Fs.Same (freeEntries env data iBlocks entries totalRemoved) s₀ := by
  induction entries generalizing totalRemoved s₀ with
  | nil =>
    mvcgen [freeEntries]
    all_goals grind
  | cons i rest ih =>
    refine .of fun P hP => ?_
    mvcgen [freeEntries, ih]
    all_goals grind

@[spec] theorem freeFromSinglePtr_steady (iBlocks singleBlock totalRemoved : ℕ) :
    Steady Fs.Same (freeFromSinglePtr env iBlocks singleBlock totalRemoved) s₀ := by
  refine .of fun P hP => ?_
  mvcgen [freeFromSinglePtr]
  all_goals grind

theorem freeBelow_steady {free : ℕ → ℕ → FsM ℕ}
    (hfree : ∀ block n s, Steady Fs.Same (free block n) s) (data : ℕ) (entries : List ℕ)
    (totalRemoved : ℕ) : Steady Fs.Same (freeBelow free data entries totalRemoved) s₀ := by
  induction entries generalizing totalRemoved s₀ with
  | nil =>
    mvcgen [freeBelow]
    all_goals grind
  | cons i rest ih =>
    refine .of fun P hP => ?_
    mvcgen [freeBelow, ih, hfree]
    all_goals grind

@[spec] theorem freeFromDoublePtr_steady (iBlocks doubleBlock totalRemoved : ℕ) :
    Steady Fs.Same (freeFromDoublePtr env iBlocks doubleBlock totalRemoved) s₀ := by
  have hbelow := fun s => freeBelow_steady s fun block n s =>
    freeFromSinglePtr_steady env s iBlocks block n
  refine .of fun P hP => ?_
  mvcgen [freeFromDoublePtr, hbelow]
  all_goals grind

@[spec] theorem freeFromTriplePtr_steady (iBlocks tripleBlock totalRemoved : ℕ) :
    Steady Fs.Same (freeFromTriplePtr env iBlocks tripleBlock totalRemoved) s₀ := by
  have hbelow := fun s => freeBelow_steady s fun block n s =>
    freeFromDoublePtr_steady env s iBlocks block n
  refine .of fun P hP => ?_
  mvcgen [freeFromTriplePtr, hbelow]
  all_goals grind

@[spec] theorem freeDirect_steady (n : Inode) (blocks : List ℕ) (totalRemoved : ℕ) :
    Steady Fs.Same (freeDirect env n blocks totalRemoved) s₀ := by
  induction blocks generalizing totalRemoved s₀ with
  | nil =>
    mvcgen [freeDirect]
    all_goals grind
  | cons i rest ih =>
    refine .of fun P hP => ?_
    mvcgen [freeDirect, ih]
    all_goals grind

end

section

variable (env : Env) (s₀ : Inode × Fs)

@[spec] theorem clearBlocksOfInode_steady (skipFirst : ℕ) :
    SteadyOn (clearBlocksOfInode env skipFirst) s₀ := by
  refine .of fun P hP => ?_
  mvcgen [clearBlocksOfInode]
  all_goals grind

end

section

variable (env : Env) (s₀ : Fs)

/-! ### References -/

@[spec] theorem getInodeRaw_steady (id : ℕ) :
    ⦃fun s => ⌜s = s₀⌝⦄ getInodeRaw env id
    ⦃post⟨fun _ s => ⌜s₀.Quiet s ∧ s₀.layout.inodeBlock id < s₀.blockCount⌝,
      fun _ s => ⌜s₀.Quiet s⌝⟩⦄ := by
  mvcgen [getInodeRaw]
  all_goals grind

@[spec] theorem writeInode_steady (node : Inode) (id : ℕ) :
    Steady Fs.Same (writeInode env node id) s₀ := by
  refine .of fun P hP => ?_
  mvcgen [writeInode]
  all_goals grind

@[spec] theorem flushAndFreeCacheInode_steady (node : CacheNode) :
    ⦃fun s => ⌜s = s₀⌝⦄ flushAndFreeCacheInode env node
    ⦃post⟨fun _ s => ⌜s₀.Same s ∧ (node.dirty = false → s = s₀)⌝,
      fun _ s => ⌜s₀.Same s ∧ (node.dirty = false → s = s₀)⌝⟩⦄ := by
  mvcgen [flushAndFreeCacheInode]
  all_goals grind

@[spec] theorem getInodeFromCache_lent (id : ℕ) :
    ⦃fun s => ⌜s = s₀⌝⦄ getInodeFromCache env id
    ⦃post⟨fun _ s => ⌜s₀.Lent id s⌝, fun _ s => ⌜s₀.Quiet s ∧ s₀.node? id = none⌝⟩⦄ := by
  mvcgen [getInodeFromCache]
  all_goals subst_vars
  case vc1 c hc => exact ⟨rfl, fun hs => ⟨hs.loaded id c hc, _, .inl ⟨c, hc, rfl⟩, rfl⟩⟩
  case vc2 hc n s h _ => exact h.1.load hc h.2
  case vc3 hc _ _ h => exact ⟨h, hc⟩

@[spec] theorem removeRefFromCache_returned (id : ℕ) :
    ⦃fun s => ⌜s = s₀⌝⦄ removeRefFromCache env id
    ⦃post⟨fun _ s => ⌜s₀.Returned id s⌝, fun _ s => ⌜s₀.Returned id s⌝⟩⦄ := by
  mvcgen [removeRefFromCache]
  all_goals subst_vars
  case vc1 hc => exact .of_none hc
  case vc2 hc hle _ _ => exact .of_unlinkNode hc hle
  case vc3 hc hle _ _ => exact .of_unlinkNode hc hle
  case vc4 c hc hlt => exact .of_modifyNode hc hlt

@[spec] theorem markDirty_returns (id : ℕ) :
    ⦃fun s => ⌜s = s₀⌝⦄ markDirty id ⦃post⟨fun _ s => ⌜s₀.Same s⌝, fun _ _ => ⌜False⌝⟩⦄ := by
  mvcgen [markDirty]
  subst_vars
  exact Fs.Same.modifyNode (fun _ => rfl) fun _ => rfl

@[spec] theorem cachedInode_returns (id : ℕ) : Returns Fs.Quiet (cachedInode id) s₀ := by
  mvcgen [cachedInode]
  all_goals grind

end

end OsPi
