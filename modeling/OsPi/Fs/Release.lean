import OsPi.Fs.Append

/-!
# Giving Blocks Back

`clear_blocks_of_inode` on a reliable device frees exactly the blocks beyond the ones it
keeps, pointer blocks included. The three functions that free below a pointer block share
one specification, `FreesTree`, by the height of the tree below the block: the count of
removed blocks is compared with the count of the inode at every leaf, and the error that
stops them is the sign that the last block has been freed.
-/

namespace OsPi

open PtrTree Comp List

variable {env : Env} {s s' : Fs} {n : Inode} {L : List ℕ} {c t k : ℕ}

/-- `s'` is `s` with the bits of the blocks `L` cleared. -/
def Fs.Freed (s s' : Fs) (L : List ℕ) : Prop :=
  Fs.Change s s' [] fun b => s.blockBit b && decide (b ∉ L)

theorem Fs.Freed.refl (s : Fs) : s.Freed s [] :=
  (Fs.Change.refl s).mono (by simp) (by simp)

/-- One more block is freed. -/
theorem Fs.Freed.setBlockAllocated_eval (h : s.Freed s' L) (hr : env.Reliable) (hw : s.Wf)
    {x : ℕ} (hx : x < s.layout.totalBlocks) :
    (setBlockAllocated env x false).eval s' = (.ok (), s'.setBlockBit x false) ∧
      s.Freed (s'.setBlockBit x false) (L ++ [x]) := by
  have hw' := Fs.Change.wf h hw
  have hx' : x < s'.layout.totalBlocks := by rwa [Fs.Change.layout h]
  refine ⟨OsPi.setBlockAllocated_eval hr hw' hx' false,
    (Fs.Change.trans h (Fs.Change.setBlockBit hw' hx' false)).mono (by simp) fun b hb => ?_⟩
  rw [Function.update_apply]
  split_ifs with hbx
  · simp [hbx]
  · rw [Fs.Change.blockBit h b hb]
    simp [hbx]

/-- Freeing leaves the blocks of the data area as they are. -/
theorem Fs.Freed.readBlock_eval (h : s.Freed s' L) (hr : env.Reliable) (hw : s.Wf) {x : ℕ}
    (hlo : s.layout.dataStartBlock ≤ x) (hhi : x < s.layout.totalBlocks) :
    (readBlock env x).eval s' = (.ok (s.block x), s') := by
  have hx : x < s'.blockCount := by
    rw [Fs.Change.blockCount h, hw.blockCount_eq]
    exact hhi
  rw [OsPi.readBlock_eval hr hx,
    Fs.Change.block h x (.inl (hw.inodeBitmapStart_le hlo)) not_mem_nil]

/-! ### Trees -/

/-- The blocks below `r` when `m` blocks of the inode are left to free. -/
def Fs.treeBlocks (s : Fs) (k r m : ℕ) : List ℕ :=
  nodes s.layout.blocksInSinglePtr s.ptr k r (min m (s.layout.blocksInSinglePtr ^ k)) ++
    leaves s.layout.blocksInSinglePtr s.ptr k r (min m (s.layout.blocksInSinglePtr ^ k))

/-- What a function that frees a tree of height `k` does for an inode with `c` blocks, `t`
of which are already freed: it frees the blocks of the tree, and stops with the error when
these were the last ones. -/
def Fs.FreesTree (s : Fs) (c k : ℕ) (free : ℕ → ℕ → FsM ℕ) : Prop :=
  ∀ s' L r t, s.Freed s' L → t < c →
    (∀ x ∈ s.treeBlocks k r (c - t), s.layout.dataStartBlock ≤ x ∧ x < s.layout.totalBlocks) →
    ∃ s'' L', (free r t).eval s' =
        (if c - t ≤ s.layout.blocksInSinglePtr ^ k then .error .fileWriteError
          else .ok (t + s.layout.blocksInSinglePtr ^ k), s'') ∧
      s.Freed s'' (L ++ L') ∧ L'.Perm (s.treeBlocks k r (c - t))

/-- Free one block: the body of the loop of `free_from_single_ptr`. -/
def freeEntry (env : Env) (iBlocks x totalRemoved : ℕ) : FsM ℕ := do
  setBlockAllocated env x false
  if totalRemoved + 1 = iBlocks then throw .fileWriteError
  pure (totalRemoved + 1)

theorem freesTree_freeEntry (hr : env.Reliable) (hw : s.Wf) (c : ℕ) :
    s.FreesTree c 0 (freeEntry env c) := by
  intro s' L r t hfreed ht hx
  have hblocks : s.treeBlocks 0 r (c - t) = [r] := by
    have hmin : min (c - t) 1 ≠ 0 := by omega
    simp [Fs.treeBlocks, nodes, leaves, hmin]
  rw [hblocks] at hx ⊢
  obtain ⟨hrun, hfreed'⟩ := hfreed.setBlockAllocated_eval hr hw (hx r (by simp)).2
  refine ⟨_, [r], ?_, hfreed', List.Perm.refl _⟩
  by_cases hlast : t + 1 = c
  · have hle : c - t ≤ 1 := by omega
    simp [freeEntry, eval_bind, hrun, hlast, hle]
  · have hle : ¬c - t ≤ 1 := by omega
    simp [freeEntry, hrun, hlast, hle]

/-- The loop of `free_from_single_ptr` is that of the other two functions. -/
theorem freeEntries_eval (data c : ℕ) (is : List ℕ) (t : ℕ) (s : Fs) :
    (freeEntries env data c is t).eval s = (freeBelow (freeEntry env c) data is t).eval s := by
  induction is generalizing t s with
  | nil => rfl
  | cons i is ih =>
    rw [freeEntries, freeBelow, freeEntry, bind_assoc]
    rw [eval_bind, eval_bind]
    rcases (setBlockAllocated env (ptrAt data i) false).eval s with ⟨_ | _, s'⟩
    · rfl
    · by_cases hlast : t + 1 = c
      · simp [hlast]
      · simp [hlast, ih]

@[simp] theorem Fs.treeBlocks_zero (k r : ℕ) : s.treeBlocks k r 0 = [] := by
  simp [Fs.treeBlocks]

/-- The blocks below the children `d, d + 1, …` of `r`. -/
def Fs.rowBlocks (s : Fs) (k r m d len : ℕ) : List ℕ :=
  (List.range' d len).flatMap fun i =>
    s.treeBlocks k (s.ptr r i) (m - i * s.layout.blocksInSinglePtr ^ k)

/-- The loop frees child by child, until the last block or the end of the row. -/
theorem Fs.FreesTree.freeBelow_eval {free : ℕ → ℕ → FsM ℕ} (hfree : s.FreesTree c k free)
    (r d len : ℕ) (hlen : d + len = s.layout.blocksInSinglePtr) (hfreed : s.Freed s' L)
    (ht : t + d * s.layout.blocksInSinglePtr ^ k < c)
    (hx : ∀ x ∈ s.rowBlocks k r (c - t) d len,
      s.layout.dataStartBlock ≤ x ∧ x < s.layout.totalBlocks) :
    ∃ s'' L', (freeBelow free (s.block r) (List.range' d len)
          (t + d * s.layout.blocksInSinglePtr ^ k)).eval s' =
        (if c - t ≤ s.layout.blocksInSinglePtr ^ (k + 1) then .error .fileWriteError
          else .ok (t + s.layout.blocksInSinglePtr ^ (k + 1)), s'') ∧
      s.Freed s'' (L ++ L') ∧ L'.Perm (s.rowBlocks k r (c - t) d len) := by
  generalize hP : s.layout.blocksInSinglePtr ^ k = P at *
  have hP' : s.layout.blocksInSinglePtr ^ (k + 1) = s.layout.blocksInSinglePtr * P := by
    rw [pow_succ, hP, mul_comm]
  rw [hP']
  induction len generalizing d s' L with
  | zero =>
    have hd : d = s.layout.blocksInSinglePtr := hlen
    have hlt : ¬c - t ≤ s.layout.blocksInSinglePtr * P := by rw [← hd]; omega
    exact ⟨s', [], by simp [freeBelow, hlt, hd], by simpa using hfreed, List.Perm.refl _⟩
  | succ len ih =>
    have hsucc : (d + 1) * P = d * P + P := Nat.succ_mul d P
    have hsub : c - (t + d * P) = c - t - d * P := by omega
    rw [Fs.rowBlocks, range'_succ, flatMap_cons, hP] at hx ⊢
    obtain ⟨s₁, L₁, hrun, hfreed₁, hperm⟩ := hfree s' L (s.ptr r d) (t + d * P) hfreed ht
      (by rw [hsub]; exact fun x h => hx x (mem_append_left _ h))
    rw [hP, hsub] at hrun
    rw [hsub] at hperm
    rw [freeBelow]
    by_cases hlast : c - t - d * P ≤ P
    · have hle : c - t ≤ s.layout.blocksInSinglePtr * P := by
        have := Nat.mul_le_mul_right P (show d + 1 ≤ s.layout.blocksInSinglePtr by omega)
        omega
      have hrest : ((List.range' (d + 1) len).flatMap fun i =>
          s.treeBlocks k (s.ptr r i) (c - t - i * P)) = [] := by
        refine flatMap_eq_nil_iff.mpr fun i hi => ?_
        have hi' := (mem_range'_1.mp hi).1
        have := Nat.mul_le_mul_right P hi'
        rw [show c - t - i * P = 0 by omega, Fs.treeBlocks_zero]
      rw [if_pos hlast] at hrun
      rw [hrest, append_nil, if_pos hle]
      exact ⟨s₁, L₁, eval_bind_of_error hrun, hfreed₁, hperm⟩
    · rw [if_neg hlast] at hrun
      obtain ⟨s₂, L₂, hrun₂, hfreed₂, hperm₂⟩ := ih (d + 1) (by omega) hfreed₁
        (fun x h => hx x (mem_append_right _ (by rwa [Fs.rowBlocks, hP] at h))) (by omega)
      rw [Fs.rowBlocks, hP] at hperm₂
      refine ⟨s₂, L₁ ++ L₂, ?_, by rwa [← append_assoc], hperm.append hperm₂⟩
      rw [← hrun₂, hsucc, ← Nat.add_assoc]
      exact eval_bind_of_ok hrun

/-- A tree is its root and the row below it. -/
theorem Fs.treeBlocks_succ (k r : ℕ) {m : ℕ} (hm : m ≠ 0) (hw : s.Wf) :
    (s.treeBlocks (k + 1) r m).Perm
      (r :: s.rowBlocks k r m 0 s.layout.blocksInSinglePtr) := by
  have hS := hw.layout.blocksInSinglePtr_ge
  have hpos : 0 < s.layout.blocksInSinglePtr ^ (k + 1) := Nat.pow_pos (by omega)
  have hcount : ∀ i ∈ List.range s.layout.blocksInSinglePtr,
      min (min m (s.layout.blocksInSinglePtr ^ (k + 1)) - i * s.layout.blocksInSinglePtr ^ k)
        (s.layout.blocksInSinglePtr ^ k) =
      min (m - i * s.layout.blocksInSinglePtr ^ k) (s.layout.blocksInSinglePtr ^ k) := by
    intro i hi
    have := Nat.mul_le_mul_right (s.layout.blocksInSinglePtr ^ k) (mem_range.mp hi)
    rw [Nat.succ_mul] at this
    rw [pow_succ, mul_comm]
    omega
  rw [Fs.treeBlocks, nodes, if_neg (by omega), leaves, cons_append, Fs.rowBlocks,
    ← range_eq_range', flatMap_congr fun i hi => congrArg (nodes _ _ _ _) (hcount i hi),
    flatMap_congr fun i hi => congrArg (leaves _ _ _ _) (hcount i hi)]
  exact (flatMap_append_perm _ _ _).cons r

/-- **One level up**: freeing a pointer block and then what its entries lead to. -/
theorem Fs.FreesTree.succ (hr : env.Reliable) (hw : s.Wf) {free free' : ℕ → ℕ → FsM ℕ}
    (hfree : s.FreesTree c k free)
    (hfree' : ∀ r t s', (free' r t).eval s' = (do
      setBlockAllocated env r false
      let data ← readBlock env r
      let s ← get
      freeBelow free data (List.range s.layout.blocksInSinglePtr) t : FsM ℕ).eval s') :
    s.FreesTree c (k + 1) free' := by
  intro s' L r t hfreed ht hx
  have hblocks := (Fs.treeBlocks_succ k r (show c - t ≠ 0 by omega) hw).symm
  obtain ⟨hlo, hlt⟩ := hx r (hblocks.mem_iff.mp (by simp))
  obtain ⟨hrun, hfreed₁⟩ := hfreed.setBlockAllocated_eval hr hw hlt
  have hread := hfreed₁.readBlock_eval hr hw hlo hlt
  have hlay : (s'.setBlockBit r false).layout = s.layout := Fs.Change.layout hfreed₁
  obtain ⟨s₂, L₂, hrun₂, hfreed₂, hperm⟩ := hfree.freeBelow_eval r 0 s.layout.blocksInSinglePtr
    (by omega) hfreed₁ (t := t) (by omega) (fun x h => hx x (hblocks.mem_iff.mp (by simp [h])))
  refine ⟨s₂, r :: L₂, ?_, ?_, (hperm.cons r).trans hblocks⟩
  · rw [hfree', ← hrun₂]
    simp [eval_bind, hrun, hread, hlay, range_eq_range']
  · simpa using hfreed₂

/-! ### Clearing an inode -/

theorem freesTree_freeFromSinglePtr (hr : env.Reliable) (hw : s.Wf) (c : ℕ) :
    s.FreesTree c 1 (freeFromSinglePtr env c) := by
  refine Fs.FreesTree.succ hr hw (freesTree_freeEntry hr hw c) fun r t s' => ?_
  simp only [freeFromSinglePtr, eval_bind, eval_get, freeEntries_eval]

theorem freesTree_freeFromDoublePtr (hr : env.Reliable) (hw : s.Wf) (c : ℕ) :
    s.FreesTree c 2 (freeFromDoublePtr env c) :=
  Fs.FreesTree.succ hr hw (freesTree_freeFromSinglePtr hr hw c) fun _ _ _ => rfl

theorem freesTree_freeFromTriplePtr (hr : env.Reliable) (hw : s.Wf) (c : ℕ) :
    s.FreesTree c 3 (freeFromTriplePtr env c) :=
  Fs.FreesTree.succ hr hw (freesTree_freeFromDoublePtr hr hw c) fun _ _ _ => rfl

theorem Fs.Freed.freeDirect_eval (hr : env.Reliable) (hw : s.Wf) (is : List ℕ)
    (hfreed : s.Freed s' L) (hx : ∀ i ∈ is, n.blk i < s.layout.totalBlocks) :
    ∃ s'', (freeDirect env n is t).eval s' = (.ok (t + is.length), s'') ∧
      s.Freed s'' (L ++ is.map n.blk) := by
  induction is generalizing t s' L with
  | nil => exact ⟨s', rfl, by simpa using hfreed⟩
  | cons i is ih =>
    obtain ⟨hi, his⟩ := forall_mem_cons.mp hx
    obtain ⟨hrun, hfreed₁⟩ := hfreed.setBlockAllocated_eval hr hw hi
    obtain ⟨s₂, hrun₂, hfreed₂⟩ := ih (t := t + 1) hfreed₁ his
    refine ⟨s₂, ?_, by simpa using hfreed₂⟩
    rw [freeDirect, eval_bind_of_ok hrun, hrun₂, length_cons,
      Nat.add_right_comm t 1 is.length, Nat.add_assoc]

/-- The blocks of an inode are not zero, so that clamping keeps them. -/
theorem Fs.InodeOk.clampKeptBlocks_eq (hok : s.InodeOk n) (hw : s.Wf) {keep : ℕ}
    (hkeep : keep ≤ 12) : clampKeptBlocks n keep = min keep n.iBlocks.toNat := by
  rw [clampKeptBlocks]
  rcases hm : min keep n.iBlocks.toNat with _ | m
  · rfl
  · have hmem : n.blk m ∈ s.dataBlocks n := by
      rw [Fs.dataBlocks, dataOf]
      split_ifs
      · exact List.mem_map.mpr ⟨m, mem_range.mpr (by omega), rfl⟩
      · exact mem_append_left _ (List.mem_map.mpr ⟨m, mem_range.mpr (by omega), rfl⟩)
    have hlo := (hok.range _ (mem_append_left _ hmem)).1
    have h1 := hw.layout.blockBitmapStart
    have h2 := hw.inodeBitmapStart_le hlo
    have h3 := hw.layout.inodeBitmapStart
    rw [clampLoop, if_neg (by omega)]

/-- The direct blocks and the blocks of the three trees make up the blocks of an inode with
more than fifteen. -/
theorem Fs.blocks_perm (s : Fs) (n : Inode) {skip : ℕ} (hskip : skip ≤ 12)
    (h15 : 15 < n.iBlocks.toNat) :
    (((List.range 12).drop skip).map n.blk ++
      (List.range 3).flatMap fun i => s.treeBlocks (i + 1) (n.blk (12 + i))
        (n.iBlocks.toNat - treeBase s.layout.blocksInSinglePtr i)).Perm
    ((s.dataBlocks n).drop skip ++ s.ptrBlocks n) := by
  have hlen : skip ≤ ((List.range 12).map n.blk).length := by simpa using hskip
  rw [Fs.dataBlocks, Fs.ptrBlocks, dataOf, ptrsOf, if_neg (by omega), if_neg (by omega),
    drop_append_of_le_length hlen, ← map_drop, append_assoc]
  refine List.Perm.append_left _ ?_
  exact (flatMap_append_perm _ _ _).symm.trans perm_append_comm

/-- **Clearing an inode** frees all its blocks but the first `skip` and keeps those. -/
theorem clearBlocksOfInode_spec (hr : env.Reliable) (hw : s.Wf) (hok : s.InodeOk n) {skip : ℕ}
    (hskip : skip ≤ 12) :
    ∃ s' L, (clearBlocksOfInode env skip).eval (n, s) =
        (.ok (), ({ n with iBlocks := UInt32.ofNat (min skip n.iBlocks.toNat), size := 0 }, s')) ∧
      s.Freed s' L ∧ L.Perm ((s.dataBlocks n).drop skip ++ s.ptrBlocks n) := by
  have hclamp := hok.clampKeptBlocks_eq hw hskip
  have hx : ∀ x ∈ (s.dataBlocks n).drop skip ++ s.ptrBlocks n,
      s.layout.dataStartBlock ≤ x ∧ x < s.layout.totalBlocks := by
    intro x hx
    have hmem := List.Sublist.subset ((drop_sublist skip _).append_right (s.ptrBlocks n)) hx
    exact ⟨(hok.range x hmem).1, (hok.range x hmem).2.1⟩
  by_cases hle : n.iBlocks.toNat ≤ skip
  · refine ⟨s, [], ?_, Fs.Freed.refl s, ?_⟩
    · simp [clearBlocksOfInode, eval_bind, keepFirst, hclamp, hle]
    · have h15 : n.iBlocks.toNat ≤ 15 := by omega
      simp [Fs.dataBlocks, Fs.ptrBlocks, dataOf, ptrsOf, h15, hle]
  by_cases h16 : n.iBlocks.toNat < 16
  · have h15 : n.iBlocks.toNat ≤ 15 := by omega
    have hblocks : (s.dataBlocks n).drop skip ++ s.ptrBlocks n =
        ((List.range n.iBlocks.toNat).drop skip).map n.blk := by
      simp [Fs.dataBlocks, Fs.ptrBlocks, dataOf, ptrsOf, h15, map_drop]
    rw [hblocks] at hx ⊢
    obtain ⟨s', hrun, hfreed⟩ := (Fs.Freed.refl s).freeDirect_eval (n := n) (t := skip) hr hw
      ((List.range n.iBlocks.toNat).drop skip) fun i hi => (hx _ (List.mem_map_of_mem hi)).2
    refine ⟨s', _, ?_, hfreed, List.Perm.refl _⟩
    have hcount : skip + (n.iBlocks.toNat - skip) = n.iBlocks.toNat := by omega
    simp [clearBlocksOfInode, eval_bind, keepFirst, hclamp, hle, h16, hrun, hcount]
  · have hperm := s.blocks_perm n hskip (by omega)
    simp only [range_succ (n := 2), range_succ (n := 1), range_succ (n := 0),
      range_zero, nil_append, flatMap_append, flatMap_singleton] at hperm
    have hx' := fun x h => hx x (hperm.mem_iff.mp h)
    simp only [mem_append] at hx'
    obtain ⟨s₀, hrun₀, hfreed₀⟩ := (Fs.Freed.refl s).freeDirect_eval (n := n) (t := skip) hr hw
      ((List.range 12).drop skip) fun i hi =>
        (hx' _ (.inl (List.mem_map_of_mem hi))).2
    have hcount : skip + (12 - skip) = 12 := by omega
    simp only [length_drop, length_range, hcount, nil_append] at hrun₀ hfreed₀
    have hbase₁ : treeBase s.layout.blocksInSinglePtr 1 =
        12 + s.layout.blocksInSinglePtr ^ 1 := rfl
    have hbase₂ : treeBase s.layout.blocksInSinglePtr 2 =
        12 + s.layout.blocksInSinglePtr ^ 1 + s.layout.blocksInSinglePtr ^ 2 := rfl
    have hempty : ∀ i, n.iBlocks.toNat ≤ treeBase s.layout.blocksInSinglePtr i →
        s.treeBlocks (i + 1) (n.blk (12 + i))
          (n.iBlocks.toNat - treeBase s.layout.blocksInSinglePtr i) = [] := fun i h => by
      rw [Nat.sub_eq_zero_of_le h, Fs.treeBlocks_zero]
    have hne : 12 ≠ n.iBlocks.toNat := by omega
    -- below the single pointer block
    obtain ⟨s₁, L₁, hrun₁, hfreed₁, hperm₁⟩ := freesTree_freeFromSinglePtr hr hw n.iBlocks.toNat
      s₀ _ (n.blk 12) 12 hfreed₀ (by omega) fun x h => hx' x (.inr (.inl (.inl h)))
    by_cases h1 : n.iBlocks.toNat - 12 ≤ s.layout.blocksInSinglePtr ^ 1
    · rw [if_pos h1] at hrun₁
      refine ⟨s₁, _, ?_, hfreed₁, List.Perm.trans ?_ hperm⟩
      · simp [clearBlocksOfInode, eval_bind, keepFirst, hclamp, hle, h16, hrun₀, hrun₁, hne]
      · rw [hempty 1 (by omega), hempty 2 (by omega), append_nil, append_nil]
        exact hperm₁.append_left _
    rw [if_neg h1] at hrun₁
    -- below the double pointer block
    obtain ⟨s₂, L₂, hrun₂, hfreed₂, hperm₂⟩ := freesTree_freeFromDoublePtr hr hw n.iBlocks.toNat
      s₁ _ (n.blk 13) (12 + s.layout.blocksInSinglePtr ^ 1) hfreed₁ (by omega)
      fun x h => hx' x (.inr (.inl (.inr h)))
    by_cases h2 : n.iBlocks.toNat - (12 + s.layout.blocksInSinglePtr ^ 1) ≤
        s.layout.blocksInSinglePtr ^ 2
    · rw [if_pos h2] at hrun₂
      refine ⟨s₂, _, ?_, hfreed₂, List.Perm.trans ?_ hperm⟩
      · simp only [pow_one] at hrun₁ hrun₂
        simp [clearBlocksOfInode, eval_bind, keepFirst, hclamp, hle, h16, hrun₀, hrun₁, hrun₂, hne]
      · rw [hempty 2 (by omega), append_nil, append_assoc]
        exact (hperm₁.append hperm₂).append_left _
    rw [if_neg h2] at hrun₂
    -- below the triple pointer block, where the last block must be
    obtain ⟨s₃, L₃, hrun₃, hfreed₃, hperm₃⟩ := freesTree_freeFromTriplePtr hr hw n.iBlocks.toNat
      s₂ _ (n.blk 14) (12 + s.layout.blocksInSinglePtr ^ 1 + s.layout.blocksInSinglePtr ^ 2)
      hfreed₂ (by omega) fun x h => hx' x (.inr (.inr h))
    have h3 : n.iBlocks.toNat - (12 + s.layout.blocksInSinglePtr ^ 1 +
        s.layout.blocksInSinglePtr ^ 2) ≤ s.layout.blocksInSinglePtr ^ 3 := by
      have hmax := hok.le
      rw [Layout.maxFileBlocks_eq, treeBase, hbase₂] at hmax
      exact Nat.sub_le_iff_le_add'.mpr hmax
    rw [if_pos h3] at hrun₃
    refine ⟨s₃, _, ?_, hfreed₃, List.Perm.trans ?_ hperm⟩
    · simp only [pow_one] at hrun₁ hrun₂ hrun₃
      simp [clearBlocksOfInode, eval_bind, keepFirst, hclamp, hle, h16, hrun₀, hrun₁, hrun₂,
        hrun₃, hne]
    · rw [append_assoc, append_assoc]
      refine List.Perm.append_left _ ?_
      rw [← append_assoc]
      exact (hperm₁.append hperm₂).append hperm₃

end OsPi
