import OsPi.Fs.Append

/-!
# Looking Up a Block

`get_block_num_from_inode` finds the block with a given index among the data blocks of an
inode, as long as the index is below `12 + 2 * S`, where `S` is the number of pointers in a
block: up to there the divisions of the source by the size of a whole range give the right
pointer blocks. An index past the end gives zero.

Beyond `12 + 2 * S` the divisors are too large. `Layout.lookupIndex` is the index of the block
the lookup finds, if it finds one of the file at all: the double case always follows the first
entry of the double pointer block and reads past the end of the pointer block below it, the
triple case follows the first entry of the triple pointer block.
-/

namespace OsPi

open PtrTree Comp List Option

variable {S D : ℕ} {mem : ℕ → ℕ → ℕ} {blk : ℕ → ℕ} {c i x : ℕ}

/-! ### The block map by index -/

theorem range_three : List.range 3 = [0, 1, 2] := rfl

theorem length_dataOf (hc : c ≤ treeBase S 3) : (dataOf S mem blk c).length = c := by
  rw [dataOf]
  split_ifs with h15
  · simp
  · have hlen : ∀ j, (leaves S mem (j + 1) (blk (12 + j)) (treeCount S j c)).length =
        treeCount S j c := fun j => length_leaves _ (Nat.min_le_right _ _)
    rw [range_three]
    simp only [length_append, length_map, length_range, flatMap_cons, flatMap_nil, append_nil, hlen]
    simp only [treeCount, treeBase, zero_add, pow_one] at hc ⊢
    generalize S ^ (1 + 1) = a at hc ⊢
    generalize S ^ (2 + 1) = b at hc ⊢
    omega

theorem getElem?_dataOf_direct (hi : i < c) (h : i < 12 ∨ c ≤ 15) :
    (dataOf S mem blk c)[i]? = some (blk i) := by
  rw [dataOf]
  split_ifs with h15
  · simp [hi]
  · have hi12 : i < 12 := h.resolve_right h15
    rw [getElem?_append_left (by simpa using hi12)]
    simp [hi12]

/-- The blocks below a root, by the digits of the index. -/
theorem getElem?_dataOf_tree {j : ℕ} (hj : j < 3) (h15 : 15 < c) (hlo : treeBase S j ≤ i)
    (hhi : i < treeBase S (j + 1)) (hi : i < c) :
    (dataOf S mem blk c)[i]? =
      some (leaf S mem (j + 1) (blk (12 + j)) (i - treeBase S j)) := by
  have hlen : ∀ k, (leaves S mem (k + 1) (blk (12 + k)) (treeCount S k c)).length =
      treeCount S k c := fun k => length_leaves _ (Nat.min_le_right _ _)
  have hfull : ∀ k < j, treeCount S k c = S ^ (k + 1) := fun k hk => by
    have := treeBase_mono (S := S) hk
    rw [treeCount]
    omega
  have hcount : i - treeBase S j < treeCount S j c := by
    rw [treeBase] at hhi
    rw [treeCount]
    omega
  have hleaf : (leaves S mem (j + 1) (blk (12 + j)) (treeCount S j c))[i - treeBase S j]? = _ :=
    getElem?_leaves (blk (12 + j)) (Nat.min_le_right _ _) hcount
  have hlt : i - treeBase S j < (leaves S mem (j + 1) (blk (12 + j)) (treeCount S j c)).length := by
    rwa [hlen]
  have hfrom : 12 ≤ i := by
    refine le_trans ?_ hlo
    obtain rfl | hj0 := Nat.eq_zero_or_pos j
    · exact le_refl 12
    · exact le_trans (Nat.le_add_right _ _) (treeBase_mono hj0)
  rw [dataOf, if_neg (by omega), getElem?_append_right (by simpa using hfrom), range_three]
  simp only [length_map, length_range, flatMap_cons, flatMap_nil, append_nil]
  -- the trees before the one of the index are full
  obtain rfl | rfl | rfl : j = 0 ∨ j = 1 ∨ j = 2 := by omega
  · exact (getElem?_append_left hlt).trans hleaf
  · have hbase : treeBase S 1 = 12 + S ^ (0 + 1) := rfl
    rw [getElem?_append_right (by rw [hlen, hfull 0 (by omega)]; omega), hlen,
      hfull 0 (by omega), Nat.sub_sub, ← hbase, getElem?_append_left hlt]
    exact hleaf
  · have hbase : treeBase S 2 = 12 + S ^ (0 + 1) + S ^ (1 + 1) := rfl
    rw [getElem?_append_right (by rw [hlen, hfull 0 (by omega)]; omega), hlen,
      getElem?_append_right (by rw [hlen, hfull 0 (by omega), hfull 1 (by omega)]; omega),
      hlen, hfull 0 (by omega), hfull 1 (by omega), Nat.sub_sub, Nat.sub_sub, ← Nat.add_assoc,
      ← hbase]
    exact hleaf

/-- The pointer blocks on the way to a block are pointer blocks of the inode. -/
theorem path_mem_ptrsOf {j : ℕ} (hj : j < 3) (h15 : 15 < c) (hlo : treeBase S j ≤ i)
    (hhi : i < treeBase S (j + 1)) (hi : i < c)
    (hx : x ∈ path S mem (j + 1) (blk (12 + j)) (i - treeBase S j)) :
    x ∈ ptrsOf S mem blk c := by
  have hcount : i - treeBase S j < treeCount S j c := by
    rw [treeBase] at hhi
    rw [treeCount]
    omega
  rw [ptrsOf, if_neg (by omega)]
  exact mem_flatMap.mpr
    ⟨j, mem_range.mpr hj, path_mem_nodes (Nat.min_le_right _ _) hcount hx⟩

/-! ### Where the trees begin -/

theorem treeBase_one : treeBase S 1 = 12 + S := by simp [treeBase]

theorem treeBase_two : treeBase S 2 = 12 + S + S * S := by simp [treeBase, pow_two]

theorem treeBase_three : treeBase S 3 = 12 + S + S * S + S * S * S := by
  simp [treeBase, pow_succ]

/-! ### The code -/

/-- The word found at an index of a pointer block, in the block or past its end. -/
def Fs.entry (s : Fs) (env : Env) (x i : ℕ) : ℕ :=
  if i < s.layout.blocksInSinglePtr then s.ptr x i else env.wild x i % 2 ^ 32

section Code

variable {env : Env} {s : Fs} {n : Inode} {index : ℕ}
  (hr : env.Reliable) (hw : s.Wf) (hok : s.InodeOk n)

theorem Fs.entry_of_lt {i : ℕ} (hi : i < s.layout.blocksInSinglePtr) :
    s.entry env x i = s.ptr x i := if_pos hi

include hr hw in
theorem getBlockNumFromDiskPtr_eval (hx : x < s.layout.totalBlocks) :
    (getBlockNumFromDiskPtr env x index).eval s = (.ok (s.entry env x index), s) := by
  have hlt : x < s.blockCount := by rwa [hw.blockCount_eq]
  simp only [getBlockNumFromDiskPtr, eval_bind, eval_get, eval_attempt,
    readBlock_eval hr hlt, Fs.entry, Fs.ptr]
  split_ifs <;> rfl

/-- Looking a block up reads the layout first. -/
theorem getBlockNumFromInode_eval_get :
    (getBlockNumFromInode env n index).eval s =
      (blockNumWith (getBlockNumFromDiskPtr env) s.layout n index).eval s :=
  eval_bind_of_ok (f := fun s : Fs =>
    blockNumWith (getBlockNumFromDiskPtr env) s.layout n index) (eval_get s)

theorem lookup_past (h : n.iBlocks.toNat ≤ index) :
    (getBlockNumFromInode env n index).eval s = (.ok 0, s) := by
  rw [getBlockNumFromInode_eval_get, blockNumWith, if_pos h, eval_pure]

theorem lookup_direct (hi : index < n.iBlocks.toNat)
    (h : index < 12 ∨ n.iBlocks.toNat ≤ 15) :
    (getBlockNumFromInode env n index).eval s = (.ok (n.blk index), s) := by
  rw [getBlockNumFromInode_eval_get, blockNumWith, if_neg (Nat.not_le.mpr hi), if_pos h, eval_pure]

variable (hS : s.layout.blocksInSinglePtr = S)

include hok hS in
/-- The pointer blocks on the way to a block can be read. -/
theorem Fs.InodeOk.path_lt {i j : ℕ} (hj : j < 3) (h15 : 15 < n.iBlocks.toNat)
    (hlo : treeBase S j ≤ i) (hhi : i < treeBase S (j + 1)) (hi : i < n.iBlocks.toNat)
    (hx : x ∈ path S s.ptr (j + 1) (n.blk (12 + j)) (i - treeBase S j)) :
    x < s.layout.totalBlocks := by
  subst hS
  exact (hok.range _ (mem_append_right _ (path_mem_ptrsOf hj h15 hlo hhi hi hx))).2.1

include hr hw hok hS

theorem lookup_single (h15 : 15 < n.iBlocks.toNat) (hi : index < n.iBlocks.toNat)
    (hlo : 12 ≤ index) (hhi : index < 12 + S) :
    (getBlockNumFromInode env n index).eval s = (.ok (s.ptr (n.blk 12) (index - 12)), s) := by
  have hx : n.blk 12 < s.layout.totalBlocks :=
    hok.path_lt hS (j := 0) (by omega) h15 hlo (by rwa [treeBase_one]) hi (by simp [path])
  rw [getBlockNumFromInode_eval_get, blockNumWith, if_neg (by omega), if_neg (by omega),
    if_pos (by omega), getBlockNumFromDiskPtr_eval hr hw hx, Fs.entry_of_lt (by omega)]

/-- The double case reads the first entry of the double pointer block for every index. -/
theorem lookup_double (hD : s.layout.blocksInDoublePtr = D) (hi : index < n.iBlocks.toNat)
    (hlo : 12 + S ≤ index) (hhi : index < 12 + S + D) :
    (getBlockNumFromInode env n index).eval s =
      (.ok (s.entry env (s.ptr (n.blk 13) 0) (index - S - 12)), s) := by
  have hSD : D = S * S := by rw [← hD, Layout.blocksInDoublePtr, hS]
  have hS64 := hw.layout.blocksInSinglePtr_ge
  have hq : index - S - 12 < D := by omega
  -- the first block below the double pointer block is on the way to none but the first
  have hpath : ∀ x ∈ [n.blk 13, s.ptr (n.blk 13) 0], x < s.layout.totalBlocks := by
    intro x hx
    refine hok.path_lt hS (j := 1) (i := 12 + S) (by omega) (by omega)
      (le_of_eq treeBase_one) ?_ (by omega) ?_
    · rw [treeBase_two]
      have := Nat.mul_pos (show 0 < S by omega) (show 0 < S by omega)
      omega
    · rw [treeBase_one, Nat.sub_self]
      simpa [path] using hx
  rw [getBlockNumFromInode_eval_get, blockNumWith, if_neg (by omega), if_neg (by omega),
    if_neg (by omega), if_pos (by omega)]
  simp only [hS, hD, Nat.div_eq_of_lt hq, Nat.mod_eq_of_lt hq]
  rw [eval_bind_of_ok (getBlockNumFromDiskPtr_eval hr hw (hpath _ (by simp))),
    Fs.entry_of_lt (by omega), getBlockNumFromDiskPtr_eval hr hw (hpath _ (by simp))]

/-- The triple case follows the first entry of the triple pointer block for every index, and
takes the entry of the triple pointer block for that of the double one. -/
theorem lookup_triple (hD : s.layout.blocksInDoublePtr = D) (hi : index < n.iBlocks.toNat)
    (hlo : treeBase S 2 ≤ index) :
    (getBlockNumFromInode env n index).eval s =
      (.ok (s.entry env (s.ptr (s.ptr (n.blk 14) 0) ((index - treeBase S 2) / D))
        ((index - treeBase S 2) % D)), s) := by
  have hle := hok.le
  rw [Layout.maxFileBlocks_eq, hS] at hle
  have hS64 := hw.layout.blocksInSinglePtr_ge
  have hDS : D = S * S := by rw [← hD, Layout.blocksInDoublePtr, hS]
  have hT : s.layout.blocksInTriplePtr = D * S := by rw [Layout.blocksInTriplePtr, hD, hS]
  have hSD : S ≤ D := hDS ▸ Nat.le_mul_self _
  have hbase : treeBase S 2 = 12 + S + D := by rw [treeBase_two, hDS]
  have hsub : index - D - S - 12 = index - treeBase S 2 := by omega
  have hbase3 : treeBase S 3 = treeBase S 2 + s.layout.blocksInTriplePtr := by
    rw [treeBase_three, treeBase_two, hT, hDS]
  generalize ht : index - treeBase S 2 = t at hsub ⊢
  have htT : t < s.layout.blocksInTriplePtr := by omega
  have hdig : t / D < S := Nat.div_lt_of_lt_mul (hT ▸ htT)
  -- the blocks read are on the way to the block with index `u` below the triple one
  obtain ⟨u, hu⟩ : ∃ u, u = t / D * S := ⟨_, rfl⟩
  have hut : u ≤ t := by
    have h1 := Nat.div_mul_le_self t D
    have h2 := Nat.mul_le_mul_left (t / D) hSD
    omega
  have huD : u < S ^ 2 := by
    rw [hu, pow_two]
    exact Nat.mul_lt_mul_of_pos_right hdig (by omega)
  have hudiv : u / S = t / D := by
    rw [hu, Nat.mul_div_cancel _ (by omega)]
  have hpath : ∀ x ∈ [n.blk 14, s.ptr (n.blk 14) 0, s.ptr (s.ptr (n.blk 14) 0) (t / D)],
      x < s.layout.totalBlocks := by
    intro x hx
    refine hok.path_lt hS (j := 2) (i := treeBase S 2 + u) (by omega) (by omega)
      (Nat.le_add_right _ _) (Nat.lt_of_lt_of_eq (by omega) hbase3.symm) (by omega) ?_
    rw [Nat.add_sub_cancel_left]
    simp only [path, Nat.div_eq_of_lt huD, Nat.mod_eq_of_lt huD, pow_one, hudiv]
    exact hx
  rw [getBlockNumFromInode_eval_get, blockNumWith, if_neg (by omega), if_neg (by omega),
    if_neg (by omega), if_neg (by omega)]
  simp only [hS, hD, hsub, Nat.div_eq_of_lt htT, Nat.mod_eq_of_lt htT]
  rw [eval_bind_of_ok (getBlockNumFromDiskPtr_eval hr hw (hpath _ (by simp))),
    Fs.entry_of_lt (by omega),
    eval_bind_of_ok (getBlockNumFromDiskPtr_eval hr hw (hpath _ (by simp))),
    Fs.entry_of_lt (by omega), getBlockNumFromDiskPtr_eval hr hw (hpath _ (by simp))]

/-- **Block lookup** on a reliable device. -/
theorem getBlockNumFromInode_eval
    (hi : index < 12 + 2 * S ∨ n.iBlocks.toNat ≤ index) :
    (getBlockNumFromInode env n index).eval s = (.ok ((s.dataBlocks n).getD index 0), s) := by
  have hle := hok.le
  rw [Layout.maxFileBlocks_eq] at hle
  have hlen : (s.dataBlocks n).length = n.iBlocks.toNat := length_dataOf hle
  have hS64 := hw.layout.blocksInSinglePtr_ge
  have hSD : S ≤ S * S := Nat.le_mul_self _
  rw [getD_eq_getElem?_getD]
  by_cases hpast : n.iBlocks.toNat ≤ index
  · rw [lookup_past hpast, getElem?_eq_none (by omega), getD_none]
  have hlt : index < n.iBlocks.toNat := Nat.not_le.mp hpast
  by_cases hdirect : index < 12 ∨ n.iBlocks.toNat ≤ 15
  · rw [lookup_direct hlt hdirect, Fs.dataBlocks, getElem?_dataOf_direct hlt hdirect, getD_some]
  by_cases hsingle : index < 12 + S
  · have hlo : treeBase S 0 ≤ index := by
      rw [treeBase]
      omega
    rw [lookup_single hr hw hok hS (by omega) hlt (by omega) hsingle, Fs.dataBlocks, hS,
      getElem?_dataOf_tree (j := 0) (by omega) (by omega) hlo (by rwa [treeBase_one]) hlt,
      leaf_one, getD_some, treeBase]
  · -- below the first entry of the double pointer block
    have hq : index - S - 12 < S := by omega
    have hsub : index - treeBase S 1 = index - S - 12 := by
      rw [treeBase_one]
      omega
    have hhi : index < treeBase S 2 := by
      rw [treeBase_two]
      omega
    rw [lookup_double hr hw hok hS rfl hlt (by omega) (by rw [Layout.blocksInDoublePtr, hS]; omega),
      Fs.dataBlocks, hS,
      getElem?_dataOf_tree (j := 1) (by omega) (by omega) (by rw [treeBase_one]; omega) hhi hlt,
      getD_some, Fs.entry_of_lt (by omega), hsub]
    simp [leaf, Nat.div_eq_of_lt hq, Nat.mod_eq_of_lt hq]

end Code

/-! ### What the lookup finds -/

/-- The index of the first block below the triple pointer block. -/
def Layout.tripleStart (l : Layout) : ℕ := 12 + l.blocksInSinglePtr + l.blocksInDoublePtr

/-- The index of the block of a file that looking up the block `i` finds; none when the lookup
reads past the end of a pointer block. -/
def Layout.lookupIndex (l : Layout) (i : ℕ) : Option ℕ :=
  if i < 12 + 2 * l.blocksInSinglePtr then some i
  else if i < l.tripleStart then none
  else if (i - l.tripleStart) % l.blocksInDoublePtr < l.blocksInSinglePtr then
    some (l.tripleStart + ((i - l.tripleStart) / l.blocksInDoublePtr * l.blocksInSinglePtr +
      (i - l.tripleStart) % l.blocksInDoublePtr))
  else none

/-- The lookup finds the right block among the direct ones, below the single pointer block and
below the first pointer block of the double and of the triple one. -/
theorem Layout.lookupIndex_eq_self_iff {l : Layout} (hl : l.Wf) {i : ℕ} :
    l.lookupIndex i = some i ↔
      i < 12 + 2 * l.blocksInSinglePtr ∨
      l.tripleStart ≤ i ∧ i < l.tripleStart + l.blocksInSinglePtr := by
  have hS := hl.blocksInSinglePtr_ge
  have hSD : l.blocksInSinglePtr < l.blocksInDoublePtr := Nat.lt_mul_self_iff.mpr (by omega)
  have hstart : l.tripleStart = 12 + l.blocksInSinglePtr + l.blocksInDoublePtr := rfl
  unfold Layout.lookupIndex
  split_ifs with hlow hdouble hwild
  · simp [hlow]
  · refine iff_of_false (by simp) ?_
    omega
  · obtain ⟨t, rfl⟩ : ∃ t, i = l.tripleStart + t := ⟨i - l.tripleStart, by omega⟩
    rw [Nat.add_sub_cancel_left] at hwild ⊢
    have hsplit := Nat.div_add_mod' t l.blocksInDoublePtr
    rw [some.injEq]
    rcases Nat.eq_zero_or_pos (t / l.blocksInDoublePtr) with h0 | hpos
    · rw [h0, Nat.zero_mul] at hsplit ⊢
      omega
    · have hless : t / l.blocksInDoublePtr * l.blocksInSinglePtr <
          t / l.blocksInDoublePtr * l.blocksInDoublePtr := Nat.mul_lt_mul_of_pos_left hSD hpos
      have hge := Nat.le_mul_of_pos_left l.blocksInDoublePtr hpos
      omega
  · have hmod := Nat.mod_le (i - l.tripleStart) l.blocksInDoublePtr
    refine iff_of_false (by simp) ?_
    omega

section Found

variable {s : Fs} {n : Inode} {index : ℕ} (hw : s.Wf) (hok : s.InodeOk n)
  (hi : index < n.iBlocks.toNat)
include hw hok hi

/-- **What a lookup finds** on a reliable device: the block of an index that is not larger. -/
theorem lookup_found {env : Env} {k : ℕ} (hr : env.Reliable)
    (hk : s.layout.lookupIndex index = some k) :
    (getBlockNumFromInode env n index).eval s = (.ok ((s.dataBlocks n).getD k 0), s) ∧
      k ≤ index := by
  have hle := hok.le
  have hS64 := hw.layout.blocksInSinglePtr_ge
  have hbase : treeBase s.layout.blocksInSinglePtr 2 = s.layout.tripleStart := treeBase_two
  unfold Layout.lookupIndex at hk
  obtain ⟨S, hS⟩ : ∃ S, s.layout.blocksInSinglePtr = S := ⟨_, rfl⟩
  obtain ⟨D, hD⟩ : ∃ D, s.layout.blocksInDoublePtr = D := ⟨_, rfl⟩
  have hDS : D = S ^ 2 := by rw [← hD, Layout.blocksInDoublePtr, hS, pow_two]
  have hSD : S ≤ D := hDS ▸ pow_two S ▸ Nat.le_mul_self _
  have hstart : s.layout.tripleStart = 12 + S + D := by rw [Layout.tripleStart, hS, hD]
  rw [Layout.maxFileBlocks_eq, hS] at hle
  rw [hS] at hbase hk hS64
  rw [hD] at hk
  split_ifs at hk with hlow hdouble hwild
  · cases hk
    exact ⟨getBlockNumFromInode_eval hr hw hok hS (.inl hlow), le_refl _⟩
  · rw [← hbase] at hk hwild
    rw [lookup_triple hr hw hok hS hD hi (by omega), Fs.entry_of_lt (hS ▸ hwild)]
    generalize ht : index - treeBase S 2 = t at hk hwild ⊢
    have hsplit := Nat.div_add_mod' t D
    have hdig : t / D < S := by
      refine Nat.div_lt_of_lt_mul ?_
      have hcube : D * S = S ^ (2 + 1) := by
        rw [hDS]
        exact (pow_succ _ 2).symm
      rw [treeBase] at hle
      omega
    obtain ⟨v, hv⟩ : ∃ v, v = t / D * S + t % D := ⟨_, rfl⟩
    rw [← hv] at hk
    obtain rfl := some.inj hk
    have hmul : t / D * S ≤ t / D * D := Nat.mul_le_mul_left _ hSD
    have hvD : v < S ^ 2 := by
      have := Nat.mul_le_mul_right S (Nat.succ_le_of_lt hdig)
      rw [Nat.succ_mul] at this
      rw [pow_two]
      omega
    have hvdiv : v / S = t / D := by
      rw [hv, Nat.add_comm, Nat.add_mul_div_right _ _ (by omega), Nat.div_eq_of_lt hwild,
        Nat.zero_add]
    have hvmod : v % S = t % D := by
      rw [hv, Nat.add_comm, Nat.add_mul_mod_self_right, Nat.mod_eq_of_lt hwild]
    have hcube : S ^ 2 < S ^ (2 + 1) := Nat.pow_lt_pow_right (by omega) (by omega)
    refine ⟨?_, by omega⟩
    rw [getD_eq_getElem?_getD, Fs.dataBlocks, hS,
      getElem?_dataOf_tree (j := 2) (by omega) (by omega) (Nat.le_add_right _ _)
        (Nat.add_lt_add_left (hvD.trans hcube) _) (by omega), Nat.add_sub_cancel_left]
    simp only [leaf, Nat.div_eq_of_lt hvD, Nat.mod_eq_of_lt hvD, pow_one, pow_zero, hvdiv, hvmod,
      Nat.div_one, getD_some]

/-- A lookup that leaves the pointer blocks finds what lies behind one of them. -/
theorem lookup_wild (hk : s.layout.lookupIndex index = none) :
    ∃ x j, ∀ env : Env, env.Reliable →
      (getBlockNumFromInode env n index).eval s = (.ok (env.wild x j % 2 ^ 32), s) := by
  have hstart : s.layout.tripleStart =
    12 + s.layout.blocksInSinglePtr + s.layout.blocksInDoublePtr := rfl
  have hbase : treeBase s.layout.blocksInSinglePtr 2 = s.layout.tripleStart := treeBase_two
  unfold Layout.lookupIndex at hk
  split_ifs at hk with hlow hdouble hwild
  · refine ⟨s.ptr (n.blk 13) 0, index - s.layout.blocksInSinglePtr - 12, fun env hr => ?_⟩
    rw [lookup_double hr hw hok rfl rfl hi (by omega) (by omega), Fs.entry, if_neg (by omega)]
  · rw [← hbase] at hwild
    refine ⟨s.ptr (s.ptr (n.blk 14) 0)
      ((index - treeBase s.layout.blocksInSinglePtr 2) / s.layout.blocksInDoublePtr),
      (index - treeBase s.layout.blocksInSinglePtr 2) % s.layout.blocksInDoublePtr,
      fun env hr => ?_⟩
    rw [lookup_triple hr hw hok rfl rfl hi (by omega), Fs.entry, if_neg hwild]

end Found

end OsPi
