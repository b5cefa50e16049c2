import OsPi.Fs.BitmapSpec
import OsPi.Lib.PtrTree

/-!
# The Block Map of an Inode

Which blocks an inode with `c` blocks owns: up to fifteen direct ones, and beyond that
twelve direct ones and three trees of pointer blocks, of heights one, two and three, filled
one after the other. `dataOf` lists its data blocks in file order and `ptrsOf` its pointer
blocks, over any memory of pointers and any array of roots.

`dataOf_succ` and `ptrsOf_succ` add a block to the map; `map_eq_of_tip` says that the
pointer the next block will hang from is free to change.
-/

namespace OsPi

open PtrTree List

/-- The index of the first block below the root `12 + i`. -/
def treeBase (S : ℕ) : ℕ → ℕ
  | 0 => 12
  | i + 1 => treeBase S i + S ^ (i + 1)

/-- The number of blocks, of `c` in all, that lie below the root `12 + i`. -/
def treeCount (S i c : ℕ) : ℕ := min (c - treeBase S i) (S ^ (i + 1))

section Maps

variable (S : ℕ) (mem : ℕ → ℕ → ℕ) (blk : ℕ → ℕ)

/-- The data blocks of an inode with `c` blocks. -/
def dataOf (c : ℕ) : List ℕ :=
  if c ≤ 15 then (List.range c).map blk
  else (List.range 12).map blk ++
    (List.range 3).flatMap fun i => leaves S mem (i + 1) (blk (12 + i)) (treeCount S i c)

/-- The pointer blocks of an inode with `c` blocks. -/
def ptrsOf (c : ℕ) : List ℕ :=
  if c ≤ 15 then []
  else (List.range 3).flatMap fun i => nodes S mem (i + 1) (blk (12 + i)) (treeCount S i c)

end Maps

variable {S : ℕ} {mem mem' : ℕ → ℕ → ℕ} {blk blk' : ℕ → ℕ} {c i j : ℕ}

/-! ### Levels -/

theorem treeBase_mono {i : ℕ} (h : i < j) : treeBase S i + S ^ (i + 1) ≤ treeBase S j := by
  induction j with
  | zero => omega
  | succ j ih =>
    by_cases hij : i = j
    · rw [hij, treeBase]
    · have := ih (by omega)
      rw [treeBase]
      omega

theorem treeCount_level (hlo : treeBase S i ≤ c) (hhi : c < treeBase S i + S ^ (i + 1)) :
    treeCount S i c = c - treeBase S i := by
  unfold treeCount
  omega

theorem treeCount_succ_level (hlo : treeBase S i ≤ c) (hhi : c < treeBase S i + S ^ (i + 1)) :
    treeCount S i (c + 1) = c - treeBase S i + 1 := by
  unfold treeCount
  omega

theorem treeCount_of_gt (hhi : c < treeBase S i + S ^ (i + 1)) (hj : i < j) :
    treeCount S j c = 0 := by
  have := @treeBase_mono S _ _ hj
  unfold treeCount
  omega

theorem treeCount_succ_of_gt (hhi : c < treeBase S i + S ^ (i + 1)) (hj : i < j) :
    treeCount S j (c + 1) = 0 := by
  have := @treeBase_mono S _ _ hj
  unfold treeCount
  omega

theorem treeCount_succ_of_lt (hlo : treeBase S i ≤ c) (hj : j < i) :
    treeCount S j (c + 1) = treeCount S j c := by
  have := @treeBase_mono S _ _ hj
  unfold treeCount
  omega

/-! ### One more block -/

section Succ

variable (hi : i < 3) (h15 : 15 < c) (hlo : treeBase S i ≤ c)
  (hhi : c < treeBase S i + S ^ (i + 1))
include hi h15 hlo hhi

theorem dataOf_succ :
    dataOf S mem blk (c + 1) =
      dataOf S mem blk c ++ [leaf S mem (i + 1) (blk (12 + i)) (c - treeBase S i)] := by
  obtain ⟨l, hf, hg⟩ := flatMap_range_succ
    (f := fun j => leaves S mem (j + 1) (blk (12 + j))) hi (fun j => leaves_zero _ _)
    (fun j => treeCount_succ_of_lt hlo) (fun j => treeCount_of_gt hhi)
    (fun j => treeCount_succ_of_gt hhi)
  rw [dataOf, dataOf, if_neg (by omega), if_neg (by omega), hf, hg, treeCount_level hlo hhi,
    treeCount_succ_level hlo hhi, leaves_succ _ (by omega)]
  simp only [append_assoc]

theorem ptrsOf_succ :
    (ptrsOf S mem blk (c + 1)).Perm
      (ptrsOf S mem blk c ++ fresh S mem (i + 1) (blk (12 + i)) (c - treeBase S i)) := by
  obtain ⟨l, hf, hg⟩ := flatMap_range_succ
    (f := fun j => nodes S mem (j + 1) (blk (12 + j))) hi (fun j => nodes_zero _ _)
    (fun j => treeCount_succ_of_lt hlo) (fun j => treeCount_of_gt hhi)
    (fun j => treeCount_succ_of_gt hhi)
  rw [ptrsOf, ptrsOf, if_neg (by omega), if_neg (by omega), hf, hg, treeCount_level hlo hhi,
    treeCount_succ_level hlo hhi, append_assoc]
  exact List.Perm.append_left _ (nodes_succ _ (by omega))

end Succ

/-- The nodes of the tree at a level are pointer blocks, and distinct when those are. -/
theorem nodes_sublist_ptrsOf (hi : i < 3) (h15 : 15 < c) (hlo : treeBase S i ≤ c)
    (hhi : c < treeBase S i + S ^ (i + 1)) :
    (nodes S mem (i + 1) (blk (12 + i)) (c - treeBase S i)).Sublist (ptrsOf S mem blk c) := by
  rw [ptrsOf, if_neg (by omega), ← treeCount_level hlo hhi]
  exact sublist_flatten_of_mem (List.mem_map.mpr ⟨i, mem_range.mpr hi, rfl⟩)

/-- The map of sixteen blocks: the first with a pointer block. -/
theorem map_sixteen (hS : 4 ≤ S) :
    dataOf S mem blk 16 = (List.range 12).map blk ++ (List.range 4).map (mem (blk 12)) ∧
      ptrsOf S mem blk 16 = [blk 12] := by
  have h0 : treeCount S 0 16 = 4 := by
    simp only [treeCount, treeBase, zero_add, pow_one]
    omega
  have h1 : treeCount S 1 16 = 0 ∧ treeCount S 2 16 = 0 := by
    simp only [treeCount, treeBase, zero_add, pow_one]
    omega
  constructor
  · simp [dataOf, range_succ, h0, h1, leaves_one, hS]
  · simp [ptrsOf, range_succ, h0, h1, nodes]

/-! ### The same map in two memories -/

theorem mem_ptrsOf {x : ℕ} (h15 : ¬c ≤ 15) (hj : j < 3)
    (hx : x ∈ nodes S mem (j + 1) (blk (12 + j)) (treeCount S j c)) : x ∈ ptrsOf S mem blk c := by
  rw [ptrsOf, if_neg h15]
  exact mem_flatMap.mpr ⟨j, mem_range.mpr hj, hx⟩

/-- The same direct blocks and the same trees give the same map. -/
theorem map_of_trees (h15 : ¬c ≤ 15) (hblk : ∀ j < 12, blk' j = blk j)
    (htree : ∀ j < 3,
      SameTree S mem mem' (j + 1) (blk (12 + j)) (blk' (12 + j)) (treeCount S j c)) :
    dataOf S mem' blk' c = dataOf S mem blk c ∧ ptrsOf S mem' blk' c = ptrsOf S mem blk c := by
  have hdirect : (List.range 12).map blk' = (List.range 12).map blk :=
    map_congr_left fun j hj => hblk j (mem_range.mp hj)
  simp only [dataOf, ptrsOf, if_neg h15]
  exact ⟨by rw [hdirect, flatMap_congr fun j hj => (htree j (mem_range.mp hj)).1],
    flatMap_congr fun j hj => (htree j (mem_range.mp hj)).2⟩

/-- Memories that agree on the pointer blocks, with the same roots, give the same map. -/
theorem map_congr (hblk : ∀ j < 15, blk' j = blk j)
    (h : ∀ x ∈ ptrsOf S mem blk c, ∀ j < S, mem' x j = mem x j) :
    dataOf S mem' blk' c = dataOf S mem blk c ∧ ptrsOf S mem' blk' c = ptrsOf S mem blk c := by
  by_cases h15 : c ≤ 15
  · simp only [dataOf, ptrsOf, if_pos h15, and_true]
    exact map_congr_left fun j hj => hblk j (by have := mem_range.mp hj; omega)
  · refine map_of_trees h15 (fun j hj => hblk j (by omega)) fun j hj => ?_
    rw [hblk (12 + j) (by omega)]
    exact tree_congr _ fun x hx => h x (mem_ptrsOf h15 hj hx)

/-- **The next pointer is free**: memories that agree on the pointer blocks except at the
tip of level `i`, with the same roots except that of an empty tree of that level, give the
same map. -/
theorem map_eq_of_tip (hi : i < 3) (h15 : 15 < c) (hlo : treeBase S i ≤ c)
    (hhi : c < treeBase S i + S ^ (i + 1)) (hnd : (ptrsOf S mem blk c).Nodup)
    (hblk : ∀ j < 15, j ≠ 12 + i → blk' j = blk j)
    (hroot : c ≠ treeBase S i → blk' (12 + i) = blk (12 + i))
    (h : ∀ x ∈ ptrsOf S mem blk c, ∀ j < S,
      tip S mem (i + 1) (blk (12 + i)) (c - treeBase S i) ≠ some (x, j) → mem' x j = mem x j) :
    dataOf S mem' blk' c = dataOf S mem blk c ∧ ptrsOf S mem' blk' c = ptrsOf S mem blk c := by
  have hc15 : ¬c ≤ 15 := by omega
  have hnd' := hnd
  rw [ptrsOf, if_neg hc15] at hnd'
  refine map_of_trees hc15 (fun j hj => hblk j (by omega) (by omega)) fun j hj => ?_
  by_cases hij : j = i
  · subst hij
    by_cases hbase : c = treeBase S j
    · have hzero : treeCount S j c = 0 := by rw [treeCount_level hlo hhi]; omega
      exact hzero ▸ .empty ..
    · have h' := fun x => @mem_ptrsOf S mem blk c j x hc15 hj
      have hnd'' := (nodup_flatMap.mp hnd').1 j (mem_range.mpr hj)
      rw [treeCount_level hlo hhi] at h' hnd'' ⊢
      rw [hroot hbase]
      exact tree_eq_of_tip (by omega) hnd'' fun x hx => h x (h' x hx)
  · rw [hblk (12 + j) (by omega) (by omega)]
    refine tree_congr _ fun x hx k hk => h x (mem_ptrsOf hc15 hj hx) k hk fun htip => ?_
    -- the tip is a node of another tree
    have hx' := tip_mem_nodes (by omega) htip
    rw [← treeCount_level hlo hhi] at hx'
    exact not_mem_child_of_ne hnd' hj hi hij hx hx'

end OsPi
