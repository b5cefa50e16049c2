import Mathlib.Data.List.Nodup
import Mathlib.Data.List.Perm.Basic
import Mathlib.Tactic.Ring

/-!
# Trees of Pointer Blocks

A memory `mem` gives each node a row of pointers: `mem x i` is the `i`-th pointer of `x`. A
tree of height `k` with fanout `S` below a root holds up to `S ^ k` leaves, filled from left
to right; a tree with `c` leaves is the first `c` leaves together with the nodes on the way
to them. Nothing is known about the other pointers.

`leaves` and `nodes` list the two. `leaf` is the leaf a descent by the digits of an index in
base `S` ends at, and `fresh` the nodes on that descent that the tree with `c` leaves does
not have yet. `leaves_succ` and `nodes_succ` say how a tree with one more leaf relates to
the tree before. `tip` is the one pointer of the old nodes that the new leaf hangs from:
`leaves_eq_of_tip` and `nodes_eq_of_tip` say that changing it, or anything outside the
nodes, does not change the tree.
-/

namespace PtrTree

open List

variable (S : ℕ) (mem : ℕ → ℕ → ℕ)

/-- The leaves of the tree of height `k` with `c` leaves below `r`. -/
def leaves : ℕ → ℕ → ℕ → List ℕ
  | 0, r, c => if c = 0 then [] else [r]
  | k + 1, r, c =>
    (List.range S).flatMap fun i => leaves k (mem r i) (min (c - i * S ^ k) (S ^ k))

/-- The nodes of the tree of height `k` with `c` leaves below `r`. -/
def nodes : ℕ → ℕ → ℕ → List ℕ
  | 0, _, _ => []
  | k + 1, r, c =>
    if c = 0 then []
    else r :: (List.range S).flatMap fun i => nodes k (mem r i) (min (c - i * S ^ k) (S ^ k))

/-- The leaf with index `c`. -/
def leaf : ℕ → ℕ → ℕ → ℕ
  | 0, r, _ => r
  | k + 1, r, c => leaf k (mem r (c / S ^ k)) (c % S ^ k)

/-- The nodes on the way to the leaf with index `c` that lead to no leaf before it. -/
def fresh : ℕ → ℕ → ℕ → List ℕ
  | 0, _, _ => []
  | k + 1, r, c => (if c = 0 then [r] else []) ++ fresh k (mem r (c / S ^ k)) (c % S ^ k)

/-- The deepest node on the way to the leaf with index `c` that leads to a leaf before it,
with the pointer that leads on. -/
def tip : ℕ → ℕ → ℕ → Option (ℕ × ℕ)
  | 0, _, _ => none
  | k + 1, r, c =>
    if c = 0 then none
    else if c % S ^ k = 0 then some (r, c / S ^ k)
    else tip k (mem r (c / S ^ k)) (c % S ^ k)

variable {S mem} {k r c i x j : ℕ}

/-! ### Rows -/

/-- A row whose lists are empty after `d`. -/
theorem flatMap_range_of_nil {d : ℕ} (hd : d < S) {f : ℕ → List ℕ}
    (hf : ∀ i, d < i → f i = []) :
    (List.range S).flatMap f = (List.range d).flatMap f ++ f d := by
  obtain ⟨e, rfl⟩ : ∃ e, S = d + 1 + e := ⟨S - (d + 1), by omega⟩
  have htail : ((List.range e).map (d + 1 + ·)).flatMap f = [] := by
    refine flatMap_eq_nil_iff.mpr fun i hi => ?_
    obtain ⟨j, -, rfl⟩ := List.mem_map.mp hi
    exact hf _ (by omega)
  rw [range_add, flatMap_append, htail, append_nil, range_succ, flatMap_append, flatMap_singleton]

/-- Two rows with the same counts before `d` and none after it. -/
theorem flatMap_range_succ {d : ℕ} (hd : d < S) {f : ℕ → ℕ → List ℕ} {u v : ℕ → ℕ}
    (hf : ∀ i, f i 0 = []) (hlt : ∀ i < d, v i = u i) (hu : ∀ i, d < i → u i = 0)
    (hv : ∀ i, d < i → v i = 0) :
    ∃ l, (List.range S).flatMap (fun i => f i (u i)) = l ++ f d (u d) ∧
      (List.range S).flatMap (fun i => f i (v i)) = l ++ f d (v d) := by
  refine ⟨_, flatMap_range_of_nil hd fun i hi => by rw [hu i hi, hf], ?_⟩
  rw [flatMap_range_of_nil hd fun i hi => by rw [hv i hi, hf]]
  exact congrArg (· ++ _) (flatMap_congr fun i hi => by rw [hlt i (mem_range.mp hi)])

/-! ### Counts below a row -/

theorem digit_lt (hc : c < S ^ (k + 1)) : c / S ^ k < S := by
  exact Nat.div_lt_of_lt_mul hc

theorem pow_pos_of_lt (hc : c < S ^ (k + 1)) : 0 < S ^ k :=
  Nat.pos_of_mul_pos_right (Nat.zero_lt_of_lt hc)

/-- Before the digit, a child is full. -/
theorem count_of_lt (hi : i < c / S ^ k) : min (c - i * S ^ k) (S ^ k) = S ^ k := by
  have hle := Nat.mul_le_of_le_div _ _ _ hi
  rw [Nat.succ_mul] at hle
  omega

/-- At the digit, a child has the rest. -/
theorem count_of_eq (hp : 0 < S ^ k) :
    min (c - c / S ^ k * S ^ k) (S ^ k) = c % S ^ k := by
  have h1 := Nat.div_add_mod' c (S ^ k)
  have h2 := Nat.mod_lt c hp
  generalize c % S ^ k = m at h1 h2 ⊢
  omega

/-- After the digit, a child is empty. -/
theorem count_of_gt (hp : 0 < S ^ k) (hi : c / S ^ k < i) :
    min (c - i * S ^ k) (S ^ k) = 0 := by
  have hlt := (Nat.div_lt_iff_lt_mul hp).mp hi
  omega

/-- One more leaf fills one more place at the digit and changes no other child. -/
theorem count_succ_of_ne (hp : 0 < S ^ k) (hi : i ≠ c / S ^ k) :
    min (c + 1 - i * S ^ k) (S ^ k) = min (c - i * S ^ k) (S ^ k) := by
  rcases Nat.lt_or_gt_of_ne hi with h | h
  · rw [count_of_lt h, count_of_lt (h.trans_le (Nat.div_le_div_right c.le_succ))]
  · have hlt := (Nat.div_lt_iff_lt_mul hp).mp h
    omega

theorem count_succ_of_eq (hp : 0 < S ^ k) :
    min (c + 1 - c / S ^ k * S ^ k) (S ^ k) = c % S ^ k + 1 := by
  have h1 := Nat.div_add_mod' c (S ^ k)
  have h2 := Nat.mod_lt c hp
  generalize c % S ^ k = m at h1 h2 ⊢
  omega

/-- A row with one more leaf differs at the digit. -/
theorem row_succ (hc : c < S ^ (k + 1)) {f : ℕ → ℕ → List ℕ} (hf : ∀ i, f i 0 = []) :
    ∃ l, (List.range S).flatMap (fun i => f i (min (c - i * S ^ k) (S ^ k))) =
        l ++ f (c / S ^ k) (c % S ^ k) ∧
      (List.range S).flatMap (fun i => f i (min (c + 1 - i * S ^ k) (S ^ k))) =
        l ++ f (c / S ^ k) (c % S ^ k + 1) := by
  have hp := pow_pos_of_lt hc
  have := flatMap_range_succ (digit_lt hc) hf
    (fun i hi => count_succ_of_ne hp (Nat.ne_of_lt hi)) (fun i => count_of_gt hp) fun i hi => by
      rw [count_succ_of_ne hp (Nat.ne_of_gt hi), count_of_gt hp hi]
  rwa [count_of_eq hp, count_succ_of_eq hp] at this

/-! ### Trees with one more leaf -/

@[simp] theorem leaves_zero (k r : ℕ) : leaves S mem k r 0 = [] := by
  induction k generalizing r with
  | zero => rfl
  | succ k ih => simp [leaves, ih]

@[simp] theorem nodes_zero (k r : ℕ) : nodes S mem k r 0 = [] := by
  cases k <;> simp [nodes]

theorem leaves_succ (r : ℕ) (hc : c < S ^ k) :
    leaves S mem k r (c + 1) = leaves S mem k r c ++ [leaf S mem k r c] := by
  induction k generalizing r c with
  | zero =>
    obtain rfl : c = 0 := by simpa using hc
    simp [leaves, leaf]
  | succ k ih =>
    obtain ⟨l, hf, hg⟩ := row_succ (f := fun i => leaves S mem k (mem r i)) hc fun i =>
      leaves_zero k (mem r i)
    rw [leaves, leaves, hf, hg, ih _ (Nat.mod_lt c (pow_pos_of_lt hc)), leaf, append_assoc]

theorem nodes_succ (r : ℕ) (hc : c < S ^ k) :
    (nodes S mem k r (c + 1)).Perm (nodes S mem k r c ++ fresh S mem k r c) := by
  induction k generalizing r c with
  | zero => simp [nodes, fresh]
  | succ k ih =>
    obtain ⟨l, hf, hg⟩ := row_succ (f := fun i => nodes S mem k (mem r i)) hc fun i =>
      nodes_zero k (mem r i)
    have hrow := (ih (mem r (c / S ^ k)) (Nat.mod_lt c (pow_pos_of_lt hc))).append_left l
    rw [← append_assoc, ← hf, ← hg] at hrow
    by_cases h0 : c = 0
    · subst h0
      have hnil : ((List.range S).flatMap fun _ => ([] : List ℕ)) = [] := by simp
      simpa [nodes, fresh, hnil] using hrow
    · simpa [nodes, fresh, h0] using hrow

theorem length_leaves (r : ℕ) (hc : c ≤ S ^ k) :
    (leaves S mem k r c).length = c := by
  induction c with
  | zero => simp
  | succ c ih => rw [leaves_succ r hc, length_append, ih (by omega), length_singleton]

/-- The `i`-th of the leaves. -/
theorem getElem?_leaves (r : ℕ) (hc : c ≤ S ^ k) (hi : i < c) :
    (leaves S mem k r c)[i]? = some (leaf S mem k r i) := by
  induction c with
  | zero => omega
  | succ c ih =>
    have hlen : (leaves S mem k r c).length = c := length_leaves r (by omega)
    rw [leaves_succ r hc, getElem?_append, hlen]
    by_cases h : i < c
    · rw [if_pos h, ih (by omega) h]
    · obtain rfl : i = c := by omega
      rw [if_neg h, Nat.sub_self, getElem?_cons_zero]

/-! ### Trees in two memories -/

variable {mem' : ℕ → ℕ → ℕ}

variable (S mem mem') in
/-- The subtrees of the two memories at `r` and `r'` are the same. -/
abbrev SameTree (k r r' c : ℕ) : Prop :=
  leaves S mem' k r' c = leaves S mem k r c ∧ nodes S mem' k r' c = nodes S mem k r c

theorem SameTree.empty (k r r' : ℕ) : SameTree S mem mem' k r r' 0 := by
  constructor <;> simp

/-- The nodes below a child are nodes. -/
theorem mem_nodes_of_child (h0 : c ≠ 0) (hi : i < S)
    (hx : x ∈ nodes S mem k (mem r i) (min (c - i * S ^ k) (S ^ k))) :
    x ∈ nodes S mem (k + 1) r c := by
  rw [nodes, if_neg h0]
  exact mem_cons_of_mem _ (mem_flatMap.mpr ⟨i, mem_range.mpr hi, hx⟩)

/-- Trees with the same children are the same. -/
theorem sameTree_of_children
    (h : ∀ i < S, SameTree S mem mem' k (mem r i) (mem' r i) (min (c - i * S ^ k) (S ^ k))) :
    SameTree S mem mem' (k + 1) r r c := by
  refine ⟨flatMap_congr fun i hi => (h i (mem_range.mp hi)).1, ?_⟩
  rw [nodes, nodes]
  congr 2
  exact flatMap_congr fun i hi => (h i (mem_range.mp hi)).2

/-- Two memories that agree on the rows of the nodes hold the same tree. -/
theorem tree_congr (r : ℕ) (h : ∀ x ∈ nodes S mem k r c, ∀ j < S, mem' x j = mem x j) :
    SameTree S mem mem' k r r c := by
  induction k generalizing r c with
  | zero => exact ⟨rfl, rfl⟩
  | succ k ih =>
    by_cases h0 : c = 0
    · exact h0 ▸ .empty ..
    · refine sameTree_of_children fun i hi => ?_
      rw [h r (by simp [nodes, h0]) i hi]
      exact ih (mem r i) fun x hx => h x (mem_nodes_of_child h0 hi hx)

theorem root_mem_nodes (hc : c ≠ 0) : r ∈ nodes S mem (k + 1) r c := by
  rw [nodes, if_neg hc]
  exact mem_cons_self

/-- The nodes below the digit are nodes. -/
theorem child_mem_nodes (hc : c < S ^ (k + 1))
    (hx : x ∈ nodes S mem k (mem r (c / S ^ k)) (c % S ^ k)) : x ∈ nodes S mem (k + 1) r c := by
  by_cases h0 : c = 0
  · simp [h0] at hx
  · rw [← count_of_eq (pow_pos_of_lt hc)] at hx
    exact mem_nodes_of_child h0 (digit_lt hc) hx

/-- The root is not below itself when the nodes are distinct. -/
theorem root_ne_of_child (hc : c < S ^ (k + 1)) (hnd : (nodes S mem (k + 1) r c).Nodup)
    (hx : x ∈ nodes S mem k (mem r (c / S ^ k)) (c % S ^ k)) : r ≠ x := by
  rintro rfl
  have h0 : c ≠ 0 := by
    rintro rfl
    simp at hx
  rw [nodes, if_neg h0, nodup_cons] at hnd
  refine hnd.1 (mem_flatMap.mpr ⟨c / S ^ k, mem_range.mpr (digit_lt hc), ?_⟩)
  rwa [count_of_eq (pow_pos_of_lt hc)]

/-- The nodes below the digit are distinct when all are. -/
theorem child_nodup (hc : c < S ^ (k + 1)) (hnd : (nodes S mem (k + 1) r c).Nodup) :
    (nodes S mem k (mem r (c / S ^ k)) (c % S ^ k)).Nodup := by
  by_cases h0 : c = 0
  · simp [h0]
  · rw [nodes, if_neg h0, nodup_cons] at hnd
    have h := (nodup_flatMap.mp hnd.2).1 _ (mem_range.mpr (digit_lt hc))
    rwa [count_of_eq (pow_pos_of_lt hc)] at h

/-- The tip is at the root, or below the digit. -/
theorem tip_succ_eq_some : tip S mem (k + 1) r c = some (x, j) ↔
    c ≠ 0 ∧ (c % S ^ k = 0 ∧ r = x ∧ c / S ^ k = j ∨
      c % S ^ k ≠ 0 ∧ tip S mem k (mem r (c / S ^ k)) (c % S ^ k) = some (x, j)) := by
  rw [tip]
  split_ifs <;> simp [*]

/-- The node of the tip is a node. -/
theorem tip_mem_nodes (hc : c < S ^ k) (h : tip S mem k r c = some (x, j)) :
    x ∈ nodes S mem k r c := by
  induction k generalizing r c with
  | zero => simp [tip] at h
  | succ k ih =>
    obtain ⟨h0, ⟨-, rfl, -⟩ | ⟨-, h⟩⟩ := tip_succ_eq_some.mp h
    · exact root_mem_nodes h0
    · exact child_mem_nodes hc (ih (Nat.mod_lt c (pow_pos_of_lt hc)) h)

/-- Children of distinct places have no node in common when the nodes are distinct. -/
theorem not_mem_child_of_ne {f : ℕ → List ℕ}
    (hnd : ((List.range S).flatMap f).Nodup) (hi : i < S) (hj : j < S) (hij : i ≠ j)
    (hx : x ∈ f i) : x ∉ f j := by
  intro hx'
  have hpair := (nodup_flatMap.mp hnd).2
  rcases Nat.lt_or_gt_of_ne hij with h | h
  · exact (pairwise_iff_getElem.mp hpair i j (by simpa) (by simpa) h)
      (by simpa using hx) (by simpa using hx')
  · exact (pairwise_iff_getElem.mp hpair j i (by simpa) (by simpa) h)
      (by simpa using hx') (by simpa using hx)

/-- **The tip is free**: memories that agree on the rows of the nodes, except possibly at
the tip, hold the same tree. -/
theorem tree_eq_of_tip (hc : c < S ^ k) (hnd : (nodes S mem k r c).Nodup)
    (h : ∀ x ∈ nodes S mem k r c, ∀ j < S, tip S mem k r c ≠ some (x, j) →
      mem' x j = mem x j) :
    SameTree S mem mem' k r r c := by
  induction k generalizing r c with
  | zero => exact ⟨rfl, rfl⟩
  | succ k ih =>
    have hp := pow_pos_of_lt hc
    by_cases h0 : c = 0
    · exact h0 ▸ .empty ..
    have hd := digit_lt hc
    rw [nodes, if_neg h0, nodup_cons] at hnd
    obtain ⟨hr, hnd⟩ := hnd
    -- the children before the digit are full, the one at the digit holds the tip
    have htip : ∀ x j, tip S mem (k + 1) r c = some (x, j) →
        (x = r ∧ j = c / S ^ k ∧ c % S ^ k = 0) ∨
        (tip S mem k (mem r (c / S ^ k)) (c % S ^ k) = some (x, j) ∧
          x ∈ nodes S mem k (mem r (c / S ^ k)) (min (c - c / S ^ k * S ^ k) (S ^ k))) := by
      intro x j hx
      obtain ⟨-, ⟨hm, rfl, rfl⟩ | ⟨-, hx⟩⟩ := tip_succ_eq_some.mp hx
      · exact .inl ⟨rfl, rfl, hm⟩
      · rw [count_of_eq hp]
        exact .inr ⟨hx, tip_mem_nodes (Nat.mod_lt c hp) hx⟩
    have hrow : ∀ i < S, min (c - i * S ^ k) (S ^ k) ≠ 0 → mem' r i = mem r i := by
      intro i hi hne
      refine h r (by simp [nodes, h0]) i hi fun hx => ?_
      rcases htip r i hx with ⟨-, rfl, hm⟩ | ⟨-, hx'⟩
      · exact hne (by rw [count_of_eq hp, hm])
      · exact hr (mem_flatMap.mpr ⟨_, mem_range.mpr hd, hx'⟩)
    have hchild : ∀ i < S,
        SameTree S mem mem' k (mem r i) (mem r i) (min (c - i * S ^ k) (S ^ k)) := by
      intro i hi
      by_cases hid : i = c / S ^ k
      · subst hid
        have hnd' := nodup_flatMap.mp hnd |>.1 _ (mem_range.mpr hi)
        have h' := fun x => @mem_nodes_of_child S mem k r c _ x h0 hi
        rw [count_of_eq hp] at hnd' h' ⊢
        refine ih (Nat.mod_lt c hp) hnd' fun x hx j hj hne => h x (h' x hx) j hj fun hx' => ?_
        rcases htip x j hx' with ⟨rfl, -, -⟩ | ⟨hx'', -⟩
        · refine hr (mem_flatMap.mpr ⟨_, mem_range.mpr hd, ?_⟩)
          rwa [count_of_eq hp]
        · exact hne hx''
      · refine tree_congr _ fun x hx j hj => h x (mem_nodes_of_child h0 hi hx) j hj fun hx' => ?_
        rcases htip x j hx' with ⟨rfl, -, -⟩ | ⟨-, hx''⟩
        · exact hr (mem_flatMap.mpr ⟨_, mem_range.mpr hi, hx⟩)
        · exact not_mem_child_of_ne hnd hi hd hid hx hx''
    refine sameTree_of_children fun i hi => ?_
    by_cases hne : min (c - i * S ^ k) (S ^ k) = 0
    · exact hne ▸ .empty ..
    · rw [hrow i hi hne]
      exact hchild i hi

/-! ### Hanging a new leaf -/

variable (S) in
/-- The height of what hangs from the tip. -/
def below : ℕ → ℕ → ℕ
  | 0, _ => 0
  | k + 1, c => if c % S ^ k = 0 then k else below k (c % S ^ k)

variable (mem) in
/-- `v` is the first of the nodes `ps`, each of which points to the next with its first
pointer and the last of which points to `b`; without nodes, `v` is `b`. -/
def Chain : ℕ → List ℕ → ℕ → Prop
  | v, [], b => v = b
  | v, p :: ps, b => v = p ∧ Chain (mem p 0) ps b

theorem Chain.leaf_eq {ps : List ℕ} {v b : ℕ} (h : Chain mem v ps b) :
    leaf S mem ps.length v 0 = b ∧ fresh S mem ps.length v 0 = ps := by
  induction ps generalizing v with
  | nil => exact ⟨h, rfl⟩
  | cons p ps ih =>
    obtain ⟨rfl, h⟩ := h
    obtain ⟨hleaf, hfresh⟩ := ih h
    simp [leaf, fresh, hleaf, hfresh]

/-- The way to the new leaf goes through the tip. -/
theorem leaf_of_tip (hc : c < S ^ k) (hnd : (nodes S mem k r c).Nodup)
    (htip : tip S mem k r c = some (x, j))
    (h : ∀ y ∈ nodes S mem k r c, ∀ i < S, tip S mem k r c ≠ some (y, i) →
      mem' y i = mem y i) :
    leaf S mem' k r c = leaf S mem' (below S k c) (mem' x j) 0 ∧
      fresh S mem' k r c = fresh S mem' (below S k c) (mem' x j) 0 := by
  induction k generalizing r c with
  | zero => simp [tip] at htip
  | succ k ih =>
    obtain ⟨h0, ⟨hm, rfl, rfl⟩ | ⟨hm, htip'⟩⟩ := tip_succ_eq_some.mp htip
    · simp [leaf, fresh, below, h0, hm]
    · have hmod := Nat.mod_lt c (pow_pos_of_lt hc)
      have hrow : mem' r (c / S ^ k) = mem r (c / S ^ k) := by
        refine h r (root_mem_nodes h0) _ (digit_lt hc) fun hr => ?_
        obtain ⟨rfl, -⟩ : x = r ∧ _ := by simpa using htip.symm.trans hr
        exact root_ne_of_child hc hnd (tip_mem_nodes hmod htip') rfl
      have hih := ih hmod (child_nodup hc hnd) htip' fun y hy i hi hne =>
        h y (child_mem_nodes hc hy) i hi fun hy' => hne (by rwa [htip', ← htip])
      simpa [leaf, fresh, below, h0, hm, hrow] using hih

variable (S mem) in
/-- The nodes on the way to the leaf with index `c`. -/
def path : ℕ → ℕ → ℕ → List ℕ
  | 0, _, _ => []
  | k + 1, r, c => r :: path k (mem r (c / S ^ k)) (c % S ^ k)

/-- The way to a leaf the tree has goes through its nodes. -/
theorem path_mem_nodes (hc : c ≤ S ^ k) (hi : i < c)
    (hx : x ∈ path S mem k r i) : x ∈ nodes S mem k r c := by
  induction k generalizing r c i with
  | zero => simp [path] at hx
  | succ k ih =>
    have hic : i < S ^ (k + 1) := by omega
    have hpos := pow_pos_of_lt hic
    rcases mem_cons.mp hx with rfl | hx
    · exact root_mem_nodes (by omega)
    · have hsplit := Nat.div_add_mod' i (S ^ k)
      have hmod := Nat.mod_lt i hpos
      rw [nodes, if_neg (by omega)]
      refine mem_cons_of_mem _ (mem_flatMap.mpr
        ⟨i / S ^ k, mem_range.mpr (digit_lt hic), ih (Nat.min_le_right _ _) ?_ hx⟩)
      generalize i % S ^ k = m at hsplit hmod ⊢
      omega

section Low

variable (r c : ℕ)

theorem leaf_one : leaf S mem 1 r c = mem r c := by
  simp [leaf]

theorem tip_one : tip S mem 1 r c = if c = 0 then none else some (r, c) := by
  simp [tip, Nat.mod_one]

theorem tip_two :
    tip S mem 2 r c =
      if c = 0 then none
      else if c % S = 0 then some (r, c / S)
      else some (mem r (c / S), c % S) := by
  rw [tip, pow_one, tip_one]
  split_ifs <;> rfl

theorem tip_three :
    tip S mem 3 r c =
      if c = 0 then none
      else if c % S ^ 2 = 0 then some (r, c / S ^ 2)
      else if c % S ^ 2 % S = 0 then some (mem r (c / S ^ 2), c % S ^ 2 / S)
      else some (mem (mem r (c / S ^ 2)) (c % S ^ 2 / S), c % S ^ 2 % S) := by
  rw [tip, tip_two]
  split_ifs <;> rfl

/-- A tree of height one is a row. -/
theorem leaves_one (hc : c ≤ S) : leaves S mem 1 r c = (List.range c).map (mem r) := by
  induction c with
  | zero => simp
  | succ c ih =>
    rw [leaves_succ r (by rw [pow_one]; omega), ih (by omega), leaf_one, range_succ,
      map_append, map_singleton]

end Low

end PtrTree
