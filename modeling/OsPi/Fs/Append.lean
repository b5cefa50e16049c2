import OsPi.Fs.Alloc

/-!
# Appending a Block

`allocate_block_for_file_inode` on a reliable device, for every size of the inode. A
successful call adds one block at the end of the data blocks and the pointer blocks it
needs, all of them free before (`Grown`); a failing one leaves the inode as it is and at
most leaks blocks.
-/

namespace OsPi

open PtrTree Comp List

/-- The blocks of an inode: within the data area, distinct, and marked in the bitmap. -/
structure Fs.InodeOk (s : Fs) (n : Inode) : Prop where
  le : n.iBlocks.toNat ≤ s.layout.maxFileBlocks
  nodup : (s.dataBlocks n ++ s.ptrBlocks n).Nodup
  range : ∀ b ∈ s.dataBlocks n ++ s.ptrBlocks n,
    s.layout.dataStartBlock ≤ b ∧ b < s.layout.totalBlocks ∧ s.blockBit b = true

/-- The blocks before the data area are marked in the bitmap. -/
def Fs.MetaBits (s : Fs) : Prop := ∀ b < s.layout.dataStartBlock, s.blockBit b = true

/-- The inode has grown by the data block `b` and the pointer blocks `new`, and only its
pointer blocks have been written. -/
structure Fs.Grown (s : Fs) (n : Inode) (b : ℕ) (new : List ℕ) (s' : Fs) (n' : Inode) :
    Prop where
  attrs : n'.toAttributes = { n.toAttributes with iBlocks := n.iBlocks + 1 }
  iBlocks : n'.iBlocks.toNat = n.iBlocks.toNat + 1
  data : s'.dataBlocks n' = s.dataBlocks n ++ [b]
  ptrs : (s'.ptrBlocks n').Perm (s.ptrBlocks n ++ new)
  kept : ptrsOf s.layout.blocksInSinglePtr s'.ptr n'.blk n.iBlocks.toNat = s.ptrBlocks n
  change : Fs.Change s s' (s.ptrBlocks n ++ new) fun x => s.blockBit x || decide (x ∈ b :: new)
  nodup : (b :: new).Nodup
  lt : ∀ x ∈ b :: new, x < s.layout.totalBlocks
  clear : ∀ x ∈ b :: new, s.blockBit x = false

variable {env : Env} {s s₁ s' : Fs} {n n₁ : Inode} {b i : ℕ} {new all W : List ℕ} {x : ℕ}
  {ps : List ℕ}

theorem Fs.MetaBits.le_of_clear (h : s.MetaBits) (hb : s.blockBit b = false) :
    s.layout.dataStartBlock ≤ b := by
  by_contra hlt
  rw [h b (by omega)] at hb
  cases hb

theorem Fs.Wf.inodeBitmapStart_le (hw : s.Wf) (hx : s.layout.dataStartBlock ≤ x) :
    s.layout.inodeBitmapStart ≤ x := by
  have h1 := hw.layout.inodeTableStart
  have h2 := hw.layout.dataStartBlock
  omega

/-- The block that was taken first can be named first. -/
theorem Fs.Alloc.rotate (h : Fs.Alloc s s₁ (new ++ [b])) : Fs.Alloc s s₁ (b :: new) := by
  have hp : (new ++ [b]).Perm (b :: new) := perm_append_singleton b new
  exact ⟨h.change.mono (by simp) fun x _ => by simp [or_comm], hp.nodup_iff.mp h.nodup,
    fun x hx => h.lt x (hp.mem_iff.mpr hx), fun x hx => h.clear x (hp.mem_iff.mpr hx)⟩

theorem Fs.Alloc.lt_two_pow (h : Fs.Alloc s s₁ new) (hw : s.Wf) : ∀ x ∈ new, x < 2 ^ 32 :=
  fun x hx => lt_trans (h.lt x hx) hw.layout.totalBlocks_lt

theorem Fs.Alloc.blk_setBlk (h : Fs.Alloc s s₁ new) (hw : s.Wf) (hb : b ∈ new) {k : ℕ}
    (hk : k < 15) : (n.setBlk k b).blk k = b := by
  rw [Inode.blk_setBlk _ _ _ hk, if_pos rfl, Nat.mod_eq_of_lt (h.lt_two_pow hw b hb)]

/-- The number of blocks of an inode that is not full does not overflow. -/
theorem Fs.InodeOk.toNat_succ (hok : s.InodeOk n) (hw : s.Wf) :
    (n.iBlocks + 1).toNat = n.iBlocks.toNat + 1 := by
  have h1 := hok.le
  have h2 := hw.layout.maxFileBlocks_lt
  rw [UInt32.toNat_add]
  exact Nat.mod_eq_of_lt (by simp; omega)

/-! ### Writing blocks -/

/-- Write several blocks, in order. -/
def Fs.setBlocks (s : Fs) (L : List (ℕ × ℕ)) : Fs :=
  L.foldl (fun s w => s.setBlock w.1 w.2) s

/-- Blocks of the data area, written at distinct places. -/
theorem Fs.Wf.setBlocks (hw : s.Wf) {L : List (ℕ × ℕ)} (hnd : (L.map Prod.fst).Nodup)
    (hL : ∀ x ∈ L.map Prod.fst, s.layout.dataStartBlock ≤ x ∧ x < s.layout.totalBlocks) :
    Fs.Change s (s.setBlocks L) (L.map Prod.fst) s.blockBit ∧
      (∀ w ∈ L, (s.setBlocks L).block w.1 = w.2) ∧
      ∀ y ∉ L.map Prod.fst, (s.setBlocks L).block y = s.block y := by
  induction L generalizing s with
  | nil => exact ⟨Fs.Change.refl s, by simp, fun _ _ => rfl⟩
  | cons w L ih =>
    obtain ⟨hx, hnd⟩ := nodup_cons.mp hnd
    obtain ⟨⟨hlo, hhi⟩, hL⟩ := forall_mem_cons.mp hL
    have hch := @Fs.Change.setBlock s hw w.1 w.2 (hw.inodeBitmapStart_le hlo)
    have hw' := hch.wf hw
    obtain ⟨hch', hin, hout⟩ := ih hw' hnd hL
    have hlen : w.1 < s.disk.length := by rwa [hw.length_disk, hw.blockCount_eq]
    refine ⟨(hch.trans hch').mono (fun _ h => h) hch.blockBit, forall_mem_cons.mpr ⟨?_, hin⟩, ?_⟩
    · exact (hout _ hx).trans (Fs.block_setBlock_self hlen)
    · intro y hy
      rw [map_cons, mem_cons, not_or] at hy
      obtain ⟨hyw, hy⟩ := hy
      exact (hout _ hy).trans (Fs.block_setBlock_of_ne hyw)

/-- The writes that make a chain of new pointer blocks, each pointing to the next and the
last to `b`. -/
def chainWrites (junk : ℕ → ℕ) : List ℕ → ℕ → List (ℕ × ℕ)
  | [], _ => []
  | p :: ps, b => (p, setPtrAt (junk p) 0 (ps.headD b)) :: chainWrites junk ps b

theorem map_fst_chainWrites (junk : ℕ → ℕ) (ps : List ℕ) (b : ℕ) :
    (chainWrites junk ps b).map Prod.fst = ps := by
  induction ps with
  | nil => rfl
  | cons p ps ih => rw [chainWrites, map_cons, ih]

theorem headD_mem (ps : List ℕ) (b : ℕ) : ps.headD b ∈ b :: ps := by
  cases ps <;> simp

theorem chain_of_writes {junk : ℕ → ℕ} (h32 : ∀ x ∈ b :: ps, x < 2 ^ 32)
    (h : ∀ w ∈ chainWrites junk ps b, s'.block w.1 = w.2) :
    Chain s'.ptr (ps.headD b) ps b := by
  induction ps with
  | nil => rfl
  | cons p ps ih =>
    obtain ⟨hp, hps⟩ := forall_mem_cons.mp h
    have h32' : ∀ x ∈ b :: ps, x < 2 ^ 32 := fun x hx => h32 x (by
      rcases mem_cons.mp hx with rfl | hx
      · simp
      · simp [hx])
    have hnext : s'.ptr p 0 = ps.headD b := by
      rw [Fs.ptr, hp, ptrAt_setPtrAt, if_pos rfl, Nat.mod_eq_of_lt (h32' _ (headD_mem ps b))]
    exact ⟨rfl, hnext ▸ ih h32' hps⟩

/-- The pointer blocks of an inode and the blocks just allocated are in the data area. -/
theorem Fs.InodeOk.writes_range (hok : s.InodeOk n) (hmeta : s.MetaBits)
    (hall : Fs.Alloc s s₁ all) (hx : x ∈ s.ptrBlocks n ∨ x ∈ all) :
    s₁.layout.dataStartBlock ≤ x ∧ x < s₁.layout.totalBlocks := by
  rw [hall.change.layout]
  rcases hx with hx | hx
  · obtain ⟨h1, h2, -⟩ := hok.range x (mem_append_right _ hx)
    exact ⟨h1, h2⟩
  · exact ⟨hmeta.le_of_clear (hall.clear x hx), hall.lt x hx⟩

/-! ### Growing at a level -/

section Places

variable {l : Layout} {S k : ℕ} (hS : l.blocksInSinglePtr = S)
include hS

/-- The place of an index below the double pointer block. -/
theorem Layout.exists_double (hlo : 12 + S ≤ k) (hhi : k < 12 + S + l.blocksInDoublePtr) :
    ∃ q < S ^ (1 + 1), k = treeBase S 1 + q ∧ k - 12 - S = q := by
  rw [Layout.blocksInDoublePtr, hS] at hhi
  refine ⟨k - 12 - S, ?_, ?_, rfl⟩
  · rw [pow_two]
    omega
  · simp only [treeBase, zero_add, pow_one]
    omega

/-- The place of an index below the triple pointer block. -/
theorem Layout.exists_triple (hlo : 12 + S + l.blocksInDoublePtr ≤ k) (hhi : k < l.maxFileBlocks) :
    ∃ q < S ^ (2 + 1), k = treeBase S 2 + q ∧ k - 12 - S - S ^ 2 = q := by
  have hdouble : l.blocksInDoublePtr = S ^ 2 := by rw [pow_two, Layout.blocksInDoublePtr, hS]
  rw [Layout.maxFileBlocks_eq, hS, treeBase] at hhi
  rw [hdouble] at hlo
  refine ⟨k - 12 - S - S ^ 2, ?_, ?_, rfl⟩
  all_goals
    simp only [treeBase, zero_add, pow_one, Nat.reduceAdd] at hhi ⊢
    omega

end Places

section Level

variable {S : ℕ} (hS : s.layout.blocksInSinglePtr = S) (hw : s.Wf) (hok : s.InodeOk n)
  (hi : i < 3) (h15 : 15 < n.iBlocks.toNat) (hlo : treeBase S i ≤ n.iBlocks.toNat)
  (hhi : n.iBlocks.toNat < treeBase S i + S ^ (i + 1))
include hS hw hok hi h15 hlo hhi

/-- Assembling a growth below a pointer block from what the writes did to the pointers. -/
theorem grown_of_tip (halloc : Fs.Alloc s s₁ (b :: new))
    (hchange : Fs.Change s₁ s' W s₁.blockBit)
    (hW : ∀ x ∈ W, x ∈ s.ptrBlocks n ++ new) (hattrs : n₁.toAttributes = n.toAttributes)
    (hblk : ∀ j < 15, j ≠ 12 + i → n₁.blk j = n.blk j)
    (hroot : n.iBlocks.toNat ≠ treeBase S i → n₁.blk (12 + i) = n.blk (12 + i))
    (htip : ∀ x ∈ s.ptrBlocks n, ∀ j < S,
      tip S s.ptr (i + 1) (n.blk (12 + i)) (n.iBlocks.toNat - treeBase S i) ≠ some (x, j) →
      s'.ptr x j = s.ptr x j)
    (hleaf : leaf S s'.ptr (i + 1) (n₁.blk (12 + i)) (n.iBlocks.toNat - treeBase S i) = b)
    (hfresh : fresh S s'.ptr (i + 1) (n₁.blk (12 + i)) (n.iBlocks.toNat - treeBase S i) = new) :
    s.Grown n b new s' { n₁ with iBlocks := n₁.iBlocks + 1 } := by
  have hiBlocks : n₁.iBlocks = n.iBlocks := by rw [hattrs]
  have hcount : (n₁.iBlocks + 1).toNat = n.iBlocks.toNat + 1 := by
    rw [hiBlocks]
    exact hok.toNat_succ hw
  have hch := halloc.change.trans hchange
  have hS' : s'.layout.blocksInSinglePtr = S := by rw [hch.layout, hS]
  subst hS
  obtain ⟨hdata, hptrs⟩ := map_eq_of_tip hi h15 hlo hhi
    (List.Nodup.of_append_right hok.nodup) hblk hroot htip
  refine ⟨?_, hcount, ?_, ?_, hptrs, hch.mono (by simpa using hW) ?_, halloc.nodup, halloc.lt,
    halloc.clear⟩
  · simp [hattrs]
  · change dataOf s'.layout.blocksInSinglePtr s'.ptr n₁.blk (n₁.iBlocks + 1).toNat = _
    rw [hS', hcount, dataOf_succ hi h15 hlo hhi, hdata, hleaf]
    rfl
  · change (ptrsOf s'.layout.blocksInSinglePtr s'.ptr n₁.blk (n₁.iBlocks + 1).toNat).Perm _
    rw [hS', hcount]
    refine (ptrsOf_succ hi h15 hlo hhi).trans (List.Perm.of_eq ?_)
    rw [hptrs, hfresh]
    rfl
  · intro c hc
    exact halloc.change.blockBit c hc

end Level

section Chain

variable {S q : ℕ} (hS : s.layout.blocksInSinglePtr = S) (hw : s.Wf) (hmeta : s.MetaBits)
  (hok : s.InodeOk n) (hi : i < 3) (h15 : 15 < n.iBlocks.toNat)
  (hn : n.iBlocks.toNat = treeBase S i + q) (hq : q < S ^ (i + 1))
include hS hok hi h15 hn hq

/-- The nodes of the tree of the level are pointer blocks of the inode, and distinct. -/
theorem nodes_level :
    (nodes S s.ptr (i + 1) (n.blk (12 + i)) q).Nodup ∧
      ∀ x ∈ nodes S s.ptr (i + 1) (n.blk (12 + i)) q, x ∈ s.ptrBlocks n := by
  have hsub := @nodes_sublist_ptrsOf S s.ptr n.blk n.iBlocks.toNat i hi h15 (by omega) (by omega)
  rw [hn, Nat.add_sub_cancel_left, ← hn] at hsub
  subst hS
  exact ⟨hsub.nodup (List.Nodup.of_append_right hok.nodup), fun x hx => hsub.subset hx⟩

include hw hmeta

variable (env) in
/-- **Below a new root**: an empty tree is started with a chain of new pointer blocks. -/
theorem grown_of_new_root {p : ℕ} (hnew : Fs.Alloc s s₁ (p :: ps ++ [b]))
    (h0 : q = 0) (hlen : ps.length = i) :
    s.Grown n b (p :: ps) (s₁.setBlocks (chainWrites env.junk (p :: ps) b))
      { n.setBlk (12 + i) p with iBlocks := n.iBlocks + 1 } := by
  have hall := hnew.rotate
  have h32 := hall.lt_two_pow hw
  have hfst := map_fst_chainWrites env.junk (p :: ps) b
  obtain ⟨hch, hin, hout⟩ := (hall.change.wf hw).setBlocks
    (L := chainWrites env.junk (p :: ps) b) (by rw [hfst]; exact (nodup_cons.mp hall.nodup).2)
    (fun x hx => by
      rw [hfst] at hx
      exact hok.writes_range hmeta hall (.inr (mem_cons_of_mem _ hx)))
  rw [hfst] at hch hout
  have hblk : (n.setBlk (12 + i) p).blk (12 + i) = p := hall.blk_setBlk hw (by simp) (by omega)
  have hsub : n.iBlocks.toNat - treeBase S i = 0 := by omega
  obtain ⟨hleaf, hfresh⟩ := (chain_of_writes h32 hin).leaf_eq (S := S)
  rw [length_cons, hlen] at hleaf hfresh
  refine grown_of_tip hS hw hok hi h15 (by omega) (by omega) hall hch
    (fun x hx => mem_append_right _ hx) rfl ?_ (fun hne => absurd (by omega) hne) ?_ ?_ ?_
  · intro j _ hne
    rw [Inode.blk_setBlk _ _ _ (by omega), if_neg hne]
  · intro x hx j _ _
    obtain ⟨hxlo, -, hbit⟩ := hok.range x (mem_append_right _ hx)
    have hnot : x ∉ p :: ps := fun h => hall.not_mem hbit (mem_cons_of_mem _ h)
    rw [Fs.ptr, hout x hnot, hall.change.block x (.inl (hw.inodeBitmapStart_le hxlo)) (by simp)]
    rfl
  · rw [hblk, hsub]
    exact hleaf
  · rw [hblk, hsub]
    exact hfresh

variable (env) in
/-- **From the tip**: the deepest pointer block on the way is made to point to a chain of
new ones, or to the new block itself. -/
theorem grown_of_tip_chain {j : ℕ} (hnew : Fs.Alloc s s₁ (ps ++ [b]))
    (htip : tip S s.ptr (i + 1) (n.blk (12 + i)) q = some (x, j))
    (hlen : below S (i + 1) q = ps.length) :
    s.Grown n b ps
      (s₁.setBlocks ((x, setPtrAt (s.block x) j (ps.headD b)) :: chainWrites env.junk ps b))
      { n with iBlocks := n.iBlocks + 1 } := by
  have hall := hnew.rotate
  have h32 := hall.lt_two_pow hw
  obtain ⟨hnd, hsub⟩ := nodes_level hS hok hi h15 hn hq
  have hx : x ∈ s.ptrBlocks n := hsub x (tip_mem_nodes hq htip)
  have hn' : n.iBlocks.toNat - treeBase S i = q := by omega
  have hold : ∀ y ∈ s.ptrBlocks n, y ∉ ps ∧ s₁.block y = s.block y := by
    intro y hy
    obtain ⟨hylo, -, hbit⟩ := hok.range y (mem_append_right _ hy)
    exact ⟨fun h => hall.not_mem hbit (mem_cons_of_mem _ h),
      hall.change.block y (.inl (hw.inodeBitmapStart_le hylo)) (by simp)⟩
  have hfst := map_fst_chainWrites env.junk ps b
  obtain ⟨hch, hin, hout⟩ := (hall.change.wf hw).setBlocks
    (L := (x, setPtrAt (s.block x) j (ps.headD b)) :: chainWrites env.junk ps b)
    (by
      rw [map_cons, hfst]
      exact nodup_cons.mpr ⟨(hold x hx).1, (nodup_cons.mp hall.nodup).2⟩)
    (fun y hy => by
      rw [map_cons, hfst, mem_cons] at hy
      refine hok.writes_range hmeta hall ?_
      rcases hy with rfl | hy
      · exact .inl hx
      · exact .inr (mem_cons_of_mem _ hy))
  rw [map_cons, hfst] at hch hout
  set s' := s₁.setBlocks ((x, setPtrAt (s.block x) j (ps.headD b)) :: chainWrites env.junk ps b)
  obtain ⟨hxw, hin⟩ := forall_mem_cons.mp hin
  -- among the old pointer blocks, only the tip has changed
  have hptr : ∀ y ∈ s.ptrBlocks n, ∀ k < S,
      tip S s.ptr (i + 1) (n.blk (12 + i)) q ≠ some (y, k) → s'.ptr y k = s.ptr y k := by
    intro y hy k _ hne
    by_cases hyx : y = x
    · subst hyx
      have hkj : k ≠ j := fun h => hne (by rw [htip, h])
      rw [Fs.ptr, hxw, ptrAt_setPtrAt, if_neg hkj]
      rfl
    · have hnot : y ∉ x :: ps := by
        rw [mem_cons, not_or]
        exact ⟨hyx, (hold y hy).1⟩
      rw [Fs.ptr, hout y hnot, (hold y hy).2]
      rfl
  have hnext : s'.ptr x j = ps.headD b := by
    rw [Fs.ptr, hxw, ptrAt_setPtrAt, if_pos rfl, Nat.mod_eq_of_lt (h32 _ (headD_mem ps b))]
  obtain ⟨hleaf, hfresh⟩ := (chain_of_writes h32 hin).leaf_eq (S := S)
  obtain ⟨hleaf', hfresh'⟩ := leaf_of_tip hq hnd htip fun y hy => hptr y (hsub y hy)
  rw [hlen, hnext] at hleaf' hfresh'
  refine grown_of_tip hS hw hok hi h15 (by omega) (by omega) hall hch ?_ rfl (fun _ _ _ => rfl)
    (fun _ => rfl) (by rwa [hn']) (by rw [hn', hleaf', hleaf]) (by rw [hn', hfresh', hfresh])
  intro y hy
  rcases mem_cons.mp hy with rfl | hy
  · exact mem_append_left _ hx
  · exact mem_append_right _ hy

end Chain

/-! ### Running the code -/

/-- The outcome of an append after the data block `b` has been found: the inode has grown,
or no free block is left for a pointer block and the inode is as it was. -/
def Fs.Appended (s : Fs) (n : Inode) (b : ℕ) (r : Except Err Unit × (Inode × Fs)) : Prop :=
  (∃ n₁ s' new, r = (.ok (), (n₁, s')) ∧
    s.Grown n b new s' { n₁ with iBlocks := n₁.iBlocks + 1 }) ∨
  ∃ s' new, r = (.error .noFreeBlocks, (n, s')) ∧ Fs.Alloc s s' new

theorem Fs.Alloc.lt_blockCount (h : Fs.Alloc s s₁ new) (hw : s.Wf) (hx : x ∈ new) :
    x < s₁.blockCount := by
  rw [h.change.blockCount, hw.blockCount_eq]
  exact h.lt x hx

/-- The pointer blocks of the inode can be read and written below an allocation, and hold
what they held before. -/
theorem Fs.InodeOk.readBlock_eval (hok : s.InodeOk n) (hr : env.Reliable) (hw : s.Wf)
    (h : Fs.Alloc s s₁ new) (hx : x ∈ s.ptrBlocks n) :
    (readBlock env x).eval s₁ = (.ok (s.block x), s₁) ∧ x < s₁.blockCount := by
  obtain ⟨hlo, hhi, -⟩ := hok.range x (mem_append_right _ hx)
  have hlt : x < s₁.blockCount := by
    rw [h.change.blockCount, hw.blockCount_eq]
    exact hhi
  refine ⟨?_, hlt⟩
  rw [OsPi.readBlock_eval hr hlt, h.change.block x (.inl (hw.inodeBitmapStart_le hlo)) not_mem_nil]

section Nodes

variable {S q : ℕ} (hS : s.layout.blocksInSinglePtr = S) (hok : s.InodeOk n)
  (h15 : 15 < n.iBlocks.toNat)
include hS hok h15

/-- The pointer blocks on the way to the next block below the double pointer block. -/
theorem double_nodes (hn : n.iBlocks.toNat = treeBase S 1 + q) (hq : q < S ^ (1 + 1)) :
    (q ≠ 0 → n.blk 13 ∈ s.ptrBlocks n) ∧
    (q % S ≠ 0 → s.ptr (n.blk 13) (q / S) ∈ s.ptrBlocks n) := by
  have hnode := (nodes_level hS hok (by omega) h15 hn hq).2
  exact ⟨fun h0 => hnode _ (root_mem_nodes h0),
    fun h1 => hnode _ (child_mem_nodes hq (by simpa using root_mem_nodes h1))⟩

/-- The pointer blocks on the way to the next block below the triple pointer block. -/
theorem triple_nodes (hn : n.iBlocks.toNat = treeBase S 2 + q) (hq : q < S ^ (2 + 1))
    (hpos : 0 < S) :
    (q ≠ 0 → n.blk 14 ∈ s.ptrBlocks n) ∧
    (q % S ^ 2 ≠ 0 → s.ptr (n.blk 14) (q / S ^ 2) ∈ s.ptrBlocks n) ∧
    (q % S ^ 2 % S ≠ 0 →
      s.ptr (s.ptr (n.blk 14) (q / S ^ 2)) (q % S ^ 2 / S) ∈ s.ptrBlocks n) := by
  have hnode := (nodes_level hS hok (by omega) h15 hn hq).2
  exact ⟨fun h0 => hnode _ (root_mem_nodes h0),
    fun hd => hnode _ (child_mem_nodes hq (root_mem_nodes hd)),
    fun h1 => hnode _ (child_mem_nodes hq (child_mem_nodes (Nat.mod_lt _ (Nat.pow_pos hpos))
      (by simpa using root_mem_nodes h1)))⟩

end Nodes

section Code

variable {S : ℕ} (hS : s.layout.blocksInSinglePtr = S) (hr : env.Reliable) (hw : s.Wf)
  (hmeta : s.MetaBits) (hok : s.InodeOk n) (hall : Fs.Alloc s s₁ [b]) (h15 : 15 < n.iBlocks.toNat)
include hS hr hw hmeta hok hall h15

theorem appendSingle_spec (hhi : n.iBlocks.toNat < 12 + S) :
    s.Appended n b ((appendSingle env b).eval (n, s₁)) := by
  obtain ⟨q, hn⟩ := Nat.exists_eq_add_of_lt (show 12 < n.iBlocks.toNat by omega)
  have hq : q + 1 < S ^ (0 + 1) := by
    rw [zero_add, pow_one]
    omega
  have hx : n.blk 12 ∈ s.ptrBlocks n :=
    (nodes_level hS hok (by omega) h15 hn hq).2 _ (root_mem_nodes (by omega))
  obtain ⟨hread, hlt⟩ := hok.readBlock_eval hr hw hall hx
  refine .inl ⟨n, _, [], ?_, grown_of_tip_chain env hS hw hmeta hok (by omega) h15 hn hq hall
    (x := n.blk 12) (j := q + 1) (by rw [tip_one, if_neg (by omega)])
    (by simp [below, Nat.mod_one])⟩
  have hne : n.iBlocks.toNat ≠ 15 := by omega
  have hq' : n.iBlocks.toNat - 12 = q + 1 := by omega
  simp [appendSingle, eval_bind, hne, hread, hq', writeBlock_eval hr, hlt, Fs.setBlocks,
    chainWrites]

theorem appendDouble_spec (hlo : 12 + S ≤ n.iBlocks.toNat)
    (hhi : n.iBlocks.toNat < 12 + S + s.layout.blocksInDoublePtr) :
    s.Appended n b ((appendDouble env b).eval (n, s₁)) := by
  have hlay : s₁.layout.blocksInSinglePtr = S := by rw [hall.change.layout, hS]
  obtain ⟨q, hq, hn', hsub⟩ := Layout.exists_double hS hlo hhi
  obtain ⟨hroot, hchild⟩ := double_nodes hS hok h15 hn' hq
  by_cases h1 : q % S = 0
  · rcases hall.findFreeBlock_eval hr hw with ⟨sb, s₂, hfind, hall₂⟩ | hfind
    · by_cases h2 : q / S = 0
      · -- the first block of the level
        have h0 : q = 0 := by
          rw [← Nat.div_add_mod q S, h1, h2, mul_zero]
        rcases hall₂.findFreeBlock_eval hr hw with ⟨db, s₃, hfind', hall₃⟩ | hfind'
        · have hdb := hall₃.lt_blockCount hw (x := db) (by simp)
          have hsb := hall₃.lt_blockCount hw (x := sb) (by simp)
          have hblk : (n.setBlk 13 db).blk 13 = db := hall₃.blk_setBlk hw (by simp) (by omega)
          refine .inl ⟨n.setBlk 13 db, _, [db, sb], ?_,
            grown_of_new_root env hS hw hmeta hok (by omega) h15 hn' hq hall₃ h0 rfl⟩
          simp [appendDouble, eval_bind, hlay, hsub, h1, h2, hfind, hfind', hblk,
            writeBlock_eval hr, hdb, hsb, Fs.setBlocks, chainWrites, -Nat.div_eq_zero_iff]
        · refine .inr ⟨s₂, [sb, b], ?_, hall₂⟩
          simp [appendDouble, eval_bind, hlay, hsub, h1, h2, hfind, hfind', -Nat.div_eq_zero_iff]
      · have h0 : q ≠ 0 := by rintro rfl; simp at h2
        obtain ⟨hread, hlt⟩ := hok.readBlock_eval hr hw hall₂ (hroot h0)
        have hsb := hall₂.lt_blockCount hw (x := sb) (by simp)
        refine .inl ⟨n, _, [sb], ?_,
          grown_of_tip_chain env hS hw hmeta hok (by omega) h15 hn' hq hall₂
            (x := n.blk 13) (j := q / S) (by simp [tip_two, h0, h1])
            (by simp [below, h1])⟩
        simp [appendDouble, eval_bind, hlay, hsub, h1, h2, hfind, hread,
          writeBlock_eval hr, hlt, hsb, Fs.setBlocks, chainWrites, -Nat.div_eq_zero_iff]
    · refine .inr ⟨s₁, [b], ?_, hall⟩
      simp [appendDouble, eval_bind, hlay, hsub, h1, hfind]
  · have h0 : q ≠ 0 := by rintro rfl; simp at h1
    obtain ⟨hread, -⟩ := hok.readBlock_eval hr hw hall (hroot h0)
    obtain ⟨hread', hlt⟩ := hok.readBlock_eval hr hw hall (hchild h1)
    rw [Fs.ptr] at hread' hlt
    refine .inl ⟨n, _, [], ?_, grown_of_tip_chain env hS hw hmeta hok (by omega) h15 hn' hq hall
        (x := s.ptr (n.blk 13) (q / S)) (j := q % S) (by simp [tip_two, h0, h1])
        (by simp [below, h1, Nat.mod_one])⟩
    simp [appendDouble, eval_bind, hlay, hsub, h1, hread, hread', writeBlock_eval hr, hlt,
      Fs.setBlocks, chainWrites, Fs.ptr, -Nat.div_eq_zero_iff]

theorem appendTriple_spec
    (hlo : 12 + S + s.layout.blocksInDoublePtr ≤ n.iBlocks.toNat)
    (hhi : n.iBlocks.toNat < s.layout.maxFileBlocks) :
    s.Appended n b ((appendTriple env b).eval (n, s₁)) := by
  have hlay : s₁.layout.blocksInSinglePtr = S := by rw [hall.change.layout, hS]
  have hlay₂ : s₁.layout.blocksInDoublePtr = S ^ 2 := by
    rw [Layout.blocksInDoublePtr, hlay, pow_two]
  obtain ⟨q, hq, hn', hsub⟩ := Layout.exists_triple hS hlo hhi
  have hpos := hw.layout.blocksInSinglePtr_ge
  obtain ⟨hroot, hchild, hgrandchild⟩ := triple_nodes hS hok h15 hn' hq (by omega)
  by_cases h1 : q % S ^ 2 % S = 0
  · rcases hall.findFreeBlock_eval hr hw with ⟨sb, s₂, hfind, hall₂⟩ | hfind
    · by_cases h2 : q % S ^ 2 / S = 0
      · have hd : q % S ^ 2 = 0 := by
          rw [← Nat.div_add_mod (q % S ^ 2) S, h1, h2, mul_zero]
        rcases hall₂.findFreeBlock_eval hr hw with ⟨db, s₃, hfind', hall₃⟩ | hfind'
        · by_cases h3 : q / S ^ 2 = 0
          · -- the first block of the level
            have h0 : q = 0 := by
              rw [← Nat.div_add_mod q (S ^ 2), hd, h3, mul_zero]
            rcases hall₃.findFreeBlock_eval hr hw with ⟨tb, s₄, hfind'', hall₄⟩ | hfind''
            · have htb := hall₄.lt_blockCount hw (x := tb) (by simp)
              have hdb := hall₄.lt_blockCount hw (x := db) (by simp)
              have hsb := hall₄.lt_blockCount hw (x := sb) (by simp)
              have hblk : (n.setBlk 14 tb).blk 14 = tb := hall₄.blk_setBlk hw (by simp) (by omega)
              refine .inl ⟨n.setBlk 14 tb, _, [tb, db, sb], ?_,
                grown_of_new_root env hS hw hmeta hok (by omega) h15 hn' hq hall₄ h0 rfl⟩
              simp [appendTriple, eval_bind, hlay, hlay₂, hsub, h1, h2, h3, hfind, hfind',
                hfind'', hblk, writeBlock_eval hr, htb, hdb, hsb, Fs.setBlocks, chainWrites,
                -Nat.div_eq_zero_iff, -Nat.mod_mod_of_dvd]
            · refine .inr ⟨s₃, [db, sb, b], ?_, hall₃⟩
              simp [appendTriple, eval_bind, hlay, hlay₂, hsub, h1, h2, h3, hfind, hfind',
                hfind'', -Nat.div_eq_zero_iff, -Nat.mod_mod_of_dvd]
          · -- the first block below a new double pointer block
            have h0 : q ≠ 0 := by rintro rfl; simp at h3
            obtain ⟨hread, hlt⟩ := hok.readBlock_eval hr hw hall₃ (hroot h0)
            have hdb := hall₃.lt_blockCount hw (x := db) (by simp)
            have hsb := hall₃.lt_blockCount hw (x := sb) (by simp)
            refine .inl ⟨n, _, [db, sb], ?_,
              grown_of_tip_chain env hS hw hmeta hok (by omega) h15 hn' hq hall₃
                (x := n.blk 14) (j := q / S ^ 2)
                (by simp [tip_three, h0, hd]) (by simp [below, hd])⟩
            simp [appendTriple, eval_bind, hlay, hlay₂, hsub, h1, h2, h3, hfind, hfind',
              hread, hlt, writeBlock_eval hr, hdb, hsb, Fs.setBlocks, chainWrites,
              -Nat.div_eq_zero_iff, -Nat.mod_mod_of_dvd]
        · refine .inr ⟨s₂, [sb, b], ?_, hall₂⟩
          simp [appendTriple, eval_bind, hlay, hlay₂, hsub, h1, h2, hfind, hfind',
            -Nat.div_eq_zero_iff, -Nat.mod_mod_of_dvd]
      · -- the first block below a new single pointer block
        have hd : q % S ^ 2 ≠ 0 := fun hd => h2 (by simp [hd])
        have h0 : q ≠ 0 := by rintro rfl; simp at hd
        obtain ⟨hread, -⟩ := hok.readBlock_eval hr hw hall₂ (hroot h0)
        obtain ⟨hread', hlt⟩ := hok.readBlock_eval hr hw hall₂ (hchild hd)
        rw [Fs.ptr] at hread' hlt
        have hsb := hall₂.lt_blockCount hw (x := sb) (by simp)
        refine .inl ⟨n, _, [sb], ?_,
          grown_of_tip_chain env hS hw hmeta hok (by omega) h15 hn' hq hall₂
            (x := s.ptr (n.blk 14) (q / S ^ 2)) (j := q % S ^ 2 / S)
            (by simp [tip_three, h0, hd, h1]) (by simp [below, hd, h1])⟩
        simp [appendTriple, eval_bind, hlay, hlay₂, hsub, h1, h2, hfind, hread, hread', hlt,
          writeBlock_eval hr, hsb, Fs.setBlocks, chainWrites, Fs.ptr, -Nat.div_eq_zero_iff,
          -Nat.mod_mod_of_dvd]
    · refine .inr ⟨s₁, [b], ?_, hall⟩
      simp [appendTriple, eval_bind, hlay, hlay₂, hsub, h1, hfind, -Nat.mod_mod_of_dvd]
  · have hd : q % S ^ 2 ≠ 0 := fun hd => h1 (by simp [hd])
    have h0 : q ≠ 0 := by rintro rfl; simp at hd
    obtain ⟨hread, -⟩ := hok.readBlock_eval hr hw hall (hroot h0)
    obtain ⟨hread', -⟩ := hok.readBlock_eval hr hw hall (hchild hd)
    obtain ⟨hread'', hlt⟩ := hok.readBlock_eval hr hw hall (hgrandchild h1)
    simp only [Fs.ptr] at hread' hread'' hlt
    refine .inl ⟨n, _, [], ?_, grown_of_tip_chain env hS hw hmeta hok (by omega) h15 hn' hq hall
        (x := s.ptr (s.ptr (n.blk 14) (q / S ^ 2)) (q % S ^ 2 / S))
        (j := q % S ^ 2 % S)
        (by rw [tip_three, if_neg h0, if_neg hd, if_neg h1])
        (by simp only [below, pow_one, pow_zero, Nat.mod_one, if_neg hd, if_neg h1, if_true,
          length_nil])⟩
    simp [appendTriple, eval_bind, hlay, hlay₂, hsub, h1, hread, hread', hread'', hlt,
      writeBlock_eval hr, Fs.setBlocks, chainWrites, Fs.ptr, -Nat.mod_mod_of_dvd]

end Code

section Small

variable (hr : env.Reliable) (hw : s.Wf) (hmeta : s.MetaBits) (hok : s.InodeOk n)
  (hall : Fs.Alloc s s₁ [b])
include hw hok hall

/-- Up to fifteen blocks are direct. -/
theorem grown_direct (h15 : n.iBlocks.toNat < 15) :
    s.Grown n b [] s₁ { n.setBlk n.iBlocks.toNat b with iBlocks := n.iBlocks + 1 } := by
  have hcount : (n.iBlocks + 1).toNat = n.iBlocks.toNat + 1 := hok.toNat_succ hw
  have hb := hall.lt_two_pow hw b (by simp)
  refine ⟨rfl, hcount, ?_, ?_, ?_, hall.change.mono (by simp) (by simp), hall.nodup, hall.lt,
    hall.clear⟩
  · change dataOf _ _ (n.setBlk n.iBlocks.toNat b).blk (n.iBlocks + 1).toNat = _
    rw [hcount, dataOf, if_pos (by omega), Fs.dataBlocks, dataOf, if_pos (by omega),
      range_succ, map_append, map_singleton, Inode.blk_setBlk _ _ _ h15, if_pos rfl,
      Nat.mod_eq_of_lt hb]
    congr 1
    refine map_congr_left fun j hj => ?_
    rw [Inode.blk_setBlk _ _ _ h15, if_neg (by have := mem_range.mp hj; omega)]
  · change (ptrsOf _ _ (n.setBlk n.iBlocks.toNat b).blk (n.iBlocks + 1).toNat).Perm _
    rw [hcount, ptrsOf, if_pos (by omega), Fs.ptrBlocks, ptrsOf, if_pos (by omega)]
    rfl
  · rw [ptrsOf, if_pos h15.le, Fs.ptrBlocks, ptrsOf, if_pos h15.le]

include hr hmeta in
/-- With the sixteenth block, the last three direct blocks move to a new single pointer
block. -/
theorem appendSingle_sixteenth (h15 : n.iBlocks.toNat = 15) :
    s.Appended n b ((appendSingle env b).eval (n, s₁)) := by
  rcases hall.findFreeBlock_eval hr hw with ⟨p, s₂, hfind, hall₂⟩ | hfind
  · have hp := hall₂.lt_blockCount hw (x := p) (by simp)
    have h32 := hall₂.lt_two_pow hw
    have hblk : ∀ j, (n.setBlk 12 p).blk j = if j = 12 then p else n.blk j := by
      intro j
      rw [Inode.blk_setBlk _ _ _ (by omega), Nat.mod_eq_of_lt (h32 p (by simp))]
    have hcount : (n.iBlocks + 1).toNat = 16 := by rw [hok.toNat_succ hw, h15]
    set data := setPtrAt (setPtrAt (setPtrAt (setPtrAt (env.junk p) 0 (n.blk 12)) 1 (n.blk 13)) 2
      (n.blk 14)) 3 b with hdata
    have hrun : (appendSingle env b).eval (n, s₁) =
        (.ok (), (n.setBlk 12 p, s₂.setBlock p data)) := by
      simp [appendSingle, eval_bind, h15, hfind, hblk, writeBlock_eval hr, hp, hdata]
    have hptr : ∀ j < 4, (s₂.setBlock p data).ptr p j = if j = 3 then b else n.blk (12 + j) := by
      intro j hj
      have hlen : p < s₂.disk.length := by rwa [(hall₂.change.wf hw).length_disk]
      rw [Fs.ptr, Fs.block_setBlock_self hlen, hdata]
      simp only [ptrAt_setPtrAt, Nat.mod_eq_of_lt (h32 b (by simp)), Nat.mod_eq_of_lt (n.blk_lt _)]
      obtain rfl | rfl | rfl | rfl : j = 0 ∨ j = 1 ∨ j = 2 ∨ j = 3 := by omega
      all_goals rfl
    have hS := hw.layout.blocksInSinglePtr_ge
    have hlay : s₂.layout = s.layout := hall₂.change.layout
    have hch := hall₂.change.trans (@Fs.Change.setBlock s₂ (hall₂.change.wf hw) p data
      ((hall₂.change.wf hw).inodeBitmapStart_le
        (hok.writes_range hmeta hall₂ (.inr (by simp))).1))
    have hall' : Fs.Alloc s s₂ [b, p] := hall₂.rotate
    refine .inl ⟨_, _, [p], hrun, rfl, hok.toNat_succ hw, ?_, ?_,
      by rw [ptrsOf, if_pos h15.le, Fs.ptrBlocks, ptrsOf, if_pos h15.le],
      hch.mono (by simp) fun c hc => hall'.change.blockBit c hc, hall'.nodup, hall'.lt, hall'.clear⟩
    · change dataOf s₂.layout.blocksInSinglePtr (s₂.setBlock p data).ptr (n.setBlk 12 p).blk
        (n.iBlocks + 1).toNat = _
      rw [hcount, hlay, (map_sixteen (by omega)).1, Fs.dataBlocks, h15]
      simp [dataOf, range_succ, hblk, hptr]
    · change (ptrsOf s₂.layout.blocksInSinglePtr (s₂.setBlock p data).ptr (n.setBlk 12 p).blk
        (n.iBlocks + 1).toNat).Perm _
      rw [hcount, hlay, (map_sixteen (by omega)).2, Fs.ptrBlocks, h15]
      simp [ptrsOf, hblk]
  · refine .inr ⟨s₁, [b], ?_, hall⟩
    simp [appendSingle, eval_bind, h15, hfind]

end Small

/-- **One append**: the inode grows by one data block and the pointer blocks it needs, or
it is full, or no free block is left; then the inode is as it was and at most some bits are
set. -/
theorem allocateBlockForFileInode_spec (hr : env.Reliable) (hw : s.Wf) (hmeta : s.MetaBits)
    (hok : s.InodeOk n) :
    (∃ b n' s' new, (allocateBlockForFileInode env).eval (n, s) = (.ok b, (n', s')) ∧
      s.Grown n b new s' n' ∧ n.iBlocks.toNat < s.layout.maxFileBlocks) ∨
    (∃ e s' new, (allocateBlockForFileInode env).eval (n, s) = (.error e, (n, s')) ∧
      Fs.Alloc s s' new ∧
      (e = .noFreeBlocks ∨ e = .inodeFull ∧ n.iBlocks.toNat = s.layout.maxFileBlocks)) := by
  have hle := hok.le
  have hS := hw.layout.blocksInSinglePtr_ge
  by_cases hfull : n.iBlocks.toNat = s.layout.maxFileBlocks
  · refine .inr ⟨.inodeFull, s, [], ?_, Fs.Alloc.refl s, .inr ⟨rfl, hfull⟩⟩
    simp [allocateBlockForFileInode, eval_bind, hfull]
  rcases (Fs.Alloc.refl s).findFreeBlock_eval hr hw with ⟨b, s₁, hfind, hall⟩ | hfind
  · by_cases hdir : n.iBlocks.toNat < 15
    · refine .inl ⟨b, _, s₁, [], ?_, grown_direct hw hok hall hdir, by omega⟩
      simp [allocateBlockForFileInode, eval_bind, hfull, hfind, hdir]
    · obtain ⟨m, hm, happ⟩ : ∃ m : InodeM Unit, (allocateBlockForFileInode env).eval (n, s) =
          (do m; modifyInode fun n => { n with iBlocks := n.iBlocks + 1 }; pure b).eval (n, s₁) ∧
          s.Appended n b (m.eval (n, s₁)) := by
        by_cases hsingle : n.iBlocks.toNat < 12 + s.layout.blocksInSinglePtr
        · refine ⟨appendSingle env b, ?_, ?_⟩
          · simp [allocateBlockForFileInode, eval_bind, hfull, hfind, hdir, hsingle]
          · by_cases h15 : n.iBlocks.toNat = 15
            · exact appendSingle_sixteenth hr hw hmeta hok hall h15
            · exact appendSingle_spec rfl hr hw hmeta hok hall (by omega) hsingle
        by_cases hdouble : n.iBlocks.toNat <
            12 + s.layout.blocksInSinglePtr + s.layout.blocksInDoublePtr
        · refine ⟨appendDouble env b, ?_,
            appendDouble_spec rfl hr hw hmeta hok hall (by omega) (by omega) hdouble⟩
          simp [allocateBlockForFileInode, eval_bind, hfull, hfind, hdir, hsingle, hdouble]
        · refine ⟨appendTriple env b, ?_,
            appendTriple_spec rfl hr hw hmeta hok hall (by omega) (by omega) (by omega)⟩
          simp [allocateBlockForFileInode, eval_bind, hfull, hfind, hdir, hsingle, hdouble]
      rw [hm]
      rcases happ with ⟨n₁, s', new, hrun, hgrown⟩ | ⟨s', new, hrun, halloc⟩
      · refine .inl ⟨b, _, s', new, ?_, hgrown, by omega⟩
        simp only [eval_bind, hrun, modifyInode_eval, eval_pure]
      · refine .inr ⟨.noFreeBlocks, s', new, ?_, halloc, .inl rfl⟩
        simp [eval_bind, hrun]
  · refine .inr ⟨.noFreeBlocks, s, [], ?_, Fs.Alloc.refl s, .inl rfl⟩
    simp [allocateBlockForFileInode, eval_bind, hfull, hfind]

end OsPi
