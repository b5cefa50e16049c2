import Mathlib.Data.List.Find
import Mathlib.Data.List.Perm.Subperm
import OsPi.Memory.HeapBlocks

/-!
# The Free Lists of the Kernel Heap

`remove_free` takes a block off its list and `insert_free` puts one on, and nothing else
changes: `Wf.removeFree` and `Wf.insertFree` say which nodes are on the lists afterwards. The
search of `get_free_list` ends and finds only blocks that are on their lists and large enough.
-/

namespace OsPi

open Function List Option

namespace Tiling

variable {a stop : ℕ} {b c : Block} {bs l r : List Block}

/-- The links of a block lie apart from its tags, and from the links and tags of the others. -/
theorem slots_apart (h : Tiling a bs stop) (hb : b ∈ bs) (hc : c ∈ bs) :
    c.addr ≠ b.addr + 8 ∧ c.addr ≠ b.addr + 16 ∧ c.addr + c.size - 8 ≠ b.addr + 8 ∧
      c.addr + c.size - 8 ≠ b.addr + 16 ∧ c.addr + 8 ≠ b.addr + 16 := by
  obtain ⟨hle, -, hsize, -, k, hk⟩ := h.bounds hb
  obtain ⟨hle', -, hsize', ⟨s, hs⟩, k', hk'⟩ := h.bounds hc
  rcases h.disjoint hb hc with rfl | hd | hd
  · omega
  · omega
  · omega

/-- The other blocks have other addresses. -/
theorem addr_ne (h : Tiling a (l ++ c :: r) stop) (hb : b ∈ l ++ r) : b.addr ≠ c.addr := by
  obtain ⟨m, hl, hc, hsize, -, hr⟩ := append_iff.mp h
  rcases mem_append.mp hb with hb | hb
  · have := hl.bounds hb
    omega
  · have := hr.bounds hb
    omega

end Tiling

namespace Kheap

open Links

variable {h h' h'' : Kheap} {bs l r : List Block} {fl fl' : ℕ → List ℕ} {b c : Block} {a x i j : ℕ}
  {need k size bound : ℕ} {o : Option (Option ℕ)}

/-! ### Memory -/

theorem word_store (v : ℕ) : (h.store a v).word x = if x = a then v else h.word x :=
  update_apply h.mem a v x

theorem SameBounds.trans (h₁ : SameBounds h h') (h₂ : SameBounds h' h'') : SameBounds h h'' :=
  ⟨h₂.1.trans h₁.1, h₂.2.trans h₁.2, h₂.3.trans h₁.3, h₂.4.trans h₁.4, h₂.5.trans h₁.5⟩

theorem sameBounds_store (a v : ℕ) : SameBounds h (h.store a v) := ⟨rfl, rfl, rfl, rfl, rfl⟩

theorem SameBounds.listAt (hs : SameBounds h h') (i : ℕ) : h'.listAt i = h.listAt i := by
  rw [Kheap.listAt, hs.segListsPtr]
  rfl

theorem listIndex_lt (size : ℕ) : listIndex size < 6 := by
  rw [listIndex]
  split_ifs <;> decide

/-- The words that no change of the free lists writes: the tags, the edges of the heap and what
allocated blocks hold. -/
def Fixed (h : Kheap) (bs : List Block) (x : ℕ) : Prop :=
  (∃ c ∈ bs, x = c.addr ∨ x = c.addr + c.size - 8 ∨
    c.live = true ∧ c.addr + 8 ≤ x ∧ x + 8 < c.addr + c.size) ∨
  x = h.heapPtr ∨ x = h.heapPtr + 8 ∨ x = h.heapMemoryBrk - 8

/-- What the allocated blocks hold is as it was. -/
def Untouched (bs : List Block) (h h' : Kheap) : Prop :=
  ∀ c ∈ bs, c.live = true → ∀ x, c.addr + 8 ≤ x → x + 8 < c.addr + c.size → h'.word x = h.word x

theorem untouched_of_fixed (hkeep : ∀ x, h.Fixed bs x → h'.word x = h.word x) :
    Untouched bs h h' :=
  fun c hc hlive x hlo hhi => hkeep x (.inl ⟨c, hc, .inr (.inr ⟨hlive, hlo, hhi⟩)⟩)

namespace Wf

/-- The list table lies below the blocks. -/
theorem listAt_lt (hw : h.Wf bs fl) (hi : i < 6) : h.listAt i < h.heapPtr := by
  have := hw.bounds.heapPtr
  have := hw.bounds.segListsPtr
  rw [Kheap.listAt]
  omega

theorem listAt_inj (h : Kheap) (he : h.listAt i = h.listAt j) : i = j := by
  rw [Kheap.listAt, Kheap.listAt] at he
  omega

theorem base_le (hw : h.Wf bs fl) (hb : b ∈ bs) : h.heapPtr + 16 ≤ b.addr :=
  (hw.tiling.bounds hb).1

theorem addr_ne_zero (hw : h.Wf bs fl) (hb : b ∈ bs) : b.addr ≠ 0 := by
  have := hw.base_le hb
  omega

theorem sizeBits_word (hw : h.Wf bs fl) (hb : b ∈ bs) : sizeBits (h.word b.addr) = b.size := by
  rw [(hw.tags b hb).1, Block.sizeBits_tag (hw.tiling.bounds hb).2.2.2.1]

/-- A node is on one list only. -/
theorem index_unique (hw : h.Wf bs fl) (hi : i < 6) (hj : j < 6) (hx : x ∈ fl i) (hx' : x ∈ fl j) :
    i = j := by
  obtain ⟨b, hb, rfl, -, rfl⟩ := hw.nodes i hi x hx
  obtain ⟨c, hc, heq, -, rfl⟩ := hw.nodes j hj _ hx'
  rw [hw.tiling.eq_of_addr hc hb heq]

/-- The nodes are blocks. -/
theorem block (hw : h.Wf bs fl) (hi : i < 6) (hx : x ∈ fl i) : ∃ c ∈ bs, c.addr = x := by
  obtain ⟨c, hc, he, -⟩ := hw.nodes i hi x hx
  exact ⟨c, hc, he⟩

/-- **Writing links and heads**: when no tag is written, one of the lists may become another. -/
theorem relink {k : ℕ} {l' : List ℕ} (hw : h.Wf bs fl) (hs : SameBounds h h')
    (hkeep : ∀ x, h.Fixed bs x → h'.word x = h.word x)
    (hheads : ∀ i < 6, h'.word (h.listAt i) = if i = k then front l' else front (fl i))
    (hlinked : Linked h'.prevOf h'.nextOf l') (hnodup : l'.Nodup)
    (hothers : ∀ i < 6, i ≠ k → ∀ x ∈ fl i, h'.nextOf x = h.nextOf x ∧ h'.prevOf x = h.prevOf x)
    (hnodes : ∀ a ∈ l', ∃ b ∈ bs, b.addr = a ∧ b.live = false ∧ listIndex b.size = k) :
    h'.Wf bs (update fl k l') where
  bounds := hs.bounds hw.bounds
  tiling := by
    rw [hs.heapPtr, hs.heapMemoryBrk]
    exact hw.tiling
  tags b hb := by
    rw [hkeep _ (.inl ⟨b, hb, .inl rfl⟩), hkeep _ (.inl ⟨b, hb, .inr (.inl rfl)⟩)]
    exact hw.tags b hb
  prologue := by
    rw [hs.heapPtr, hkeep _ (.inr (.inl rfl)), hkeep _ (.inr (.inr (.inl rfl)))]
    exact hw.prologue
  epilogue := by
    rw [hs.heapMemoryBrk, hkeep _ (.inr (.inr (.inr rfl)))]
    exact hw.epilogue
  heads i hi := by
    rw [hs.listAt, hheads i hi, update_apply]
    split <;> rfl
  linked i hi := by
    rw [update_apply]
    split_ifs with hik
    · exact hlinked
    · exact (hw.linked i hi).congr (fun x hx => (hothers i hi hik x hx).1)
        fun x hx => (hothers i hi hik x hx).2
  nodup i hi := by
    rw [update_apply]
    split_ifs
    · exact hnodup
    · exact hw.nodup i hi
  nodes i hi := by
    rw [update_apply]
    split_ifs with hik
    · exact hik ▸ hnodes
    · exact hw.nodes i hi

/-- The words that `relink` must find unchanged are none of the links and heads. -/
theorem fixed_ne (hw : h.Wf bs fl) (hb : b ∈ bs) (hfree : b.live = false) (hi : i < 6)
    (hx : h.Fixed bs x) : x ≠ b.addr + 8 ∧ x ≠ b.addr + 16 ∧ x ≠ h.listAt i := by
  have hlist := hw.listAt_lt hi
  obtain ⟨hle, hle', hsize, -⟩ := hw.tiling.bounds hb
  rcases hx with ⟨c, hc, hx⟩ | hx
  · have hapart := hw.tiling.slots_apart hb hc
    have hbase := hw.tiling.bounds hc
    rcases hx with hx | hx | ⟨hlive, hlo, hhi⟩
    · omega
    · omega
    · rcases hw.tiling.disjoint hb hc with rfl | hd
      · rw [hfree] at hlive
        cases hlive
      · omega
  · omega

end Wf

/-! ### `remove_free` -/

theorem removeFree_sameBounds (ptr size : ℕ) : SameBounds h (h.removeFree ptr size) := by
  unfold removeFree
  dsimp only
  split_ifs <;> exact ⟨rfl, rfl, rfl, rfl, rfl⟩

/-- The words after `remove_free`. -/
theorem word_removeFree (size : ℕ) : (h.removeFree (a + 8) size).word x =
    if h.nextOf a ≠ 0 ∧ x = h.nextOf a + 8 then h.prevOf a
    else if h.prevOf a ≠ 0 ∧ x = h.prevOf a + 16 then h.nextOf a
    else if h.prevOf a = 0 ∧ x = h.listAt (listIndex size) then h.nextOf a
    else h.word x := by
  unfold removeFree
  change (if h.nextOf a ≠ 0 then
      (if h.prevOf a ≠ 0 then h.store (h.prevOf a + 16) (h.nextOf a)
        else h.store (h.listAt (listIndex size)) (h.nextOf a)).store (h.nextOf a + 8) (h.prevOf a)
    else if h.prevOf a ≠ 0 then h.store (h.prevOf a + 16) (h.nextOf a)
      else h.store (h.listAt (listIndex size)) (h.nextOf a)).word x = _
  by_cases hn : h.nextOf a = 0 <;> by_cases hp : h.prevOf a = 0 <;> simp [hn, hp, word_store]

/-- **`remove_free`** takes a block off its list. -/
theorem Wf.removeFree (hw : h.Wf bs fl) (hb : b ∈ bs) (hin : b.addr ∈ fl (listIndex b.size)) :
    ∃ fl', (h.removeFree (b.addr + 8) b.size).Wf bs fl' ∧
      Untouched bs h (h.removeFree (b.addr + 8) b.size) ∧
      ∀ i < 6, ∀ x, x ∈ fl' i ↔ x ∈ fl i ∧ x ≠ b.addr := by
  have hk := listIndex_lt b.size
  generalize hkdef : listIndex b.size = k at hin hk
  have hfree : b.live = false := by
    obtain ⟨c, hc, he, hcfree, -⟩ := hw.nodes k hk _ hin
    rw [← hw.tiling.eq_of_addr hc hb he]
    exact hcfree
  obtain ⟨l₁, l₂, hfl⟩ := append_of_mem hin
  have hnd := hw.nodup k hk
  have hlinked := hw.linked k hk
  rw [hfl] at hnd hlinked
  obtain ⟨hprev, hnext⟩ := LinkedFrom.links hlinked
  -- the neighbours are blocks
  have hprev_mem : h.prevOf b.addr ≠ 0 → h.prevOf b.addr ∈ fl k := by
    intro h0
    rw [hfl]
    exact mem_append_left _ ((mem_cons.mp hprev).resolve_left h0)
  have hnext_mem : h.nextOf b.addr ≠ 0 → h.nextOf b.addr ∈ fl k := by
    intro h0
    rw [hfl, hnext]
    rw [hnext] at h0
    exact mem_append_right _ (mem_cons_of_mem _ (front_mem h0))
  have hword := fun x => word_removeFree (h := h) (a := b.addr) (x := x) b.size
  rw [hkdef] at hword
  -- words that are no link and no head
  have hkeep : ∀ x, h.Fixed bs x → (h.removeFree (b.addr + 8) b.size).word x = h.word x := by
    intro x hx
    rw [hword, if_neg, if_neg, if_neg]
    · rintro ⟨-, rfl⟩
      exact (hw.fixed_ne hb hfree hk hx).2.2 rfl
    · rintro ⟨h0, rfl⟩
      obtain ⟨c, hc, he, hcfree, -⟩ := hw.nodes k hk _ (hprev_mem h0)
      exact (hw.fixed_ne hc hcfree hk hx).2.1 (by rw [he])
    · rintro ⟨h0, rfl⟩
      obtain ⟨c, hc, he, hcfree, -⟩ := hw.nodes k hk _ (hnext_mem h0)
      exact (hw.fixed_ne hc hcfree hk hx).1 (by rw [he])
  -- links of nodes
  have hlist := hw.listAt_lt hk
  have hnextOf : ∀ i < 6, ∀ x ∈ fl i, (h.removeFree (b.addr + 8) b.size).nextOf x =
      if x = h.prevOf b.addr then h.nextOf b.addr else h.nextOf x := by
    intro i hi x hx
    obtain ⟨c, hc, rfl⟩ := hw.block hi hx
    have hbase := hw.base_le hc
    rw [nextOf, hword, if_neg, if_neg (c := h.prevOf b.addr = 0 ∧ _) (by omega)]
    · refine if_congr ⟨fun he => by omega, fun he => ⟨?_, by omega⟩⟩ rfl rfl
      omega
    · rintro ⟨h0, he⟩
      obtain ⟨d, hd, hda⟩ := hw.block hk (hnext_mem h0)
      have := (hw.tiling.slots_apart hc hd).2.2.2.2
      omega
  have hprevOf : ∀ i < 6, ∀ x ∈ fl i, (h.removeFree (b.addr + 8) b.size).prevOf x =
      if x = h.nextOf b.addr then h.prevOf b.addr else h.prevOf x := by
    intro i hi x hx
    obtain ⟨c, hc, rfl⟩ := hw.block hi hx
    have hbase := hw.base_le hc
    rw [prevOf, hword, if_neg (c := h.prevOf b.addr ≠ 0 ∧ _),
      if_neg (c := h.prevOf b.addr = 0 ∧ _) (by omega)]
    · refine if_congr ⟨fun he => by omega, fun he => ⟨?_, by omega⟩⟩ rfl rfl
      omega
    · rintro ⟨h0, he⟩
      obtain ⟨d, hd, hda⟩ := hw.block hk (hprev_mem h0)
      have := (hw.tiling.slots_apart hd hc).2.2.2.2
      omega
  obtain ⟨hout, hnd'⟩ := nodup_cons.mp (nodup_middle.mp hnd)
  have hsub : ∀ x, x ∈ l₁ ++ l₂ ↔ x ∈ fl k ∧ x ≠ b.addr := by
    intro x
    rw [hfl, mem_append, mem_append, mem_cons]
    rw [mem_append, not_or] at hout
    by_cases hx : x = b.addr
    · simp [hx, hout]
    · simp [hx]
  refine ⟨update fl k (l₁ ++ l₂), hw.relink (removeFree_sameBounds _ _) hkeep ?_
    (Linked.remove hlinked hnd (fun x hx => hnextOf k hk x ((hsub x).mp hx).1)
      fun x hx => hprevOf k hk x ((hsub x).mp hx).1) hnd' ?_
    fun x hx => hw.nodes k hk x ((hsub x).mp hx).1, untouched_of_fixed hkeep, ?_⟩
  · intro i hi
    have hlist := hw.listAt_lt hi
    have hne : ∀ x ∈ fl k, h.listAt i ≠ x + 8 ∧ h.listAt i ≠ x + 16 := by
      intro x hx
      obtain ⟨c, hc, rfl⟩ := hw.block hk hx
      have := hw.base_le hc
      omega
    rw [hword, if_neg (fun he => (hne _ (hnext_mem he.1)).1 he.2),
      if_neg (fun he => (hne _ (hprev_mem he.1)).2 he.2), hw.heads i hi]
    by_cases hik : i = k
    · subst hik
      rw [if_pos rfl, Linked.front_remove hlinked, ← hfl]
      exact if_congr ⟨And.left, fun h0 => ⟨h0, rfl⟩⟩ rfl rfl
    · rw [if_neg (fun he => hik (listAt_inj h he.2)), if_neg hik]
  · intro i hi hik x hx
    have h0 : x ≠ 0 := (hw.linked i hi).ne_zero hx
    rw [hnextOf i hi x hx, hprevOf i hi x hx, if_neg, if_neg]
    · exact ⟨rfl, rfl⟩
    · rintro rfl
      exact hik (hw.index_unique hi hk hx (hnext_mem h0))
    · rintro rfl
      exact hik (hw.index_unique hi hk hx (hprev_mem h0))
  · intro i hi x
    rw [update_apply]
    split_ifs with hik
    · rw [hik, hsub]
    · refine ⟨fun hx => ⟨hx, ?_⟩, And.left⟩
      rintro rfl
      exact hik (hw.index_unique hi hk hx hin)

/-! ### `insert_free` -/

theorem insertFree_sameBounds (ptr : ℕ) : SameBounds h (h.insertFree ptr) := by
  unfold insertFree
  dsimp only
  split_ifs <;> exact ⟨rfl, rfl, rfl, rfl, rfl⟩

/-- The words after `insert_free` puts a block at the front of a list. -/
theorem word_insertFree {k : ℕ} (hk : listIndex (sizeBits (h.word a)) = k) :
    (h.insertFree (a + 8)).word x =
      if x = h.listAt k then a
      else if h.word (h.listAt k) ≠ 0 ∧ x = h.word (h.listAt k) + 8 then a
      else if x = a + 8 then 0
      else if x = a + 16 then h.word (h.listAt k)
      else h.word x := by
  subst hk
  unfold insertFree
  dsimp only
  rw [Nat.add_sub_cancel]
  generalize h.listAt (listIndex (sizeBits (h.word a))) = list
  by_cases h0 : h.word list = 0 <;> simp [h0, word_store]

/-- **`insert_free`** puts a free block on the list for its size. -/
theorem Wf.insertFree (hw : h.Wf bs fl) (hb : b ∈ bs) (hlive : b.live = false)
    (hout : ∀ i < 6, b.addr ∉ fl i) :
    ∃ fl', (h.insertFree (b.addr + 8)).Wf bs fl' ∧ Untouched bs h (h.insertFree (b.addr + 8)) ∧
      ∀ i < 6, ∀ x, x ∈ fl' i ↔ x ∈ fl i ∨ x = b.addr ∧ i = listIndex b.size := by
  have hk := listIndex_lt b.size
  have hsize : listIndex (sizeBits (h.word b.addr)) = listIndex b.size := by
    rw [hw.sizeBits_word hb]
  have hword := fun x => word_insertFree (h := h) (a := b.addr) (x := x) hsize
  generalize hkdef : listIndex b.size = k at hk hword
  rw [hw.heads k hk] at hword
  have hkeep : ∀ x, h.Fixed bs x → (h.insertFree (b.addr + 8)).word x = h.word x := by
    intro x hx
    have hne := hw.fixed_ne hb hlive hk hx
    rw [hword, if_neg hne.2.2, if_neg, if_neg hne.1, if_neg hne.2.1]
    rintro ⟨h0, rfl⟩
    obtain ⟨c, hc, he, hcfree, -⟩ := hw.nodes k hk _ (front_mem h0)
    exact (hw.fixed_ne hc hcfree hk hx).1 (by rw [he])
  have hlist := hw.listAt_lt hk
  have hnextOf : ∀ c ∈ bs, (h.insertFree (b.addr + 8)).nextOf c.addr =
      if c.addr = b.addr then front (fl k) else h.nextOf c.addr := by
    intro c hc
    have hbase := hw.base_le hc
    have hapart := hw.tiling.slots_apart hc hb
    rw [nextOf, hword, if_neg (by omega), if_neg, if_neg (by omega)]
    · exact if_congr (Nat.add_right_cancel_iff) rfl rfl
    · rintro ⟨h0, he⟩
      obtain ⟨d, hd, hda⟩ := hw.block hk (front_mem h0)
      have := (hw.tiling.slots_apart hc hd).2.2.2.2
      omega
  have hprevOf : ∀ c ∈ bs, (h.insertFree (b.addr + 8)).prevOf c.addr =
      if c.addr = front (fl k) then b.addr else if c.addr = b.addr then 0 else h.prevOf c.addr := by
    intro c hc
    have hbase := hw.base_le hc
    have hapart := hw.tiling.slots_apart hb hc
    rw [prevOf, hword, if_neg (by omega), if_neg (c := c.addr + 8 = b.addr + 16) (by omega)]
    refine if_congr ⟨fun he => by omega, fun he => ⟨by omega, by omega⟩⟩ rfl ?_
    exact if_congr (Nat.add_right_cancel_iff) rfl rfl
  -- the links of the nodes that were on a list
  have hnode : ∀ i < 6, ∀ x ∈ fl i, (h.insertFree (b.addr + 8)).nextOf x = h.nextOf x ∧
      (h.insertFree (b.addr + 8)).prevOf x = if x = front (fl k) then b.addr else h.prevOf x := by
    intro i hi x hx
    obtain ⟨c, hc, rfl⟩ := hw.block hi hx
    have hne : c.addr ≠ b.addr := fun he => hout i hi (he ▸ hx)
    rw [hnextOf c hc, hprevOf c hc, if_neg hne, if_neg hne]
    exact ⟨rfl, rfl⟩
  have h0 := hw.addr_ne_zero hb
  have hfront : b.addr ≠ front (fl k) := fun he =>
    hout k hk (he ▸ front_mem (l := fl k) (he ▸ h0))
  refine ⟨update fl k (b.addr :: fl k), hw.relink (insertFree_sameBounds _) hkeep ?_
    (Linked.push (hw.linked k hk) h0 (hw.nodup k hk) ?_ ?_ (fun x hx => (hnode k hk x hx).1)
      fun x hx => (hnode k hk x hx).2) (nodup_cons.mpr ⟨hout k hk, hw.nodup k hk⟩) ?_ ?_,
    untouched_of_fixed hkeep, ?_⟩
  · intro i hi
    have hlist := hw.listAt_lt hi
    have hbase := hw.base_le hb
    rw [hword]
    by_cases hik : i = k
    · rw [if_pos (by rw [hik]), if_pos hik]
      rfl
    · rw [if_neg (fun he => hik (listAt_inj h he)), if_neg, if_neg (by omega), if_neg (by omega),
        if_neg hik, hw.heads i hi]
      rintro ⟨h0, he⟩
      obtain ⟨d, hd, hda⟩ := hw.block hk (front_mem h0)
      have := hw.base_le hd
      omega
  · rw [hprevOf b hb, if_neg hfront, if_pos rfl]
  · rw [hnextOf b hb, if_pos rfl]
  · intro i hi hik x hx
    obtain ⟨hnext, hprev⟩ := hnode i hi x hx
    refine ⟨hnext, hprev.trans (if_neg fun he => ?_)⟩
    have hx0 : x ≠ 0 := (hw.linked i hi).ne_zero hx
    rw [he] at hx hx0
    exact hik (hw.index_unique hi hk hx (front_mem hx0))
  · rw [forall_mem_cons]
    exact ⟨⟨b, hb, rfl, hlive, hkdef⟩, hw.nodes k hk⟩
  · intro i hi x
    rw [update_apply]
    split_ifs with hik
    · rw [hik, mem_cons]
      tauto
    · simp only [hik, and_false, or_false]

/-! ### `get_free_list` -/

/-- The first of some nodes whose block is large enough, as the search returns it. -/
def firstFit (h : Kheap) (need : ℕ) (l : List ℕ) : Option ℕ :=
  (l.find? fun a => need ≤ sizeBits (h.word a)).map (· + 8)

/-- The search through a list ends, at the first block that is large enough. -/
theorem searchList_eq {l : List ℕ} {p : ℕ} (need : ℕ) (hl : LinkedFrom h.prevOf h.nextOf p l) :
    ∀ fuel, l.length < fuel → h.searchList need fuel (front l) = some (h.firstFit need l) := by
  induction l generalizing p with
  | nil =>
    intro fuel hfuel
    obtain ⟨fuel, rfl⟩ := Nat.exists_eq_succ_of_ne_zero (Nat.ne_of_gt hfuel)
    rfl
  | cons a l ih =>
    intro fuel hfuel
    obtain ⟨fuel, rfl⟩ := Nat.exists_eq_succ_of_ne_zero (Nat.ne_of_gt (Nat.zero_lt_of_lt hfuel))
    obtain ⟨ha, -, hl⟩ := hl
    have hnext : h.word (a + 16) = front l := hl.next_eq ha
    rw [searchList, front, headD_cons, if_neg ha, firstFit, find?_cons, hnext,
      ih hl fuel (Nat.lt_of_succ_lt_succ hfuel)]
    split_ifs with hneed <;> simp [hneed, firstFit]

/-- A list has fewer nodes than the search allows for. -/
theorem Wf.length_lt (hw : h.Wf bs fl) (hi : i < 6) : (fl i).length < h.heapMemoryBrk := by
  have hsub : fl i ⊆ bs.map Block.addr := by
    intro x hx
    obtain ⟨b, hb, rfl, -⟩ := hw.nodes i hi x hx
    exact List.mem_map_of_mem hb
  have hle := (subperm_of_subset (hw.nodup i hi) hsub).length_le
  have hlen := hw.tiling.length_le
  rw [length_map] at hle
  have := hw.bounds.le_brk
  omega

/-- The nodes of a list that the search looks at: of two of the lists only the first one. -/
def lookedAt (fl : ℕ → List ℕ) (k : ℕ) : List ℕ := if k = 1 ∨ k = 2 then (fl k).take 1 else fl k

/-- The nodes that the search looks at on the lists from the `k`th on. -/
def seenFrom (fl : ℕ → List ℕ) (k : ℕ) : List ℕ := (List.range' k (6 - k)).flatMap (lookedAt fl)

theorem mem_of_mem_lookedAt (ha : a ∈ lookedAt fl k) : a ∈ fl k := by
  unfold lookedAt at ha
  split at ha
  · exact mem_of_mem_take ha
  · exact ha

theorem mem_seenFrom : a ∈ seenFrom fl k ↔ ∃ i, (k ≤ i ∧ i < 6) ∧ a ∈ lookedAt fl i := by
  rw [seenFrom, mem_flatMap]
  refine exists_congr fun i => and_congr_left fun _ => ?_
  rw [mem_range'_1]
  omega

theorem firstFit_seenFrom (hk : k < 6) : h.firstFit need (seenFrom fl k) =
    (h.firstFit need (lookedAt fl k)).or (h.firstFit need (seenFrom fl (k + 1))) := by
  rw [seenFrom, show 6 - k = 6 - (k + 1) + 1 by omega, range'_succ, flatMap_cons, firstFit,
    find?_append, map_or]
  rfl

theorem Wf.inList_eq (hw : h.Wf bs fl) (hk : k < 6) (hall : k ≠ 1 ∧ k ≠ 2) :
    getFreeList.inList h need k o = (h.firstFit need (lookedAt fl k)).elim o (some ∘ some) := by
  rw [getFreeList.inList, hw.heads k hk, searchList_eq need (hw.linked k hk) _ (hw.length_lt hk),
    lookedAt, if_neg (by omega)]
  cases h.firstFit need (fl k) <;> rfl

theorem Wf.firstOf_eq (hw : h.Wf bs fl) (hk : k = 1 ∨ k = 2) (hne : h.word (h.listAt k) ≠ 0) :
    getFreeList.firstOf h need k o = (h.firstFit need (lookedAt fl k)).elim o (some ∘ some) := by
  rw [getFreeList.firstOf, lookedAt, if_pos hk]
  rw [hw.heads k (by omega)] at hne ⊢
  cases hfl : fl k with
  | nil => exact absurd (by rw [hfl]; rfl) hne
  | cons a l =>
    rw [take_succ_cons, take_zero, firstFit, find?_cons, front, headD_cons]
    split_ifs with hneed <;> simp [hneed]

/-- How often `get_free_list` may call itself, with the call itself. -/
def searchDepth (size : ℕ) : ℕ :=
  if size ≤ 16 then 6 else if size ≤ 48 then 5 else if size ≤ 80 then 4
  else if size ≤ 176 then 3 else if size ≤ 496 then 2 else 1

theorem firstFit_eq_none_iff {l : List ℕ} :
    h.firstFit need l = none ↔ ¬∃ a ∈ l, need ≤ sizeBits (h.word a) := by
  simp [firstFit]

/-- The lists but the last one, with the largest request that each may serve. -/
def classes : List (ℕ × ℕ) := [(0, 16), (1, 48), (2, 80), (3, 176), (4, 496)]

theorem class_bounds : ∀ c ∈ classes, c.1 < 6 ∧ 16 ∣ c.2 ∧ c.2 < 2 ^ 32 := by decide

theorem listIndex_le_iff (hc : (k, bound) ∈ classes) (n : ℕ) :
    listIndex n ≤ k ↔ n ≤ bound + 16 := by
  simp only [classes, mem_cons, Prod.mk.injEq, not_mem_nil, or_false] at hc
  unfold listIndex
  rcases hc with ⟨rfl, rfl⟩ | ⟨rfl, rfl⟩ | ⟨rfl, rfl⟩ | ⟨rfl, rfl⟩ | ⟨rfl, rfl⟩ <;>
    split_ifs <;> omega

theorem searchDepth_le (size : ℕ) : searchDepth size ≤ 6 := by
  unfold searchDepth
  split_ifs <;> decide

/-- The search goes on with a request that needs fewer calls. -/
theorem searchDepth_lt (hc : (k, bound) ∈ classes) (hle : size ≤ bound) :
    searchDepth (bound + 1) < searchDepth size := by
  simp only [classes, mem_cons, Prod.mk.injEq, not_mem_nil, or_false] at hc
  unfold searchDepth
  rcases hc with ⟨rfl, rfl⟩ | ⟨rfl, rfl⟩ | ⟨rfl, rfl⟩ | ⟨rfl, rfl⟩ | ⟨rfl, rfl⟩ <;>
    split_ifs <;> omega

/-- The blocks on the lists up to the `k`th are at most this large. -/
theorem Wf.sizeBits_le_iff (hw : h.Wf bs fl) (hc : (k, bound) ∈ classes) (hi : i < 6)
    (ha : a ∈ lookedAt fl i) : sizeBits (h.word a) ≤ bound + 16 ↔ i ≤ k := by
  obtain ⟨b, hb, rfl, -, rfl⟩ := hw.nodes i hi a (mem_of_mem_lookedAt ha)
  rw [hw.sizeBits_word hb, listIndex_le_iff hc]

/-- A list is passed over if its blocks are too small. -/
theorem firstFit_skip (hk : k < 6) (hsmall : ∀ a ∈ lookedAt fl k, sizeBits (h.word a) < need) :
    h.firstFit need (seenFrom fl k) = h.firstFit need (seenFrom fl (k + 1)) := by
  have hnone : h.firstFit need (lookedAt fl k) = none := by
    rw [firstFit_eq_none_iff]
    rintro ⟨a, ha, hneed⟩
    exact Nat.not_le.mpr (hsmall a ha) hneed
  rw [firstFit_seenFrom hk, hnone, none_or]

/-- The search goes on with a request that none of the lists up to the `k`th can serve, and every
block on the others can. -/
theorem Wf.firstFit_next (hw : h.Wf bs fl) (hc : (k, bound) ∈ classes) (hsize : size ≤ bound) :
    h.firstFit (align (bound + 1 + 16)) (seenFrom fl 0) =
      h.firstFit (align (size + 16)) (seenFrom fl (k + 1)) := by
  obtain ⟨hk, hdvd, hlt⟩ := class_bounds _ hc
  have hnext : align (bound + 1 + 16) = bound + 32 := by
    unfold align
    omega
  have hskip : ∀ j ≤ k + 1, h.firstFit (bound + 32) (seenFrom fl 0) =
      h.firstFit (bound + 32) (seenFrom fl j) := by
    intro j
    induction j with
    | zero => exact fun _ => rfl
    | succ j ih =>
      refine fun hj => (ih (by omega)).trans (firstFit_skip (by omega) fun a ha => ?_)
      have := (hw.sizeBits_le_iff hc (by omega) ha).mpr (by omega)
      omega
  rw [hnext, hskip (k + 1) le_rfl]
  refine congrArg (Option.map _) (find?_congr fun a ha => ?_)
  obtain ⟨i, ⟨hki, hi⟩, ha⟩ := mem_seenFrom.mp ha
  have hlarge := mt (hw.sizeBits_le_iff hc hi ha).mp (by omega)
  unfold sizeBits align at *
  rw [decide_eq_true (by omega), decide_eq_true (by omega)]

/-- **`get_free_list`** ends, at the first block that it looks at and that is large enough. -/
theorem Wf.getFreeList_eq (hw : h.Wf bs fl) : ∀ depth size, searchDepth size ≤ depth →
    size + 31 < 2 ^ 64 →
    h.getFreeList depth size = some (h.firstFit (align (size + 16)) (seenFrom fl 0)) := by
  intro depth
  induction depth with
  | zero =>
    intro size hdepth
    unfold searchDepth at hdepth
    split_ifs at hdepth <;> omega
  | succ depth ih =>
    intro size hdepth hsize
    -- a list that is not searched is empty, or its blocks are too small
    have hskip : ∀ k bound, (k, bound) ∈ classes → ¬(size ≤ bound ∧ h.word (h.listAt k) ≠ 0) →
        h.firstFit (align (size + 16)) (seenFrom fl k) =
          h.firstFit (align (size + 16)) (seenFrom fl (k + 1)) := by
      intro k bound hc hnot
      have hk := (class_bounds _ hc).1
      refine firstFit_skip hk fun a ha => ?_
      have hle := (hw.sizeBits_le_iff hc hk ha).mpr le_rfl
      rw [hw.heads k hk] at hnot
      have hne := (hw.linked k hk).front_ne_zero (mem_of_mem_lookedAt ha)
      unfold align
      omega
    have hstep : ∀ k bound, (k, bound) ∈ classes → size ≤ bound →
        (h.firstFit (align (size + 16)) (lookedAt fl k)).elim (h.getFreeList depth (bound + 1))
          (some ∘ some) = some (h.firstFit (align (size + 16)) (seenFrom fl k)) := by
      intro k bound hc hle
      obtain ⟨hk, -, hlt⟩ := class_bounds _ hc
      have hdepth' := (searchDepth_lt hc hle).trans_le hdepth
      rw [ih _ (Nat.le_of_lt_succ hdepth') (by omega), hw.firstFit_next hc hle, firstFit_seenFrom hk]
      cases h.firstFit (align (size + 16)) (lookedAt fl k) <;> rfl
    rw [Kheap.getFreeList]
    split_ifs with h0 h1 h2 h3 h4
    · rw [hw.inList_eq (by decide) (by decide), hstep 0 16 (by decide) h0.1]
    all_goals rw [hskip 0 16 (by decide) h0]
    · rw [hw.firstOf_eq (.inl rfl) h1.2, hstep 1 48 (by decide) h1.1]
    all_goals rw [hskip 1 48 (by decide) h1]
    · rw [hw.firstOf_eq (.inr rfl) h2.2, hstep 2 80 (by decide) h2.1]
    all_goals rw [hskip 2 80 (by decide) h2]
    · rw [hw.inList_eq (by decide) (by decide), hstep 3 176 (by decide) h3.1]
    all_goals rw [hskip 3 176 (by decide) h3]
    · rw [hw.inList_eq (by decide) (by decide), hstep 4 496 (by decide) h4.1]
    · rw [hskip 4 496 (by decide) h4, hw.inList_eq (by decide) (by decide),
        firstFit_seenFrom (by decide)]
      cases h.firstFit (align (size + 16)) (lookedAt fl 5) <;> rfl

/-- What a search may find: a block on its list that is large enough. -/
def Found (bs : List Block) (fl : ℕ → List ℕ) (need ptr : ℕ) : Prop :=
  ∃ b ∈ bs, ptr = b.addr + 8 ∧ b.live = false ∧ b.addr ∈ fl (listIndex b.size) ∧ need ≤ b.size

/-- The outcome of a search that ended. -/
def Searched (bs : List Block) (fl : ℕ → List ℕ) (need : ℕ) (r : Option (Option ℕ)) : Prop :=
  ∃ o, r = some o ∧ ∀ ptr, o = some ptr → Found bs fl need ptr

theorem Wf.found (hw : h.Wf bs fl) (hi : i < 6) (ha : a ∈ fl i)
    (hneed : need ≤ sizeBits (h.word a)) : Found bs fl need (a + 8) := by
  obtain ⟨b, hb, rfl, hlive, rfl⟩ := hw.nodes i hi a ha
  rw [hw.sizeBits_word hb] at hneed
  exact ⟨b, hb, rfl, hlive, ha, hneed⟩

/-- **`get_free_list`** ends, and finds only a block that is on its list and large enough. -/
theorem Wf.getFreeList (hw : h.Wf bs fl) (hsize : size + 31 < 2 ^ 64) :
    Searched bs fl (align (size + 16)) (h.getFreeList 6 size) := by
  refine ⟨_, hw.getFreeList_eq 6 size (searchDepth_le size) hsize, fun ptr hptr => ?_⟩
  obtain ⟨a, hfind, rfl⟩ := map_eq_some_iff.mp hptr
  obtain ⟨i, ⟨-, hi⟩, ha⟩ := mem_seenFrom.mp (mem_of_find?_eq_some hfind)
  have hneed := find?_some hfind
  exact hw.found hi (mem_of_mem_lookedAt ha) (of_decide_eq_true hneed)

end Kheap

end OsPi
