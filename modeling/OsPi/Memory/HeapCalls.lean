import OsPi.Memory.HeapOps

/-!
# Calls to the Kernel Heap

The calls `kmalloc`, `kfree`, `krealloc` and `kcalloc` from outside. A `Session` is the heap
together with what its clients hold: the pointers they were given and the sizes they asked
for. Clients may also write to the bytes they hold. `heap_consistent` says what is true of the
heap after every run of such calls that starts where `kmem_init` ends.
-/

namespace OsPi

open List Option

namespace Kheap

variable {h h' : Kheap} {bs bs' : List Block} {fl fl' : ℕ → List ℕ} {b c : Block}
  {ptr size num value x : ℕ}

/-! ### Bytes of an allocated block -/

/-- Blocks start at multiples of eight. -/
theorem Wf.addr_mod (hw : h.Wf bs fl) (hb : b ∈ bs) : b.addr % 8 = 0 := by
  obtain ⟨hle, -, -, -, k, hk⟩ := hw.tiling.bounds hb
  obtain ⟨n, hn⟩ := hw.bounds.aligned
  have := hw.bounds.heapPtr
  omega

/-- **Writing a byte** of an allocated block changes neither blocks nor lists. -/
theorem Valid.storeByte (hv : h.Valid bs fl) (hb : b ∈ bs) (hlive : b.live = true)
    (hlo : b.addr + 8 ≤ x) (hhi : x + 8 < b.addr + b.size) : (h.storeByte x value).Valid bs fl := by
  refine ⟨?_, hv.listed, hv.merged⟩
  have hmod := hv.wf.addr_mod hb
  have hout := hv.wf.out_of_live hb hlive
  have htags := hv.wf.tags b hb
  obtain ⟨-, -, hsize, ⟨k, hk⟩, -⟩ := hv.wf.tiling.bounds hb
  obtain ⟨l, r, rfl⟩ := append_of_mem hb
  obtain ⟨hl, -, hdvd, -⟩ := hv.wf.around
  have hw := hv.wf
  rw [append_cons] at hw ⊢
  have htile : Tiling b.addr [b] (b.addr + b.size) := ⟨rfl, hsize, hdvd, rfl⟩
  refine hw.replace (sameBounds_store _ _) hl htile htile ?_ ?_ ?_
  · intro i hi c hc
    rw [mem_singleton.mp hc]
    exact hout i hi
  · intro y hy
    rw [Kheap.storeByte, word_store, if_neg (by omega)]
  · intro c hc
    rw [mem_singleton.mp hc, Kheap.storeByte, word_store, word_store, if_neg (by omega),
      if_neg (by omega)]
    exact htags

theorem Valid.kmallocMemset (hv : h.Valid bs fl) (hb : b ∈ bs) (hlive : b.live = true)
    (hlo : b.addr + 8 ≤ ptr) (hhi : ptr + num + 8 ≤ b.addr + b.size) :
    (h.kmallocMemset ptr value num).Valid bs fl := by
  induction num generalizing h ptr with
  | zero => exact hv
  | succ num ih => exact ih (hv.storeByte hb hlive hlo (by omega)) (by omega) (by omega)

theorem Valid.kmallocMemcpy (hv : h.Valid bs fl) (src num : ℕ) (hb : b ∈ bs) (hlive : b.live = true)
    (hlo : b.addr + 8 ≤ ptr) (hhi : ptr + num + 8 ≤ b.addr + b.size) :
    (h.kmallocMemcpy ptr src num).Valid bs fl := by
  induction num generalizing h ptr src with
  | zero => exact hv
  | succ num ih => exact ih (hv.storeByte hb hlive hlo (by omega)) _ (by omega) (by omega)

/-! ### `kmalloc` -/

/-- No sum that a call with this size takes is cut off at 64 bits. -/
def NoWrap (h : Kheap) (size : ℕ) : Prop :=
  size + 31 < 2 ^ 64 ∧ h.heapMemoryBrk + max pageSize (align (size + 16)) < 2 ^ 64

/-- What a call that allocates leaves: the same allocated blocks, or one more that is large
enough. -/
def Allocates (bs : List Block) (size ptr : ℕ) (h' : Kheap) : Prop :=
  (ptr = 0 ∧ ∃ bs' fl', h'.Valid bs' fl' ∧ liveOf bs' = liveOf bs) ∨
    ∃ b bs' fl', ptr = b.addr + 8 ∧ h'.Valid bs' fl' ∧ Allocated bs b bs' ∧ size + 16 ≤ b.size

theorem le_align (hsize : size + 31 < 2 ^ 64) : size + 16 ≤ align (size + 16) := by
  rw [align_eq (by omega)]
  omega

/-- The size `kmalloc` extends the heap by. -/
abbrev extension (size : ℕ) : ℕ :=
  if pageSize < align (size + 16) then align (size + 16) else pageSize

/-- The size by which `kmalloc` extends the heap is aligned already. -/
theorem align_extend (size : ℕ) :
    align (extension size) = max pageSize (align (size + 16)) := by
  obtain ⟨n, hn⟩ := dvd_align (size + 16)
  have hlt : align (size + 16) < 2 ^ 64 := Nat.mod_lt _ (by decide)
  have hpage : pageSize = 4096 := rfl
  rw [extension]
  split_ifs with hle
  · rw [align_eq (by omega)]
    omega
  · rw [align_eq (by omega)]
    omega

theorem Valid.allocates_of_getAllocation (hv : h.Valid bs fl) (hpos : 0 < size)
    (hsize : size + 31 < 2 ^ 64) :
    ∃ ptr h', h.getAllocation size = some (ptr, h') ∧ Allocates bs size ptr h' ∧
      Untouched bs h h' := by
  rcases hv.getAllocation hpos hsize with heq | ⟨h', b, bs', fl', heq, hv', halloc, hle, hquiet⟩
  · exact ⟨0, h, heq, .inl ⟨rfl, bs, fl, hv, rfl⟩, Quiet.refl.untouched⟩
  · exact ⟨_, h', heq, .inr ⟨b, bs', fl', rfl, hv', halloc, (le_align hsize).trans hle⟩,
      hquiet.untouched⟩

theorem Allocates.of_liveOf_eq (hlive : liveOf bs' = liveOf bs) (ha : Allocates bs' size ptr h') :
    Allocates bs size ptr h' := by
  rcases ha with ⟨h0, bs₁, fl₁, hv, heq⟩ | ⟨b, bs₁, fl₁, hptr, hv, ⟨h1, h2, h3⟩, hle⟩
  · exact .inl ⟨h0, bs₁, fl₁, hv, heq.trans hlive⟩
  · rw [hlive] at h2 h3
    exact .inr ⟨b, bs₁, fl₁, hptr, hv, ⟨h1, h2, h3⟩, hle⟩

/-- **`kmalloc`** ends, and allocates a block that is large enough or none. -/
theorem Valid.kmalloc (hv : h.Valid bs fl) (hwrap : h.NoWrap size) :
    ∃ ptr h', h.kmalloc size = some (ptr, h') ∧ Allocates bs size ptr h' ∧ Untouched bs h h' := by
  obtain ⟨hsize, hbrk⟩ := hwrap
  rw [Kheap.kmalloc]
  split_ifs with h0
  · exact ⟨0, h, rfl, .inl ⟨rfl, bs, fl, hv, rfl⟩, Quiet.refl.untouched⟩
  have hpos : 0 < size := Nat.pos_of_ne_zero h0
  rcases hv.getAllocation hpos hsize with heq | ⟨h', b, bs', fl', heq, hv', halloc, hle, hquiet⟩
  · -- no block fits, and the heap grows
    rw [heq]
    have halign := align_extend size
    rcases hv.extendHeap (extension size)
        (by rw [halign]; exact Nat.le_trans (by decide) (Nat.le_max_left _ _))
        (by rw [halign]; exact hbrk) with
      hnone | ⟨h₁, bs₁, fl₁, hsome, hv₁, hlive, -, hextend⟩
    · simp only [hnone]
      exact ⟨0, h, rfl, .inl ⟨rfl, bs, fl, hv, rfl⟩, Quiet.refl.untouched⟩
    · simp only [hsome]
      obtain ⟨ptr, h', heq', ha, hun⟩ := hv₁.allocates_of_getAllocation hpos hsize
      refine ⟨ptr, h', heq', ha.of_liveOf_eq hlive.liveOf_eq, fun c hc hcl x hlo hhi => ?_⟩
      rw [hun c ((hlive c hcl).mpr hc) hcl x hlo hhi, hextend c hc hcl x hlo hhi]
  · rw [heq]
    exact ⟨_, h', rfl, .inr ⟨b, bs', fl', rfl, hv', halloc, (le_align hsize).trans hle⟩,
      hquiet.untouched⟩

/-- **`kcalloc`** is `kmalloc` of the product, with the block cleared. -/
theorem Valid.kcalloc {nmemb : ℕ} (hv : h.Valid bs fl) (hmul : size * nmemb < 2 ^ 64)
    (hwrap : h.NoWrap (size * nmemb)) :
    ∃ ptr h', h.kcalloc nmemb size = some (ptr, h') ∧ Allocates bs (size * nmemb) ptr h' := by
  obtain ⟨ptr, h', heq, ha, -⟩ := hv.kmalloc hwrap
  rw [Kheap.kcalloc]
  simp only [Nat.mod_eq_of_lt hmul, heq]
  rcases ha with ⟨rfl, hsame⟩ | ⟨b, bs', fl', rfl, hv', halloc, hle⟩
  · exact ⟨0, h', rfl, .inl ⟨rfl, hsame⟩⟩
  · have hb : b ∈ liveOf bs' := by
      rw [halloc.liveOf_eq]
      exact Set.mem_insert _ _
    exact ⟨_, _, rfl, .inr ⟨b, bs', fl', rfl,
      hv'.kmallocMemset hb.1 hb.2 (Nat.le_refl _) (by omega), halloc, hle⟩⟩

/-! ### `krealloc` -/

/-- The free block after an allocated one is taken off its list. -/
theorem Valid.takeNext {l r : List Block} (hv : h.Valid (l ++ b :: c :: r) fl)
    (hlive : b.live = true) (hfree : c.live = false) :
    ∃ fl', (h.removeFree (c.addr + 8) c.size).Wf (l ++ [b, c] ++ r) fl' ∧
      Tiling ((h.removeFree (c.addr + 8) c.size).heapPtr + 16) l b.addr ∧
      Tiling b.addr [b, c] (b.addr + (b.size + c.size)) ∧ Merged r ∧
      (∀ i < 6, ∀ d ∈ [b, c], d.addr ∉ fl' i) ∧ Listed (l ++ r) fl' ∧
      Untouched (l ++ b :: c :: r) h (h.removeFree (c.addr + 8) c.size) := by
  have hb : b ∈ l ++ b :: c :: r := mem_append_right _ mem_cons_self
  have hc : c ∈ l ++ b :: c :: r :=
    mem_append_right _ (mem_cons_of_mem _ mem_cons_self)
  obtain ⟨fl', hw, huntouched, hmem⟩ := hv.wf.removeFree hc (hv.listed c hc hfree)
  obtain ⟨hl, hsize, hdvd, hbc, hcsize, hcdvd, -⟩ := hv.wf.around
  refine ⟨fl', ?_, ?_, ⟨rfl, hsize, hdvd, hbc, hcsize, hcdvd, Nat.add_assoc _ _ _⟩,
    (isChain_cons.mp hv.merged.right).2, ?_, ?_, huntouched⟩
  · rw [append_assoc]
    exact hw
  · rw [(removeFree_sameBounds _ _).heapPtr]
    exact hl
  · intro i hi d hd hin
    rcases mem_cons.mp hd with rfl | hd
    · exact hv.wf.out_of_live hb hlive i hi ((hmem i hi _).mp hin).1
    · rw [mem_singleton.mp hd] at hin
      exact ((hmem i hi _).mp hin).2 rfl
  · intro d hd hdfree
    have ht := hv.wf.tiling
    rw [append_cons] at ht
    have hne : d.addr ≠ c.addr := by
      refine ht.addr_ne ?_
      rw [append_assoc]
      exact mem_middle hd
    exact (hmem _ (listIndex_lt _) _).mpr ⟨hv.listed d (mem_middle (mem_middle hd)) hdfree, hne⟩

/-- The allocated blocks besides one that is followed by a free one. -/
theorem Valid.liveOf_sides {l r : List Block} (hv : h.Valid (l ++ b :: c :: r) fl)
    (hlive : b.live = true) (hfree : c.live = false) :
    liveOf (l ++ r) = liveOf (l ++ b :: c :: r) \ {b} := by
  rw [← hv.wf.liveOf_erase hlive, liveOf_middle (b := c), liveOf_of_free hfree, Set.empty_union]

/-- What lies after an allocated block: the epilogue or another block. -/
theorem Valid.word_next (hv : h.Valid bs fl) (hb : b ∈ bs) :
    h.word (b.addr + b.size) = 1 ∨ ∃ l c r, bs = l ++ b :: c :: r ∧ c.addr = b.addr + b.size ∧
      16 ∣ c.size ∧ 32 ≤ c.size ∧ h.word (b.addr + b.size) = c.tag := by
  obtain ⟨l, r, rfl⟩ := append_of_mem hb
  obtain ⟨-, -, -, hr⟩ := hv.wf.around
  rcases r with _ | ⟨c, r⟩
  · have hr : b.addr + b.size = h.heapMemoryBrk - 8 := hr
    exact .inl (by rw [hr, hv.wf.epilogue])
  · obtain ⟨hbc, hcsize, hcdvd, -⟩ := hr
    have hc : c ∈ l ++ b :: c :: r :=
      mem_append_right _ (mem_cons_of_mem _ mem_cons_self)
    exact .inr ⟨l, c, r, rfl, hbc, hcdvd, hcsize, by rw [← hbc, (hv.wf.tags c hc).1]⟩

theorem Block.live_eq_false (hdvd : 16 ∣ c.size) (heven : c.tag % 2 = 0) : c.live = false := by
  rw [Block.tag_mod_two hdvd] at heven
  cases hc : c.live with
  | false => rfl
  | true =>
    rw [hc] at heven
    cases heven

/-- Taking in the block after an allocated one gives a larger allocated block, if anything. -/
theorem Valid.expandNext {needed : ℕ} (hv : h.Valid bs fl) (hb : b ∈ bs) (hlive : b.live = true)
    (he : h.expandNext (b.addr + 8) b.size needed = some h') : ∃ c bs' fl', h'.Valid bs' fl' ∧
      c.live = true ∧ c.addr = b.addr ∧ needed ≤ c.size ∧
      liveOf bs' = insert c (liveOf bs \ {b}) := by
  rw [Kheap.expandNext] at he
  simp only [Nat.add_sub_cancel] at he
  rcases hv.word_next hb with hend | ⟨l, c, r, rfl, hbc, hcdvd, hcsize, hword⟩
  · -- the epilogue is not free
    rw [hend, if_neg (fun hodd => absurd hodd.1 (by decide))] at he
    cases he
  · rw [hword, Block.sizeBits_tag hcdvd] at he
    split_ifs at he with hcond
    have hfree := Block.live_eq_false hcdvd hcond.1
    obtain ⟨fl', hw, hl, hold, hmerged, hout, hlisted, -⟩ := hv.takeNext hlive hfree
    have hv' := hw.fill hl hold hout hlisted hv.merged.left hmerged
      (Nat.dvd_add hold.2.2.1 hcdvd) (by omega)
    have heq : (h.removeFree (c.addr + 8) c.size).writeTags [⟨b.addr, b.size + c.size, true⟩] =
        h' := by
      rw [← some.inj he, hbc, Nat.add_assoc b.addr b.size c.size]
      rfl
    rw [heq] at hv'
    refine ⟨⟨b.addr, b.size + c.size, true⟩, _, fl', hv', rfl, rfl, hcond.2, ?_⟩
    rw [liveOf_middle, liveOf_of_live rfl, hv.liveOf_sides hlive hfree]
    rfl

/-- What `krealloc` of an allocated block leaves: the block gone when the new size is zero,
everything as it was when it fails, and a block that is large enough in its place otherwise. -/
def Reallocates (bs : List Block) (b : Block) (size ptr : ℕ) (h' : Kheap) : Prop :=
  ∃ bs' fl', h'.Valid bs' fl' ∧
    ((ptr = 0 ∧ size = 0 ∧ liveOf bs' = liveOf bs \ {b}) ∨
      (ptr = 0 ∧ size ≠ 0 ∧ liveOf bs' = liveOf bs) ∨
      ∃ c, ptr = c.addr + 8 ∧ c.live = true ∧ size + 16 ≤ c.size ∧
        (∀ d ∈ liveOf bs \ {b}, d.addr ≠ c.addr) ∧ liveOf bs' = insert c (liveOf bs \ {b}))

/-- **`krealloc`** of an allocated block ends, and leaves what it should. -/
theorem Valid.krealloc (hv : h.Valid bs fl) (hb : b ∈ bs) (hlive : b.live = true)
    (hwrap : h.NoWrap size) :
    ∃ ptr h', h.krealloc (b.addr + 8) size = some (ptr, h') ∧ Reallocates bs b size ptr h' := by
  have hdvd := (hv.wf.tiling.bounds hb).2.2.2.1
  have hother : ∀ d ∈ liveOf bs \ {b}, d.addr ≠ b.addr := by
    rintro d ⟨⟨hd, -⟩, hne⟩ heq
    exact hne (hv.wf.tiling.eq_of_addr hd hb heq)
  have hin : insert b (liveOf bs \ {b}) = liveOf bs := Set.insert_sdiff_self_of_mem ⟨hb, hlive⟩
  rw [Kheap.krealloc, if_neg (Nat.succ_ne_zero _)]
  split_ifs with h0
  · obtain ⟨bs', fl', hv', -, heq⟩ := hv.kfree hb hlive
    exact ⟨0, _, rfl, bs', fl', hv', .inl ⟨rfl, h0, heq⟩⟩
  simp only [Nat.add_sub_cancel, hv.wf.sizeBits_word hb]
  have hneed := le_align hwrap.1
  split_ifs with hfit
  · exact ⟨_, h, rfl, bs, fl, hv, .inr (.inr ⟨b, rfl, hlive, hneed.trans hfit, hother, hin.symm⟩)⟩
  cases hexp : h.expandNext (b.addr + 8) b.size (align (size + 16)) with
  | some h₁ =>
    obtain ⟨c, bs', fl', hv', hc, haddr, hle, heq⟩ := hv.expandNext hb hlive hexp
    refine ⟨_, h₁, rfl, bs', fl', hv', .inr (.inr ⟨c, by rw [haddr], hc, hneed.trans hle, ?_, heq⟩)⟩
    rw [haddr]
    exact hother
  | none =>
    obtain ⟨ptr, h₁, heq, ha, -⟩ := hv.kmalloc hwrap
    simp only [heq]
    rcases ha with ⟨rfl, bs₁, fl₁, hv₁, hsame⟩ | ⟨c, bs₁, fl₁, rfl, hv₁, halloc, hle⟩
    · exact ⟨0, h₁, rfl, bs₁, fl₁, hv₁, .inr (.inl ⟨rfl, h0, hsame⟩)⟩
    · -- the old block is still allocated, and the bytes go into the new one
      have hc : c ∈ liveOf bs₁ := by
        rw [halloc.liveOf_eq]
        exact Set.mem_insert _ _
      have hb₁ : b ∈ liveOf bs₁ := by
        rw [halloc.liveOf_eq]
        exact Set.mem_insert_of_mem _ ⟨hb, hlive⟩
      have hcopy := hv₁.kmallocMemcpy (b.addr + 8) (min size (b.size - 16)) hc.1 hc.2
        (Nat.le_refl _) (by have := Nat.min_le_left size (b.size - 16); omega)
      obtain ⟨bs', fl', hv', -, heq'⟩ := hcopy.kfree hb₁.1 hb₁.2
      have hne : c ≠ b := fun he => halloc.fresh b ⟨hb, hlive⟩ (by rw [he])
      refine ⟨_, _, rfl, bs', fl', hv', .inr (.inr ⟨c, rfl, halloc.live, hle, ?_, ?_⟩)⟩
      · exact fun d hd => halloc.fresh d hd.1
      · rw [heq', halloc.liveOf_eq]
        exact Set.insert_sdiff_of_notMem _ hne

/-! ### `kmem_init` -/

/-- The bits of a word after a range of bytes is cleared. -/
theorem testBit_kmallocMemset (hx : x % 8 = 0) (i : ℕ) :
    ((h.kmallocMemset ptr 0 num).word x).testBit i =
      if i < 64 ∧ ptr ≤ x + i / 8 ∧ x + i / 8 < ptr + num then false
      else (h.word x).testBit i := by
  induction num generalizing h ptr with
  | zero => rw [kmallocMemset, if_neg (by omega)]
  | succ num ih =>
    rw [kmallocMemset, ih, storeByte, word_store]
    by_cases hword : x = ptr / 8 * 8
    · rw [if_pos hword, Bytes.testBit_write, Nat.zero_testBit, ← hword]
      split_ifs <;> first | rfl | omega
    · rw [if_neg hword]
      split_ifs <;> first | rfl | omega

theorem kmallocMemset_sameBounds : SameBounds h (h.kmallocMemset ptr value num) := by
  induction num generalizing h ptr with
  | zero => exact .refl
  | succ num ih => exact (sameBounds_store _ _).trans ih

theorem word_kmallocMemset (hx : x % 8 = 0) (hlt : h.word x < 2 ^ 64) (hlo : ptr ≤ x)
    (hhi : x + 8 ≤ ptr + num) : (h.kmallocMemset ptr 0 num).word x = 0 := by
  refine Nat.eq_of_testBit_eq fun i => ?_
  rw [testBit_kmallocMemset hx, Nat.zero_testBit]
  split_ifs with hi
  · rfl
  · have hge : 64 ≤ i := by omega
    exact Nat.testBit_lt_two_pow (Nat.lt_of_lt_of_le hlt (Nat.pow_le_pow_right (by decide) hge))

/-- The heap with its prologue and epilogue and no block yet. -/
theorem valid_prologue {start : ℕ} (hpos : 0 < start) (halign : 8 ∣ start)
    (hstart : h.heapMemory = start) (hlists : h.segListsPtr = start)
    (hend : start + 48 + 24 ≤ h.heapMemoryEnd) (hlt : h.heapMemoryEnd < 2 ^ 64)
    (hheads : ∀ i < 6, h.word (start + 8 * i) = 0) :
    ((({ h with heapMemoryBrk := start + 48 + 24, heapPtr := start + 48 } : Kheap).store
      (start + 48) (16 ||| 1)).store (start + 48 + 8) (16 ||| 1)).store (start + 48 + 16) 1
      |>.Valid [] fun _ => [] := by
  refine ⟨⟨⟨?_, ?_, ?_, ?_, Nat.le_refl _, hend, hlt⟩, rfl, ?_, ⟨?_, ?_⟩, ?_, ?_, ?_, ?_, ?_⟩, ?_,
    .nil⟩
  · exact hstart.symm ▸ hpos
  · exact hstart.symm ▸ halign
  · exact hlists.trans hstart.symm
  · exact congrArg (· + 48) hstart.symm
  · exact fun b hb => by cases hb
  · change word _ (start + 48) = 17
    rw [word_store, if_neg (by omega), word_store, if_neg (by omega), word_store, if_pos rfl]
    rfl
  · change word _ (start + 48 + 8) = 17
    rw [word_store, if_neg (by omega), word_store, if_pos rfl]
    rfl
  · change word _ (start + 48 + 24 - 8) = 1
    rw [word_store, if_pos (by omega)]
  · intro i hi
    change word _ (h.segListsPtr + 8 * i) = 0
    rw [hlists, word_store, if_neg (by omega), word_store, if_neg (by omega), word_store,
      if_neg (by omega)]
    exact hheads i hi
  · exact fun i hi => ⟨fun h0 => absurd rfl h0, fun h0 => absurd rfl h0⟩
  · exact fun i hi => nodup_nil
  · exact fun i hi a ha => by cases ha
  · exact fun b hb => by cases hb

/-- **`kmem_init`** leaves a valid heap in which nothing is allocated. -/
theorem valid_kmemInit {mem : ℕ → ℕ} {start stop : ℕ} (hmem : ∀ a, mem a < 2 ^ 64)
    (hpos : 0 < start) (halign : 8 ∣ start) (hwrap : start + 72 + pageSize < 2 ^ 64)
    (hstop : stop < 2 ^ 64) (hinit : kmemInit mem start stop = some h) :
    ∃ bs fl, h.Valid bs fl ∧ liveOf bs = ∅ := by
  unfold pageSize at hwrap
  unfold kmemInit kmmInit at hinit
  rcases kmemSbrk_cases (h := ⟨mem, start, start, stop, 0, 0⟩) 48 (by dsimp only; omega)
    with hs | ⟨hle, hs⟩
  · rw [hs] at hinit
    cases hinit
  rw [hs, bind_eq_bind, bind_some] at hinit
  dsimp only at hinit hle
  -- the heap after the list table is cleared
  obtain ⟨h₁, hh₁⟩ : ∃ h₁, h₁ =
    (⟨mem, start, start + 48, stop, 0, start⟩ : Kheap).kmallocMemset start 0 48 := ⟨_, rfl⟩
  obtain ⟨e1, e2, e3, -, e5⟩ : SameBounds ⟨mem, start, start + 48, stop, 0, start⟩ h₁ :=
    hh₁ ▸ kmallocMemset_sameBounds
  have hheads : ∀ i < 6, h₁.word (start + 8 * i) = 0 := by
    intro i hi
    obtain ⟨k, hk⟩ := halign
    rw [hh₁]
    exact word_kmallocMemset (by omega) (hmem _) (by omega) (by omega)
  rw [← hh₁] at hinit
  rcases kmemSbrk_cases (h := h₁) 24 (by rw [e2]; dsimp only; omega) with hs | ⟨hle', hs⟩
  · rw [hs] at hinit
    cases hinit
  rw [hs, bind_some] at hinit
  rw [e2] at hinit hle'
  have hv := valid_prologue hpos halign e1 e5 hle' (e3 ▸ hstop) hheads
  have hpage : align pageSize = 4096 := by decide
  rcases hv.extendHeap pageSize (by rw [hpage]; decide) (by
      change start + 48 + 24 + 4096 < 2 ^ 64
      omega) with hnone | ⟨h', bs', fl', hsome, hv', hlive, -⟩
  · rw [hnone] at hinit
    cases hinit
  · rw [hsome] at hinit
    obtain rfl := some.inj hinit
    refine ⟨bs', fl', hv', hlive.liveOf_eq.trans ?_⟩
    exact Set.eq_empty_of_forall_notMem fun c hc => by cases hc.1

end Kheap

/-! ### Sessions -/

/-- The heap, and what its clients hold: pointers with the sizes that were asked for. -/
structure Session where
  heap : Kheap
  live : List (ℕ × ℕ)

/-- A call to the heap, or a client that writes to a byte. -/
inductive HeapCall where
  | kmalloc (size : ℕ)
  | kfree (ptr : ℕ)
  | krealloc (ptr size : ℕ)
  | kcalloc (nmemb size : ℕ)
  | write (addr value : ℕ)

namespace Session

open Kheap

variable {s s' : Session} {L : Set Block} {live : List (ℕ × ℕ)} {b : Block} {ptr size : ℕ}

/-- A client was given a pointer. -/
def record (ptr size : ℕ) (live : List (ℕ × ℕ)) : List (ℕ × ℕ) :=
  if ptr = 0 then live else (ptr, size) :: live

/-- A client gave a pointer back. -/
def release (ptr : ℕ) (live : List (ℕ × ℕ)) : List (ℕ × ℕ) := live.filter fun e => e.1 ≠ ptr

/-- The session after a call; nothing when the call does not return. -/
def call (s : Session) : HeapCall → Option Session
  | .kmalloc size => (s.heap.kmalloc size).map fun r => ⟨r.2, record r.1 size s.live⟩
  | .kfree ptr => some ⟨s.heap.kfree ptr, release ptr s.live⟩
  | .krealloc ptr size => (s.heap.krealloc ptr size).map fun r =>
    -- a call that fails leaves the old pointer with the client
    ⟨r.2, if r.1 = 0 ∧ size ≠ 0 then s.live else record r.1 size (release ptr s.live)⟩
  | .kcalloc nmemb size =>
    (s.heap.kcalloc nmemb size).map fun r => ⟨r.2, record r.1 (size * nmemb) s.live⟩
  | .write addr value => some ⟨s.heap.storeByte addr value, s.live⟩

/-- A pointer that may be given to the heap. -/
def Holds (s : Session) (ptr : ℕ) : Prop := ptr = 0 ∨ ∃ size, (ptr, size) ∈ s.live

/-- The calls that may be made: their sizes do not wrap and their pointers are live. -/
def Allowed (s : Session) : HeapCall → Prop
  | .kmalloc size => s.heap.NoWrap size
  | .kfree ptr => s.Holds ptr
  | .krealloc ptr size => s.Holds ptr ∧ s.heap.NoWrap size
  | .kcalloc nmemb size => size * nmemb < 2 ^ 64 ∧ s.heap.NoWrap (size * nmemb)
  | .write addr _ => ∃ e ∈ s.live, e.1 ≤ addr ∧ addr < e.1 + e.2

/-- A step of a session. -/
def Step (s s' : Session) : Prop := ∃ c, s.Allowed c ∧ s.call c = some s'

/-- The pointers that clients hold are those of the allocated blocks. -/
structure Owns (L : Set Block) (live : List (ℕ × ℕ)) : Prop where
  nodup : (live.map Prod.fst).Nodup
  block : ∀ e ∈ live, ∃ b ∈ L, e.1 = b.addr + 8 ∧ e.2 + 16 ≤ b.size
  owner : ∀ b ∈ L, ∃ size, (b.addr + 8, size) ∈ live

/-- The heap is valid, and its clients hold the allocated blocks. -/
def Sound (s : Session) : Prop :=
  ∃ bs fl, s.heap.Valid bs fl ∧ Owns (liveOf bs) s.live

theorem Owns.add (ho : Owns L live) (hfresh : ∀ c ∈ L, c.addr ≠ b.addr)
    (hsize : size + 16 ≤ b.size) : Owns (insert b L) ((b.addr + 8, size) :: live) := by
  refine ⟨nodup_cons.mpr ⟨?_, ho.nodup⟩, ?_, ?_⟩
  · intro hin
    obtain ⟨e, he, heq⟩ := List.mem_map.mp hin
    obtain ⟨c, hc, hptr, -⟩ := ho.block e he
    exact hfresh c hc (by omega)
  · intro e he
    rcases mem_cons.mp he with rfl | he
    · exact ⟨b, Set.mem_insert _ _, rfl, hsize⟩
    · obtain ⟨c, hc, hrest⟩ := ho.block e he
      exact ⟨c, Set.mem_insert_of_mem _ hc, hrest⟩
  · rintro c (rfl | hc)
    · exact ⟨size, mem_cons_self⟩
    · obtain ⟨n, hn⟩ := ho.owner c hc
      exact ⟨n, mem_cons_of_mem _ hn⟩

theorem Owns.remove (ho : Owns L live) (hinj : ∀ c ∈ L, c.addr = b.addr → c = b) :
    Owns (L \ {b}) (release (b.addr + 8) live) := by
  refine ⟨?_, ?_, ?_⟩
  · exact ho.nodup.sublist (filter_sublist.map _)
  · intro e he
    obtain ⟨he, hne⟩ := mem_filter.mp he
    obtain ⟨c, hc, hptr, hsize⟩ := ho.block e he
    refine ⟨c, ⟨hc, ?_⟩, hptr, hsize⟩
    rintro rfl
    exact (decide_eq_true_eq.mp hne) hptr
  · rintro c ⟨hc, hne⟩
    obtain ⟨n, hn⟩ := ho.owner c hc
    refine ⟨n, mem_filter.mpr ⟨hn, decide_eq_true ?_⟩⟩
    intro heq
    exact hne (hinj c hc (Nat.add_right_cancel heq))

/-- No client holds the null pointer. -/
theorem Owns.release_zero (ho : Owns L live) : release 0 live = live := by
  refine filter_eq_self.mpr fun e he => decide_eq_true ?_
  obtain ⟨b, -, hptr, -⟩ := ho.block e he
  omega

/-- Recording what a call that allocates returned. -/
theorem Owns.record {bs : List Block} {h' : Kheap} (ho : Owns (liveOf bs) live)
    (ha : Allocates bs size ptr h') : Sound ⟨h', record ptr size live⟩ := by
  rcases ha with ⟨rfl, bs', fl', hv, heq⟩ | ⟨b, bs', fl', rfl, hv, halloc, hle⟩
  · refine ⟨bs', fl', hv, ?_⟩
    rw [heq]
    exact ho
  · refine ⟨bs', fl', hv, ?_⟩
    rw [halloc.liveOf_eq, Session.record, if_neg (Nat.succ_ne_zero _)]
    exact ho.add halloc.fresh hle

/-- Every call that is allowed returns, and keeps the session sound. -/
theorem Sound.call (hs : s.Sound) {c : HeapCall} (hc : s.Allowed c) :
    ∃ s', s.call c = some s' ∧ s'.Sound := by
  obtain ⟨bs, fl, hv, ho⟩ := hs
  -- a pointer that a client holds is that of an allocated block
  have hblock : ∀ ptr, s.Holds ptr → ptr ≠ 0 → ∃ b ∈ liveOf bs, ptr = b.addr + 8 := by
    rintro ptr (h0 | ⟨size, hin⟩) hne
    · exact absurd h0 hne
    · obtain ⟨b, hb, hptr, -⟩ := ho.block _ hin
      exact ⟨b, hb, hptr⟩
  have hinj : ∀ b ∈ liveOf bs, ∀ c ∈ liveOf bs, c.addr = b.addr → c = b :=
    fun b hb c hc heq => hv.wf.tiling.eq_of_addr hc.1 hb.1 heq
  cases c with
  | kmalloc size =>
    obtain ⟨ptr, h', heq, ha, -⟩ := hv.kmalloc hc
    exact ⟨_, by rw [Session.call, heq]; rfl, ho.record ha⟩
  | kcalloc nmemb size =>
    obtain ⟨ptr, h', heq, ha⟩ := hv.kcalloc hc.1 hc.2
    exact ⟨_, by rw [Session.call, heq]; rfl, ho.record ha⟩
  | kfree ptr =>
    refine ⟨_, rfl, ?_⟩
    by_cases h0 : ptr = 0
    · rw [h0, ho.release_zero]
      exact ⟨bs, fl, hv, ho⟩
    · obtain ⟨b, hb, rfl⟩ := hblock ptr hc h0
      obtain ⟨bs', fl', hv', -, heq⟩ := hv.kfree hb.1 hb.2
      exact ⟨bs', fl', hv', heq ▸ ho.remove (hinj b hb)⟩
  | krealloc ptr size =>
    by_cases h0 : ptr = 0
    · obtain ⟨ptr', h', heq, ha, -⟩ := hv.kmalloc hc.2
      refine ⟨_, by rw [Session.call, Kheap.krealloc, if_pos h0, heq]; rfl, ?_⟩
      have hrec := ho.record ha
      dsimp only
      split_ifs with hfail
      · rw [hfail.1] at hrec
        exact hrec
      · rw [h0, ho.release_zero]
        exact hrec
    · obtain ⟨b, hb, rfl⟩ := hblock ptr hc.1 h0
      obtain ⟨ptr', h', heq, bs', fl', hv', hcases⟩ := hv.krealloc hb.1 hb.2 hc.2
      refine ⟨_, by rw [Session.call, heq]; rfl, bs', fl', hv', ?_⟩
      dsimp only
      rcases hcases with ⟨rfl, rfl, hlive⟩ | ⟨rfl, hsize, hlive⟩ | ⟨c, rfl, -, hle, hfresh, hlive⟩
      · rw [if_neg (fun hfail => hfail.2 rfl), hlive]
        exact ho.remove (hinj b hb)
      · rw [if_pos ⟨rfl, hsize⟩, hlive]
        exact ho
      · rw [if_neg (fun hfail => Nat.succ_ne_zero _ hfail.1), hlive, Session.record,
          if_neg (Nat.succ_ne_zero _)]
        exact (ho.remove (hinj b hb)).add hfresh hle
  | write addr value =>
    obtain ⟨e, he, hlo, hhi⟩ := hc
    obtain ⟨b, hb, hptr, hsize⟩ := ho.block e he
    exact ⟨_, rfl, bs, fl, hv.storeByte hb.1 hb.2 (by omega) (by omega), ho⟩

/-- Sound sessions stay sound. -/
theorem Sound.steps (hs : s.Sound) (hrun : Relation.ReflTransGen Step s s') : s'.Sound := by
  induction hrun with
  | refl => exact hs
  | tail _ hstep ih =>
    obtain ⟨c, hc, heq⟩ := hstep
    obtain ⟨s₁, heq₁, hs₁⟩ := ih.call hc
    rw [heq] at heq₁
    exact some.inj heq₁ ▸ hs₁

/-- The bytes of a pointer's block besides its two tags. -/
def usable (s : Session) (ptr : ℕ) : ℕ := sizeBits (s.heap.word (ptr - 8)) - 16

/-- **The invariant of the heap**, in terms of its memory, its blocks and its free lists. -/
structure Consistent (s : Session) (bs : List Block) (fl : ℕ → List ℕ) : Prop where
  /-- The blocks fill the space between the prologue and the epilogue. -/
  tiling : Tiling (s.heap.heapPtr + 16) bs (s.heap.heapMemoryBrk - 8)
  prologue : s.heap.word s.heap.heapPtr = 17 ∧ s.heap.word (s.heap.heapPtr + 8) = 17
  epilogue : s.heap.word (s.heap.heapMemoryBrk - 8) = 1
  /-- The header and the footer of a block hold its size and whether it is allocated. -/
  tags : ∀ b ∈ bs, s.heap.word b.addr = b.tag ∧ s.heap.word (b.addr + b.size - 8) = b.tag
  /-- No two neighbours are both free. -/
  merged : bs.IsChain fun b c => b.live = true ∨ c.live = true
  /-- A free block is once on the list for its size and on no other list. -/
  listed : ∀ b ∈ bs, b.live = false → ∀ i < 6,
    (fl i).count b.addr = if i = listIndex b.size then 1 else 0
  /-- The lists hold free blocks only. -/
  nodes : ∀ i < 6, ∀ a ∈ fl i, ∃ b ∈ bs, b.addr = a ∧ b.live = false
  heads : ∀ i < 6, s.heap.word (s.heap.listAt i) = Links.front (fl i)
  linked : ∀ i < 6, Links.Linked s.heap.prevOf s.heap.nextOf (fl i)
  /-- A pointer that a client holds is that of an allocated block. -/
  held : ∀ e ∈ s.live, ∃ b ∈ bs, b.live = true ∧ e.1 = b.addr + 8
  large : ∀ e ∈ s.live, e.2 ≤ s.usable e.1
  disjoint : s.live.Pairwise fun e e' =>
    e.1 + s.usable e.1 ≤ e'.1 ∨ e'.1 + s.usable e'.1 ≤ e.1

theorem Sound.consistent (hs : s.Sound) : ∃ bs fl, s.Consistent bs fl := by
  obtain ⟨bs, fl, hv, ho⟩ := hs
  have husable : ∀ b ∈ bs, s.usable (b.addr + 8) = b.size - 16 := by
    intro b hb
    rw [usable, Nat.add_sub_cancel, hv.wf.sizeBits_word hb]
  refine ⟨bs, fl, hv.wf.tiling, hv.wf.prologue, hv.wf.epilogue, hv.wf.tags, hv.merged, ?_, ?_,
    hv.wf.heads, hv.wf.linked, ?_, ?_, ?_⟩
  · intro b hb hfree i hi
    have hin := hv.listed b hb hfree
    split_ifs with hik
    · rw [hik]
      exact count_eq_one_of_mem (hv.wf.nodup _ (listIndex_lt _)) hin
    · refine count_eq_zero.mpr fun hin' => hik ?_
      exact hv.wf.index_unique hi (listIndex_lt _) hin' hin
  · intro i hi a ha
    obtain ⟨b, hb, heq, hfree, -⟩ := hv.wf.nodes i hi a ha
    exact ⟨b, hb, heq, hfree⟩
  · intro e he
    obtain ⟨b, hb, hptr, -⟩ := ho.block e he
    exact ⟨b, hb.1, hb.2, hptr⟩
  · intro e he
    obtain ⟨b, hb, hptr, hsize⟩ := ho.block e he
    rw [hptr, husable b hb.1]
    omega
  · refine (pairwise_map.mp ho.nodup).imp_of_mem fun {e e'} he he' hne => ?_
    obtain ⟨b, hb, hptr, -⟩ := ho.block e he
    obtain ⟨b', hb', hptr', -⟩ := ho.block e' he'
    rw [hptr, hptr', husable b hb.1, husable b' hb'.1]
    have h1 := hv.wf.tiling.bounds hb.1
    have h2 := hv.wf.tiling.bounds hb'.1
    rcases hv.wf.tiling.disjoint hb.1 hb'.1 with rfl | hd | hd
    · exact absurd (hptr.trans hptr'.symm) hne
    · omega
    · omega

/-- Every run of calls that starts where `kmem_init` ends is sound. -/
theorem sound_of_run {mem : ℕ → ℕ} {start stop : ℕ} {h : Kheap} (hmem : ∀ a, mem a < 2 ^ 64)
    (hpos : 0 < start) (halign : 8 ∣ start) (hwrap : start + 72 + Kheap.pageSize < 2 ^ 64)
    (hstop : stop < 2 ^ 64) (hinit : kmemInit mem start stop = some h)
    (hrun : Relation.ReflTransGen Step ⟨h, []⟩ s) : s.Sound := by
  obtain ⟨bs, fl, hv, hlive⟩ := valid_kmemInit hmem hpos halign hwrap hstop hinit
  have hsound : Sound ⟨h, []⟩ := by
    refine ⟨bs, fl, hv, nodup_nil, fun e he => (by cases he), ?_⟩
    rw [hlive]
    exact fun b hb => by cases hb
  exact hsound.steps hrun

end Session

/-- **The kernel heap is consistent after every run of calls**, and every call returns. -/
theorem heap_consistent {mem : ℕ → ℕ} {start stop : ℕ} {h : Kheap} {s : Session}
    (hmem : ∀ a, mem a < 2 ^ 64) (hpos : 0 < start) (halign : 8 ∣ start)
    (hwrap : start + 72 + Kheap.pageSize < 2 ^ 64) (hstop : stop < 2 ^ 64)
    (hinit : Kheap.kmemInit mem start stop = some h)
    (hrun : Relation.ReflTransGen Session.Step ⟨h, []⟩ s) :
    (∃ bs fl, s.Consistent bs fl) ∧ ∀ c, s.Allowed c → ∃ s', s.call c = some s' := by
  have hs := Session.sound_of_run hmem hpos halign hwrap hstop hinit hrun
  refine ⟨hs.consistent, fun c hc => ?_⟩
  obtain ⟨s', heq, -⟩ := hs.call hc
  exact ⟨s', heq⟩

/-- After one call a client holds a pointer. -/
theorem heap_consistent_kmalloc : ∃ (h : Kheap) (s : Session) (bs : List Block) (fl : ℕ → List ℕ),
    Kheap.kmemInit (fun _ => 0) 4096 65536 = some h ∧
      Session.Step ⟨h, []⟩ s ∧ s.live = [(4168, 100)] ∧ s.Consistent bs fl := by
  have hsome : (Kheap.kmemInit (fun _ => 0) 4096 65536).isSome := by decide +kernel
  obtain ⟨h, hinit⟩ := isSome_iff_exists.mp hsome
  have hbrk : (Kheap.kmemInit (fun _ => 0) 4096 65536).map Kheap.heapMemoryBrk = some 8264 := by
    decide +kernel
  have hptr : ((Kheap.kmemInit (fun _ => 0) 4096 65536).bind fun h =>
      (h.kmalloc 100).map Prod.fst) = some 4168 := by decide +kernel
  rw [hinit] at hbrk hptr
  obtain ⟨⟨ptr, h'⟩, hmalloc, rfl⟩ := map_eq_some_iff.mp hptr
  have hallowed : Session.Allowed ⟨h, []⟩ (.kmalloc 100) := by
    refine ⟨by decide, ?_⟩
    rw [some.inj hbrk]
    decide
  have hstep : Session.Step ⟨h, []⟩ ⟨h', [(4168, 100)]⟩ := by
    refine ⟨.kmalloc 100, hallowed, ?_⟩
    rw [Session.call, hmalloc]
    rfl
  obtain ⟨⟨bs, fl, hcons⟩, -⟩ := heap_consistent (fun _ => by decide) (by decide) (by decide)
    (by decide) (by decide) hinit (.single hstep)
  exact ⟨h, _, bs, fl, hinit, hstep, rfl, hcons⟩

end OsPi
