import OsPi.Memory.HeapSearch

/-!
# The Pointers of the Kernel Heap

What `kmalloc` and `kcalloc` return for every 64-bit size, also for those at which a sum or a
product is cut off. Three things can go wrong: rounding up `size + 16` ends at zero or sixteen
bytes when `size` is among the last 31 numbers, the break moves downwards when the sum with it
passes `2 ^ 64`, and `kcalloc` multiplies in 64 bits. `Kheap.Servable` is the exact condition.

The second part is about the addresses. Blocks begin at multiples of sixteen, and the pointers
that are given out are eight bytes behind.
-/

namespace OsPi

open List Option

namespace Kheap

open Links

variable {h h' : Kheap} {bs bs' : List Block} {fl fl' : ℕ → List ℕ} {b : Block}
  {ptr size total incr : ℕ} {r : Option (ℕ × Kheap)}

/-! ### The heap after it has been extended -/

/-- The space by which a valid heap has grown is part of one free block. -/
theorem Valid.exists_free (hv : h.Valid bs fl) (hv' : h'.Valid bs' fl') (hsame : SameLive bs bs')
    (hptr : h'.heapPtr = h.heapPtr) (hbrk : h'.heapMemoryBrk = h.heapMemoryBrk + incr)
    (hpos : 0 < incr) : ∃ b ∈ bs', b.live = false ∧ incr ≤ b.size := by
  have hb := hv.wf.bounds.le_brk
  -- a block that ends behind the old break is free
  have hfree : ∀ c ∈ bs', h.heapMemoryBrk - 8 < c.addr + c.size → c.live = false := by
    intro c hc hlt
    rw [← Bool.not_eq_true]
    intro hlive
    have := (hv.wf.tiling.bounds ((hsame c hlive).mp hc)).2.1
    omega
  have htile := hv'.wf.tiling
  rw [hptr, hbrk] at htile
  rcases eq_nil_or_concat bs' with rfl | ⟨l, b, rfl⟩
  · have : h.heapPtr + 16 = h.heapMemoryBrk + incr - 8 := htile
    omega
  rw [concat_eq_append] at htile hfree ⊢
  obtain ⟨m, hl, rfl, -, -, hend⟩ := Tiling.append_iff.mp htile
  have hend : b.addr + b.size = h.heapMemoryBrk + incr - 8 := hend
  have hbfree : b.live = false := hfree b (mem_append_right _ mem_cons_self) (by omega)
  refine ⟨b, mem_append_right _ mem_cons_self, hbfree, ?_⟩
  suffices hle : b.addr ≤ h.heapMemoryBrk - 8 by omega
  -- otherwise the block before it is free as well
  by_contra hgt
  rcases eq_nil_or_concat l with rfl | ⟨l, c, rfl⟩
  · have : h.heapPtr + 16 = b.addr := hl
    omega
  rw [concat_eq_append] at hl hfree
  obtain ⟨-, -, rfl, -, -, hcb⟩ := Tiling.append_iff.mp hl
  have hcb : c.addr + c.size = b.addr := hcb
  have hcfree : c.live = false :=
    hfree c (mem_append_left _ (mem_append_right _ mem_cons_self)) (by omega)
  have hmerged := hv'.merged
  rw [concat_eq_append, concat_eq_append, Merged, append_assoc] at hmerged
  have hjoin := (isChain_append.mp hmerged).2.1
  simp [hbfree, hcfree] at hjoin

/-- A free block of a page or more is looked at. -/
theorem Valid.seesFit_of_large (hv : h.Valid bs fl) (hb : b ∈ bs) (hfree : b.live = false)
    (hlarge : pageSize ≤ b.size) {need : ℕ} (hneed : need ≤ b.size) : SeesFit bs fl need := by
  have hidx : listIndex b.size = 5 := by
    unfold pageSize at hlarge
    unfold listIndex
    split_ifs <;> omega
  refine ⟨b, hb, ⟨hv.listed b hb hfree, fun hfirst => ?_⟩, hneed⟩
  omega

/-- After the heap has been extended the request is served. -/
theorem Valid.getAllocation_extended (hv : h.Valid bs fl) (hpos : 0 < size)
    (hsize : size + 31 < 2 ^ 64)
    (hbrk : h.heapMemoryBrk + max pageSize (align (size + 16)) < 2 ^ 64)
    (hext : h.extendHeap (extension size) = some h') :
    ∃ b h₁ bs₁ fl₁, h'.getAllocation size = some (b.addr + 8, h₁) ∧ h₁.Valid bs₁ fl₁ ∧
      Allocated bs b bs₁ ∧ size + 16 ≤ b.size := by
  have halign := align_extend size
  have hpage : pageSize ≤ max pageSize (align (size + 16)) := Nat.le_max_left _ _
  rcases hv.extendHeap (extension size)
      (by rw [halign]; exact Nat.le_trans (by decide) hpage) (by rwa [halign]) with
    hnone | ⟨h₂, bs₂, fl₂, hsome, hv₂, hlive, hbounds, -⟩
  · rw [hnone] at hext
    cases hext
  rw [hext] at hsome
  cases hsome
  rw [halign] at hbounds
  obtain ⟨c, hc, hfree, hlarge⟩ := hv.exists_free hv₂ hlive hbounds.heapPtr hbounds.heapMemoryBrk
    (Nat.lt_of_lt_of_le (by decide) hpage)
  have hfit := hv₂.seesFit_of_large hc hfree (hpage.trans hlarge)
    ((Nat.le_max_right _ _).trans hlarge)
  rcases hv₂.getAllocation hpos hsize with heq | ⟨h₁, b, bs₁, fl₁, heq, hv₁, ⟨h1, h2, h3⟩, hle, -⟩
  · exact absurd hfit ((hv₂.wf.getAllocation_eq_zero_iff hsize).mp heq)
  · rw [hlive.liveOf_eq] at h2 h3
    exact ⟨b, h₁, bs₁, fl₁, heq, hv₁, ⟨h1, h2, h3⟩, (le_align hsize).trans hle⟩

/-! ### What is asked of the calls -/

/-- The call fails and changes nothing, or it allocates a block with room for `size` bytes. -/
def Serves (h : Kheap) (bs : List Block) (size : ℕ) (r : Option (ℕ × Kheap)) : Prop :=
  r = some (0, h) ∨ ∃ b h' bs' fl', r = some (b.addr + 8, h') ∧ h'.Valid bs' fl' ∧
    Allocated bs b bs' ∧ size + 16 ≤ b.size

/-- `kmem_sbrk` does not move the break. -/
def SbrkFails (h : Kheap) (incr : ℕ) : Prop :=
  2 ^ 63 ≤ incr ∨ h.heapMemoryEnd < (h.heapMemoryBrk + incr) % 2 ^ 64

/-- `kmalloc` fails: no block is found, and the heap cannot be extended. -/
def Refused (h : Kheap) (bs : List Block) (fl : ℕ → List ℕ) (size : ℕ) : Prop :=
  size = 0 ∨ (if size + 31 < 2 ^ 64 then ¬SeesFit bs fl (align (size + 16)) else fl 5 = []) ∧
    h.SbrkFails (max pageSize (align (size + 16)))

/-- A number of bytes is refused, or no sum that is taken for it passes `2 ^ 64`. -/
def Servable (h : Kheap) (bs : List Block) (fl : ℕ → List ℕ) (total : ℕ) : Prop :=
  h.Refused bs fl (total % 2 ^ 64) ∨ total + 31 < 2 ^ 64 ∧
    (SeesFit bs fl (align (total + 16)) ∨
      h.heapMemoryBrk + max pageSize (align (total + 16)) < 2 ^ 64)

/-! ### When a call fails -/

theorem Bounds.extendHeap_eq_none_iff (hb : h.Bounds) (size : ℕ) :
    h.extendHeap size = none ↔ h.SbrkFails (align size) := by
  have hpos := hb.pos
  have hptr := hb.heapPtr
  have hbrk := hb.le_brk
  have hend := hb.brk_le
  unfold extendHeap kmemSbrk SbrkFails
  dsimp only
  split_ifs with h1 h2
  · simp only [true_iff]
    omega
  · simp only [true_iff]
    exact .inr h2
  · simp only [false_iff]
    omega

/-- `get_allocation` finds nothing and does nothing, or returns a block. -/
theorem Wf.getAllocation_cases (hw : h.Wf bs fl) (hlt : size < 2 ^ 64) :
    (h.getAllocation size = some (0, h) ∧
        if size + 31 < 2 ^ 64 then ¬SeesFit bs fl (align (size + 16)) else fl 5 = []) ∨
      (∃ a h', h.getAllocation size = some (a + 8, h')) ∧
        ¬if size + 31 < 2 ^ 64 then ¬SeesFit bs fl (align (size + 16)) else fl 5 = [] := by
  split_ifs with hsize
  · rw [not_not, hw.seesFit_iff]
    exact getAllocation_of_search (hw.getFreeList_eq 6 size (searchDepth_le size) hsize)
  · have heq : h.getFreeList 6 size = some (h.firstFit (align (size + 16)) (fl 5)) := by
      rw [Kheap.getFreeList, if_neg (by omega), if_neg (by omega), if_neg (by omega),
        if_neg (by omega), if_neg (by omega), hw.inList_eq (by decide) (by decide)]
      cases hfit : h.firstFit (align (size + 16)) (fl 5) <;> simp [lookedAt, hfit]
    -- the rounded size is at most sixteen, and every block of the last list will do
    have hall : (∃ a ∈ fl 5, align (size + 16) ≤ sizeBits (h.word a)) ↔ fl 5 ≠ [] := by
      constructor
      · rintro ⟨a, ha, -⟩
        exact ne_nil_of_mem ha
      · intro hne
        obtain ⟨a, ha⟩ := exists_mem_of_ne_nil _ hne
        obtain ⟨c, hc, rfl, -⟩ := hw.nodes 5 (by decide) a ha
        have := (hw.tiling.bounds hc).2.2.1
        refine ⟨_, ha, ?_⟩
        rw [hw.sizeBits_word hc]
        unfold align
        omega
    have hcases := getAllocation_of_search heq
    rwa [hall, not_not] at hcases

/-- **`kmalloc` fails and changes nothing** exactly if the request is refused. -/
theorem Valid.kmalloc_eq_zero_iff (hv : h.Valid bs fl) (hlt : size < 2 ^ 64) :
    h.kmalloc size = some (0, h) ↔ h.Refused bs fl size := by
  unfold Refused
  by_cases h0 : size = 0
  · simp [Kheap.kmalloc, h0]
  rcases hv.wf.getAllocation_cases hlt with ⟨heq, hnone⟩ | ⟨⟨b, h', heq⟩, hsome⟩
  · have hfail := hv.wf.bounds.extendHeap_eq_none_iff (extension size)
    rw [align_extend size] at hfail
    simp only [h0, hnone, true_and, false_or, ← hfail]
    rw [kmalloc_of_none h0 heq]
    cases hext : h.extendHeap (extension size) with
    | none => simp
    | some h₁ =>
      refine iff_of_false (fun hret => ?_) (by simp)
      have hmove := extendHeap_moves hv.wf.bounds hext
      rw [(getAllocation_sameBounds hret).heapMemoryBrk] at hmove
      exact hmove rfl
  · simp only [h0, hsome, false_and, or_false, iff_false]
    rw [Kheap.kmalloc, if_neg h0, heq]
    exact fun hret => by cases hret

/-- A result that is not what was asked for, whatever the heap holds. -/
def Spoiled (h : Kheap) (size : ℕ) (r : Option (ℕ × Kheap)) : Prop :=
  ∀ ptr h', r = some (ptr, h') → (ptr ≠ 0 ∨ h'.heapMemoryBrk ≠ h.heapMemoryBrk) ∧
    (h'.heapMemoryBrk < h'.heapMemory ∨ 2 ^ 64 ≤ size + 31)

theorem Spoiled.not_serves (hs : h.Spoiled size r) : ¬h.Serves bs size r := by
  rintro (rfl | ⟨b, h', bs', fl', rfl, hv, halloc, hsize⟩)
  · rcases (hs 0 h rfl).1 with h0 | hne
    · exact h0 rfl
    · exact hne rfl
  · have hb : b ∈ liveOf bs' := by
      rw [halloc.liveOf_eq]
      exact Set.mem_insert _ _
    have hpos := hv.wf.tiling.bounds hb.1
    obtain ⟨h1, -, -, h4, h5, h6, h7⟩ := hv.wf.bounds
    have := (hs _ h' rfl).2
    omega

/-- The three ways a call may end. -/
theorem Valid.kmalloc_cases (hv : h.Valid bs fl)
    (hspan : h.heapMemoryEnd < h.heapMemory + 2 ^ 63) (hlt : size < 2 ^ 64) :
    h.kmalloc size = some (0, h) ∨
      (∃ b h' bs' fl', h.kmalloc size = some (b.addr + 8, h') ∧ h'.Valid bs' fl' ∧
        Allocated bs b bs' ∧ size + 16 ≤ b.size) ∧ size + 31 < 2 ^ 64 ∧
        (SeesFit bs fl (align (size + 16)) ∨
          h.heapMemoryBrk + max pageSize (align (size + 16)) < 2 ^ 64) ∨
      h.Spoiled size (h.kmalloc size) ∧ ¬(size + 31 < 2 ^ 64 ∧
        (SeesFit bs fl (align (size + 16)) ∨
          h.heapMemoryBrk + max pageSize (align (size + 16)) < 2 ^ 64)) := by
  by_cases h0 : size = 0
  · exact .inl (by rw [Kheap.kmalloc, if_pos h0])
  have hpos : 0 < size := Nat.pos_of_ne_zero h0
  have hfound : ∀ ptr h', ptr ≠ 0 → h.getAllocation size = some (ptr, h') →
      h.kmalloc size = some (ptr, h') := by
    intro ptr h' hne heq
    rw [Kheap.kmalloc, if_neg h0, heq]
    cases ptr with
    | zero => exact absurd rfl hne
    | succ n => rfl
  rcases hv.wf.getAllocation_cases hlt with ⟨heq, hnone⟩ | ⟨⟨b, h', heq⟩, hsome⟩
  · have hret := kmalloc_of_none h0 heq
    cases hext : h.extendHeap (extension size) with
    | none =>
      rw [hext] at hret
      exact .inl hret
    | some h₁ =>
      rw [hext, elim_some] at hret
      have hmove := extendHeap_moves hv.wf.bounds hext
      rw [hret]
      right
      by_cases hwrap : size + 31 < 2 ^ 64 ∧
          h.heapMemoryBrk + max pageSize (align (size + 16)) < 2 ^ 64
      · exact .inl ⟨hv.getAllocation_extended hpos hwrap.1 hwrap.2 hext, hwrap.1, .inr hwrap.2⟩
      · refine .inr ⟨fun ptr h' hptr => ?_, fun hok => ?_⟩
        · have hsame := getAllocation_sameBounds hptr
          refine ⟨.inr (by rw [hsame.heapMemoryBrk]; exact hmove), ?_⟩
          by_cases hsize : size + 31 < 2 ^ 64
          · -- the break has moved below the start of the heap
            refine .inl ?_
            have hsbrk := (not_congr (hv.wf.bounds.extendHeap_eq_none_iff _)).mp
              (by rw [hext]; exact some_ne_none h₁)
            have hbounds := (extendHeap_sameBounds hext).trans hsame
            rw [hbounds.heapMemoryBrk, hbounds.heapMemory]
            rw [align_extend size] at hsbrk ⊢
            have hbrk := hv.wf.bounds.brk_le
            unfold SbrkFails at hsbrk
            dsimp only
            omega
          · exact .inr (Nat.le_of_not_lt hsize)
        · rw [if_pos hok.1] at hnone
          exact hwrap ⟨hok.1, hok.2.resolve_left hnone⟩
  · right
    by_cases hsize : size + 31 < 2 ^ 64
    · rw [if_pos hsize, not_not] at hsome
      rcases hv.getAllocation hpos hsize with heq' | ⟨h', b, bs', fl', heq', hv', halloc, hle, -⟩
      · rw [heq] at heq'
        cases heq'
      · exact .inl ⟨⟨b, h', bs', fl', hfound _ _ (Nat.succ_ne_zero _) heq', hv', halloc,
          (le_align hsize).trans hle⟩, hsize, .inl hsome⟩
    · refine .inr ⟨fun ptr h₁ hptr => ?_, fun hok => hsize hok.1⟩
      rw [hfound _ _ (Nat.succ_ne_zero _) heq] at hptr
      cases hptr
      exact ⟨.inl (Nat.succ_ne_zero _), .inr (Nat.le_of_not_lt hsize)⟩

/-! ### The exact condition -/

theorem kcalloc_sameBounds {nmemb : ℕ} (heq : h.kcalloc nmemb size = some (ptr, h')) :
    ∃ h₁, h.kmalloc (size * nmemb % 2 ^ 64) = some (ptr, h₁) ∧ SameBounds h₁ h' := by
  unfold kcalloc at heq
  dsimp only at heq
  split at heq
  · cases heq
  · rename_i h₁ hret
    cases heq
    exact ⟨_, hret, .refl⟩
  · rename_i ptr₁ h₁ _ hret
    cases heq
    exact ⟨_, hret, kmallocMemset_sameBounds⟩

/-- A call that is `kmalloc` of the size in 64 bits, apart from the bytes of the block. -/
theorem Valid.serves_iff (hv : h.Valid bs fl) (hspan : h.heapMemoryEnd < h.heapMemory + 2 ^ 63)
    (hzero : h.kmalloc (total % 2 ^ 64) = some (0, h) → r = some (0, h))
    (hgood : ∀ b h' bs' fl', h.kmalloc (total % 2 ^ 64) = some (b.addr + 8, h') →
      h'.Valid bs' fl' → b ∈ liveOf bs' → total % 2 ^ 64 + 16 ≤ b.size →
      ∃ h₁, r = some (b.addr + 8, h₁) ∧ h₁.Valid bs' fl')
    (hsame : ∀ ptr h', r = some (ptr, h') →
      ∃ h₁, h.kmalloc (total % 2 ^ 64) = some (ptr, h₁) ∧ SameBounds h₁ h') :
    h.Serves bs total r ↔ h.Servable bs fl total := by
  have hlt : total % 2 ^ 64 < 2 ^ 64 := Nat.mod_lt _ (by decide)
  have hrefused := hv.kmalloc_eq_zero_iff hlt
  rcases hv.kmalloc_cases hspan hlt with heq | ⟨⟨b, h', bs', fl', heq, hv', halloc, hle⟩, hok⟩ |
    ⟨hspoiled, hnot⟩
  · exact iff_of_true (.inl (hzero heq)) (.inl (hrefused.mp heq))
  · by_cases hfit : total < 2 ^ 64
    · have hb : b ∈ liveOf bs' := by
        rw [halloc.liveOf_eq]
        exact Set.mem_insert _ _
      obtain ⟨h₁, hr, hv₁⟩ := hgood b h' bs' fl' heq hv' hb hle
      rw [Nat.mod_eq_of_lt hfit] at hle hok
      exact iff_of_true (.inr ⟨b, h₁, bs', fl', hr, hv₁, halloc, hle⟩) (.inr hok)
    · -- the product has been cut off
      refine iff_of_false (Spoiled.not_serves fun ptr h₁ hr => ?_) ?_
      · obtain ⟨h₂, hret, -⟩ := hsame ptr h₁ hr
        rw [heq] at hret
        cases hret
        exact ⟨.inl (Nat.succ_ne_zero _), .inr (by omega)⟩
      · rintro (href | ⟨hsmall, -⟩)
        · rw [hrefused.mpr href] at heq
          cases heq
        · omega
  · refine iff_of_false (Spoiled.not_serves fun ptr h₁ hr => ?_) ?_
    · obtain ⟨h₂, hret, hbounds⟩ := hsame ptr h₁ hr
      obtain ⟨h1, h2⟩ := hspoiled ptr h₂ hret
      rw [hbounds.heapMemoryBrk, hbounds.heapMemory]
      have := Nat.mod_le total (2 ^ 64)
      exact ⟨h1, by omega⟩
    · rintro (href | hok)
      · rcases (hspoiled 0 h (hrefused.mpr href)).1 with h0 | hne
        · exact h0 rfl
        · exact hne rfl
      · rw [Nat.mod_eq_of_lt (by omega)] at hnot
        exact hnot hok

/-- **The sizes that `kmalloc` and `kcalloc` serve.** -/
theorem allocation_served_iff (hv : h.Valid bs fl)
    (hspan : h.heapMemoryEnd < h.heapMemory + 2 ^ 63) (hlt : size < 2 ^ 64) (nmemb n : ℕ) :
    (h.Serves bs size (h.kmalloc size) ↔ h.Servable bs fl size) ∧
      (h.Serves bs (n * nmemb) (h.kcalloc nmemb n) ↔ h.Servable bs fl (n * nmemb)) := by
  constructor
  · have hmod : size % 2 ^ 64 = size := Nat.mod_eq_of_lt hlt
    refine hv.serves_iff hspan ?_ ?_ ?_
    · rw [hmod]
      exact id
    · intro b h' bs' fl' heq hv' _ _
      rw [hmod] at heq
      exact ⟨h', heq, hv'⟩
    · intro ptr h' heq
      rw [hmod]
      exact ⟨h', heq, .refl⟩
  · refine hv.serves_iff hspan ?_ ?_ fun ptr h' => kcalloc_sameBounds
    · intro heq
      simp only [kcalloc, heq]
    · intro b h' bs' fl' heq hv' hb hle
      refine ⟨h'.kmallocMemset (b.addr + 8) 0 (n * nmemb % 2 ^ 64), ?_,
        hv'.kmallocMemset hb.1 hb.2 le_rfl (by omega)⟩
      simp only [kcalloc, heq]

/-- Small requests are served. -/
theorem allocation_served_small : skipping.Serves skippingBlocks 32 (skipping.kmalloc 32) ∧
    skipping.Serves skippingBlocks (8 * 4) (skipping.kcalloc 4 8) := by
  have hserved : skipping.Servable skippingBlocks skippingLists 32 :=
    .inr ⟨by decide, .inl skipping_seesFit⟩
  have hlt : 32 < 2 ^ 64 := by decide
  have hiff := allocation_served_iff skipping_valid (by decide) hlt 4 8
  exact ⟨hiff.1.mpr hserved, hiff.2.mpr hserved⟩

/-- `KERNEL_HEAP_START`. -/
def kernelHeapStart : ℕ := 0xffff800000000000

/-- `KERNEL_HEAP_SIZE`. -/
def kernelHeapSize : ℕ := 0x100000

/-- The heap of the kernel after `kmem_init`, on memory that is zero. -/
def kernelHeap : Option Kheap :=
  kmemInit (fun _ => 0) kernelHeapStart (kernelHeapStart + kernelHeapSize)

/-- What the first `kmalloc` returns, and where the break and the start of the heap are then. -/
def firstCall (size : ℕ) : Option (ℕ × ℕ × ℕ) :=
  kernelHeap.bind fun h => (h.kmalloc size).map fun r =>
    (r.1, r.2.heapMemoryBrk, r.2.heapMemory)

/-- A pointer is given out for `2 ^ 64 - 1` bytes, for eight times `2 ^ 61 + 1` bytes and for
`2 ^ 62` bytes. -/
theorem allocation_wraps : ∃ h bs fl, kernelHeap = some h ∧ h.Valid bs fl ∧
    ¬h.Serves bs (2 ^ 64 - 1) (h.kmalloc (2 ^ 64 - 1)) ∧
    ¬h.Serves bs ((2 ^ 61 + 1) * 8) (h.kcalloc 8 (2 ^ 61 + 1)) ∧
    ¬h.Serves bs (2 ^ 62) (h.kmalloc (2 ^ 62)) := by
  have hsome : kernelHeap.isSome := by decide +kernel
  obtain ⟨h, hinit⟩ := isSome_iff_exists.mp hsome
  obtain ⟨bs, fl, hv, -⟩ := valid_kmemInit (fun _ => by decide) (by decide) (by decide) (by decide)
    (by decide) hinit
  have hfirst : ∀ {size ptr h' x y z}, firstCall size = some (x, y, z) →
      h.kmalloc size = some (ptr, h') → ptr = x ∧ h'.heapMemoryBrk = y ∧ h'.heapMemory = z := by
    intro size ptr h' x y z hcall hret
    rw [firstCall, hinit, bind_some, hret] at hcall
    cases hcall
    exact ⟨rfl, rfl, rfl⟩
  refine ⟨h, bs, fl, hinit, hv, Spoiled.not_serves fun ptr h' hret => ?_,
    Spoiled.not_serves fun ptr h' hret => ?_, Spoiled.not_serves fun ptr h' hret => ?_⟩
  · have hcall : firstCall (2 ^ 64 - 1) =
        some (kernelHeapStart + 72, kernelHeapStart + 4168, kernelHeapStart) := by decide +kernel
    obtain ⟨rfl, -⟩ := hfirst hcall hret
    exact ⟨.inl (by decide), .inr (by decide)⟩
  · have hcall : firstCall 8 =
        some (kernelHeapStart + 72, kernelHeapStart + 4168, kernelHeapStart) := by decide +kernel
    obtain ⟨h₁, hret, -⟩ := kcalloc_sameBounds hret
    obtain ⟨rfl, -⟩ := hfirst hcall hret
    exact ⟨.inl (by decide), .inr (by decide)⟩
  · have hcall : firstCall (2 ^ 62) =
        some (kernelHeapStart + 72, 4611545280939036760, kernelHeapStart) := by decide +kernel
    obtain ⟨rfl, hbrk, hstart⟩ := hfirst hcall hret
    rw [hbrk, hstart]
    exact ⟨.inl (by decide), .inl (by decide)⟩

/-! ### Alignment -/

theorem kmalloc_heapMemory (heq : h.kmalloc size = some (ptr, h')) :
    h'.heapMemory = h.heapMemory := by
  unfold kmalloc at heq
  split_ifs at heq
  · cases heq
    rfl
  split at heq
  · cases heq
  · rename_i h₁ hfirst
    dsimp only at heq
    split at heq
    · cases heq
      exact (getAllocation_sameBounds hfirst).heapMemory
    · rename_i h₂ hext
      exact ((getAllocation_sameBounds heq).heapMemory.trans
        (extendHeap_sameBounds hext).heapMemory).trans (getAllocation_sameBounds hfirst).heapMemory
  · rename_i hfirst
    cases heq
    exact (getAllocation_sameBounds hfirst).heapMemory

theorem kmallocMemcpy_sameBounds {dst src num : ℕ} :
    SameBounds h (h.kmallocMemcpy dst src num) := by
  induction num generalizing h dst src with
  | zero => exact .refl
  | succ num ih => exact (sameBounds_store _ _).trans ih

theorem kfree_sameBounds (ptr : ℕ) : SameBounds h (h.kfree ptr) := by
  unfold kfree
  split_ifs
  · exact .refl
  · exact initializeFree_sameBounds _ _

theorem krealloc_heapMemory {oldPtr : ℕ} (heq : h.krealloc oldPtr size = some (ptr, h')) :
    h'.heapMemory = h.heapMemory := by
  unfold krealloc at heq
  dsimp only at heq
  split_ifs at heq
  · exact kmalloc_heapMemory heq
  · cases heq
    exact (kfree_sameBounds _).heapMemory
  · cases heq
    rfl
  split at heq
  · rename_i h₁ hexp
    cases heq
    unfold expandNext at hexp
    dsimp only at hexp
    split_ifs at hexp
    cases hexp
    exact (((removeFree_sameBounds _ _).trans (sameBounds_store _ _)).trans
      (sameBounds_store _ _)).heapMemory
  · split at heq
    · cases heq
    · rename_i h₁ hret
      cases heq
      exact kmalloc_heapMemory hret
    · rename_i h₁ _ hret
      cases heq
      exact ((kmallocMemcpy_sameBounds.trans (kfree_sameBounds _)).heapMemory).trans
        (kmalloc_heapMemory hret)

theorem kmemInit_heapMemory {mem : ℕ → ℕ} {start stop : ℕ}
    (heq : kmemInit mem start stop = some h) : h.heapMemory = start := by
  have hsbrk : ∀ {g : Kheap} {incr : ℕ} {q : ℕ × Kheap}, g.kmemSbrk incr = some q →
      q.2.heapMemory = g.heapMemory := by
    intro g incr q hq
    unfold kmemSbrk at hq
    dsimp only at hq
    split_ifs at hq
    cases hq
    rfl
  obtain ⟨⟨lists, h₁⟩, hlists, heq⟩ := bind_eq_some_iff.mp heq
  obtain ⟨⟨first, h₂⟩, hfirst, heq⟩ := bind_eq_some_iff.mp heq
  have hstore : h.heapMemory = h₂.heapMemory := (extendHeap_sameBounds heq).heapMemory
  have hset : h₂.heapMemory = h₁.heapMemory :=
    (hsbrk hfirst).trans kmallocMemset_sameBounds.heapMemory
  rw [hstore, hset]
  exact hsbrk hlists

/-- The pointer of an allocated block, when the heap starts at a multiple of sixteen. -/
theorem Wf.addr_mod_sixteen (hw : h.Wf bs fl) (hb : b ∈ bs) (hstart : 16 ∣ h.heapMemory) :
    (b.addr + 8) % 16 = 8 := by
  obtain ⟨hle, -, -, -, k, hk⟩ := hw.tiling.bounds hb
  obtain ⟨n, hn⟩ := hstart
  have := hw.bounds.heapPtr
  omega

end Kheap

namespace Session

open Kheap

variable {s s' : Session} {c : HeapCall} {ptr : ℕ}

/-- The pointer that a call returns. -/
def returned (s : Session) : HeapCall → Option ℕ
  | .kmalloc size => (s.heap.kmalloc size).map Prod.fst
  | .krealloc ptr size => (s.heap.krealloc ptr size).map Prod.fst
  | .kcalloc nmemb size => (s.heap.kcalloc nmemb size).map Prod.fst
  | .kfree _ | .write _ _ => none

theorem call_heapMemory (hcall : s.call c = some s') :
    s'.heap.heapMemory = s.heap.heapMemory := by
  cases c with
  | kmalloc size =>
    obtain ⟨⟨ptr, h'⟩, hret, rfl⟩ := map_eq_some_iff.mp hcall
    exact kmalloc_heapMemory hret
  | kfree ptr =>
    cases hcall
    exact (kfree_sameBounds _).heapMemory
  | krealloc ptr size =>
    obtain ⟨⟨ptr, h'⟩, hret, rfl⟩ := map_eq_some_iff.mp hcall
    exact krealloc_heapMemory hret
  | kcalloc nmemb size =>
    obtain ⟨⟨ptr, h'⟩, hret, rfl⟩ := map_eq_some_iff.mp hcall
    obtain ⟨h₁, hret, hsame⟩ := kcalloc_sameBounds hret
    exact hsame.heapMemory.trans (kmalloc_heapMemory hret)
  | write addr value =>
    cases hcall
    rfl

theorem steps_heapMemory (hrun : Relation.ReflTransGen Step s s') :
    s'.heap.heapMemory = s.heap.heapMemory := by
  induction hrun with
  | refl => rfl
  | tail _ hstep ih =>
    obtain ⟨c, -, hcall⟩ := hstep
    exact (call_heapMemory hcall).trans ih

/-- A pointer that is returned is held from then on. -/
theorem mem_live_of_returned (hcall : s.call c = some s') (hret : s.returned c = some ptr)
    (hne : ptr ≠ 0) : ∃ size, (ptr, size) ∈ s'.live := by
  cases c with
  | kmalloc size =>
    obtain ⟨r, hr, rfl⟩ := map_eq_some_iff.mp hret
    rw [Session.call, hr] at hcall
    cases hcall
    refine ⟨size, ?_⟩
    dsimp only
    rw [record, if_neg hne]
    exact mem_cons_self
  | kfree ptr => cases hret
  | krealloc old size =>
    obtain ⟨r, hr, rfl⟩ := map_eq_some_iff.mp hret
    rw [Session.call, hr] at hcall
    cases hcall
    refine ⟨size, ?_⟩
    dsimp only
    rw [if_neg (fun hfail => hne hfail.1), record, if_neg hne]
    exact mem_cons_self
  | kcalloc nmemb size =>
    obtain ⟨r, hr, rfl⟩ := map_eq_some_iff.mp hret
    rw [Session.call, hr] at hcall
    cases hcall
    refine ⟨size * nmemb, ?_⟩
    dsimp only
    rw [record, if_neg hne]
    exact mem_cons_self
  | write addr value => cases hret

end Session

/-- **No pointer is aligned**: after every run of calls on a heap that starts at a multiple of
sixteen, a pointer that is returned is a multiple of sixteen only if it is null. -/
theorem pointer_aligned_iff {mem : ℕ → ℕ} {start stop ptr : ℕ} {h : Kheap} {s : Session}
    {c : HeapCall} (hmem : ∀ a, mem a < 2 ^ 64) (hpos : 0 < start) (halign : 16 ∣ start)
    (hwrap : start + 72 + Kheap.pageSize < 2 ^ 64) (hstop : stop < 2 ^ 64)
    (hinit : Kheap.kmemInit mem start stop = some h)
    (hrun : Relation.ReflTransGen Session.Step ⟨h, []⟩ s) (hallowed : s.Allowed c)
    (hret : s.returned c = some ptr) : 16 ∣ ptr ↔ ptr = 0 := by
  refine ⟨fun hdvd => ?_, fun h0 => h0 ▸ Nat.dvd_zero 16⟩
  by_contra hne
  have hsound := Session.sound_of_run hmem hpos (Nat.dvd_trans (by decide) halign) hwrap hstop hinit
    hrun
  obtain ⟨s', hcall, bs, fl, hv, hown⟩ := hsound.call hallowed
  obtain ⟨size, hin⟩ := Session.mem_live_of_returned hcall hret hne
  obtain ⟨b, hb, hptr, -⟩ := hown.block _ hin
  have hstart : s'.heap.heapMemory = start :=
    ((Session.call_heapMemory hcall).trans (Session.steps_heapMemory hrun)).trans
      (Kheap.kmemInit_heapMemory hinit)
  have hmod := hv.wf.addr_mod_sixteen hb.1 (hstart ▸ halign)
  have : ptr = b.addr + 8 := hptr
  omega

/-- The first call of the kernel. -/
theorem kernelHeap_returned : ∃ h, Kheap.kernelHeap = some h ∧
    Session.Allowed ⟨h, []⟩ (.kmalloc 1) ∧
    Session.returned ⟨h, []⟩ (.kmalloc 1) = some (Kheap.kernelHeapStart + 72) := by
  have hcall : (Kheap.kernelHeap.bind fun h => (h.kmalloc 1).map Prod.fst) =
      some (Kheap.kernelHeapStart + 72) := by decide +kernel
  have hbrk : Kheap.kernelHeap.map Kheap.heapMemoryBrk = some (Kheap.kernelHeapStart + 4168) := by
    decide +kernel
  obtain ⟨h, hinit, hret⟩ := bind_eq_some_iff.mp hcall
  rw [hinit] at hbrk
  refine ⟨h, hinit, ⟨by decide, ?_⟩, hret⟩
  rw [some.inj hbrk]
  decide

theorem pointer_aligned_first : ∃ h ptr, Kheap.kernelHeap = some h ∧
    Session.returned ⟨h, []⟩ (.kmalloc 1) = some ptr ∧ (16 ∣ ptr ↔ ptr = 0) := by
  obtain ⟨h, hinit, hallowed, hret⟩ := kernelHeap_returned
  exact ⟨h, _, hinit, hret, pointer_aligned_iff (fun _ => by decide) (by decide) (by decide)
    (by decide) (by decide) hinit .refl hallowed hret⟩

/-- The first pointer that the kernel gets is eight bytes off. -/
theorem pointer_misaligned : ∃ h ptr, Kheap.kernelHeap = some h ∧
    Session.returned ⟨h, []⟩ (.kmalloc 1) = some ptr ∧ ptr ≠ 0 ∧ 16 ∣ Kheap.kernelHeapStart ∧
    ¬16 ∣ ptr := by
  obtain ⟨h, hinit, -, hret⟩ := kernelHeap_returned
  exact ⟨h, _, hinit, hret, by decide, by decide, by decide⟩

end OsPi
