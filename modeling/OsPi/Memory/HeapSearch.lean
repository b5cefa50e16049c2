import OsPi.Memory.HeapCalls

/-!
# The Search for a Free Block

`get_free_list` goes through the free lists from the one for the size that is asked for upwards.
It looks at every block of four of the six lists, but only at the first block of the other two,
`three_free_ptr` and `four_free_ptr`. The blocks it looks at are `Kheap.Seen`, and
`Wf.getAllocation_eq_zero_iff` says that it finds a block exactly if one of these is large enough.
`kmalloc` therefore extends the heap, or fails, while a block that is large enough is on one of
the two lists behind another one.
-/

namespace OsPi

open List

namespace Kheap

open Links

variable {h h' : Kheap} {bs : List Block} {fl : ℕ → List ℕ} {b : Block} {need size : ℕ}

/-! ### The blocks that are looked at -/

/-- The blocks on the free lists that `get_free_list` may look at. -/
def Seen (fl : ℕ → List ℕ) (b : Block) : Prop :=
  b.addr ∈ fl (listIndex b.size) ∧
    (listIndex b.size = 1 ∨ listIndex b.size = 2 → b.addr = front (fl (listIndex b.size)))

/-- One of them is large enough. -/
def SeesFit (bs : List Block) (fl : ℕ → List ℕ) (need : ℕ) : Prop :=
  ∃ b ∈ bs, Seen fl b ∧ need ≤ b.size

theorem seen_iff : Seen fl b ↔ b.addr ∈ lookedAt fl (listIndex b.size) := by
  unfold Seen lookedAt
  split_ifs with hfirst
  · cases fl (listIndex b.size) with
    | nil => simp
    | cons a l => simp +contextual [hfirst, front]
  · simp [hfirst]

/-- They are the blocks at the nodes that the search looks at. -/
theorem Wf.seesFit_iff (hw : h.Wf bs fl) :
    SeesFit bs fl need ↔ ∃ a ∈ seenFrom fl 0, need ≤ sizeBits (h.word a) := by
  constructor
  · rintro ⟨b, hb, hseen, hneed⟩
    refine ⟨b.addr, mem_seenFrom.mpr ⟨_, ⟨Nat.zero_le _, listIndex_lt _⟩, seen_iff.mp hseen⟩, ?_⟩
    rwa [hw.sizeBits_word hb]
  · rintro ⟨a, ha, hneed⟩
    obtain ⟨i, ⟨-, hi⟩, ha⟩ := mem_seenFrom.mp ha
    obtain ⟨b, hb, rfl, -, rfl⟩ := hw.nodes i hi a (mem_of_mem_lookedAt ha)
    rw [hw.sizeBits_word hb] at hneed
    exact ⟨b, hb, seen_iff.mpr ha, hneed⟩

/-! ### The edges of the heap -/

theorem coalesce_sameBounds (ptr : ℕ) : SameBounds h (h.coalesce ptr).1 := by
  have hprev : ∀ ptr size, SameBounds h (h.coalescePrev ptr size).1 := by
    intro ptr size
    unfold coalescePrev
    split_ifs
    · exact ((removeFree_sameBounds _ _).trans (sameBounds_store _ _)).trans (sameBounds_store _ _)
    · exact .refl
  have hnext : ∀ (h : Kheap) ptr size, SameBounds h (h.coalesceNext ptr size) := by
    intro h ptr size
    unfold coalesceNext
    split_ifs
    · exact ((removeFree_sameBounds _ _).trans (sameBounds_store _ _)).trans (sameBounds_store _ _)
    · exact .refl
  exact (hprev _ _).trans (hnext _ _ _)

theorem initializeFree_sameBounds (ptr size : ℕ) : SameBounds h (h.initializeFree ptr size) :=
  (((sameBounds_store _ _).trans (sameBounds_store _ _)).trans (coalesce_sameBounds _)).trans
    (insertFree_sameBounds _)

theorem getAllocation_sameBounds {ptr : ℕ} (heq : h.getAllocation size = some (ptr, h')) :
    SameBounds h h' := by
  unfold getAllocation at heq
  split at heq
  · cases heq
  · cases heq
    exact .refl
  · dsimp only at heq
    split_ifs at heq
    · cases heq
      exact (((removeFree_sameBounds _ _).trans (sameBounds_store _ _)).trans
        (sameBounds_store _ _)).trans (initializeFree_sameBounds _ _)
    · cases heq
      exact ((removeFree_sameBounds _ _).trans (sameBounds_store _ _)).trans (sameBounds_store _ _)

/-- `extend_heap` moves the break, in 64 bits. -/
theorem extendHeap_sameBounds (heq : h.extendHeap size = some h') :
    SameBounds { h with heapMemoryBrk := (h.heapMemoryBrk + align size) % 2 ^ 64 } h' := by
  unfold extendHeap kmemSbrk at heq
  dsimp only at heq
  split_ifs at heq
  cases heq
  exact (sameBounds_store _ _).trans (initializeFree_sameBounds _ _)

/-- A break that has been moved is not where it was. -/
theorem extendHeap_moves (hb : h.Bounds) (heq : h.extendHeap (extension size) = some h') :
    h'.heapMemoryBrk ≠ h.heapMemoryBrk := by
  have hlt : align (size + 16) < 2 ^ 64 := Nat.mod_lt _ (by decide)
  have hpage : pageSize = 4096 := rfl
  rw [(extendHeap_sameBounds heq).heapMemoryBrk, align_extend size]
  dsimp only
  omega

/-! ### Blocks that are skipped -/

/-- `get_allocation` finds nothing and does nothing, or returns a block. -/
theorem getAllocation_of_search {l : List ℕ}
    (heq : h.getFreeList 6 size = some (h.firstFit need l)) :
    (h.getAllocation size = some (0, h) ∧ ¬∃ a ∈ l, need ≤ sizeBits (h.word a)) ∨
      (∃ a h', h.getAllocation size = some (a + 8, h')) ∧
        ∃ a ∈ l, need ≤ sizeBits (h.word a) := by
  rw [getAllocation, heq]
  cases hfit : h.firstFit need l with
  | none => exact .inl ⟨rfl, firstFit_eq_none_iff.mp hfit⟩
  | some ptr =>
    obtain ⟨a, hfind, rfl⟩ := Option.map_eq_some_iff.mp hfit
    have hneed := find?_some hfind
    refine .inr ⟨?_, a, mem_of_find?_eq_some hfind, of_decide_eq_true hneed⟩
    dsimp only
    split_ifs
    · exact ⟨a, _, rfl⟩
    · exact ⟨a, _, rfl⟩

/-- `get_allocation` fails exactly if no block that is looked at is large enough. -/
theorem Wf.getAllocation_eq_zero_iff (hw : h.Wf bs fl) (hsize : size + 31 < 2 ^ 64) :
    h.getAllocation size = some (0, h) ↔ ¬SeesFit bs fl (align (size + 16)) := by
  rw [hw.seesFit_iff]
  rcases getAllocation_of_search (hw.getFreeList_eq 6 size (searchDepth_le size) hsize) with
    ⟨heq, hnone⟩ | ⟨⟨a, h', heq⟩, hfit⟩
  · exact iff_of_true heq hnone
  · refine iff_of_false ?_ (not_not.mpr hfit)
    rw [heq]
    simp

/-- `kmalloc` gives out a block and does not extend the heap. -/
def ServedInPlace (h : Kheap) (size : ℕ) : Prop :=
  ∃ ptr h', h.kmalloc size = some (ptr, h') ∧ ptr ≠ 0 ∧ h'.heapMemoryBrk = h.heapMemoryBrk

/-- `kmalloc` when nothing is found. -/
theorem kmalloc_of_none (h0 : size ≠ 0) (heq : h.getAllocation size = some (0, h)) :
    h.kmalloc size = (h.extendHeap (extension size)).elim (some (0, h)) fun h₁ =>
      h₁.getAllocation size := by
  rw [kmalloc, if_neg h0, heq]
  cases hext : h.extendHeap (extension size) with
  | none => simp only [hext, Option.elim_none]
  | some h₁ => simp only [hext, Option.elim_some]

/-- **`kmalloc`** serves a request without extending the heap exactly if a block that the search
looks at is large enough. -/
theorem kmalloc_served_iff (hv : h.Valid bs fl) (hpos : 0 < size) (hsize : size + 31 < 2 ^ 64) :
    h.ServedInPlace size ↔ SeesFit bs fl (align (size + 16)) := by
  have hzero := hv.wf.getAllocation_eq_zero_iff hsize
  unfold ServedInPlace
  rcases hv.getAllocation hpos hsize with heq | ⟨h', b, bs', fl', heq, -, -, -, hquiet⟩
  · refine iff_of_false ?_ (hzero.mp heq)
    rintro ⟨ptr, h', hret, hne, hbrk⟩
    rw [kmalloc_of_none (Nat.ne_of_gt hpos) heq] at hret
    cases hext : h.extendHeap (extension size) with
    | none =>
      rw [hext] at hret
      cases hret
      exact hne rfl
    | some h₁ =>
      rw [hext] at hret
      have hmove := extendHeap_moves hv.wf.bounds hext
      rw [← (getAllocation_sameBounds hret).heapMemoryBrk] at hmove
      exact hmove hbrk
  · refine iff_of_true ⟨b.addr + 8, h', ?_, Nat.succ_ne_zero _, hquiet.heapMemoryBrk⟩ ?_
    · rw [kmalloc, if_neg (Nat.ne_of_gt hpos), heq]
      rfl
    · by_contra hnot
      rw [hzero.mpr hnot] at heq
      cases heq

/-- A heap in which a free block of 64 bytes is on its list behind one of 48 bytes, and the break
is at its end. It is reached by `kmalloc` of 32, 1, 48, 1 and 3904 bytes and `kfree` of the third
and of the first. -/
def skipping : Kheap where
  mem a :=
    match a with
    | 4104 => 4160
    | 4144 | 4152 => 17
    | 4160 | 4200 => 48
    | 4176 => 4240
    | 4208 | 4232 | 4304 | 4328 => 33
    | 4240 | 4296 => 64
    | 4248 => 4160
    | 4336 | 8248 => 3921
    | 8256 => 1
    | _ => 0
  heapMemory := 4096
  heapMemoryBrk := 8264
  heapMemoryEnd := 8264
  heapPtr := 4144
  segListsPtr := 4096

/-- Its blocks. -/
def skippingBlocks : List Block :=
  [⟨4160, 48, false⟩, ⟨4208, 32, true⟩, ⟨4240, 64, false⟩, ⟨4304, 32, true⟩, ⟨4336, 3920, true⟩]

/-- Its free lists. -/
def skippingLists (i : ℕ) : List ℕ := if i = 1 then [4160, 4240] else []

theorem skipping_valid : skipping.Valid skippingBlocks skippingLists := by
  refine ⟨⟨⟨by decide, by decide, rfl, rfl, by decide, by decide, by decide⟩, by decide, by decide,
    by decide, by decide, by decide, by decide, by decide, by decide⟩, ?_, ?_⟩
  · unfold Listed
    decide
  · unfold Merged
    decide

theorem skipping_seesFit : SeesFit skippingBlocks skippingLists (align (32 + 16)) :=
  ⟨⟨4160, 48, false⟩, by decide, ⟨by decide, fun _ => by decide⟩, by decide⟩

/-- The block of 48 bytes serves a request of 32. -/
theorem kmalloc_served_head :
    skipping.ServedInPlace 32 ∧ SeesFit skippingBlocks skippingLists (align (32 + 16)) :=
  ⟨(kmalloc_served_iff skipping_valid (by decide) (by decide)).mpr skipping_seesFit,
    skipping_seesFit⟩

/-- A request of 40 bytes fails although the block of 64 bytes is free. -/
theorem kmalloc_skips_block : skipping.Valid skippingBlocks skippingLists ∧
    (∃ b ∈ skippingBlocks, b.live = false ∧ b.addr ∈ skippingLists (listIndex b.size) ∧
      align (40 + 16) ≤ b.size) ∧
    (skipping.kmalloc 40).map Prod.fst = some 0 :=
  ⟨skipping_valid, ⟨⟨4240, 64, false⟩, by decide⟩, by decide +kernel⟩

/-! ### A heap that all clients have left -/

/-- Without allocated blocks the heap is one free block, and the search looks at it. -/
theorem Valid.seesFit_of_no_live (hv : h.Valid bs fl) (hlive : ∀ b ∈ bs, b.live = false)
    (hpos : 0 < need) (hfits : need ≤ h.heapMemoryBrk - 8 - (h.heapPtr + 16)) :
    SeesFit bs fl need := by
  have htiling := hv.wf.tiling
  match bs, hv, hlive, htiling with
  | [], _, _, hend =>
    rw [Tiling] at hend
    omega
  | [b], hv, hlive, ⟨_, _, _, hend⟩ =>
    rw [Tiling] at hend
    have hlisted := hv.listed b mem_cons_self (hlive b mem_cons_self)
    refine ⟨b, mem_cons_self, ⟨hlisted, fun hfirst => ?_⟩, by omega⟩
    -- every node of the list is the one block
    cases hfl : fl (listIndex b.size) with
    | nil => simp [hfl] at hlisted
    | cons a l =>
      obtain ⟨c, hc, haddr, -⟩ := hv.wf.nodes _ (by omega) a (hfl ▸ mem_cons_self)
      rw [mem_singleton.mp hc] at haddr
      exact haddr
  | b :: c :: bs, hv, hlive, _ =>
    rcases (isChain_cons_cons.mp hv.merged).1 with hb | hc
    · cases (hlive b mem_cons_self).symm.trans hb
    · cases (hlive c (mem_cons_of_mem b mem_cons_self)).symm.trans hc

/-- **Nothing stays behind**: once the clients have given back all they held, after whatever calls,
a request is served without extending the heap if the heap is large enough. -/
theorem served_of_all_freed {mem : ℕ → ℕ} {start stop : ℕ} {s : Session}
    (hmem : ∀ a, mem a < 2 ^ 64) (hpos : 0 < start) (halign : 8 ∣ start)
    (hwrap : start + 72 + pageSize < 2 ^ 64) (hstop : stop < 2 ^ 64)
    (hinit : kmemInit mem start stop = some h)
    (hrun : Relation.ReflTransGen Session.Step ⟨h, []⟩ s) (hleft : s.live = []) (h0 : 0 < size)
    (hsize : size + 31 < 2 ^ 64)
    (hfits : align (size + 16) ≤ s.heap.heapMemoryBrk - 8 - (s.heap.heapPtr + 16)) :
    s.heap.ServedInPlace size := by
  obtain ⟨bs, fl, hv, howns⟩ := Session.sound_of_run hmem hpos halign hwrap hstop hinit hrun
  have hlive : ∀ b ∈ bs, b.live = false := by
    intro b hb
    by_contra hb'
    obtain ⟨_, howner⟩ := howns.owner b ⟨hb, Bool.not_eq_false _ ▸ hb'⟩
    simp [hleft] at howner
  have hsees := hv.seesFit_of_no_live hlive ((Nat.succ_pos _).trans_le (le_align hsize)) hfits
  rcases hv.getAllocation h0 hsize with heq | ⟨h', b, _, _, heq, -, -, -, hquiet⟩
  · exact absurd hsees ((hv.wf.getAllocation_eq_zero_iff hsize).mp heq)
  · refine ⟨b.addr + 8, h', ?_, Nat.succ_ne_zero _, hquiet.heapMemoryBrk⟩
    rw [kmalloc, if_neg (Nat.ne_of_gt h0), heq]
    rfl

/-- A request of 100 bytes after `kmem_init`. -/
theorem served_of_all_freed_first : ∃ h,
    kmemInit (fun _ => 0) 4096 65536 = some h ∧ h.ServedInPlace 100 := by
  have hends : (kmemInit (fun _ => 0) 4096 65536).map
      (fun h => (h.heapMemoryBrk, h.heapPtr)) = some (8264, 4144) := by decide +kernel
  obtain ⟨h, hinit, hends⟩ := Option.map_eq_some_iff.mp hends
  obtain ⟨hbrk, hptr⟩ := Prod.mk.inj hends
  refine ⟨h, hinit, served_of_all_freed (fun _ => by decide) (by decide) (by decide)
    (by decide) (by decide) hinit .refl rfl (by decide) (by decide) ?_⟩
  rw [hbrk, hptr]
  decide

end Kheap

end OsPi
