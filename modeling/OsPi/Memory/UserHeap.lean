import OsPi.Memory.HeapSearch

/-!
# The Heap of a User Program

`user/lib/malloc.c` is the allocator of the kernel over again, without the lock and with another
`realloc`: where the kernel takes in the whole of a free block that follows, `realloc` gives back
what it does not need. The functions that are the same are those of `Kheap`; this module has
`realloc` and what it does to blocks and bytes.
-/

namespace OsPi

open List

namespace Kheap

variable {h h' : Kheap} {bs bs' l r : List Block} {fl fl' : ℕ → List ℕ} {b c d : Block}
  {size needed num dst src x n : ℕ}

/-! ### `realloc` -/

/-- `malloc`, in the words of `kmalloc`. -/
def malloc (h : Kheap) (size : ℕ) : Option (ℕ × Kheap) := h.kmalloc size

/-- `free`, in the words of `kfree`. -/
def free (h : Kheap) (ptr : ℕ) : Kheap := h.kfree ptr

/-- `memcpy`, in the words of `kmalloc_memcpy`. -/
def memcpy (h : Kheap) (dst src num : ℕ) : Kheap := h.kmallocMemcpy dst src num

/-- The part of `realloc` that takes the free block after this one in. -/
def growNext (h : Kheap) (oldPtr oldSize needed : ℕ) : Option Kheap :=
  let nextHdr := oldPtr - 8 + oldSize
  let nextVal := h.word nextHdr
  let nextSize := sizeBits nextVal
  if nextSize ≠ 0 ∧ nextVal % 2 = 0 ∧ needed ≤ oldSize + nextSize then
    let combinedSize := oldSize + nextSize
    let h := h.removeFree (nextHdr + 8) nextSize
    if 32 ≤ combinedSize - needed then
      let h := h.store (oldPtr - 8) (needed ||| 1)
      let h := h.store (oldPtr - 8 + needed - 8) (needed ||| 1)
      some (h.initializeFree (oldPtr - 8 + needed) (combinedSize - needed))
    else
      let h := h.store (oldPtr - 8) (combinedSize ||| 1)
      some (h.store (oldPtr - 8 + combinedSize - 8) (combinedSize ||| 1))
  else none

/-- `realloc`. -/
def realloc (h : Kheap) (oldPtr size : ℕ) : Option (ℕ × Kheap) :=
  if oldPtr = 0 then h.malloc size
  else if size = 0 then some (0, h.free oldPtr)
  else
    let oldSize := sizeBits (h.word (oldPtr - 8))
    let needed := align (size + 16)
    if needed ≤ oldSize then some (oldPtr, h)
    else
      match h.growNext oldPtr oldSize needed with
      | some h => some (oldPtr, h)
      | none =>
        match h.malloc size with
        | none => none
        | some (0, h) => some (0, h)
        | some (newPtr, h) =>
          let h := h.memcpy newPtr oldPtr (min size (oldSize - 16))
          some (newPtr, h.free oldPtr)

/-! ### Bytes -/

/-- The bytes of a block are the same in two heaps. -/
def SameBytes (b : Block) (h h' : Kheap) : Prop :=
  ∀ i < b.size - 16, h'.loadByte (b.addr + 8 + i) = h.loadByte (b.addr + 8 + i)

/-- Blocks whose words are the same have the same bytes. -/
theorem Wf.sameBytes {h₀ : Kheap} (hw : h₀.Wf bs fl) (hb : b ∈ bs)
    (hword : ∀ x, b.addr + 8 ≤ x → x + 8 < b.addr + b.size → h'.word x = h.word x) :
    SameBytes b h h' := by
  intro i hi
  have hmod := hw.addr_mod hb
  obtain ⟨-, -, hsize, ⟨k, hk⟩, -⟩ := hw.tiling.bounds hb
  rw [loadByte, loadByte, hword _ (by omega) (by omega)]

theorem loadByte_storeByte (v : ℕ) :
    (h.storeByte dst v).loadByte x = if x = dst then v % 256 else h.loadByte x := by
  unfold loadByte storeByte
  rw [word_store]
  by_cases hword : x / 8 * 8 = dst / 8 * 8
  · rw [if_pos hword]
    split_ifs with heq
    · rw [heq, Bytes.read_write_self]
      rfl
    · rw [Bytes.read_write_of_disjoint (by omega), hword]
  · rw [if_neg hword, if_neg (by rintro rfl; exact hword rfl)]

theorem loadByte_lt : h.loadByte x < 256 := Bytes.read_lt _ _ 1

/-- **`memcpy`** between ranges that do not overlap. -/
theorem loadByte_kmallocMemcpy (hdisj : src + num ≤ dst ∨ dst + num ≤ src) :
    (h.kmallocMemcpy dst src num).loadByte x =
      if dst ≤ x ∧ x < dst + num then h.loadByte (src + (x - dst)) else h.loadByte x := by
  induction num generalizing h dst src with
  | zero => rw [kmallocMemcpy, if_neg (by omega)]
  | succ num ih =>
    rw [kmallocMemcpy, ih (by omega), loadByte_storeByte, loadByte_storeByte,
      Nat.mod_eq_of_lt loadByte_lt]
    by_cases hrest : dst + 1 ≤ x ∧ x < dst + 1 + num
    · rw [if_pos hrest, if_neg (by omega), if_pos (by omega)]
      congr 1
      omega
    · rw [if_neg hrest]
      by_cases heq : x = dst
      · rw [if_pos heq, if_pos (by omega), heq, Nat.sub_self, Nat.add_zero]
      · rw [if_neg heq, if_neg (by omega)]

/-! ### Growing in place -/

/-- The tags of the larger block lie outside of what the allocated blocks held. -/
theorem Valid.writeTags_untouched (hv : h.Valid (l ++ b :: c :: r) fl) (hfree : c.live = false)
    (hdvd : 16 ∣ n) (hlt : b.size < n) (hle : n ≤ b.size + c.size) (h₁ : Kheap) :
    Untouched (l ++ b :: c :: r) h₁ (h₁.writeTags [⟨b.addr, n, true⟩]) := by
  obtain ⟨hl, hsize, hbdvd, hbc, -, -, hr⟩ := hv.wf.around
  have hn : 32 ≤ n := by omega
  have hnew : Tiling b.addr [⟨b.addr, n, true⟩] (b.addr + n) := ⟨rfl, hn, hdvd, rfl⟩
  have hquiet := writeTags_quiet (h := h₁) hl hnew (by omega) hr
  intro d hd hlive x hlo hhi
  rcases mem_append.mp hd with hd | hd
  · exact hquiet.untouched d (mem_append_left _ hd) hlive x hlo hhi
  · rcases mem_cons.mp hd with rfl | hd
    · obtain ⟨k, hk⟩ := hdvd
      obtain ⟨m, hm⟩ := hbdvd
      change ((h₁.store d.addr _).store (d.addr + n - 8) _).word x = h₁.word x
      rw [word_store, if_neg (by omega), word_store, if_neg (by omega)]
    · rcases mem_cons.mp hd with rfl | hd
      · rw [hfree] at hlive
        cases hlive
      · exact hquiet.untouched d (mem_append_right _ hd) hlive x hlo hhi

/-- **Growing in place**: the block becomes larger, and no byte that was allocated changes. -/
theorem Valid.growNext (hv : h.Valid bs fl) (hb : b ∈ bs) (hlive : b.live = true)
    (hdvd : 16 ∣ needed) (hlt : b.size < needed)
    (he : h.growNext (b.addr + 8) b.size needed = some h') : ∃ c bs' fl', h'.Valid bs' fl' ∧
      c.addr = b.addr ∧ needed ≤ c.size ∧ c ∈ liveOf bs' ∧ liveOf bs \ {b} ⊆ liveOf bs' ∧
      Untouched bs h h' := by
  rw [Kheap.growNext] at he
  simp only [Nat.add_sub_cancel] at he
  rcases hv.word_next hb with hend | ⟨l, c, r, rfl, hbc, hcdvd, hcsize, hword⟩
  · rw [hend, if_neg (fun hodd => absurd hodd.2.1 (by decide))] at he
    cases he
  rw [hword, Block.sizeBits_tag hcdvd, ← hbc] at he
  by_cases hcond : c.size ≠ 0 ∧ c.tag % 2 = 0 ∧ needed ≤ b.size + c.size
  swap
  · rw [if_neg hcond] at he
    cases he
  have hfree := Block.live_eq_false hcdvd hcond.2.1
  obtain ⟨fl', hw, hl, hold, hmerged, hout, hlisted, huntouched⟩ := hv.takeNext hlive hfree
  have hsize := hold.2.1
  have htotal := Nat.dvd_add hold.2.2.1 hcdvd
  have hwrite := fun n hd h1 h2 => hv.writeTags_untouched (n := n) hfree hd h1 h2
    (h.removeFree (c.addr + 8) c.size)
  split_ifs at he with hsplit
  · -- what is not needed becomes a free block again
    obtain ⟨bs', fl₁, hv', hquiet, hlive'⟩ := hw.carve hl hold hout hlisted hv.merged.left hmerged
      htotal (by omega) hdvd (n := needed) (by omega)
    cases he
    refine ⟨⟨b.addr, needed, true⟩, bs', fl₁, hv', rfl, le_rfl, ?_, ?_,
      fun d hd hdlive x hlo hhi => ?_⟩
    · rw [hlive']
      exact Set.mem_insert _ _
    · rw [hlive', ← hv.liveOf_sides hlive hfree]
      exact Set.subset_insert _ _
    · refine Eq.trans ?_ ((hwrite needed hdvd hlt hcond.2.2 d hd hdlive x hlo hhi).trans
        (huntouched d hd hdlive x hlo hhi))
      rcases mem_append.mp hd with hd | hd
      · exact hquiet.untouched d (mem_append_left _ hd) hdlive x hlo hhi
      · rcases mem_cons.mp hd with rfl | hd
        · exact hquiet.untouched ⟨d.addr, needed, true⟩
            (mem_append_right _ mem_cons_self) rfl x hlo (by dsimp only; omega)
        · rcases mem_cons.mp hd with rfl | hd
          · rw [hfree] at hdlive
            cases hdlive
          · exact hquiet.untouched d (mem_append_right _ (mem_cons_of_mem _ hd)) hdlive x
              hlo hhi
  · have hv' := hw.fill hl hold hout hlisted hv.merged.left hmerged htotal (by omega)
    cases he
    refine ⟨⟨b.addr, b.size + c.size, true⟩, _, fl', hv', rfl, hcond.2.2, ⟨?_, rfl⟩, ?_,
      fun d hd hdlive x hlo hhi => ?_⟩
    · exact mem_append_right _ mem_cons_self
    · rw [← hv.liveOf_sides hlive hfree, liveOf_middle]
      exact Set.subset_union_right
    · exact (hwrite _ htotal (by omega) le_rfl d hd hdlive x hlo hhi).trans
        (huntouched d hd hdlive x hlo hhi)

/-! ### What `realloc` leaves -/

/-- What a caller may expect of `realloc` of an allocated block: the heap is valid and the other
blocks are allocated and hold their bytes. If nothing is returned for a size other than zero, the
block is allocated as well and holds its bytes; otherwise a block that is large enough begins with
the bytes of the old one. -/
def Resizes (h : Kheap) (bs : List Block) (b : Block) (size ptr : ℕ) (h' : Kheap) : Prop :=
  ∃ bs' fl', h'.Valid bs' fl' ∧ (∀ d ∈ liveOf bs \ {b}, d ∈ liveOf bs' ∧ SameBytes d h h') ∧
    (ptr = 0 → size ≠ 0 → b ∈ liveOf bs' ∧ SameBytes b h h') ∧
    (ptr ≠ 0 → ∃ c ∈ liveOf bs', ptr = c.addr + 8 ∧ size + 16 ≤ c.size ∧
      ∀ i < min (b.size - 16) size, h'.loadByte (ptr + i) = h.loadByte (b.addr + 8 + i))

/-- Moving the bytes of a block into one that was just allocated, and freeing it. -/
theorem Resizes.of_copy {h₁ : Kheap} {bs₁ : List Block} {fl₁ : ℕ → List ℕ} (hv : h.Valid bs fl)
    (hb : b ∈ liveOf bs) (hv₁ : h₁.Valid bs₁ fl₁) (halloc : Allocated bs c bs₁)
    (hsize : size + 16 ≤ c.size) (hsame : Untouched bs h h₁) :
    h.Resizes bs b size (c.addr + 8)
      ((h₁.memcpy (c.addr + 8) (b.addr + 8) (min size (b.size - 16))).free (b.addr + 8)) := by
  have hc : c ∈ liveOf bs₁ := by
    rw [halloc.liveOf_eq]
    exact Set.mem_insert _ _
  have hin : ∀ d ∈ liveOf bs, d ∈ liveOf bs₁ := by
    rw [halloc.liveOf_eq]
    exact fun d => Set.mem_insert_of_mem _
  have hne : ∀ d ∈ liveOf bs, d ≠ c := fun d hd heq => halloc.fresh d hd (by rw [heq])
  have hbytes : ∀ d ∈ liveOf bs, SameBytes d h h₁ := fun d hd =>
    hv.wf.sameBytes hd.1 (hsame d hd.1 hd.2)
  have hmin := Nat.min_le_left size (b.size - 16)
  have hold := Nat.min_le_right size (b.size - 16)
  have hcopy := hv₁.kmallocMemcpy (b.addr + 8) (min size (b.size - 16)) hc.1 hc.2
    (Nat.le_refl _) (by omega)
  obtain ⟨bs', fl', hv', hquiet, heq⟩ := hcopy.kfree (hin b hb).1 hb.2
  have hfreed : ∀ d ∈ liveOf bs', SameBytes d _ _ := fun d hd =>
    hv'.wf.sameBytes hd.1 (hquiet.untouched d hd.1 hd.2)
  have hoverlap := (hv₁.wf.tiling.disjoint (hin b hb).1 hc.1).resolve_left (hne b hb)
  have hkept : ∀ d ∈ liveOf bs₁, d ≠ b → d ∈ liveOf bs' := by
    rw [heq]
    exact fun d hd hdb => ⟨hd, hdb⟩
  refine ⟨bs', fl', hv', fun d hd => ?_, fun h0 => absurd h0 (Nat.succ_ne_zero _), fun _ => ?_⟩
  · have hd' := hkept d (hin d hd.1) hd.2
    refine ⟨hd', fun i hi => ?_⟩
    have hdc := (hv₁.wf.tiling.disjoint (hin d hd.1).1 hc.1).resolve_left (hne d hd.1)
    rw [Kheap.free, memcpy, hfreed d hd' i hi, loadByte_kmallocMemcpy (by omega), if_neg (by omega)]
    exact hbytes d hd.1 i hi
  · have hc' := hkept c hc (hne b hb).symm
    refine ⟨c, hc', rfl, hsize, fun i hi => ?_⟩
    rw [Kheap.free, memcpy, hfreed c hc' i (by omega), loadByte_kmallocMemcpy (by omega),
      if_pos (by omega), Nat.add_sub_cancel_left]
    exact hbytes b hb i (by omega)

/-- **`realloc`** of an allocated block returns, and leaves what it should. -/
theorem realloc_resizes (hv : h.Valid bs fl) (hb : b ∈ liveOf bs) (hwrap : h.NoWrap size) :
    ∃ ptr h', h.realloc (b.addr + 8) size = some (ptr, h') ∧ h.Resizes bs b size ptr h' := by
  have hdvd := (hv.wf.tiling.bounds hb.1).2.2.2.1
  have hneed := le_align hwrap.1
  have hptr : b.addr + 8 ≠ 0 := Nat.succ_ne_zero _
  rw [realloc, if_neg hptr]
  by_cases h0 : size = 0
  · obtain ⟨bs', fl', hv', hquiet, heq⟩ := hv.kfree hb.1 hb.2
    rw [if_pos h0]
    refine ⟨0, _, rfl, bs', fl', hv', fun d hd => ?_, fun _ hne => absurd h0 hne,
      fun hne => absurd rfl hne⟩
    rw [← heq] at hd
    exact ⟨hd, hv'.wf.sameBytes hd.1 (hquiet.untouched d hd.1 hd.2)⟩
  simp only [if_neg h0, Nat.add_sub_cancel, (hv.wf.tags b hb.1).1, Block.sizeBits_tag hdvd]
  split_ifs with hfit
  · exact ⟨_, h, rfl, bs, fl, hv, fun d hd => ⟨hd.1, fun _ _ => rfl⟩,
      fun hnull => absurd hnull hptr, fun _ => ⟨b, hb, rfl, hneed.trans hfit, fun _ _ => rfl⟩⟩
  cases hgrow : h.growNext (b.addr + 8) b.size (align (size + 16)) with
  | some h₁ =>
    obtain ⟨c, bs', fl', hv', haddr, hle, hc, hsub, hsame⟩ := hv.growNext hb.1 hb.2 (dvd_align _)
      (by omega) hgrow
    have hbytes : ∀ d ∈ liveOf bs, SameBytes d h h₁ := fun d hd =>
      hv.wf.sameBytes hd.1 (hsame d hd.1 hd.2)
    refine ⟨_, h₁, rfl, bs', fl', hv', fun d hd => ⟨hsub hd, hbytes d hd.1⟩,
      fun hnull => absurd hnull hptr, fun _ => ⟨c, hc, by rw [haddr], hneed.trans hle, ?_⟩⟩
    exact fun i hi => hbytes b hb i (by omega)
  | none =>
    obtain ⟨ptr, h₁, heq, ha, hsame⟩ := hv.kmalloc hwrap
    simp only [malloc, heq]
    rcases ha with ⟨rfl, bs₁, fl₁, hv₁, hlive⟩ | ⟨c, bs₁, fl₁, rfl, hv₁, halloc, hle⟩
    · have hbytes : ∀ d ∈ liveOf bs, d ∈ liveOf bs₁ ∧ SameBytes d h h₁ := fun d hd =>
        ⟨by rw [hlive]; exact hd, hv.wf.sameBytes hd.1 (hsame d hd.1 hd.2)⟩
      exact ⟨0, h₁, rfl, bs₁, fl₁, hv₁, fun d hd => hbytes d hd.1, fun _ _ => hbytes b hb,
        fun hne => absurd rfl hne⟩
    · exact ⟨_, _, rfl, .of_copy hv hb hv₁ halloc hle hsame⟩

/-- The allocated block of 32 bytes between the free ones. -/
def between : Block := ⟨4208, 32, true⟩

/-- It takes in 16 of the 64 free bytes after it. -/
theorem realloc_resizes_split : skipping.NoWrap 32 ∧
    ∃ ptr h', skipping.realloc (between.addr + 8) 32 = some (ptr, h') ∧
      skipping.Resizes skippingBlocks between 32 ptr h' := by
  have hwrap : skipping.NoWrap 32 := by
    unfold NoWrap
    decide
  exact ⟨hwrap, realloc_resizes skipping_valid ⟨by decide, rfl⟩ hwrap⟩

end Kheap

end OsPi
