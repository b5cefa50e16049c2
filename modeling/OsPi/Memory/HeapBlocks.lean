import OsPi.Lib.Links
import OsPi.Memory.Kmalloc

/-!
# Blocks of the Kernel Heap

What the memory of the heap stands for: a list of blocks that lie one after the other between
the prologue and the epilogue, and for every size class a list of free blocks. `Kheap.Wf` says
that the memory holds both, and `Wf.replace` is the one way blocks change: some neighbouring
blocks give way to others in the same place.
-/

namespace OsPi

open List

/-- A block of the heap: the address of its first word, its size with both tags, and whether
it is allocated. -/
structure Block where
  addr : ℕ
  size : ℕ
  live : Bool
  deriving DecidableEq, Repr

/-- The word at both ends of a block. -/
def Block.tag (b : Block) : ℕ := b.size ||| b.live.toNat

/-- Blocks from an address up to another one without a gap. -/
def Tiling : ℕ → List Block → ℕ → Prop
  | a, [], stop => a = stop
  | a, b :: bs, stop => b.addr = a ∧ 32 ≤ b.size ∧ 16 ∣ b.size ∧ Tiling (a + b.size) bs stop

instance decidableTiling : ∀ a bs stop, Decidable (Tiling a bs stop)
  | a, [], stop => inferInstanceAs (Decidable (a = stop))
  | a, b :: bs, stop =>
    have := decidableTiling (a + b.size) bs stop
    inferInstanceAs (Decidable (_ ∧ _ ∧ _ ∧ _))

/-! ### Tags -/

theorem Block.tag_eq {b : Block} (h : 16 ∣ b.size) : b.tag = b.size + b.live.toNat := by
  obtain ⟨k, hk⟩ := h
  have hlt : b.live.toNat < 2 ^ 4 := by cases b.live <;> decide
  rw [Block.tag, hk]
  exact (Nat.two_pow_add_eq_or_of_lt hlt k).symm

theorem Block.sizeBits_tag {b : Block} (h : 16 ∣ b.size) : Kheap.sizeBits b.tag = b.size := by
  obtain ⟨k, hk⟩ := h
  rw [Block.tag_eq ⟨k, hk⟩, Kheap.sizeBits, hk]
  cases b.live <;> simp only [Bool.toNat_false, Bool.toNat_true] <;> omega

theorem Block.tag_mod_two {b : Block} (h : 16 ∣ b.size) : b.tag % 2 = b.live.toNat := by
  obtain ⟨k, hk⟩ := h
  rw [Block.tag_eq ⟨k, hk⟩, hk]
  cases b.live <;> simp only [Bool.toNat_false, Bool.toNat_true] <;> omega

/-! ### Tilings -/

namespace Tiling

variable {a m stop : ℕ} {b b' : Block} {bs l r : List Block}

theorem append_iff : Tiling a (l ++ r) stop ↔ ∃ m, Tiling a l m ∧ Tiling m r stop := by
  induction l generalizing a with
  | nil =>
    constructor
    · intro h
      exact ⟨a, rfl, h⟩
    · rintro ⟨m, rfl, h⟩
      exact h
  | cons b l ih =>
    constructor
    · rintro ⟨h1, h2, h3, h4⟩
      obtain ⟨m, hl, hr⟩ := ih.mp h4
      exact ⟨m, ⟨h1, h2, h3, hl⟩, hr⟩
    · rintro ⟨m, ⟨h1, h2, h3, hl⟩, hr⟩
      exact ⟨h1, h2, h3, ih.mpr ⟨m, hl, hr⟩⟩

theorem stop_unique {stop' : ℕ} (h : Tiling a bs stop) (h' : Tiling a bs stop') : stop = stop' := by
  induction bs generalizing a with
  | nil => exact h.symm.trans h'
  | cons b bs ih => exact ih h.2.2.2 h'.2.2.2

/-- The number of blocks is bounded by the space between the two addresses. -/
theorem length_le (h : Tiling a bs stop) : a + 32 * bs.length ≤ stop := by
  induction bs generalizing a with
  | nil => exact Nat.le_of_eq h
  | cons b bs ih =>
    have := ih h.2.2.2
    have := h.2.1
    rw [length_cons]
    omega

theorem le (h : Tiling a bs stop) : a ≤ stop := by
  have := h.length_le
  omega

/-- Where a block lies. -/
theorem bounds (h : Tiling a bs stop) (hb : b ∈ bs) :
    a ≤ b.addr ∧ b.addr + b.size ≤ stop ∧ 32 ≤ b.size ∧ 16 ∣ b.size ∧ 16 ∣ b.addr - a := by
  induction bs generalizing a with
  | nil => cases hb
  | cons c bs ih =>
    obtain ⟨h1, h2, h3, h4⟩ := h
    rcases mem_cons.mp hb with rfl | hb
    · have := h4.le
      exact ⟨h1.ge, by omega, h2, h3, by rw [h1, Nat.sub_self]; exact Nat.dvd_zero _⟩
    · obtain ⟨h5, h6, h7, h8, h9⟩ := ih h4 hb
      refine ⟨by omega, h6, h7, h8, ?_⟩
      have : b.addr - a = b.addr - (a + c.size) + c.size := by omega
      rw [this]
      exact Nat.dvd_add h9 h3

/-- Two blocks are the same or do not overlap. -/
theorem disjoint (h : Tiling a bs stop) (hb : b ∈ bs) (hb' : b' ∈ bs) :
    b = b' ∨ b.addr + b.size ≤ b'.addr ∨ b'.addr + b'.size ≤ b.addr := by
  induction bs generalizing a with
  | nil => cases hb
  | cons c bs ih =>
    obtain ⟨h1, -, -, h4⟩ := h
    rcases mem_cons.mp hb with rfl | hb <;> rcases mem_cons.mp hb' with rfl | hb'
    · exact .inl rfl
    · have := (h4.bounds ‹b' ∈ bs›).1
      omega
    · have := (h4.bounds ‹b ∈ bs›).1
      omega
    · exact ih h4 ‹b ∈ bs› ‹b' ∈ bs›

/-- A block is determined by its address. -/
theorem eq_of_addr (h : Tiling a bs stop) (hb : b ∈ bs) (hb' : b' ∈ bs)
    (heq : b.addr = b'.addr) : b = b' := by
  have h1 := (h.bounds hb).2.2.1
  have h2 := (h.bounds hb').2.2.1
  rcases h.disjoint hb hb' with he | he | he
  · exact he
  · omega
  · omega

end Tiling

/-! ### The heap in memory -/

namespace Kheap

open Links

/-- The link back from a free block. -/
def prevOf (h : Kheap) (block : ℕ) : ℕ := h.word (block + 8)

/-- The link forward from a free block. -/
def nextOf (h : Kheap) (block : ℕ) : ℕ := h.word (block + 16)

/-- The variables that are set once, and the break. -/
structure Bounds (h : Kheap) : Prop where
  pos : 0 < h.heapMemory
  aligned : 8 ∣ h.heapMemory
  segListsPtr : h.segListsPtr = h.heapMemory
  heapPtr : h.heapPtr = h.heapMemory + 48
  le_brk : h.heapPtr + 24 ≤ h.heapMemoryBrk
  brk_le : h.heapMemoryBrk ≤ h.heapMemoryEnd
  end_lt : h.heapMemoryEnd < 2 ^ 64

/-- **The memory holds the blocks `bs` and the free lists `fl`.** Every node of a free list is
a free block of its size class. -/
structure Wf (h : Kheap) (bs : List Block) (fl : ℕ → List ℕ) : Prop where
  bounds : h.Bounds
  tiling : Tiling (h.heapPtr + 16) bs (h.heapMemoryBrk - 8)
  tags : ∀ b ∈ bs, h.word b.addr = b.tag ∧ h.word (b.addr + b.size - 8) = b.tag
  prologue : h.word h.heapPtr = 17 ∧ h.word (h.heapPtr + 8) = 17
  epilogue : h.word (h.heapMemoryBrk - 8) = 1
  heads : ∀ i < 6, h.word (h.listAt i) = front (fl i)
  linked : ∀ i < 6, Linked h.prevOf h.nextOf (fl i)
  nodup : ∀ i < 6, (fl i).Nodup
  nodes : ∀ i < 6, ∀ a ∈ fl i, ∃ b ∈ bs, b.addr = a ∧ b.live = false ∧ listIndex b.size = i

variable {h h' : Kheap} {bs olds news l r : List Block} {fl : ℕ → List ℕ} {b : Block} {m m' : ℕ}

/-- The variables besides the memory and the break. -/
structure SameBounds (h h' : Kheap) : Prop where
  heapMemory : h'.heapMemory = h.heapMemory
  heapMemoryBrk : h'.heapMemoryBrk = h.heapMemoryBrk
  heapMemoryEnd : h'.heapMemoryEnd = h.heapMemoryEnd
  heapPtr : h'.heapPtr = h.heapPtr
  segListsPtr : h'.segListsPtr = h.segListsPtr

theorem SameBounds.refl : SameBounds h h := ⟨rfl, rfl, rfl, rfl, rfl⟩

theorem SameBounds.bounds (hs : SameBounds h h') (hb : h.Bounds) : h'.Bounds := by
  obtain ⟨h1, h2, h3, h4, h5⟩ := hs
  obtain ⟨b1, b2, b3, b4, b5, b6, b7⟩ := hb
  exact ⟨h1 ▸ b1, h1 ▸ b2, by rw [h5, h1, b3], by rw [h4, h1, b4], by rw [h4, h2]; exact b5,
    by rw [h2, h3]; exact b6, h3 ▸ b7⟩

/-- **Replacing blocks**: neighbouring blocks that are on no free list give way to others in
the same place, and nothing outside that place is written. -/
theorem Wf.replace (hw : h.Wf (l ++ olds ++ r) fl) (hs : SameBounds h h')
    (hl : Tiling (h.heapPtr + 16) l m) (hold : Tiling m olds m') (hnew : Tiling m news m')
    (hfree : ∀ i < 6, ∀ b ∈ olds, b.addr ∉ fl i)
    (hmem : ∀ x, x < m ∨ m' ≤ x → h'.word x = h.word x)
    (htags : ∀ b ∈ news, h'.word b.addr = b.tag ∧ h'.word (b.addr + b.size - 8) = b.tag) :
    h'.Wf (l ++ news ++ r) fl := by
  obtain ⟨m₁, hlo, hr⟩ := Tiling.append_iff.mp hw.tiling
  obtain rfl : m₁ = m' := hlo.stop_unique (Tiling.append_iff.mpr ⟨m, hl, hold⟩)
  have hb := hw.bounds
  have hle := hl.le
  have hle' := hr.le
  -- the other blocks lie on one side of the place
  have hside : ∀ b ∈ l ++ r, b ∈ l ++ olds ++ r ∧ 32 ≤ b.size ∧
      (b.addr + b.size ≤ m ∨ m₁ ≤ b.addr) := by
    intro b hbl
    rcases mem_append.mp hbl with hbl | hbr
    · have := hl.bounds hbl
      exact ⟨mem_append_left _ (mem_append_left _ hbl), this.2.2.1, .inl this.2.1⟩
    · have := hr.bounds hbr
      exact ⟨mem_append_right _ hbr, this.2.2.1, .inr this.1⟩
  have htag : ∀ b ∈ l ++ r, h'.word b.addr = b.tag ∧ h'.word (b.addr + b.size - 8) = b.tag := by
    intro b hbl
    obtain ⟨hin, hsize, hpos⟩ := hside b hbl
    rw [hmem b.addr (by omega), hmem (b.addr + b.size - 8) (by omega)]
    exact hw.tags b hin
  have hnode : ∀ i < 6, ∀ a ∈ fl i, ∃ b ∈ l ++ r, b.addr = a ∧ b.live = false ∧
      listIndex b.size = i := by
    intro i hi a ha
    obtain ⟨b, hin, rfl, hfree'⟩ := hw.nodes i hi a ha
    refine ⟨b, ?_, rfl, hfree'⟩
    rcases mem_append.mp hin with hin | hin
    · rcases mem_append.mp hin with hin | hin
      · exact mem_append_left _ hin
      · exact absurd ha (hfree i hi b hin)
    · exact mem_append_right _ hin
  have hlink : ∀ i < 6, ∀ a ∈ fl i, h'.word (a + 8) = h.word (a + 8) ∧
      h'.word (a + 16) = h.word (a + 16) := by
    intro i hi a ha
    obtain ⟨b, hin, rfl, -⟩ := hnode i hi a ha
    obtain ⟨-, hsize, hpos⟩ := hside b hin
    exact ⟨hmem _ (by omega), hmem _ (by omega)⟩
  refine ⟨hs.bounds hb, ?_, ?_, ?_, ?_, ?_, ?_, hw.nodup, ?_⟩
  · rw [hs.heapPtr, hs.heapMemoryBrk, append_assoc]
    exact Tiling.append_iff.mpr ⟨m, hl, Tiling.append_iff.mpr ⟨m₁, hnew, hr⟩⟩
  · intro b hbn
    rcases mem_append.mp hbn with hbn | hbn
    · rcases mem_append.mp hbn with hbn | hbn
      · exact htag b (mem_append_left _ hbn)
      · exact htags b hbn
    · exact htag b (mem_append_right _ hbn)
  · rw [hs.heapPtr, hmem _ (by omega), hmem _ (by omega)]
    exact hw.prologue
  · rw [hs.heapMemoryBrk, hmem _ (by omega)]
    exact hw.epilogue
  · intro i hi
    have hptr := hb.heapPtr
    have hseg := hb.segListsPtr
    rw [listAt, hs.segListsPtr, hmem _ (by omega)]
    exact hw.heads i hi
  · intro i hi
    exact (hw.linked i hi).congr (fun a ha => (hlink i hi a ha).2) fun a ha => (hlink i hi a ha).1
  · intro i hi a ha
    obtain ⟨b, hin, hrest⟩ := hnode i hi a ha
    refine ⟨b, ?_, hrest⟩
    rcases mem_append.mp hin with hin | hin
    · exact mem_append_left _ (mem_append_left _ hin)
    · exact mem_append_right _ hin

end Kheap

end OsPi
