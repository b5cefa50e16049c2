import Mathlib.Data.List.Chain
import Mathlib.Order.BooleanAlgebra.Set
import OsPi.Memory.HeapLists

/-!
# Merging, Splitting and Extending

The operations of the kernel heap as changes of its blocks. A heap between two calls is
`Kheap.Valid`: every free block is on the list for its size and no two neighbours are both
free. While a call runs, one free block may be waiting (`Kheap.Pending`): `coalesce` merges it
with its neighbours and `insert_free` ends the wait. The allocated blocks are the same before
and after.
-/

namespace OsPi

open List Option

namespace Kheap

variable {h h' : Kheap} {bs bs' olds news l l' r r' : List Block} {fl fl' : ℕ → List ℕ}
  {b c d : Block} {m m' x : ℕ}

/-! ### Writing blocks -/

/-- Write the tags of blocks. -/
def writeTags (h : Kheap) : List Block → Kheap
  | [] => h
  | b :: bs => ((h.store b.addr b.tag).store (b.addr + b.size - 8) b.tag).writeTags bs

theorem writeTags_sameBounds (news : List Block) : SameBounds h (h.writeTags news) := by
  induction news generalizing h with
  | nil => exact .refl
  | cons b news ih => exact ((sameBounds_store _ _).trans (sameBounds_store _ _)).trans ih

theorem word_writeTags (ht : Tiling m news m') (hx : x < m ∨ m' ≤ x) :
    (h.writeTags news).word x = h.word x := by
  induction news generalizing h m with
  | nil => rfl
  | cons b news ih =>
    obtain ⟨rfl, hsize, -, ht⟩ := ht
    have := ht.le
    rw [writeTags, ih ht (by omega), word_store, if_neg (by omega), word_store, if_neg (by omega)]

theorem tags_writeTags (ht : Tiling m news m') : ∀ b ∈ news,
    (h.writeTags news).word b.addr = b.tag ∧
      (h.writeTags news).word (b.addr + b.size - 8) = b.tag := by
  induction news generalizing h m with
  | nil => exact fun b hb => by cases hb
  | cons c news ih =>
    obtain ⟨rfl, hsize, -, ht⟩ := ht
    intro b hb
    rcases mem_cons.mp hb with rfl | hb
    · rw [writeTags, word_writeTags ht (by omega), word_writeTags ht (by omega)]
      simp only [word_store, if_true, ite_self, and_self]
    · exact ih ht b hb

/-- Writing the tags of other blocks in the place of blocks that are on no list. -/
theorem Wf.writeTags (hw : h.Wf (l ++ olds ++ r) fl) (hl : Tiling (h.heapPtr + 16) l m)
    (hold : Tiling m olds m') (hnew : Tiling m news m')
    (hout : ∀ i < 6, ∀ b ∈ olds, b.addr ∉ fl i) : (h.writeTags news).Wf (l ++ news ++ r) fl :=
  hw.replace (writeTags_sameBounds news) hl hold hnew hout (fun _ hx => word_writeTags hnew hx)
    (tags_writeTags hnew)

/-- The edges of the heap and what the allocated blocks hold are as they were. -/
structure Quiet (bs : List Block) (h h' : Kheap) : Prop extends SameBounds h h' where
  untouched : Untouched bs h h'

theorem Quiet.refl : Quiet bs h h := ⟨.refl, fun _ _ _ _ _ _ => rfl⟩

theorem Quiet.trans {h'' : Kheap} (h₁ : Quiet bs h h') (h₂ : Quiet bs h' h'') : Quiet bs h h'' :=
  ⟨h₁.toSameBounds.trans h₂.toSameBounds, fun c hc hlive x hlo hhi =>
    (h₂.untouched c hc hlive x hlo hhi).trans (h₁.untouched c hc hlive x hlo hhi)⟩

/-- Only the allocated blocks matter. -/
theorem Quiet.of_live (hq : Quiet bs h h') (hsub : ∀ c ∈ bs', c.live = true → c ∈ bs) :
    Quiet bs' h h' :=
  ⟨hq.toSameBounds, fun c hc hlive => hq.untouched c (hsub c hc hlive) hlive⟩

/-- Writing tags touches none of the other blocks. -/
theorem writeTags_quiet {a k stop : ℕ} (hl : Tiling a l m) (hnew : Tiling m news m') (hle : m' ≤ k)
    (hr : Tiling k r stop) : Quiet (l ++ r) h (h.writeTags news) := by
  refine ⟨writeTags_sameBounds _, fun c hc _ x hlo hhi => word_writeTags hnew ?_⟩
  rcases mem_append.mp hc with hc | hc
  · have := hl.bounds hc
    omega
  · have := hr.bounds hc
    omega

/-! ### Valid heaps -/

/-- Every free block among these is on the list for its size. -/
def Listed (bs : List Block) (fl : ℕ → List ℕ) : Prop :=
  ∀ b ∈ bs, b.live = false → b.addr ∈ fl (listIndex b.size)

/-- No two neighbours are both free. -/
def Merged (bs : List Block) : Prop := bs.IsChain fun b c => b.live = true ∨ c.live = true

/-- The same blocks are allocated. -/
def SameLive (bs bs' : List Block) : Prop := ∀ b, b.live = true → (b ∈ bs' ↔ b ∈ bs)

/-- **A heap between two calls.** -/
structure Valid (h : Kheap) (bs : List Block) (fl : ℕ → List ℕ) : Prop where
  wf : h.Wf bs fl
  listed : Listed bs fl
  merged : Merged bs

/-- A heap with a free block that is on no list, between blocks that are as in a valid heap. -/
structure Pending (h : Kheap) (l : List Block) (b : Block) (r : List Block) (fl : ℕ → List ℕ) :
    Prop where
  wf : h.Wf (l ++ b :: r) fl
  free : b.live = false
  out : ∀ i < 6, b.addr ∉ fl i
  listed : Listed (l ++ r) fl
  left : Merged l
  right : Merged r

theorem SameLive.refl : SameLive bs bs := fun _ _ => Iff.rfl

theorem SameLive.trans {bs'' : List Block} (h₁ : SameLive bs bs') (h₂ : SameLive bs' bs'') :
    SameLive bs bs'' := fun b hb => (h₂ b hb).trans (h₁ b hb)

theorem SameLive.append (hl : SameLive l l') (hr : SameLive r r') :
    SameLive (l ++ r) (l' ++ r') := by
  intro b hb
  rw [mem_append, mem_append, hl b hb, hr b hb]

/-- Where the blocks on the left of a block end and those on its right begin. -/
theorem Wf.around (hw : h.Wf (l ++ b :: r) fl) : Tiling (h.heapPtr + 16) l b.addr ∧
    32 ≤ b.size ∧ 16 ∣ b.size ∧ Tiling (b.addr + b.size) r (h.heapMemoryBrk - 8) := by
  obtain ⟨m, hl, rfl, hsize, hdvd, hr⟩ := Tiling.append_iff.mp hw.tiling
  exact ⟨hl, hsize, hdvd, hr⟩

/-- Two neighbours that are on no list become one block. -/
theorem Wf.merge (hw : h.Wf (l ++ b :: c :: r) fl) (hout : ∀ i < 6, b.addr ∉ fl i ∧ c.addr ∉ fl i)
    (v : Bool) : (h.writeTags [⟨b.addr, b.size + c.size, v⟩]).Wf
      (l ++ ⟨b.addr, b.size + c.size, v⟩ :: r) fl ∧
      Quiet (l ++ r) h (h.writeTags [⟨b.addr, b.size + c.size, v⟩]) := by
  obtain ⟨hl, hsize, hdvd, hbc, hcsize, hcdvd, hr⟩ := hw.around
  have hold : Tiling b.addr [b, c] (b.addr + b.size + c.size) :=
    ⟨rfl, hsize, hdvd, hbc, hcsize, hcdvd, rfl⟩
  have hnew : Tiling b.addr [⟨b.addr, b.size + c.size, v⟩] (b.addr + b.size + c.size) :=
    ⟨rfl, Nat.le_add_right_of_le hsize, Nat.dvd_add hdvd hcdvd, (Nat.add_assoc _ _ _).symm⟩
  rw [append_cons l, append_cons _ c, append_assoc l] at hw
  rw [append_cons]
  refine ⟨hw.writeTags hl hold hnew fun i hi d hd => ?_, writeTags_quiet hl hnew le_rfl hr⟩
  rcases mem_cons.mp hd with rfl | hd
  · exact (hout i hi).1
  · rw [mem_singleton.mp hd]
    exact (hout i hi).2

theorem mem_middle {b d : Block} (h : d ∈ l ++ r) : d ∈ l ++ b :: r :=
  ((sublist_cons_self b r).append_left l).subset h

theorem writeTags_free (a size : ℕ) :
    h.writeTags [⟨a, size, false⟩] = (h.store a size).store (a + size - 8) size := by
  rw [writeTags, writeTags, Block.tag, Bool.toNat_false, Nat.or_zero]

namespace Pending

/-- The waiting block goes on its list when its neighbours are allocated. -/
theorem insertFree (hp : Pending h l b r fl) (hl : ∀ c ∈ l.getLast?, c.live = true)
    (hr : ∀ c ∈ r.head?, c.live = true) :
    ∃ fl', (h.insertFree (b.addr + 8)).Valid (l ++ b :: r) fl' ∧
      Quiet (l ++ b :: r) h (h.insertFree (b.addr + 8)) := by
  have hb : b ∈ l ++ b :: r := mem_append_right _ mem_cons_self
  obtain ⟨fl', hw, huntouched, hmem⟩ := hp.wf.insertFree hb hp.free hp.out
  refine ⟨fl', ⟨hw, ?_, ?_⟩, insertFree_sameBounds _, huntouched⟩
  · intro c hc hfree
    rw [hmem _ (listIndex_lt _)]
    rcases mem_append.mp hc with hc | hc
    · exact .inl (hp.listed c (mem_append_left _ hc) hfree)
    · rcases mem_cons.mp hc with rfl | hc
      · exact .inr ⟨rfl, rfl⟩
      · exact .inl (hp.listed c (mem_append_right _ hc) hfree)
  · refine isChain_append.mpr ⟨hp.left, isChain_cons.mpr ⟨?_, hp.right⟩, ?_⟩
    · exact fun c hc => .inr (hr c hc)
    · exact fun c hc _ _ => .inl (hl c hc)

/-- Taking another free block off its list. -/
theorem removeFree (hp : Pending h l b r fl) (hc : c ∈ l ++ r) (hfree : c.live = false) :
    ∃ fl', (h.removeFree (c.addr + 8) c.size).Wf (l ++ b :: r) fl' ∧
      Quiet (l ++ b :: r) h (h.removeFree (c.addr + 8) c.size) ∧
      (∀ i < 6, b.addr ∉ fl' i ∧ c.addr ∉ fl' i) ∧
      ∀ bs : List Block, (∀ d ∈ bs, d ∈ l ++ r ∧ d.addr ≠ c.addr) → Listed bs fl' := by
  obtain ⟨fl', hw, huntouched, hmem⟩ := hp.wf.removeFree (mem_middle hc) (hp.listed c hc hfree)
  refine ⟨fl', hw, ⟨removeFree_sameBounds _ _, huntouched⟩, fun i hi => ⟨fun hin => ?_, fun hin => ?_⟩, fun bs hbs d hd hlive => ?_⟩
  · exact hp.out i hi ((hmem i hi _).mp hin).1
  · exact ((hmem i hi _).mp hin).2 rfl
  · obtain ⟨hd, hne⟩ := hbs d hd
    exact (hmem _ (listIndex_lt _) _).mpr ⟨hp.listed d hd hlive, hne⟩

/-- The waiting block and a free neighbour, whichever comes first, become one. -/
theorem join {x y : Block} {l₀ r₀ : List Block} (hp : Pending h l b r fl) (hc : c ∈ l ++ r)
    (hfree : c.live = false) (hbs : l ++ b :: r = l₀ ++ x :: y :: r₀)
    (hxy : b = x ∧ c = y ∨ c = x ∧ b = y) (hsub : ∀ d ∈ l₀ ++ r₀, d ∈ l ++ r)
    (hsame : SameLive (l ++ r) (l₀ ++ r₀)) (hl : Merged l₀) (hr : Merged r₀) :
    ∃ fl', Quiet (l ++ r) h ((h.removeFree (c.addr + 8) c.size).writeTags
        [⟨x.addr, x.size + y.size, false⟩]) ∧
      Pending ((h.removeFree (c.addr + 8) c.size).writeTags [⟨x.addr, x.size + y.size, false⟩]) l₀
        ⟨x.addr, x.size + y.size, false⟩ r₀ fl' := by
  obtain ⟨fl', hw, hremove, hout, hlisted⟩ := hp.removeFree hc hfree
  have ht := hp.wf.tiling
  rw [hbs] at hw ht
  have hboth : (∀ i < 6, x.addr ∉ fl' i ∧ y.addr ∉ fl' i) ∧ ∀ d ∈ l₀ ++ r₀, d.addr ≠ c.addr := by
    rcases hxy with ⟨rfl, rfl⟩ | ⟨rfl, rfl⟩
    · rw [append_cons] at ht
      refine ⟨hout, fun d hd => ht.addr_ne ?_⟩
      rw [append_assoc]
      exact mem_middle hd
    · exact ⟨fun i hi => (hout i hi).symm, fun d hd => ht.addr_ne (mem_middle hd)⟩
  obtain ⟨hfin, hmerge⟩ := hw.merge hboth.1 false
  have hquiet := (hremove.of_live fun d hd _ => mem_middle hd).trans
    (hmerge.of_live fun d hd hlive => (hsame d hlive).mpr hd)
  exact ⟨fl', hquiet, hfin, rfl, fun i hi => (hboth.1 i hi).1,
    hlisted _ fun d hd => ⟨hsub d hd, hboth.2 d hd⟩, hl, hr⟩

/-- **`coalesce`, backwards**: afterwards the block on the left is allocated. -/
theorem coalescePrev (hp : Pending h l b r fl) : ∃ h' l' b' fl',
    h.coalescePrev (b.addr + 8) b.size = (h', b'.addr + 8, b'.size) ∧ Quiet (l ++ r) h h' ∧
      Pending h' l' b' r fl' ∧ (∀ c ∈ l'.getLast?, c.live = true) ∧ SameLive l l' := by
  have hw := hp.wf
  obtain ⟨hl, hsize, hdvd, -⟩ := hw.around
  rcases eq_nil_or_concat l with rfl | ⟨l, c, rfl⟩
  · -- the prologue
    have hword : h.word (b.addr + 8 - 16) = 17 := by
      have : b.addr + 8 - 16 = h.heapPtr + 8 := by
        have : h.heapPtr + 16 = b.addr := hl
        omega
      rw [this]
      exact hw.prologue.2
    refine ⟨h, [], b, fl, ?_, .refl, hp, fun c hc => (by cases hc), .refl⟩
    rw [Kheap.coalescePrev, hword]
    rfl
  · rw [concat_eq_append] at hp hw hl ⊢
    obtain ⟨m, hl', rfl, hcsize, hcdvd, hcb⟩ := Tiling.append_iff.mp hl
    have hcb : c.addr + c.size = b.addr := hcb
    have hc : c ∈ (l ++ [c]) ++ b :: r :=
      mem_append_left _ (mem_append_right _ mem_cons_self)
    have hword : h.word (b.addr + 8 - 16) = c.tag := by
      have : b.addr + 8 - 16 = c.addr + c.size - 8 := by omega
      rw [this]
      exact (hw.tags c hc).2
    rw [Kheap.coalescePrev, hword, Block.tag_mod_two hcdvd]
    cases hlive : c.live with
    | true =>
      refine ⟨h, l ++ [c], b, fl, rfl, .refl, hp, ?_, .refl⟩
      intro d hd
      rw [getLast?_append, getLast?_singleton, some_or] at hd
      obtain rfl := some.inj hd
      exact hlive
    | false =>
      obtain ⟨hchain, -, hjoin⟩ := isChain_append.mp hp.left
      have hsame : SameLive (l ++ [c]) l := by
        intro d hd
        rw [mem_append, mem_singleton]
        refine ⟨.inl, fun hin => hin.resolve_right ?_⟩
        rintro rfl
        rw [hlive] at hd
        cases hd
      obtain ⟨fl', hquiet, hpending⟩ := hp.join (mem_append_left _ (mem_append_right _ mem_cons_self))
        hlive (append_cons ..).symm (.inr ⟨rfl, rfl⟩)
        (fun d hd => (append_cons l c r) ▸ mem_middle hd) (hsame.append .refl) hchain hp.right
      refine ⟨_, l, _, fl', ?_, hquiet, hpending, ?_, hsame⟩
      · have h1 : b.addr + 8 - c.size = c.addr + 8 := by omega
        have h2 : b.addr + 8 + b.size - 16 = c.addr + (c.size + b.size) - 8 := by omega
        simp only [Bool.toNat_false, if_true, Block.sizeBits_tag hcdvd, h1, h2,
          Nat.add_sub_cancel, writeTags_free]
      · intro d hd
        rcases hjoin d hd c rfl with hd | hd
        · exact hd
        · rw [hlive] at hd
          cases hd

/-- **`coalesce`, forwards**: afterwards the block on the right is allocated. -/
theorem coalesceNext (hp : Pending h l b r fl) : ∃ r' b' fl', b'.addr = b.addr ∧
    Quiet (l ++ r) h (h.coalesceNext (b.addr + 8) b.size) ∧
      Pending (h.coalesceNext (b.addr + 8) b.size) l b' r' fl' ∧
      (∀ c ∈ r'.head?, c.live = true) ∧ SameLive r r' := by
  have hw := hp.wf
  obtain ⟨hl, hsize, hdvd, hr⟩ := hw.around
  have haddr : b.addr + 8 + b.size - 8 = b.addr + b.size := by omega
  rcases r with _ | ⟨c, r⟩
  · -- the epilogue
    have hword : h.word (b.addr + b.size) = 1 := by
      have hr : b.addr + b.size = h.heapMemoryBrk - 8 := hr
      rw [hr]
      exact hw.epilogue
    have heq : h.coalesceNext (b.addr + 8) b.size = h := by
      rw [Kheap.coalesceNext, haddr, hword]
      rfl
    rw [heq]
    exact ⟨[], b, fl, rfl, .refl, hp, fun c hc => (by cases hc), .refl⟩
  · obtain ⟨hbc, hcsize, hcdvd, hr⟩ := hr
    have hc : c ∈ l ++ b :: c :: r :=
      mem_append_right _ (mem_cons_of_mem _ mem_cons_self)
    have hword : h.word (b.addr + b.size) = c.tag := by
      rw [← hbc]
      exact (hw.tags c hc).1
    rw [Kheap.coalesceNext, haddr, hword, Block.tag_mod_two hcdvd]
    cases hlive : c.live with
    | true =>
      refine ⟨c :: r, b, fl, rfl, .refl, hp, ?_, .refl⟩
      intro d hd
      obtain rfl := some.inj hd
      exact hlive
    | false =>
      obtain ⟨hjoin, hchain⟩ := isChain_cons.mp hp.right
      have hsame : SameLive (c :: r) r := by
        intro d hd
        rw [mem_cons]
        refine ⟨.inr, fun hin => hin.resolve_left ?_⟩
        rintro rfl
        rw [hlive] at hd
        cases hd
      obtain ⟨fl', hquiet, hpending⟩ := hp.join (mem_append_right _ mem_cons_self) hlive rfl
        (.inl ⟨rfl, rfl⟩) (fun d hd => mem_middle hd) (.append .refl hsame) hp.left hchain
      have h1 : b.addr + 8 + b.size = c.addr + 8 := by omega
      have h2 : c.addr + 8 + c.size - 16 = b.addr + (b.size + c.size) - 8 := by omega
      simp only [Bool.toNat_false, if_true, Block.sizeBits_tag hcdvd, h1, h2, Nat.add_sub_cancel]
      rw [← writeTags_free]
      refine ⟨r, _, fl', ?_, hquiet, hpending, ?_, hsame⟩
      · rfl
      intro d hd
      rcases hjoin d hd with hd | hd
      · rw [hlive] at hd
        cases hd
      · exact hd

/-- **`coalesce`** leaves a waiting block between allocated ones. -/
theorem coalesce (hp : Pending h l b r fl) : ∃ l' b' r' fl',
    (h.coalesce (b.addr + 8)).2 = b'.addr + 8 ∧ Quiet (l ++ r) h (h.coalesce (b.addr + 8)).1 ∧
      Pending (h.coalesce (b.addr + 8)).1 l' b' r' fl' ∧ (∀ c ∈ l'.getLast?, c.live = true) ∧
      (∀ c ∈ r'.head?, c.live = true) ∧ SameLive (l ++ r) (l' ++ r') := by
  obtain ⟨h₁, l', b₁, fl₁, heq, hs, hp₁, hlast, hlive⟩ := hp.coalescePrev
  obtain ⟨r', b', fl', haddr, hs', hp', hhead, hlive'⟩ := hp₁.coalesceNext
  have hsize : sizeBits (h.word (b.addr + 8 - 8)) = b.size := by
    have hb : b ∈ l ++ b :: r := mem_append_right _ mem_cons_self
    rw [Nat.add_sub_cancel, (hp.wf.tags b hb).1, Block.sizeBits_tag hp.wf.around.2.2.1]
  have hcoalesce : h.coalesce (b.addr + 8) =
      (h₁.coalesceNext (b₁.addr + 8) b₁.size, b₁.addr + 8) := by
    rw [Kheap.coalesce, hsize, heq]
  rw [hcoalesce]
  have hquiet := hs.trans (hs'.of_live fun c hc hcl => ((hlive.append .refl) c hcl).mpr hc)
  exact ⟨l', b', r', fl', by rw [haddr], hquiet, hp', hlast, hhead, hlive.append hlive'⟩

/-- **`initialize_free`** gives a valid heap with the same allocated blocks. -/
theorem initializeFree (hp : Pending (h.writeTags [b]) l b r fl) : ∃ bs' fl',
    (h.initializeFree b.addr b.size).Valid bs' fl' ∧
      Quiet (l ++ r) h (h.initializeFree b.addr b.size) ∧ SameLive (l ++ r) bs' := by
  obtain ⟨l', b', r', fl₁, hptr, hs, hp', hlast, hhead, hlive⟩ := hp.coalesce
  obtain ⟨fl', hv, hinsert⟩ := hp'.insertFree hlast hhead
  obtain ⟨hl, hsize, hdvd, hr⟩ := hp.wf.around
  have hwrite : Quiet (l ++ r) h (h.writeTags [b]) := writeTags_quiet hl ⟨rfl, hsize, hdvd, rfl⟩ le_rfl hr
  have heq : h.initializeFree b.addr b.size =
      ((h.writeTags [b]).coalesce (b.addr + 8)).1.insertFree (b'.addr + 8) := by
    rw [Kheap.initializeFree, ← hptr, ← writeTags_free, ← hp.free]
  rw [heq]
  refine ⟨_, fl', hv, (hwrite.trans hs).trans (hinsert.of_live fun c hc hcl =>
    mem_middle ((hlive c hcl).mpr hc)), ?_⟩
  refine hlive.trans fun c hc => ?_
  rw [mem_append, mem_append, mem_cons]
  constructor
  · rintro (hin | rfl | hin)
    · exact .inl hin
    · rw [hp'.free] at hc
      cases hc
    · exact .inr hin
  · rintro (hin | hin)
    · exact .inl hin
    · exact .inr (.inr hin)

end Pending

/-! ### Allocated blocks -/

/-- The allocated blocks. -/
def liveOf (bs : List Block) : Set Block := {b | b ∈ bs ∧ b.live = true}

theorem SameLive.liveOf_eq (hs : SameLive bs bs') : liveOf bs' = liveOf bs := by
  ext c
  exact and_congr_left fun hc => hs c hc

theorem liveOf_middle : liveOf (l ++ b :: r) = liveOf [b] ∪ liveOf (l ++ r) := by
  ext c
  simp only [liveOf, Set.mem_ofPred_eq, mem_append, mem_cons, not_mem_nil, or_false, Set.mem_union]
  tauto

theorem liveOf_of_live (hb : b.live = true) : liveOf [b] = {b} := by
  ext c
  simp only [liveOf, Set.mem_ofPred_eq, mem_singleton, Set.mem_singleton_iff]
  refine ⟨And.left, ?_⟩
  rintro rfl
  exact ⟨rfl, hb⟩

theorem liveOf_of_free (hb : b.live = false) : liveOf [b] = ∅ := by
  ext c
  simp only [liveOf, Set.mem_ofPred_eq, mem_singleton, Set.mem_empty_iff_false, iff_false]
  rintro ⟨rfl, hlive⟩
  rw [hb] at hlive
  cases hlive

/-- The blocks besides an allocated one. -/
theorem Wf.liveOf_erase (hw : h.Wf (l ++ b :: r) fl) (hb : b.live = true) :
    liveOf (l ++ r) = liveOf (l ++ b :: r) \ {b} := by
  rw [liveOf_middle, liveOf_of_live hb, Set.union_sdiff_left, eq_comm]
  refine Set.sdiff_singleton_eq_self ?_
  rintro ⟨hin, -⟩
  exact hw.tiling.addr_ne hin rfl

/-- An allocated block is on no list. -/
theorem Wf.out_of_live (hw : h.Wf bs fl) (hb : b ∈ bs) (hlive : b.live = true) :
    ∀ i < 6, b.addr ∉ fl i := by
  intro i hi hin
  obtain ⟨c, hc, heq, hfree, -⟩ := hw.nodes i hi _ hin
  rw [hw.tiling.eq_of_addr hc hb heq, hlive] at hfree
  cases hfree

theorem Merged.left (hm : Merged (l ++ b :: r)) : Merged l := (isChain_append.mp hm).1

theorem Merged.right (hm : Merged (l ++ b :: r)) : Merged r :=
  (isChain_cons.mp (isChain_append.mp hm).2.1).2

theorem Merged.of_live (hl : Merged l) (hr : Merged r) (hb : b.live = true) :
    Merged (l ++ b :: r) := by
  refine isChain_append.mpr ⟨hl, isChain_cons.mpr ⟨?_, hr⟩, ?_⟩
  · exact fun _ _ => .inl hb
  · intro c _ d hd
    obtain rfl := some.inj hd
    exact .inr hb

theorem Listed.middle (hlist : Listed (l ++ b :: r) fl) : Listed (l ++ r) fl :=
  fun c hc => hlist c (mem_middle hc)

theorem Listed.of_live (hlist : Listed (l ++ r) fl) (hb : b.live = true) :
    Listed (l ++ b :: r) fl := by
  intro c hc hfree
  rcases mem_append.mp hc with hc | hc
  · exact hlist c (mem_append_left _ hc) hfree
  · rcases mem_cons.mp hc with rfl | hc
    · rw [hb] at hfree
      cases hfree
    · exact hlist c (mem_append_right _ hc) hfree

/-! ### Allocating in place -/

section Place

variable {a n total : ℕ} (hw : h.Wf (l ++ olds ++ r) fl) (hl : Tiling (h.heapPtr + 16) l a)
  (hold : Tiling a olds (a + total)) (hout : ∀ i < 6, ∀ c ∈ olds, c.addr ∉ fl i)
  (hlisted : Listed (l ++ r) fl) (hleft : Merged l) (hright : Merged r) (htotal : 16 ∣ total)
include hw hl hold hout hlisted hleft hright htotal

/-- Blocks that are on no list become one allocated block. -/
theorem Wf.fill (hsize : 32 ≤ total) :
    (h.writeTags [⟨a, total, true⟩]).Valid (l ++ ⟨a, total, true⟩ :: r) fl := by
  have hnew : Tiling a [⟨a, total, true⟩] (a + total) := ⟨rfl, hsize, htotal, rfl⟩
  have hw' := hw.writeTags hl hold hnew hout
  rw [← append_cons] at hw'
  exact ⟨hw', hlisted.of_live rfl, hleft.of_live hright rfl⟩

/-- Blocks that are on no list become an allocated block and a free one behind it. -/
theorem Wf.carve (hn : 32 ≤ n) (hdvd : 16 ∣ n) (hrest : n + 32 ≤ total) : ∃ bs' fl',
    ((h.writeTags [⟨a, n, true⟩]).initializeFree (a + n) (total - n)).Valid bs' fl' ∧
      Quiet (l ++ ⟨a, n, true⟩ :: r) (h.writeTags [⟨a, n, true⟩])
        ((h.writeTags [⟨a, n, true⟩]).initializeFree (a + n) (total - n)) ∧
      liveOf bs' = insert ⟨a, n, true⟩ (liveOf (l ++ r)) := by
  have hnew : Tiling a [⟨a, n, true⟩, ⟨a + n, total - n, false⟩] (a + total) := by
    refine ⟨rfl, hn, hdvd, rfl, Nat.le_sub_of_add_le' hrest, Nat.dvd_sub htotal hdvd, ?_⟩
    change a + n + (total - n) = _
    omega
  have hw' := hw.writeTags hl hold hnew hout
  have hp : Pending ((h.writeTags [⟨a, n, true⟩]).writeTags [⟨a + n, total - n, false⟩])
      (l ++ [⟨a, n, true⟩]) ⟨a + n, total - n, false⟩ r fl := by
    refine ⟨?_, rfl, ?_, ?_, hleft.of_live .nil rfl, hright⟩
    · rw [← append_cons]
      rw [append_assoc] at hw'
      exact hw'
    · -- a block on a list lies on one side of the place
      intro i hi hin
      obtain ⟨c, hc, heq, -⟩ := hw.nodes i hi _ hin
      obtain ⟨m, hlo, hr⟩ := Tiling.append_iff.mp hw.tiling
      obtain rfl := hlo.stop_unique (Tiling.append_iff.mpr ⟨a, hl, hold⟩)
      dsimp only at heq
      rcases mem_append.mp hc with hc | hc
      · rcases mem_append.mp hc with hc | hc
        · have := hl.bounds hc
          omega
        · exact hout i hi c hc (heq ▸ hin)
      · have := hr.bounds hc
        omega
    · rw [← append_cons]
      exact hlisted.of_live rfl
  obtain ⟨bs', fl', hv', hquiet, hsame⟩ := hp.initializeFree
  rw [← append_cons] at hquiet hsame
  refine ⟨bs', fl', hv', hquiet, ?_⟩
  rw [hsame.liveOf_eq, liveOf_middle, liveOf_of_live rfl]
  rfl

end Place

/-! ### `kfree` -/

/-- **`kfree`** of an allocated block: the others stay allocated. -/
theorem Valid.kfree (hv : h.Valid bs fl) (hb : b ∈ bs) (hlive : b.live = true) : ∃ bs' fl',
    (h.kfree (b.addr + 8)).Valid bs' fl' ∧ Quiet bs' h (h.kfree (b.addr + 8)) ∧
      liveOf bs' = liveOf bs \ {b} := by
  have hout := hv.wf.out_of_live hb hlive
  have hword := (hv.wf.tags b hb).1
  obtain ⟨l, r, rfl⟩ := append_of_mem hb
  obtain ⟨hl, hsize, hdvd, -⟩ := hv.wf.around
  have hw := hv.wf
  rw [append_cons] at hw
  have hnew : Tiling b.addr [⟨b.addr, b.size, false⟩] (b.addr + b.size) := ⟨rfl, hsize, hdvd, rfl⟩
  have hw' := hw.writeTags hl ⟨rfl, hsize, hdvd, rfl⟩ hnew (by
    intro i hi c hc
    rw [mem_singleton.mp hc]
    exact hout i hi)
  rw [← append_cons] at hw'
  have hp : Pending (h.writeTags [⟨b.addr, b.size, false⟩]) l ⟨b.addr, b.size, false⟩ r fl :=
    ⟨hw', rfl, hout, hv.listed.middle, hv.merged.left, hv.merged.right⟩
  have heq : h.kfree (b.addr + 8) = h.initializeFree b.addr b.size := by
    rw [Kheap.kfree, if_neg (Nat.succ_ne_zero _), Nat.add_sub_cancel, hword,
      Block.sizeBits_tag hdvd]
  obtain ⟨bs', fl', hv', hs, hsame⟩ := hp.initializeFree
  rw [heq]
  exact ⟨bs', fl', hv', hs.of_live fun c hc hcl => (hsame c hcl).mp hc,
    hsame.liveOf_eq.trans (hv.wf.liveOf_erase hlive)⟩

/-! ### `extend_heap` -/

theorem dvd_align (x : ℕ) : 16 ∣ align x := by
  unfold align
  omega

theorem align_eq {x : ℕ} (hx : x + 15 < 2 ^ 64) : align x = 16 * ((x + 15) / 16) := by
  unfold align
  omega

/-- `kmem_sbrk` fails, or moves the break within the memory of the heap. -/
theorem kmemSbrk_cases (incr : ℕ) (hwrap : h.heapMemoryBrk + incr < 2 ^ 64) :
    h.kmemSbrk incr = none ∨ h.heapMemoryBrk + incr ≤ h.heapMemoryEnd ∧ h.kmemSbrk incr =
      some (h.heapMemoryBrk, { h with heapMemoryBrk := h.heapMemoryBrk + incr }) := by
  unfold kmemSbrk
  dsimp only
  rw [Nat.mod_eq_of_lt hwrap]
  split_ifs with hbad hend
  · exact .inl rfl
  · exact .inl rfl
  · exact .inr ⟨Nat.le_of_not_lt hend, rfl⟩

/-- **`extend_heap`** fails, or gives a valid heap with the same allocated blocks. -/
theorem Valid.extendHeap (hv : h.Valid bs fl) (size : ℕ) (hsize : 32 ≤ align size)
    (hwrap : h.heapMemoryBrk + align size < 2 ^ 64) : h.extendHeap size = none ∨
      ∃ h' bs' fl', h.extendHeap size = some h' ∧ h'.Valid bs' fl' ∧ SameLive bs bs' ∧
        SameBounds { h with heapMemoryBrk := h.heapMemoryBrk + align size } h' ∧
        Untouched bs h h' := by
  have hb := hv.wf.bounds
  have hbrk := hb.le_brk
  rw [Kheap.extendHeap]
  rcases kmemSbrk_cases _ hwrap with hsbrk | ⟨hend, hsbrk⟩
  · simp only [hsbrk]
    exact .inl trivial
  · simp only [hsbrk]
    right
    set h₂ := ({ h with heapMemoryBrk := h.heapMemoryBrk + align size } : Kheap).store
      (h.heapMemoryBrk - 8 + align size) 1 with hh₂
    set b : Block := ⟨h.heapMemoryBrk - 8, align size, false⟩
    have hnew : Tiling (h.heapMemoryBrk - 8) [b] (h.heapMemoryBrk - 8 + align size) :=
      ⟨rfl, hsize, dvd_align size, rfl⟩
    have hlow : ∀ x, x < h.heapMemoryBrk - 8 → (h₂.writeTags [b]).word x = h.word x := by
      intro x hx
      rw [word_writeTags hnew (.inl hx), hh₂, word_store, if_neg (by omega)]
      rfl
    have hs := writeTags_sameBounds (h := h₂) [b]
    have hblock : ∀ c ∈ bs, c.addr + c.size ≤ h.heapMemoryBrk - 8 ∧ 32 ≤ c.size := by
      intro c hc
      have := hv.wf.tiling.bounds hc
      exact ⟨this.2.1, this.2.2.1⟩
    have hnode : ∀ i < 6, ∀ a ∈ fl i, a + 32 ≤ h.heapMemoryBrk - 8 := by
      intro i hi a ha
      obtain ⟨c, hc, rfl, -⟩ := hv.wf.nodes i hi a ha
      have := hblock c hc
      omega
    have hout : ∀ i < 6, b.addr ∉ fl i := by
      intro i hi hin
      have := hnode i hi _ hin
      have : b.addr = h.heapMemoryBrk - 8 := rfl
      omega
    have hw : (h₂.writeTags [b]).Wf (bs ++ b :: []) fl := by
      refine ⟨hs.bounds ⟨hb.pos, hb.aligned, hb.segListsPtr, hb.heapPtr, ?_, ?_, hb.end_lt⟩, ?_, ?_,
        ?_, ?_, ?_, ?_, hv.wf.nodup, ?_⟩
      · change h.heapPtr + 24 ≤ h.heapMemoryBrk + align size
        omega
      · exact hend
      · rw [hs.heapPtr, hs.heapMemoryBrk]
        refine Tiling.append_iff.mpr ⟨h.heapMemoryBrk - 8, hv.wf.tiling, rfl, hsize,
          dvd_align size, ?_⟩
        change h.heapMemoryBrk - 8 + align size = h.heapMemoryBrk + align size - 8
        omega
      · intro c hc
        rcases mem_append.mp hc with hc | hc
        · have := hblock c hc
          rw [hlow _ (by omega), hlow _ (by omega)]
          exact hv.wf.tags c hc
        · exact tags_writeTags hnew c hc
      · rw [hs.heapPtr]
        change (h₂.writeTags [b]).word h.heapPtr = 17 ∧
          (h₂.writeTags [b]).word (h.heapPtr + 8) = 17
        rw [hlow _ (by omega), hlow _ (by omega)]
        exact hv.wf.prologue
      · rw [hs.heapMemoryBrk]
        have : h₂.heapMemoryBrk - 8 = h.heapMemoryBrk - 8 + align size := by
          change h.heapMemoryBrk + align size - 8 = _
          omega
        rw [this, word_writeTags hnew (.inr (Nat.le_refl _)), hh₂, word_store, if_pos rfl]
      · intro i hi
        have := hv.wf.listAt_lt hi
        change (h₂.writeTags [b]).word (h.listAt i) = _
        rw [hlow _ (by omega)]
        exact hv.wf.heads i hi
      · intro i hi
        refine (hv.wf.linked i hi).congr (fun a ha => ?_) fun a ha => ?_
        · have := hnode i hi a ha
          exact hlow _ (by omega)
        · have := hnode i hi a ha
          exact hlow _ (by omega)
      · intro i hi a ha
        obtain ⟨c, hc, hrest⟩ := hv.wf.nodes i hi a ha
        exact ⟨c, mem_append_left _ hc, hrest⟩
    have hp : Pending (h₂.writeTags [b]) bs b [] fl := by
      refine ⟨hw, rfl, hout, ?_, hv.merged, .nil⟩
      rw [append_nil]
      exact hv.listed
    obtain ⟨bs', fl', hv', hquiet, hsame⟩ := hp.initializeFree
    rw [append_nil] at hsame hquiet
    refine ⟨_, bs', fl', rfl, hv', hsame, (sameBounds_store _ _).trans hquiet.toSameBounds, ?_⟩
    intro c hc hlive x hlo hhi
    have := hblock c hc
    rw [hquiet.untouched c hc hlive x hlo hhi, hh₂, word_store, if_neg (by omega)]
    rfl

/-! ### `get_allocation` -/

/-- A block that was not allocated before is now, and nothing else has changed for the
allocated blocks. -/
structure Allocated (bs : List Block) (b : Block) (bs' : List Block) : Prop where
  live : b.live = true
  fresh : ∀ c ∈ liveOf bs, c.addr ≠ b.addr
  liveOf_eq : liveOf bs' = insert b (liveOf bs)

theorem liveOf_insert (hb : b.live = false) (hc : c.live = true) :
    liveOf (l ++ c :: r) = insert c (liveOf (l ++ b :: r)) := by
  rw [liveOf_middle, liveOf_middle, liveOf_of_live hc, liveOf_of_free hb, Set.empty_union]
  rfl

/-- **`get_allocation`** ends. It finds nothing and does nothing, or it allocates a block. -/
theorem Valid.getAllocation {size : ℕ} (hv : h.Valid bs fl) (hpos : 0 < size)
    (hsize : size + 31 < 2 ^ 64) : h.getAllocation size = some (0, h) ∨
      ∃ h' b bs' fl', h.getAllocation size = some (b.addr + 8, h') ∧ h'.Valid bs' fl' ∧
        Allocated bs b bs' ∧ align (size + 16) ≤ b.size ∧ Quiet bs h h' := by
  have halign : 32 ≤ align (size + 16) := by
    rw [align_eq (by omega)]
    omega
  obtain ⟨o, ho, hfound⟩ := hv.wf.getFreeList hsize
  rw [Kheap.getAllocation, ho]
  rcases o with _ | ptr
  · exact .inl rfl
  right
  obtain ⟨b, hb, rfl, hfree, hin, hneed⟩ := hfound ptr rfl
  have hfresh : ∀ c ∈ liveOf bs, c.addr ≠ b.addr := by
    rintro c ⟨hc, hlive⟩ heq
    rw [hv.wf.tiling.eq_of_addr hc hb heq, hfree] at hlive
    cases hlive
  obtain ⟨fl₁, hw, huntouched, hmem⟩ := hv.wf.removeFree hb hin
  have hremove : Quiet bs h (h.removeFree (b.addr + 8) b.size) :=
    ⟨removeFree_sameBounds _ _, huntouched⟩
  have hword := (hv.wf.tags b hb).1
  obtain ⟨l, r, rfl⟩ := append_of_mem hb
  have hout : ∀ i < 6, ∀ c ∈ [b], c.addr ∉ fl₁ i := by
    intro i hi c hc hin
    rw [mem_singleton.mp hc] at hin
    exact ((hmem i hi _).mp hin).2 rfl
  have hlisted : Listed (l ++ r) fl₁ := by
    intro c hc hcfree
    rw [hmem _ (listIndex_lt _)]
    exact ⟨hv.listed.middle c hc hcfree, hv.wf.tiling.addr_ne hc⟩
  obtain ⟨hl, hbsize, hdvd, hr⟩ := hw.around
  have hlive_mem : ∀ c ∈ l ++ b :: r, c.live = true → c ∈ l ++ r := by
    intro c hc hclive
    rcases mem_append.mp hc with hc | hc
    · exact mem_append_left _ hc
    · rcases mem_cons.mp hc with rfl | hc
      · rw [hfree] at hclive
        cases hclive
      · exact mem_append_right _ hc
  have hbound := hv.wf.tiling.bounds hb
  have hend := hv.wf.bounds.end_lt
  have hbrk := hv.wf.bounds.brk_le
  have hold : Tiling b.addr [b] (b.addr + b.size) := ⟨rfl, hbsize, hdvd, rfl⟩
  have hrest : (b.size + 2 ^ 64 - align (size + 16)) % 2 ^ 64 = b.size - align (size + 16) := by
    omega
  have hlive : liveOf (l ++ r) = liveOf (l ++ b :: r) := by
    rw [liveOf_middle, liveOf_of_free hfree, Set.empty_union]
  simp only [Nat.add_sub_cancel, hword, Block.sizeBits_tag hdvd, hrest]
  rw [append_cons] at hw
  split_ifs with hsplit
  · -- the rest becomes a free block
    obtain ⟨bs', fl', hv', hinit, hlive'⟩ := hw.carve hl hold hout hlisted hv.merged.left
      hv.merged.right hdvd halign (dvd_align _) (by omega)
    have htile : Tiling b.addr [⟨b.addr, align (size + 16), true⟩] (b.addr + align (size + 16)) :=
      ⟨rfl, halign, dvd_align _, rfl⟩
    refine ⟨_, ⟨b.addr, align (size + 16), true⟩, bs', fl', rfl, hv', ⟨rfl, hfresh, hlive ▸ hlive'⟩,
      Nat.le_refl _, (hremove.trans ((writeTags_quiet hl htile (by omega) hr).of_live hlive_mem)).trans
        (hinit.of_live fun c hc hcl => mem_middle (hlive_mem c hc hcl))⟩
  · have hnew : Tiling b.addr [⟨b.addr, b.size, true⟩] (b.addr + b.size) :=
      ⟨rfl, hbsize, hdvd, rfl⟩
    exact ⟨_, ⟨b.addr, b.size, true⟩, _, fl₁, rfl, hw.fill hl hold hout hlisted hv.merged.left
      hv.merged.right hdvd hbsize, ⟨rfl, hfresh, liveOf_insert hfree rfl⟩, hneed,
      hremove.trans ((writeTags_quiet hl hnew le_rfl hr).of_live hlive_mem)⟩

end Kheap

end OsPi
