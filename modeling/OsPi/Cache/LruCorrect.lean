import Mathlib.Data.List.Nodup
import Mathlib.Data.List.Perm.Subperm
import OsPi.Cache.Lru

/-!
# The Block Cache is Transparent

`Lru.Wf n s l pend` is the invariant of the cache: the linked list of `s` represents the
nodes `l`, the recorded size is their number, at most `n`, their block numbers are
distinct, and every node is clean and holds what the device holds. Between calls `pend` is
empty and `n` is `maxSize`; inside a call `pend` names a node that is taken out of the
list or not yet linked into it, and the list may be one node too long.

Every function of the cache has one lemma saying what it does to the represented list.
`Lru.Reads` and `Lru.Writes` collect them for the two entry points: a successful access of
block `num` moves it to the front, a failed write drops it.
-/

namespace OsPi

open Function Comp List

variable {β : Type} {p : ℕ}

/-- The block numbers of the nodes of a list, front to back. -/
def blocks (l : List (ℕ × BlockNode β)) : List ℕ :=
  l.map fun x => x.2.block

@[simp] theorem blocks_append (l₁ l₂ : List (ℕ × BlockNode β)) :
    blocks (l₁ ++ l₂) = blocks l₁ ++ blocks l₂ := map_append

@[simp] theorem blocks_cons (x : ℕ × BlockNode β) (l : List (ℕ × BlockNode β)) :
    blocks (x :: l) = x.2.block :: blocks l := rfl

theorem blocks_take (n : ℕ) (l : List (ℕ × BlockNode β)) :
    blocks (l.take n) = (blocks l).take n := map_take

/-- A node agrees with the device it caches. -/
structure BlockNode.Clean (e : BlockNode β) (dev : BlockDev β) : Prop where
  dirty : e.dirty = false
  data : e.data = dev.block e.block
  lt : e.block < dev.count

/-- The invariant of the cache: see the head of this file. -/
structure Lru.Wf (n : ℕ) (s : Lru β) (l : List (ℕ × BlockNode β)) (pend : List ℕ) :
    Prop where
  repr : s.list.Repr l
  lt_brk : ∀ p, p ∈ l.map Prod.fst ∨ p ∈ pend → p < s.brk
  pend_notMem : ∀ p ∈ pend, p ∉ l.map Prod.fst
  heap_none : ∀ q, q ∉ l.map Prod.fst → q ∉ pend → s.list.heap q = none
  size_eq : s.size = l.length
  length_le : l.length ≤ n
  nodup : (blocks l).Nodup
  clean : ∀ x ∈ l, x.2.Clean s.dev

namespace Lru.Wf

variable {n : ℕ} {s : Lru β} {l : List (ℕ × BlockNode β)} {pend : List ℕ}

theorem init (dev : BlockDev β) : Wf maxSize (Lru.init dev) [] [] where
  repr := ⟨nodup_nil, trivial, rfl, rfl⟩
  lt_brk := by simp
  pend_notMem := by simp
  heap_none := by simp [Lru.init]
  size_eq := rfl
  length_le := by simp
  nodup := nodup_nil
  clean := by simp

theorem mono {m : ℕ} (h : Wf n s l pend) (hm : l.length ≤ m) : Wf m s l pend :=
  { h with length_le := hm }

/-- The nodes of a cache do not outnumber the addresses handed out. -/
theorem length_le_brk (h : Wf n s l pend) : l.length ≤ s.brk := by
  have hsub : l.map Prod.fst ⊆ List.range s.brk :=
    fun p hp => mem_range.mpr (h.lt_brk p (.inl hp))
  have hle := (subperm_of_subset h.repr.nodup hsub).length_le
  simpa using hle

/-- Device operations that leave the cached blocks alone keep the invariant. -/
theorem setDev (h : Wf n s l pend) (dev : BlockDev β) (hc : dev.count = s.dev.count)
    (hb : ∀ b ∈ blocks l, dev.block b = s.dev.block b) :
    Wf n { s with dev := dev } l pend :=
  { h with
    clean := fun x hx => by
      have hcl := h.clean x hx
      exact ⟨hcl.dirty, by rw [hcl.data, hb _ (List.mem_map_of_mem hx)], by rw [hc]; exact hcl.lt⟩ }

/-! ### One lemma per list operation -/

theorem removeNode {l₁ l₂ : List (ℕ × BlockNode β)} {e : BlockNode β}
    (h : Wf n s (l₁ ++ (p, e) :: l₂) []) :
    ∃ s', (lruCacheRemoveNode p).eval s = (.ok (), s') ∧ s'.dev = s.dev ∧
      s'.brk = s.brk ∧ s'.list.heap p = some ⟨e, none, none⟩ ∧ Wf n s' (l₁ ++ l₂) [p] := by
  obtain ⟨hrepr, hp, hheap⟩ := h.repr.unlink
  have hsub : ∀ q, q ∈ (l₁ ++ l₂).map Prod.fst → q ∈ (l₁ ++ (p, e) :: l₂).map Prod.fst := by
    intro q hq
    simp only [map_append, map_cons, mem_append, mem_cons] at hq ⊢
    tauto
  have hpmem : p ∈ (l₁ ++ (p, e) :: l₂).map Prod.fst := by simp
  refine ⟨_, rfl, rfl, rfl, hp, ?_⟩
  constructor
  case repr => exact hrepr
  case lt_brk =>
    rintro q (hq | hq)
    · exact h.lt_brk q (.inl (hsub q hq))
    · obtain rfl := mem_singleton.mp hq
      exact h.lt_brk q (.inl hpmem)
  case pend_notMem =>
    intro q hq
    obtain rfl := mem_singleton.mp hq
    have hnd := h.repr.nodup
    simp only [map_append, map_cons] at hnd ⊢
    exact (nodup_middle.mp hnd).notMem
  case heap_none =>
    intro q hq hqp
    have hq' : q ∉ (l₁ ++ (p, e) :: l₂).map Prod.fst := by
      simp only [map_append, map_cons, mem_append, mem_cons] at hq hqp ⊢
      tauto
    rw [hheap q hq']
    exact h.heap_none q hq' (by simp)
  case size_eq =>
    have hs := h.size_eq
    simp only [length_append, length_cons] at hs ⊢
    omega
  case length_le =>
    have hs := h.length_le
    simp only [length_append, length_cons] at hs ⊢
    omega
  case nodup =>
    have hnd := h.nodup
    simp only [blocks_append, blocks_cons] at hnd ⊢
    exact (nodup_middle.mp hnd).of_cons
  case clean =>
    intro x hx
    refine h.clean x ?_
    simp only [mem_append, mem_cons] at hx ⊢
    tauto

theorem kmalloc (h : Wf n s l []) :
    kmallocNode.eval s = (.ok s.brk, { s with brk := s.brk + 1 }) ∧
      Wf n { s with brk := s.brk + 1 } l [s.brk] := by
  refine ⟨rfl, { h with lt_brk := ?_, pend_notMem := ?_, heap_none := ?_ }⟩
  · rintro q (hq | hq)
    · have := h.lt_brk q (.inl hq)
      dsimp only
      omega
    · obtain rfl := mem_singleton.mp hq
      exact Nat.lt_succ_self _
  · intro q hq hmem
    obtain rfl := mem_singleton.mp hq
    exact absurd (h.lt_brk _ (.inl hmem)) (Nat.lt_irrefl _)
  · intro q hq _
    exact h.heap_none q hq (by simp)

/-- Filling the pending node does not touch the list. -/
theorem fill (h : Wf n s l [p]) (c : Cell (BlockNode β)) :
    Wf n { s with list := s.list.alloc p c } l [p] := by
  have hp := h.pend_notMem p (by simp)
  have hne : ∀ q ∈ l.map Prod.fst, q ≠ p := fun q hq e => hp (e ▸ hq)
  refine { h with repr := ?_, heap_none := ?_ }
  · refine { h.repr with linked := h.repr.linked.congr fun q hq => ?_ }
    exact update_of_ne (hne q hq) _ _
  · intro q hq hqp
    have hqp' : q ≠ p := by simpa using hqp
    exact (update_of_ne hqp' _ _).trans (h.heap_none q hq hqp)

/-- Releasing the pending node leaves nothing pending. -/
theorem free (h : Wf n s l [p]) :
    Wf n { s with list := s.list.free p } l [] := by
  have hp := h.pend_notMem p (by simp)
  have hne : ∀ q ∈ l.map Prod.fst, q ≠ p := fun q hq e => hp (e ▸ hq)
  refine { h with repr := ?_, lt_brk := ?_, pend_notMem := by simp, heap_none := ?_ }
  · refine { h.repr with linked := h.repr.linked.congr fun q hq => ?_ }
    exact update_of_ne (hne q hq) _ _
  · rintro q (hq | hq)
    · exact h.lt_brk q (.inl hq)
    · simp at hq
  · intro q hq _
    by_cases hqp : q = p
    · subst hqp
      exact update_self _ _ _
    · exact (update_of_ne hqp _ _).trans (h.heap_none q hq (by simpa using hqp))

/-- Dropping a pending address that was never filled. -/
theorem forget (h : Wf n s l [p]) (hp : s.list.heap p = none) : Wf n s l [] := by
  refine { h with lt_brk := ?_, pend_notMem := by simp, heap_none := ?_ }
  · rintro q (hq | hq)
    · exact h.lt_brk q (.inl hq)
    · simp at hq
  · intro q hq _
    by_cases hqp : q = p
    · rw [hqp, hp]
    · exact h.heap_none q hq (by simpa using hqp)

theorem linkFront {c : Cell (BlockNode β)} (h : Wf n s l [p])
    (hc : s.list.heap p = some c) (hcl : c.val.Clean s.dev) (hb : c.val.block ∉ blocks l) :
    ∃ s', (OsPi.linkFront p).eval s = (.ok (), s') ∧ s'.dev = s.dev ∧ s'.brk = s.brk ∧
      Wf (n + 1) s' ((p, c.val) :: l) [] := by
  obtain ⟨hrepr, hheap⟩ := h.repr.pushFront hc (h.pend_notMem p (by simp))
  refine ⟨_, rfl, rfl, rfl, ?_⟩
  constructor
  case repr => exact hrepr
  case lt_brk =>
    rintro q (hq | hq)
    · rcases mem_cons.mp hq with rfl | hq
      · exact h.lt_brk _ (.inr (by simp))
      · exact h.lt_brk q (.inl hq)
    · simp at hq
  case pend_notMem => simp
  case heap_none =>
    intro q hq _
    rw [hheap q hq]
    simp only [map_cons, mem_cons, not_or] at hq
    exact h.heap_none q hq.2 (by simpa using hq.1)
  case size_eq =>
    have hs := h.size_eq
    simp only [length_cons]
    omega
  case length_le =>
    have hs := h.length_le
    simp only [length_cons]
    omega
  case nodup => exact nodup_cons.mpr ⟨hb, h.nodup⟩
  case clean =>
    intro x hx
    rcases mem_cons.mp hx with rfl | hx
    · exact hcl
    · exact h.clean x hx

end Lru.Wf

/-! ### Searching and evicting -/

/-- The search loop finds the node of a block, or reports that there is none. -/
theorem getBlockLoop_eq {heap : ℕ → Option (Cell (BlockNode β))} (num : ℕ)
    {prev : Option ℕ} {l : List (ℕ × BlockNode β)} (h : DList.Linked heap prev l none) :
    (num ∉ blocks l ∧ getBlockLoop heap num l.length (DList.first l none) = .ok none) ∨
      ∃ l₁ p e l₂, l = l₁ ++ (p, e) :: l₂ ∧ e.block = num ∧
        getBlockLoop heap num l.length (DList.first l none) = .ok (some p) := by
  induction l generalizing prev with
  | nil => exact .inl ⟨by simp [blocks], rfl⟩
  | cons x l ih =>
    obtain ⟨hx, hl⟩ := h
    by_cases hb : x.2.block = num
    · refine .inr ⟨[], x.1, x.2, l, rfl, hb, ?_⟩
      simp [getBlockLoop, DList.first, hx, hb]
    · have hloop : getBlockLoop heap num (x :: l).length (DList.first (x :: l) none) =
          getBlockLoop heap num l.length (DList.first l none) := by
        simp [getBlockLoop, DList.first, hx, hb]
      rcases ih hl with ⟨hnot, hnone⟩ | ⟨l₁, p, e, l₂, rfl, he, hsome⟩
      · exact .inl ⟨by simp [Ne.symm hb, hnot], hloop.trans hnone⟩
      · exact .inr ⟨x :: l₁, p, e, l₂, rfl, he, hloop.trans hsome⟩

namespace Lru.Wf

variable {n : ℕ} {s : Lru β} {l : List (ℕ × BlockNode β)}

theorem getBlock (h : Wf n s l []) (num : ℕ) :
    (num ∉ blocks l ∧ (lruCacheGetBlock num).eval s = (.ok none, s)) ∨
      ∃ l₁ p e l₂, l = l₁ ++ (p, e) :: l₂ ∧ e.block = num ∧
        (lruCacheGetBlock num).eval s = (.ok (some p), s) := by
  have hsize : s.size.toNat = l.length := by rw [h.size_eq]; rfl
  have heval : ∀ r, getBlockLoop s.list.heap num l.length (DList.first l none) = .ok r →
      (lruCacheGetBlock num).eval s = (.ok r, s) := by
    intro r hr
    simp only [lruCacheGetBlock, eval_bind, eval_get, hsize, h.repr.head_eq, hr, eval_pure]
  rcases getBlockLoop_eq num h.repr.linked with ⟨hnot, hr⟩ | ⟨l₁, p, e, l₂, hl, he, hr⟩
  · exact .inl ⟨hnot, heval _ hr⟩
  · exact .inr ⟨l₁, p, e, l₂, hl, he, heval _ hr⟩

/-- Evicting a clean node writes nothing. -/
theorem removeBack {x : ℕ × BlockNode β} (h : Wf n s (l ++ [x]) []) :
    ∃ s', lruCacheRemoveBack.eval s = (.ok (), s') ∧ s'.dev = s.dev ∧ s'.brk = s.brk ∧
      Wf n s' l [] := by
  obtain ⟨p, e⟩ := x
  have hcell : s.list.heap p = some ⟨e, none, DList.last none l⟩ := h.repr.heap_eq
  have htail : s.list.tail = some p := by rw [h.repr.tail_eq, DList.last_append]; rfl
  have hdirty : e.dirty = false := (h.clean (p, e) (by simp)).dirty
  obtain ⟨s₁, hrun, hdev, hbrk, -, hwf⟩ := h.removeNode
  rw [append_nil] at hwf
  refine ⟨{ s₁ with list := s₁.list.free p }, ?_, hdev, hbrk, hwf.free⟩
  simp [lruCacheRemoveBack, eval_bind, htail, hcell, hrun, hdirty]

theorem evict (h : Wf (maxSize + 1) s l []) :
    ∃ s', evictIfFull.eval s = (.ok (), s') ∧ s'.dev = s.dev ∧
      Wf maxSize s' (l.take maxSize) [] := by
  by_cases hfull : l.length ≤ maxSize
  · refine ⟨s, ?_, rfl, ?_⟩
    · have hsize : ¬ s.size > (maxSize : ℤ) := by rw [h.size_eq]; omega
      simp [evictIfFull, eval_bind, hsize]
    · rw [take_of_length_le hfull]
      exact h.mono hfull
  · have hlen : l.length = maxSize + 1 := Nat.le_antisymm h.length_le (by omega)
    have hsplit : l.take maxSize ++ [l.getLast (by rintro rfl; simp at hlen)] = l := by
      have htake : l.take maxSize = l.dropLast := by
        rw [dropLast_eq_take, hlen, Nat.add_sub_cancel]
      rw [htake, dropLast_append_getLast]
    rw [← hsplit] at h
    obtain ⟨s', hrun, hdev, -, hwf⟩ := h.removeBack
    refine ⟨s', ?_, hdev, hwf.mono (length_take_le _ _)⟩
    have hsize : s.size > (maxSize : ℤ) := by rw [h.size_eq, hsplit]; omega
    simp [evictIfFull, eval_bind, hsize, hrun]

end Lru.Wf

/-! ### Device access -/

/-- A device read returns the block or fails; the sectors stay. -/
theorem readBlockData_eq (s : Lru β) (num : ℕ) :
    ∃ ios, ((readBlockData num).eval s =
        (.error .fileReadError, { s with dev := { s.dev with ios := ios } }) ∨
      (num < s.dev.count ∧ (readBlockData num).eval s =
        (.ok (s.dev.block num), { s with dev := { s.dev with ios := ios } }))) := by
  by_cases hmap : s.dev.count = 0 ∨ s.dev.count ≤ num
  · refine ⟨s.dev.ios, .inl ?_⟩
    simp [readBlockData, eval_bind, mapFsBlockToDiskBlock, hmap]
  · refine ⟨s.dev.ios + 1, ?_⟩
    by_cases hf : s.dev.fails s.dev.ios
    · left
      simp [readBlockData, eval_bind, mapFsBlockToDiskBlock, hmap, hf]
    · right
      refine ⟨by omega, ?_⟩
      simp [readBlockData, eval_bind, mapFsBlockToDiskBlock, hmap, hf, BlockDev.block, Except.map]

/-- The device after a successful write of block `num`. -/
def BlockDev.put (d : BlockDev β) (ios num : ℕ) (data : β) : BlockDev β :=
  { d with ios := ios, sector := update d.sector (d.base + num) data }

theorem BlockDev.block_put (d : BlockDev β) (ios num : ℕ) (data : β) (b : ℕ) :
    (d.put ios num data).block b = if b = num then data else d.block b := by
  unfold BlockDev.put BlockDev.block
  by_cases h : b = num
  · simp [h]
  · have hne : d.base + b ≠ d.base + num := by omega
    rw [if_neg h]
    exact update_of_ne hne _ _

/-- A device write stores the block or fails and leaves the sectors. -/
theorem writeBlockData_eq (s : Lru β) (data : β) (num : ℕ) :
    ∃ ios, ((writeBlockData data num).eval s =
        (.error .fileWriteError, { s with dev := { s.dev with ios := ios } }) ∨
      (num < s.dev.count ∧ (writeBlockData data num).eval s =
        (.ok (), { s with dev := s.dev.put ios num data }))) := by
  by_cases hmap : s.dev.count = 0 ∨ s.dev.count ≤ num
  · refine ⟨s.dev.ios, .inl ?_⟩
    simp [writeBlockData, eval_bind, mapFsBlockToDiskBlock, hmap]
  · refine ⟨s.dev.ios + 1, ?_⟩
    by_cases hf : s.dev.fails s.dev.ios
    · left
      simp [writeBlockData, eval_bind, mapFsBlockToDiskBlock, hmap, hf]
    · right
      refine ⟨by omega, ?_⟩
      simp [writeBlockData, eval_bind, mapFsBlockToDiskBlock, hmap, hf, BlockDev.put]

/-! ### The interface -/

namespace Lru.Wf

variable {s : Lru β} {l : List (ℕ × BlockNode β)}

/-- The block numbers after an access of `num`: it moves to the front, and the block at
the back leaves when there are too many. -/
def touched (num : ℕ) (bs : List ℕ) : List ℕ :=
  (num :: bs.erase num).take maxSize

theorem erase_blocks {l₁ l₂ : List (ℕ × BlockNode β)} {e : BlockNode β}
    (h : (blocks (l₁ ++ (p, e) :: l₂)).Nodup) :
    (blocks (l₁ ++ (p, e) :: l₂)).erase e.block = blocks (l₁ ++ l₂) := by
  simp only [blocks_append, blocks_cons] at h ⊢
  have hnot : e.block ∉ blocks l₁ := fun hc =>
    (nodup_append.mp h).2.2 _ hc _ (by simp) rfl
  rw [erase_append_right _ hnot, erase_cons_head]

/-- Link a filled node in front and evict: the common end of reads and writes. -/
theorem linkFront_evict {num : ℕ} {data : β} (bs : List ℕ) {c : Cell (BlockNode β)}
    (h : Wf maxSize s l [p]) (hc : s.list.heap p = some c) (hval : c.val = ⟨data, false, num⟩)
    (hdata : data = s.dev.block num) (hlt : num < s.dev.count)
    (hbs : blocks l = bs.erase num) (hnot : num ∉ blocks l) :
    ∃ s₁ s' l', (OsPi.linkFront p).eval s = (.ok (), s₁) ∧
      evictIfFull.eval s₁ = (.ok (), s') ∧ s'.dev = s.dev ∧ Wf maxSize s' l' [] ∧
      blocks l' = touched num bs ∧ ∃ c, s'.list.heap p = some c ∧ c.val.data = data := by
  have hclean : c.val.Clean s.dev := by rw [hval]; exact ⟨rfl, hdata, hlt⟩
  obtain ⟨s₁, hrun₁, hdev₁, -, hwf₁⟩ := h.linkFront hc hclean (by rw [hval]; exact hnot)
  obtain ⟨s₂, hrun₂, hdev₂, hwf₂⟩ := hwf₁.evict
  refine ⟨s₁, s₂, _, hrun₁, hrun₂, hdev₂.trans hdev₁, hwf₂, ?_, _, hwf₂.repr.linked.1, ?_⟩
  · rw [blocks_take, touched, ← hbs, blocks_cons, hval]
  · rw [hval]

/-- **`read_block`**: either it returns the device's contents of the block and the block
moves to the front, or it fails and the cached blocks are as before. -/
theorem readBlock (h : Wf maxSize s l []) (num : ℕ) :
    ∃ s' l' ios, Wf maxSize s' l' [] ∧ s'.dev = { s.dev with ios := ios } ∧
      (((Lru.readBlock num).eval s = (.ok (s.dev.block num), s') ∧ num < s.dev.count ∧
          blocks l' = touched num (blocks l)) ∨
        ((Lru.readBlock num).eval s = (.error .fileReadError, s') ∧ blocks l' = blocks l)) := by
  rcases h.getBlock num with ⟨hnot, hget⟩ | ⟨l₁, p, e, l₂, rfl, he, hget⟩
  · obtain ⟨hkm, hwf₁⟩ := h.kmalloc
    obtain ⟨ios, hread | ⟨hlt, hread⟩⟩ := readBlockData_eq { s with brk := s.brk + 1 } num
    · -- the device failed: the fresh node is given up
      have hnone : s.list.heap s.brk = none := by
        refine h.heap_none _ (fun hc => ?_) (by simp)
        exact absurd (h.lt_brk _ (.inl hc)) (Nat.lt_irrefl _)
      have hwf := (hwf₁.forget hnone).setDev { s.dev with ios := ios } rfl
        fun _ _ => rfl
      refine ⟨_, l, ios, hwf, rfl, .inr ⟨?_, rfl⟩⟩
      simp [Lru.readBlock, lruCacheAddToFront, eval_bind, hget, hkm, hread]
    · have hwf₂ := (hwf₁.setDev { s.dev with ios := ios } rfl fun _ _ => rfl).fill
        ⟨⟨s.dev.block num, false, num⟩, none, none⟩
      obtain ⟨s₁, s', l', hrun₁, hrun₂, hdev, hwf, hbs, c, hc, hcd⟩ :=
        linkFront_evict (blocks l) hwf₂ (update_self _ _ _) rfl rfl hlt
          (erase_of_not_mem hnot).symm hnot
      refine ⟨s', l', ios, hwf, hdev, .inl ⟨?_, hlt, hbs⟩⟩
      simp only [Lru.readBlock, lruCacheAddToFront, eval_bind, eval_get,
        eval_pure, eval_modify, hget, hkm, hread]
      simp only [hrun₁, hrun₂, hc, hcd, eval_pure]
  · have hcl := h.clean (p, e) (by simp)
    obtain ⟨s₁, hrun, hdev₁, -, hcell, hwf₁⟩ := h.removeNode
    have herase := erase_blocks h.nodup
    have hnot : num ∉ blocks (l₁ ++ l₂) := by
      rw [← herase, he]
      exact h.nodup.not_mem_erase
    have hlt : num < s₁.dev.count := by rw [hdev₁, ← he]; exact hcl.lt
    have hdata : e.data = s₁.dev.block num := by rw [hdev₁, ← he]; exact hcl.data
    have hval : e = ⟨e.data, false, num⟩ := by rw [← he, ← hcl.dirty]
    obtain ⟨s₂, s', l', hrun₁, hrun₂, hdev, hwf, hbs, c, hc, hcd⟩ :=
      linkFront_evict _ hwf₁ hcell hval hdata hlt (he ▸ herase.symm) hnot
    refine ⟨s', l', s.dev.ios, hwf, hdev.trans hdev₁, .inl ⟨?_, hdev₁ ▸ hlt, hbs⟩⟩
    simp only [Lru.readBlock, lruCacheAddToFront, eval_bind, eval_get,
      eval_pure, hget, hrun, hrun₁, hrun₂, hc, hcd, hdata, hdev₁]

theorem nodeToUpdate (h : Wf maxSize s l []) (num : ℕ) :
    ∃ p s₁ l₁, (OsPi.nodeToUpdate num).eval s = (.ok p, s₁) ∧ s₁.dev = s.dev ∧
      Wf maxSize s₁ l₁ [p] ∧ blocks l₁ = (blocks l).erase num ∧ num ∉ blocks l₁ := by
  rcases h.getBlock num with ⟨hnot, hget⟩ | ⟨l₁, p, e, l₂, rfl, he, hget⟩
  · obtain ⟨hkm, hwf₁⟩ := h.kmalloc
    refine ⟨_, { s with brk := s.brk + 1 }, l, ?_, rfl, hwf₁, (erase_of_not_mem hnot).symm, hnot⟩
    simp only [OsPi.nodeToUpdate, eval_bind, hget, hkm]
  · obtain ⟨s₁, hrun, hdev₁, -, -, hwf₁⟩ := h.removeNode
    have herase := erase_blocks h.nodup
    refine ⟨p, s₁, _, ?_, hdev₁, hwf₁, by rw [← he, herase], ?_⟩
    · simp only [OsPi.nodeToUpdate, eval_bind, hget, hrun, eval_pure]
    · rw [← herase, he]
      exact h.nodup.not_mem_erase

/-- **`write_block`**: either the block is on the device and at the front of the cache, or
the write failed, the device is as before and the block is not cached. -/
theorem writeBlock (h : Wf maxSize s l []) (data : β) (num : ℕ) :
    ∃ s' l' ios, Wf maxSize s' l' [] ∧
      (((Lru.writeBlock data num).eval s = (.ok (), s') ∧ s'.dev = s.dev.put ios num data ∧
          num < s.dev.count ∧ blocks l' = touched num (blocks l)) ∨
        ((Lru.writeBlock data num).eval s = (.error .fileWriteError, s') ∧
          s'.dev = { s.dev with ios := ios } ∧ blocks l' = (blocks l).erase num)) := by
  obtain ⟨p, s₁, l₁, hacq, hdev₁, hwf₁, hbs₁, hnot₁⟩ := h.nodeToUpdate num
  have hwf₂ := hwf₁.fill ⟨⟨data, false, num⟩, none, none⟩
  obtain ⟨ios, hwr | ⟨hlt, hwr⟩⟩ := writeBlockData_eq
    { s₁ with list := s₁.list.alloc p ⟨⟨data, false, num⟩, none, none⟩ } data num
  · -- the device failed: the node is released
    have hwf := (hwf₂.setDev { s₁.dev with ios := ios } rfl fun _ _ => rfl).free
    refine ⟨_, l₁, ios, hwf, .inr ⟨?_, by rw [← hdev₁], hbs₁⟩⟩
    simp only [Lru.writeBlock, lruCacheUpdateData, eval_bind, eval_modify,
      eval_attempt, eval_throw, hacq, hwr]
  · have hdev₃ : ∀ b ∈ blocks l₁, (s₁.dev.put ios num data).block b = s₁.dev.block b := by
      intro b hb
      rw [BlockDev.block_put, if_neg fun e : b = num => hnot₁ (e ▸ hb)]
    have hwf₃ := hwf₂.setDev (s₁.dev.put ios num data) rfl hdev₃
    have hdata : data = (s₁.dev.put ios num data).block num := by
      rw [BlockDev.block_put, if_pos rfl]
    obtain ⟨s₂, s', l', hrun₁, hrun₂, hdev, hwf, hbs, -⟩ :=
      linkFront_evict _ hwf₃ (update_self _ _ _) rfl hdata hlt hbs₁ hnot₁
    refine ⟨s', l', ios, hwf, .inl ⟨?_, by rw [hdev, ← hdev₁], by rw [← hdev₁]; exact hlt, hbs⟩⟩
    simp only [Lru.writeBlock, lruCacheUpdateData, eval_bind, eval_modify,
      eval_attempt, hacq, hwr, hrun₁, hrun₂]

theorem emptyLoop {n : ℕ} (h : Wf maxSize s l []) (hn : l.length < n) :
    ∃ s', (lruCacheEmptyLoop n).eval s = (.ok (), s') ∧ s'.dev = s.dev ∧
      Wf maxSize s' [] [] := by
  induction n generalizing s l with
  | zero => omega
  | succ n ih =>
    rcases eq_nil_or_concat' l with rfl | ⟨l, x, rfl⟩
    · refine ⟨s, ?_, rfl, h⟩
      have htail : s.list.tail = none := h.repr.tail_eq
      simp [lruCacheEmptyLoop, eval_bind, htail]
    · have htail : s.list.tail ≠ none := by
        rw [h.repr.tail_eq, DList.last_append]
        simp [DList.last]
      obtain ⟨s₁, hrun, hdev, -, hwf⟩ := h.removeBack
      obtain ⟨s', hrun', hdev', hwf'⟩ := ih hwf (by simp at hn; omega)
      refine ⟨s', ?_, hdev'.trans hdev, hwf'⟩
      simp only [lruCacheEmptyLoop, eval_bind, eval_get, htail, if_false, hrun, hrun']

/-- **`lru_cache_empty`** ends, with an empty cache and the device as before. -/
theorem empty (h : Wf maxSize s l []) :
    ∃ s', lruCacheEmpty.eval s = (.ok (), s') ∧ s'.dev = s.dev ∧ Wf maxSize s' [] [] := by
  obtain ⟨s', hrun, hdev, hwf⟩ := h.emptyLoop (Nat.lt_succ_of_le h.length_le_brk)
  refine ⟨s', ?_, hdev, hwf⟩
  simp only [lruCacheEmpty, eval_bind, eval_get, hrun]

end Lru.Wf

/-! ### Runs -/

/-- Calls with their outcomes, oldest first. -/
abbrev History (β : Type) := List (BlockCall β × Except Err (Option β))

variable {h : History β}

/-- The blocks a plain array would hold after a history: a successful write stores its
data, nothing else changes anything. -/
def contents (orig : ℕ → β) (h : History β) : ℕ → β :=
  h.foldl (fun m x =>
    match x with
    | (.write data num, .ok _) => update m num data
    | _ => m) orig

/-- A call used block `num`: it read or wrote it successfully. -/
def Uses (num : ℕ) : BlockCall β × Except Err (Option β) → Prop
  | (.read n, .ok _) => n = num
  | (.write _ n, .ok _) => n = num
  | _ => False

instance (num : ℕ) : DecidablePred (Uses (β := β) num) := fun x =>
  match x with
  | (.read n, .ok _) => decEq n num
  | (.write _ n, .ok _) => decEq n num
  | (.read _, .error _) => isFalse id
  | (.write _ _, .error _) => isFalse id
  | (.empty, _) => isFalse id

/-- The position, counted from one, of the last call of the history that used `num`, or
zero when none did. -/
def lastUse (num : ℕ) : History β → ℕ
  | [] => 0
  | x :: h => if lastUse num h = 0 then (if Uses num x then 1 else 0) else lastUse num h + 1

theorem contents_concat (orig : ℕ → β) (h : History β) (x : BlockCall β × Except Err (Option β)) :
    contents orig (h ++ [x]) = contents (contents orig h) [x] := by
  simp [contents]

theorem lastUse_le (num : ℕ) (h : History β) : lastUse num h ≤ h.length := by
  induction h with
  | nil => simp [lastUse]
  | cons x h ih =>
    simp only [lastUse, length_cons]
    split_ifs <;> omega

theorem lastUse_concat (num : ℕ) (h : History β) (x : BlockCall β × Except Err (Option β)) :
    lastUse num (h ++ [x]) = if Uses num x then h.length + 1 else lastUse num h := by
  induction h with
  | nil => simp [lastUse]
  | cons y h ih =>
    simp only [cons_append, lastUse, ih, length_cons]
    by_cases hx : Uses num x <;> simp [hx]

/-- Front to back, the blocks were used less and less recently. -/
def RecencyOrder (h : History β) (bs : List ℕ) : Prop :=
  bs.Pairwise fun a b => lastUse b h < lastUse a h

theorem RecencyOrder.of_not_uses {x : BlockCall β × Except Err (Option β)}
    {bs : List ℕ} (hr : RecencyOrder h bs) (hx : ∀ num, ¬Uses num x) :
    RecencyOrder (h ++ [x]) bs := by
  unfold RecencyOrder at hr ⊢
  simpa only [lastUse_concat, hx, if_false] using hr

/-- Moving the block just used to the front keeps the order. -/
theorem RecencyOrder.touch {x : BlockCall β × Except Err (Option β)}
    {bs : List ℕ} {num : ℕ} (hr : RecencyOrder h bs) (hnd : bs.Nodup)
    (hx : ∀ n, Uses n x ↔ n = num) :
    RecencyOrder (h ++ [x]) (Lru.Wf.touched num bs) := by
  refine List.Pairwise.sublist (take_sublist _ _) (pairwise_cons.mpr ⟨?_, ?_⟩)
  · intro b hb
    have hne : b ≠ num := fun e => (e ▸ hnd.not_mem_erase : b ∉ bs.erase num) hb
    have hle := lastUse_le b h
    simp only [lastUse_concat, hx, hne, if_false, if_true]
    omega
  · refine (hr.sublist erase_sublist).imp_of_mem ?_
    intro a b ha hb hab
    have hane : a ≠ num := fun e => (e ▸ hnd.not_mem_erase : a ∉ bs.erase num) ha
    have hbne : b ≠ num := fun e => (e ▸ hnd.not_mem_erase : b ∉ bs.erase num) hb
    simpa only [lastUse_concat, hx, hane, hbne, if_false] using hab

/-- What holds of the cache and the calls made so far: the cache is well formed and in
recency order, and the device holds the blocks of the plain array. -/
structure Lru.Consistent (orig : ℕ → β) (h : History β) (s : Lru β)
    (l : List (ℕ × BlockNode β)) : Prop where
  wf : s.Wf maxSize l []
  block_eq : s.dev.block = contents orig h
  order : RecencyOrder h (blocks l)

/-- **One call**: a read that succeeds returns the array's contents, no call follows a bad
pointer, and the cache stays consistent. -/
theorem Lru.Consistent.exec {orig : ℕ → β} {s : Lru β}
    {l : List (ℕ × BlockNode β)} (hc : Lru.Consistent orig h s l) (c : BlockCall β) :
    ∃ r s' l', c.exec.eval s = (r, s') ∧ Lru.Consistent orig (h ++ [(c, r)]) s' l' ∧
      r ≠ .error .fault ∧
      ∀ num v, c = .read num → r = .ok v → v = some (contents orig h num) := by
  cases c with
  | read num =>
    obtain ⟨s', l', ios, hwf, hdev, ⟨hrun, -, hbs⟩ | ⟨hrun, hbs⟩⟩ := hc.wf.readBlock num
    · refine ⟨.ok (some (s.dev.block num)), s', l', ?_, ⟨hwf, ?_, ?_⟩, by simp, ?_⟩
      · simp [BlockCall.exec, hrun, Except.map]
      · rw [contents_concat, ← hc.block_eq, hdev]
        rfl
      · rw [hbs]
        exact hc.order.touch hc.wf.nodup fun n => eq_comm
      · rintro n v hn hv
        obtain rfl : num = n := by simpa using hn
        obtain rfl : some (s.dev.block num) = v := by simpa using hv
        rw [hc.block_eq]
    · refine ⟨.error .fileReadError, s', l', ?_, ⟨hwf, ?_, ?_⟩, by simp, by simp⟩
      · simp [BlockCall.exec, hrun, Except.map]
      · rw [contents_concat, ← hc.block_eq, hdev]
        rfl
      · rw [hbs]
        exact hc.order.of_not_uses fun n hn => hn
  | write data num =>
    obtain ⟨s', l', ios, hwf, ⟨hrun, hdev, -, hbs⟩ | ⟨hrun, hdev, hbs⟩⟩ :=
      hc.wf.writeBlock data num
    · refine ⟨.ok none, s', l', ?_, ⟨hwf, ?_, ?_⟩, by simp, by simp⟩
      · simp [BlockCall.exec, hrun, Except.map]
      · rw [contents_concat, ← hc.block_eq, hdev]
        funext b
        simp [BlockDev.block_put, contents, update_apply]
      · rw [hbs]
        exact hc.order.touch hc.wf.nodup fun n => eq_comm
    · refine ⟨.error .fileWriteError, s', l', ?_, ⟨hwf, ?_, ?_⟩, by simp, by simp⟩
      · simp [BlockCall.exec, hrun, Except.map]
      · rw [contents_concat, ← hc.block_eq, hdev]
        rfl
      · rw [hbs]
        exact RecencyOrder.of_not_uses (hc.order.sublist erase_sublist) fun n hn => hn
  | empty =>
    obtain ⟨s', hrun, hdev, hwf⟩ := hc.wf.empty
    refine ⟨.ok none, s', [], ?_, ⟨hwf, ?_, List.Pairwise.nil⟩, by simp, by simp⟩
    · simp [BlockCall.exec, hrun, Except.map]
    · rw [contents_concat, ← hc.block_eq, hdev]
      rfl

/-- **A whole run**: the step lemma along the calls, from any consistent cache. -/
theorem Lru.Consistent.run {orig : ℕ → β} (calls : List (BlockCall β))
    {s : Lru β} {l : List (ℕ × BlockNode β)} (hc : Lru.Consistent orig h s l) :
    ∃ l', Lru.Consistent orig (h ++ (runCalls calls s).1) (runCalls calls s).2 l' ∧
      (∀ x ∈ (runCalls calls s).1, x.2 ≠ .error .fault) ∧
      ∀ pre num v post, (runCalls calls s).1 = pre ++ (.read num, .ok v) :: post →
        v = some (contents orig (h ++ pre) num) := by
  induction calls generalizing h s l with
  | nil => exact ⟨l, by simpa [runCalls] using hc, by simp [runCalls], by simp [runCalls]⟩
  | cons c calls ih =>
    obtain ⟨r, s', l', hrun, hc', hr, hread⟩ := hc.exec c
    obtain ⟨l'', hc'', hrs, hreads⟩ := ih hc'
    have hcons : runCalls (c :: calls) s
        = ((c, r) :: (runCalls calls s').1, (runCalls calls s').2) := by
      simp [runCalls, hrun]
    rw [hcons]
    refine ⟨l'', by simpa using hc'', forall_mem_cons.mpr ⟨hr, hrs⟩, ?_⟩
    intro pre num v post heq
    cases pre with
    | nil =>
      obtain ⟨⟨rfl, rfl⟩, -⟩ : (c = .read num ∧ r = .ok v) ∧ _ := by simpa using heq
      simpa using hread num v rfl rfl
    | cons x pre =>
      obtain ⟨rfl, heq'⟩ : (c, r) = x ∧ _ := by simpa using heq
      simpa using hreads pre num v post heq'

/-- An empty cache over any device is consistent with the empty history. -/
theorem Lru.Consistent.init (dev : BlockDev β) :
    Lru.Consistent dev.block [] (Lru.init dev) [] :=
  ⟨Lru.Wf.init dev, rfl, List.Pairwise.nil⟩

/-- **The block cache is transparent.** Take any device, any pattern of failing transfers
and any sequence of block reads, block writes and cache flushes. Every read that succeeds
returns the data of the last write of that block that succeeded before it, or what the
device held at first; no call follows a bad pointer; and the cache is then a doubly linked
list of at most twelve nodes for distinct blocks, counted by its size and ordered front to
back by last successful use. -/
theorem blockCache_transparent (dev : BlockDev β) (calls : List (BlockCall β)) :
    (∀ pre num v post, (runCalls calls (Lru.init dev)).1 = pre ++ (.read num, .ok v) :: post →
        v = some (contents dev.block pre num)) ∧
    (∀ x ∈ (runCalls calls (Lru.init dev)).1, x.2 ≠ .error .fault) ∧
    ∃ l, (runCalls calls (Lru.init dev)).2.list.Repr l ∧
      (runCalls calls (Lru.init dev)).2.size = l.length ∧ l.length ≤ 12 ∧
      (blocks l).Nodup ∧ RecencyOrder (runCalls calls (Lru.init dev)).1 (blocks l) := by
  obtain ⟨l, hc, hfault, hreads⟩ := (Lru.Consistent.init dev).run calls
  exact ⟨by simpa using hreads, hfault, l, hc.wf.repr, hc.wf.size_eq, hc.wf.length_le,
    hc.wf.nodup, hc.order⟩

end OsPi
