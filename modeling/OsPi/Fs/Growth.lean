import OsPi.Fs.Operations
import OsPi.Fs.BlockLookup
import OsPi.Fs.Ownership

/-!
# Files That Grow Block by Block

A file that starts without blocks and grows by calls of `allocate_block_for_file_inode`, with
failing calls and the work of others in between: `Grows` collects the blocks the successful
calls returned. They are the data blocks of the inode (`Grows.kept`).

`get_block_num_from_inode` finds the block of an index among them in the direct range, below
the single pointer block and below the first entry of the double pointer block. The double and
the triple case divide by the number of blocks below the *whole* pointer block where the append
divides by the number below *one entry* of it, so beyond the first pointer block of each tree
the lookup reads past the end of a block or takes the way to another block of the file
(`lookup_finds_appended_iff`).
-/

namespace OsPi

open PtrTree List Option

namespace Fs

/-- What others do to the file system between two appends to an inode: they leave its pointer
blocks alone and do not free its blocks. -/
structure Spares (s s' : Fs) (n : Inode) : Prop where
  wf : s'.Wf
  metaBits : s'.MetaBits
  layout : s'.layout = s.layout
  blockBit : ∀ b ∈ s.dataBlocks n ++ s.ptrBlocks n, s'.blockBit b = true
  block : ∀ b ∈ s.ptrBlocks n, s'.block b = s.block b

/-- The inode `n` has grown to `n'` by successful appends that returned the blocks `bs`, on a
device that does not fail. -/
inductive Grows (s : Fs) (n : Inode) : List ℕ → Fs → Inode → Prop
  | start : Grows s n [] s n
  | append {bs s₁ n₁} (env : Env) {b s₂ n₂} : Grows s n bs s₁ n₁ → env.Reliable →
      (allocateBlockForFileInode env).eval (n₁, s₁) = (.ok b, (n₂, s₂)) →
      Grows s n (bs ++ [b]) s₂ n₂
  | fail {bs s₁ n₁} (env : Env) {e s₂ n₂} : Grows s n bs s₁ n₁ → env.Reliable →
      (allocateBlockForFileInode env).eval (n₁, s₁) = (.error e, (n₂, s₂)) →
      Grows s n bs s₂ n₂
  | other {bs s₁ n₁ s₂} : Grows s n bs s₁ n₁ → s₁.Spares s₂ n₁ → Grows s n bs s₂ n₁

/-- What holds of a file all of whose blocks are `bs`. -/
structure Holds (s : Fs) (n : Inode) (bs : List ℕ) : Prop where
  wf : s.Wf
  metaBits : s.MetaBits
  ok : s.InodeOk n
  data : s.dataBlocks n = bs

variable {env : Env} {s s' s₁ s₂ : Fs} {n n' n₁ : Inode} {bs new W : List ℕ} {b i : ℕ}

/-! ### The data blocks are the blocks returned -/

/-- A file without blocks. -/
theorem Holds.empty (hw : s.Wf) (hmeta : s.MetaBits) (h0 : n.iBlocks = 0) : s.Holds n [] := by
  have hblocks : s.dataBlocks n = [] ∧ s.ptrBlocks n = [] := by
    simp [dataBlocks, ptrBlocks, dataOf, ptrsOf, h0]
  refine ⟨hw, hmeta, ⟨by simp [h0], ?_, ?_⟩, hblocks.1⟩ <;> simp [hblocks]

/-- Bits that are set stay set when blocks are allocated. -/
theorem MetaBits.change (hmeta : s.MetaBits) (hw : s.Wf)
    (h : Change s s₁ W fun x => s.blockBit x || decide (x ∈ new)) : s₁.MetaBits := by
  intro x hx
  rw [h.layout] at hx
  rw [h.blockBit x (hx.trans hw.layout.dataStartBlock_lt), hmeta x hx, Bool.true_or]

theorem Holds.grown (h : s.Holds n bs) (hg : s.Grown n b new s₁ n₁)
    (hlt : n.iBlocks.toNat < s.layout.maxFileBlocks) : s₁.Holds n₁ (bs ++ [b]) where
  wf := hg.change.wf h.wf
  metaBits := h.metaBits.change h.wf hg.change
  ok := hg.inodeOk h.metaBits h.ok hlt
  data := by rw [hg.data, h.data]

theorem Holds.alloc (h : s.Holds n bs) (ha : s.Alloc s₁ new) : s₁.Holds n bs := by
  obtain ⟨hok, hdata, -⟩ := ha.inodeOk h.wf h.ok
  exact ⟨ha.change.wf h.wf, h.metaBits.change h.wf ha.change, hok, by rw [hdata, h.data]⟩

theorem Holds.other (h : s.Holds n bs) (ho : s.Spares s₁ n) : s₁.Holds n bs := by
  obtain ⟨hdata, hptrs⟩ : s₁.dataBlocks n = s.dataBlocks n ∧ s₁.ptrBlocks n = s.ptrBlocks n := by
    unfold dataBlocks ptrBlocks
    rw [ho.layout]
    refine map_congr (fun _ _ => rfl) fun x hx j _ => ?_
    rw [ptr, ptr, ho.block x hx]
  refine ⟨ho.wf, ho.metaBits, ⟨ho.layout ▸ h.ok.le, ?_, ?_⟩, by rw [hdata, h.data]⟩
  · rw [hdata, hptrs]
    exact h.ok.nodup
  · intro x hx
    rw [hdata, hptrs] at hx
    obtain ⟨hlo, hhi, -⟩ := h.ok.range x hx
    rw [ho.layout]
    exact ⟨hlo, hhi, ho.blockBit x hx⟩

/-- The data blocks of a file are the blocks its appends returned. -/
theorem Grows.kept (h : s.Grows n bs s' n') (hs : s.Holds n []) :
    s'.Holds n' bs ∧ s'.layout = s.layout := by
  induction h with
  | start => exact ⟨hs, rfl⟩
  | append env _ hr heval ih =>
    obtain ⟨hk, hlay⟩ := ih
    rcases allocateBlockForFileInode_spec hr hk.wf hk.metaBits hk.ok with
      ⟨_, _, _, _, hspec, hgrown, hlt⟩ | ⟨_, _, _, hspec, -, -⟩
    · cases heval.symm.trans hspec
      exact ⟨hk.grown hgrown hlt, hgrown.change.layout.trans hlay⟩
    · cases heval.symm.trans hspec
  | fail env _ hr heval ih =>
    obtain ⟨hk, hlay⟩ := ih
    rcases allocateBlockForFileInode_spec hr hk.wf hk.metaBits hk.ok with
      ⟨_, _, _, _, hspec, -, -⟩ | ⟨_, _, _, hspec, halloc, -⟩
    · cases heval.symm.trans hspec
    · cases heval.symm.trans hspec
      exact ⟨hk.alloc halloc, halloc.change.layout.trans hlay⟩
  | other _ ho ih => exact ⟨ih.1.other ho, ho.layout.trans ih.2⟩

/-! ### What the lookup finds -/

/-- Whatever lies behind the blocks in memory, the lookup of `i` returns `b`. -/
def Finds (s : Fs) (n : Inode) (i b : ℕ) : Prop :=
  ∀ env : Env, env.Reliable → (getBlockNumFromInode env n i).eval s = (.ok b, s)

section Finds

variable (h : s.Holds n bs)
include h

theorem Holds.length_eq : bs.length = n.iBlocks.toNat := by
  have hle := h.ok.le
  rw [Layout.maxFileBlocks_eq] at hle
  rw [← h.data]
  exact length_dataOf hle

/-- A data block is not the null block. -/
theorem Holds.ne_zero (hmem : b ∈ bs) : b ≠ 0 := by
  rw [← h.data] at hmem
  have hrange := h.ok.range b (mem_append_left _ hmem)
  have hstart := h.wf.layout.dataStartBlock
  have hpos := h.wf.layout.numTableBlocks_pos
  omega

/-- A block has one index in the file. -/
theorem Holds.index_eq {k : ℕ} (hb : bs[i]? = some b) (hk : bs[k]? = some b) : i = k := by
  have hnd := (nodup_append.mp h.ok.nodup).1
  rw [h.data] at hnd
  obtain ⟨hi, hi'⟩ := List.getElem?_eq_some_iff.mp hb
  obtain ⟨hk, hk'⟩ := List.getElem?_eq_some_iff.mp hk
  exact (hnd.getElem_inj_iff).mp (hi'.trans hk'.symm)

/-- The lookup is right when it ends at the index it was given. -/
theorem Holds.finds_iff (hb : bs[i]? = some b) :
    s.Finds n i b ↔ s.layout.lookupIndex i = some i := by
  have hi : i < n.iBlocks.toNat := h.length_eq ▸ (List.getElem?_eq_some_iff.mp hb).1
  cases hk : s.layout.lookupIndex i with
  | none =>
    refine iff_of_false (fun hfind => ?_) (by simp)
    -- behind the blocks there may be zeros
    obtain ⟨x, j, hwild⟩ := lookup_wild h.wf h.ok hi hk
    have heq := (hwild .calm Env.calm_reliable).symm.trans (hfind .calm Env.calm_reliable)
    have hzero : 0 = b := Except.ok.inj (congrArg Prod.fst heq)
    exact h.ne_zero (mem_of_getElem? hb) hzero.symm
  | some k =>
    have hfound := fun {env : Env} (hr : env.Reliable) => lookup_found h.wf h.ok hi hr hk
    have hlt : k < bs.length := by
      have := (hfound Env.calm_reliable).2
      rw [h.length_eq]
      omega
    have hget : (s.dataBlocks n).getD k 0 = bs[k] := by
      rw [h.data, getD_eq_getElem?_getD, getElem?_eq_getElem hlt, getD_some]
    rw [some.injEq]
    constructor
    · intro hfind
      have heq := (hfound Env.calm_reliable).1.symm.trans (hfind .calm Env.calm_reliable)
      rw [hget] at heq
      refine h.index_eq ?_ hb
      rw [getElem?_eq_getElem hlt]
      exact congrArg some (Except.ok.inj (congrArg Prod.fst heq))
    · rintro rfl env hr
      rw [(hfound hr).1, hget]
      rw [getElem?_eq_getElem hlt] at hb
      rw [some.inj hb]

end Finds

/-! ### A file of 141 blocks -/

/-- Append the given number of blocks. -/
def appendBlocks (env : Env) : ℕ → InodeM (List ℕ)
  | 0 => pure []
  | k + 1 => do
    let bs ← appendBlocks env k
    let b ← allocateBlockForFileInode env
    pure (bs ++ [b])

theorem grows_of_appendBlocks (hr : env.Reliable) {k : ℕ}
    (heval : (appendBlocks env k).eval (n, s) = (.ok bs, (n', s'))) : s.Grows n bs s' n' := by
  induction k generalizing bs n' s' with
  | zero =>
    cases heval
    exact .start
  | succ k ih =>
    rw [appendBlocks, Comp.eval_bind] at heval
    rcases hinit : (appendBlocks env k).eval (n, s) with ⟨r, n₁, s₁⟩
    rw [hinit] at heval
    cases r with
    | error e => cases heval
    | ok bs₁ =>
      simp only [Comp.eval_bind] at heval
      rcases hlast : (allocateBlockForFileInode env).eval (n₁, s₁) with ⟨r, n₂, s₂⟩
      rw [hlast] at heval
      cases r with
      | error e => cases heval
      | ok b =>
        cases heval
        exact .append env (ih hinit) hr hlast

/-- An empty file system on 256 blocks of 256 bytes. -/
def roomy : Fs := ((do mkfsChecks 5 0; mkfsInode .calm).eval (blank 256 256)).2

theorem roomy_start : roomy.Wf ∧ roomy.MetaBits := by
  have hfacts : roomy.layout = ⟨256, 256, 1, 1, 2, 1, 3, 5, 8⟩ ∧
      roomy.disk.length = roomy.blockCount ∧ roomy.blockCount = 256 ∧
      ∀ b < 8, roomy.blockBit b = true := by decide +kernel
  obtain ⟨hlay, hlen, hcount, hbits⟩ := hfacts
  refine ⟨⟨?_, hlen, by rw [hcount, hlay]⟩, fun b hb => hbits b (by rwa [hlay] at hb)⟩
  rw [hlay]
  constructor <;> decide

/-- A file on it that has grown by one block more than the lookup can find. -/
theorem roomy_grows :
    ∃ bs s' n', roomy.Grows Inode.zero bs s' n' ∧ bs.length = 141 := by
  have hrun : ((appendBlocks .calm 141).eval (Inode.zero, roomy)).1.toOption.map List.length =
    some 141 := by decide +kernel
  rcases heval : (appendBlocks .calm 141).eval (Inode.zero, roomy) with ⟨r, n', s'⟩
  rw [heval] at hrun
  cases r with
  | error e => cases hrun
  | ok bs => exact ⟨bs, s', n', grows_of_appendBlocks Env.calm_reliable heval, some.inj hrun⟩

/-! ### The promise -/

/-- **Append and lookup agree** on the direct blocks, below the single pointer block and below
the first pointer block of the double and of the triple one, and nowhere else. -/
theorem Grows.lookup_finds_appended_iff (hw : s.Wf) (hmeta : s.MetaBits) (h0 : n.iBlocks = 0)
    (hg : s.Grows n bs s' n') (hb : bs[i]? = some b) :
    s'.Finds n' i b ↔
      i < 12 + 2 * s.layout.blocksInSinglePtr ∨
      12 + s.layout.blocksInSinglePtr + s.layout.blocksInDoublePtr ≤ i ∧
        i < 12 + 2 * s.layout.blocksInSinglePtr + s.layout.blocksInDoublePtr := by
  obtain ⟨h, hlay⟩ := hg.kept (Holds.empty hw hmeta h0)
  rw [h.finds_iff hb, hlay, Layout.lookupIndex_eq_self_iff hw.layout, Layout.tripleStart]
  omega

/-- In a file of 141 blocks of 256 bytes the last block but one is found. -/
theorem Grows.lookup_finds_appended_last_but_one :
    ∃ bs s' n' b, roomy.Grows Inode.zero bs s' n' ∧ bs.length = 141 ∧ bs[139]? = some b ∧
      s'.Finds n' 139 b := by
  obtain ⟨bs, s', n', hg, hlen⟩ := roomy_grows
  obtain ⟨b, hb⟩ : ∃ b, bs[139]? = some b :=
    ⟨_, getElem?_eq_getElem (show 139 < bs.length by omega)⟩
  refine ⟨bs, s', n', b, hg, hlen, hb, ?_⟩
  refine (hg.lookup_finds_appended_iff roomy_start.1 roomy_start.2 rfl hb).mpr (.inl ?_)
  decide +kernel

/-- **The last block is not found**: the lookup reads past the end of a pointer block. -/
theorem Grows.lookup_misses_last :
    ∃ bs s' n' b, roomy.Wf ∧ roomy.MetaBits ∧ roomy.Grows Inode.zero bs s' n' ∧
      bs.length = 141 ∧ bs[140]? = some b ∧ b ≠ 0 ∧
      (getBlockNumFromInode .calm n' 140).eval s' = (.ok 0, s') := by
  obtain ⟨bs, s', n', hg, hlen⟩ := roomy_grows
  obtain ⟨b, hb⟩ : ∃ b, bs[140]? = some b :=
    ⟨_, getElem?_eq_getElem (show 140 < bs.length by omega)⟩
  obtain ⟨h, hlay⟩ := hg.kept (Holds.empty roomy_start.1 roomy_start.2 rfl)
  have hsize : roomy.layout.blocksInSinglePtr = 64 ∧ roomy.layout.blocksInDoublePtr = 4096 := by
    decide +kernel
  rw [← hlay] at hsize
  have hcount := h.length_eq
  refine ⟨bs, s', n', b, roomy_start.1, roomy_start.2, hg, hlen, hb,
    h.ne_zero (mem_of_getElem? hb), ?_⟩
  rw [lookup_double Env.calm_reliable h.wf h.ok rfl rfl (by omega) (by omega) (by omega), entry,
    if_neg (by omega)]
  rfl

end Fs

end OsPi
