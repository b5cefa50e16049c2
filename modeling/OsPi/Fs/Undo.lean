import OsPi.Fs.Growth

/-!
# Taking Back an Append

The two ways in which an append is undone. `remove_last_block_inode`, called after a successful
append, undoes it: the two routines split the sizes of an inode differently, but both are
described by the map of its blocks (`Fs.Grown`, `Fs.Shrunk`). An append that fails half way
undoes nothing: the first block it took stays marked (`Fs.Marked`), whatever fails later.
-/

namespace OsPi

open Function PtrTree Comp List

/-! ### Removing the block just appended -/

section Remove

variable {env : Env} {s s₁ s₂ : Fs} {n n₁ n₂ : Inode} {id : ℕ} {c : CacheNode}

theorem Fs.InodeOk.zero (s : Fs) : s.InodeOk Inode.zero :=
  ⟨Nat.zero_le _, nodup_nil, fun _ hb => absurd hb not_mem_nil⟩

end Remove

/-! ### Failing half way -/

/-- A block of the data area. -/
def Layout.InData (l : Layout) (x : ℕ) : Prop := l.dataStartBlock ≤ x ∧ x < l.totalBlocks

/-- Since `s`, the block `b` has been marked, and the layout is the same. -/
structure Fs.Marked (s : Fs) (b : ℕ) (t : Fs) : Prop where
  wf : t.Wf
  layout : t.layout = s.layout
  lt : b < s.layout.totalBlocks
  marked : t.blockBit b = true

/-- Since `s`, the block `b` and other free blocks have been marked, and no block of the data
area has been written. -/
structure Fs.Taking (s : Fs) (b : ℕ) (t : Fs) : Prop extends s.Marked b t where
  metaBits : t.MetaBits
  block : ∀ x, s.layout.dataStartBlock ≤ x → t.block x = s.block x

section Fail

variable {env : Env} {s t : Fs} {n : Inode} {b x : ℕ}

/-- The block `find_free_block` takes. -/
theorem Fs.taking_setBlockBit (hw : s.Wf) (hmeta : s.MetaBits) (hlt : b < s.layout.totalBlocks)
    (ios : ℕ) : s.Taking b ((s.setBlockBit b true).ticked ios) := by
  have hch := Fs.Change.setBlockBit hw hlt true
  refine ⟨⟨⟨(hch.wf hw).layout, (hch.wf hw).length_disk, (hch.wf hw).blockCount_eq⟩, rfl, hlt, ?_⟩,
    fun c hc => ?_, fun x hx => hch.block x (.inl (hw.inodeBitmapStart_le hx)) not_mem_nil⟩
  · exact (hch.blockBit b hlt).trans (update_self ..)
  · refine (hch.blockBit c (hc.trans hw.layout.dataStartBlock_lt)).trans ?_
    rw [update_apply]
    split_ifs
    · rfl
    · exact hmeta c hc

namespace Fs.Taking

theorem ticked (h : s.Taking b t) (ios : ℕ) : s.Taking b (t.ticked ios) :=
  ⟨⟨⟨h.wf.layout, h.wf.length_disk, h.wf.blockCount_eq⟩, h.layout, h.lt, h.marked⟩, h.metaBits,
    h.block⟩

/-- More free blocks may be taken. -/
theorem find (h : s.Taking b t) (env : Env) : (findFreeBlock env true).Post t fun r t' =>
    s.Taking b t' ∧ ∀ p, r = .ok p → s.layout.InData p := by
  have hs := findFreeBlock_searched env h.wf
  unfold Post
  generalize (findFreeBlock env true).eval t = r at hs ⊢
  cases hs with
  | @found p ios hserved hlt hblock hclear hleast =>
    have hnew := Fs.taking_setBlockBit h.wf h.metaBits hlt ios
    refine ⟨⟨⟨hnew.wf, hnew.layout.trans h.layout, h.lt, ?_⟩, hnew.metaBits, fun x hx => ?_⟩, ?_⟩
    · have hb : b < t.layout.totalBlocks := by
        rw [h.layout]
        exact h.lt
      refine ((Fs.Change.setBlockBit h.wf hlt true).blockBit b hb).trans ?_
      rw [update_apply, h.marked, ite_self]
    · exact (hnew.block x (by rwa [h.layout])).trans (h.block x hx)
    · rintro q ⟨⟩
      rw [← h.layout]
      exact ⟨h.metaBits.le_of_clear hclear, hlt⟩
  | full => exact ⟨h.ticked _, fun p hp => by cases hp⟩
  | failed => exact ⟨h.ticked _, fun p hp => by cases hp⟩

/-- Blocks of the data area hold what they held before. -/
theorem read (h : s.Taking b t) (env : Env) (hx : s.layout.InData x) :
    (readBlock env x).Post t fun r t' =>
      s.Taking b t' ∧ ∀ data, r = .ok data → data = s.block x := by
  unfold Post
  rcases readBlock_cases env t (show x < t.blockCount by
      rw [h.wf.blockCount_eq, h.layout]
      exact hx.2) with ⟨ios, heval, -⟩ | ⟨ios, heval, -⟩
  · rw [heval]
    refine ⟨h.ticked ios, ?_⟩
    rintro data ⟨⟩
    exact h.block x hx.1
  · rw [heval]
    exact ⟨h.ticked ios, fun data hdata => by cases hdata⟩

end Fs.Taking

/-- Writing to the data area leaves the block marked. -/
theorem Fs.Marked.write (h : s.Marked b t) (env : Env) (data : ℕ) (hx : s.layout.InData x) :
    (writeBlock env data x).Post t fun _ t' => s.Marked b t' := by
  unfold Post
  rw [← h.layout] at hx
  have hch := @Fs.Change.setBlock t h.wf x data (h.wf.inodeBitmapStart_le hx.1)
  have hw := hch.wf h.wf
  rcases writeBlock_cases env t data (show x < t.blockCount by
      rw [h.wf.blockCount_eq]
      exact hx.2) with ⟨ios, heval, -⟩ | ⟨ios, heval, -⟩
  · rw [heval]
    exact ⟨⟨hw.layout, hw.length_disk, hw.blockCount_eq⟩, h.layout, h.lt,
      (hch.blockBit b (by rw [h.layout]; exact h.lt)).trans h.marked⟩
  · rw [heval]
    exact ⟨⟨h.wf.layout, h.wf.length_disk, h.wf.blockCount_eq⟩, h.layout, h.lt, h.marked⟩

/-- The last two writes below the triple pointer block, the first of which may fail unnoticed. -/
theorem Fs.Marked.write_write (h : s.Marked b t) (env : Env) {data data' y : ℕ}
    (hx : s.layout.InData x) (hy : s.layout.InData y) :
    (do
      let _ ← attempt (onFs (writeBlock env data x))
      onFs (writeBlock env data' y) : InodeM Unit).Post (n, t) fun _ p => s.Marked b p.2 :=
  Post.seq (I := fun p : Inode × Fs => s.Marked b p.2) (h.write env data hx)
    fun _ _ hp => hp.write env data' hy

/-! ### The code of an append -/

theorem Fs.InodeOk.inData (hok : s.InodeOk n) (hx : x ∈ s.ptrBlocks n) : s.layout.InData x :=
  ⟨(hok.range x (mem_append_right _ hx)).1, (hok.range x (mem_append_right _ hx)).2.1⟩

theorem Fs.Wf.blk_setBlk (hw : s.Wf) (hx : s.layout.InData x) {i : ℕ} (hi : i < 15) :
    s.layout.InData ((n.setBlk i x).blk i) := by
  rwa [Inode.blk_setBlk _ _ _ hi, if_pos rfl,
    Nat.mod_eq_of_lt (hx.2.trans hw.layout.totalBlocks_lt)]

section Steps

variable {α β : Type} {Q : Except Err β → Inode × Fs → Prop}

/-- The sequence rule for a step that leaves the inode alone. -/
theorem post_onFs_bind {m : FsM α} {f : α → InodeM β} {P : Except Err α → Fs → Prop}
    (hm : m.Post t P) (herr : ∀ e t', P (.error e) t' → Q (.error e) (n, t'))
    (hok : ∀ a t', P (.ok a) t' → (f a).Post (n, t') Q) : (onFs m >>= f).Post (n, t) Q := by
  unfold Post at hm ⊢
  rcases heval : m.eval t with ⟨r, t'⟩
  rw [heval] at hm
  rw [eval_bind, onFs_eval, heval]
  cases r with
  | error e => exact herr e t' hm
  | ok a => exact hok a t' hm

theorem post_theInode_bind {f : Inode → InodeM β} (h : (f n).Post (n, t) Q) :
    (theInode >>= f).Post (n, t) Q := h

theorem post_modifyInode_bind {g : Inode → Inode} {f : Unit → InodeM β}
    (h : (f ()).Post (g n, t) Q) : (modifyInode g >>= f).Post (n, t) Q := h

end Steps

section Rules

variable {f : ℕ → InodeM Unit} {g : Unit → InodeM Unit}

theorem Fs.Taking.find_bind (h : s.Taking b t) (hf : ∀ p t', s.Taking b t' → s.layout.InData p →
    (f p).Post (n, t') fun _ p => s.Marked b p.2) :
    (onFs (findFreeBlock env true) >>= f).Post (n, t) fun _ p => s.Marked b p.2 :=
  post_onFs_bind (h.find env) (fun _ _ hp => hp.1.toMarked) fun p t' hp => hf p t' hp.1 (hp.2 p rfl)

theorem Fs.Taking.read_bind (h : s.Taking b t) (hx : s.layout.InData x) (hf : ∀ t', s.Taking b t' →
    (f (s.block x)).Post (n, t') fun _ p => s.Marked b p.2) :
    (onFs (readBlock env x) >>= f).Post (n, t) fun _ p => s.Marked b p.2 :=
  post_onFs_bind (h.read env hx) (fun _ _ hp => hp.1.toMarked) fun data t' hp =>
    hp.2 data rfl ▸ hf t' hp.1

theorem Fs.Marked.write_bind {data : ℕ} (h : s.Marked b t) (hx : s.layout.InData x)
    (hg : ∀ t', s.Marked b t' → (g ()).Post (n, t') fun _ p => s.Marked b p.2) :
    (onFs (writeBlock env data x) >>= g).Post (n, t) fun _ p => s.Marked b p.2 :=
  post_onFs_bind (h.write env data hx) (fun _ _ hm => hm) fun _ => hg

end Rules

section Code

variable (hw : s.Wf) (hok : s.InodeOk n) (h : s.Taking b t)
include hw hok h

theorem appendSingle_marked (h15 : 15 ≤ n.iBlocks.toNat)
    (hhi : n.iBlocks.toNat < 12 + s.layout.blocksInSinglePtr) :
    (appendSingle env b).Post (n, t) fun _ p => s.Marked b p.2 := by
  unfold appendSingle
  simp only [pure_bind]
  refine post_theInode_bind (.ite (fun _ => ?_) fun hne => ?_)
  · refine h.find_bind fun p t' ht hp => ?_
    exact post_modifyInode_bind (post_theInode_bind
      (ht.toMarked.write env _ (hw.blk_setBlk hp (by omega))))
  · have hroot : s.layout.InData (n.blk 12) := by
      obtain ⟨q, hn⟩ := Nat.exists_eq_add_of_lt (show 12 < n.iBlocks.toNat by omega)
      refine hok.inData ((nodes_level rfl hok (show 0 < 3 by omega) (by omega) hn ?_).2 _
        (root_mem_nodes (Nat.succ_ne_zero q)))
      rw [zero_add, pow_one]
      omega
    exact h.read_bind hroot fun t' ht => post_theInode_bind (ht.toMarked.write env _ hroot)

theorem appendDouble_marked (h15 : 15 < n.iBlocks.toNat)
    (hlo : 12 + s.layout.blocksInSinglePtr ≤ n.iBlocks.toNat)
    (hhi : n.iBlocks.toNat < 12 + s.layout.blocksInSinglePtr + s.layout.blocksInDoublePtr) :
    (appendDouble env b).Post (n, t) fun _ p => s.Marked b p.2 := by
  unfold appendDouble
  simp only [pure_bind]
  obtain ⟨q, hq, hn, hsub⟩ := Layout.exists_double rfl hlo hhi
  obtain ⟨hroot, hchild⟩ :=
    (double_nodes rfl hok h15 hn hq).imp (hok.inData ∘ ·) (hok.inData ∘ ·)
  refine post_theInode_bind (.get_bind ?_)
  dsimp only
  rw [h.layout, hsub]
  refine .ite (fun h1 => ?_) fun h1 => ?_
  · refine h.find_bind fun sb t₁ ht₁ hsb => .ite (fun h2 => ?_) fun h2 => ?_
    · refine ht₁.find_bind fun db t₂ ht₂ hdb => post_modifyInode_bind (post_theInode_bind ?_)
      refine ht₂.toMarked.write_bind (hw.blk_setBlk hdb (by omega)) fun t₃ hm => ?_
      exact hm.write env _ hsb
    · have h0 : q ≠ 0 := by rintro rfl; simp at h2
      refine ht₁.read_bind (hroot h0) fun t₂ ht₂ => post_theInode_bind ?_
      exact ht₂.toMarked.write_bind (hroot h0) fun t₃ hm => hm.write env _ hsb
  · have h0 : q ≠ 0 := by rintro rfl; simp at h1
    refine h.read_bind (hroot h0) fun t₁ ht₁ => ht₁.read_bind (hchild h1) fun t₂ ht₂ => ?_
    exact ht₂.toMarked.write env _ (hchild h1)

theorem appendTriple_marked (h15 : 15 < n.iBlocks.toNat)
    (hlo : 12 + s.layout.blocksInSinglePtr + s.layout.blocksInDoublePtr ≤ n.iBlocks.toNat)
    (hhi : n.iBlocks.toNat < s.layout.maxFileBlocks) :
    (appendTriple env b).Post (n, t) fun _ p => s.Marked b p.2 := by
  unfold appendTriple
  simp only [pure_bind]
  obtain ⟨q, hq, hn, hsub⟩ := Layout.exists_triple rfl hlo hhi
  have hpos := hw.layout.blocksInSinglePtr_ge
  obtain ⟨hroot, hchild, hgrandchild⟩ := (triple_nodes rfl hok h15 hn hq (by omega)).imp
    (hok.inData ∘ ·) (And.imp (hok.inData ∘ ·) (hok.inData ∘ ·))
  refine post_theInode_bind (.get_bind ?_)
  dsimp only
  rw [h.layout, Layout.blocksInDoublePtr, ← pow_two, hsub]
  refine .ite (fun h1 => ?_) fun h1 => ?_
  · refine h.find_bind fun sb t₁ ht₁ hsb => .ite (fun h2 => ?_) fun h2 => ?_
    · refine ht₁.find_bind fun db t₂ ht₂ hdb => .ite (fun h3 => ?_) fun h3 => ?_
      · refine ht₂.find_bind fun tb t₃ ht₃ htb => post_modifyInode_bind (post_theInode_bind ?_)
        refine ht₃.toMarked.write_bind (hw.blk_setBlk htb (by omega)) fun t₄ hm => ?_
        exact hm.write_write env hdb hsb
      · have h0 : q ≠ 0 := by rintro rfl; simp at h3
        refine ht₂.read_bind (hroot h0) fun t₃ ht₃ => post_theInode_bind ?_
        exact ht₃.toMarked.write_bind (hroot h0) fun t₄ hm => hm.write_write env hdb hsb
    · have hd : q % s.layout.blocksInSinglePtr ^ 2 ≠ 0 := fun hd => h2 (by simp [hd])
      have h0 : q ≠ 0 := by rintro rfl; simp at hd
      refine ht₁.read_bind (hroot h0) fun t₂ ht₂ => ht₂.read_bind (hchild hd) fun t₃ ht₃ => ?_
      exact ht₃.toMarked.write_write env (hchild hd) hsb
  · have hd : q % s.layout.blocksInSinglePtr ^ 2 ≠ 0 := fun hd => h1 (by simp [hd])
    have h0 : q ≠ 0 := by rintro rfl; simp at hd
    refine h.read_bind (hroot h0) fun t₁ ht₁ => ht₁.read_bind (hchild hd) fun t₂ ht₂ => ?_
    refine ht₂.read_bind (hgrandchild h1) fun t₃ ht₃ => ?_
    exact ht₃.toMarked.write env _ (hgrandchild h1)

end Code

/-! ### What a failing append leaves -/

/-- An append that is stopped: a device operation fails, or no free block is left. -/
def Fs.AppendDisturbed (env : Env) (s : Fs) (n : Inode) : Prop :=
  let r := (allocateBlockForFileInode env).eval (n, s)
  env.SomeFailed s.ios r.2.2.ios ∨ r.1 = .error .noFreeBlocks

/-- The append returns an error, the inode has the blocks it had before, and so does the block
bitmap have its bits. -/
def Fs.AppendUndone (env : Env) (s : Fs) (n : Inode) : Prop :=
  let r := (allocateBlockForFileInode env).eval (n, s)
  (∃ e, r.1 = .error e) ∧ r.2.1.iBlocks = n.iBlocks ∧ r.2.2.dataBlocks r.2.1 = s.dataBlocks n ∧
    r.2.2.ptrBlocks r.2.1 = s.ptrBlocks n ∧
    ∀ x < s.layout.blockBitmapBlocks * s.layout.bitsPerBlock, r.2.2.blockBit x = s.blockBit x

/-- An append that has found its first block and goes on to pointer blocks leaves it marked. -/
theorem allocateBlockForFileInode_marked (hw : s.Wf) (hok : s.InodeOk n) (h : s.Taking b t)
    (hfind : (findFreeBlock env true).eval s = (.ok b, t)) (h15 : 15 ≤ n.iBlocks.toNat)
    (hhi : n.iBlocks.toNat < s.layout.maxFileBlocks) :
    (allocateBlockForFileInode env).Post (n, s) fun _ p => s.Marked b p.2 := by
  have hS := hw.layout.blocksInSinglePtr_ge
  have hrest : ∀ m : InodeM Unit, (m.Post (n, t) fun _ p => s.Marked b p.2) →
      (do m; modifyInode fun n => { n with iBlocks := n.iBlocks + 1 }; pure b : InodeM ℕ).Post
        (n, t) fun _ p => s.Marked b p.2 := fun m hm =>
    Post.seq (I := fun p : Inode × Fs => s.Marked b p.2) hm fun _ _ hp => hp
  unfold allocateBlockForFileInode
  refine post_theInode_bind (.get_bind (.ite (fun hfull => absurd hfull hhi.ne) fun _ => ?_))
  refine post_onFs_bind (P := fun r t' => r = .ok b ∧ t' = t) ?_ ?_ ?_
  · rw [Post, hfind]
    exact ⟨rfl, rfl⟩
  · rintro e t' ⟨he, -⟩
    cases he
  · rintro _ _ ⟨⟨⟩, rfl⟩
    dsimp only
    refine .ite (fun hlt => absurd hlt (Nat.not_lt.mpr h15)) fun _ => ?_
    refine .ite (fun hsingle => ?_) fun hsingle => .ite (fun hdouble => ?_) fun hdouble => ?_
    · exact hrest _ (appendSingle_marked hw hok h h15 hsingle)
    · exact hrest _ (appendDouble_marked hw hok h (by omega) (by omega) hdouble)
    · exact hrest _ (appendTriple_marked hw hok h (by omega) (by omega) hhi)

/-- **Failed appends**: an append that is stopped is undone if and only if the search for its
first block is what fails. -/
theorem append_undone_iff (hw : s.Wf) (hmeta : s.MetaBits) (hok : s.InodeOk n)
    (hd : s.AppendDisturbed env n) :
    s.AppendUndone env n ↔ ∃ e t, (findFreeBlock env true).eval s = (.error e, t) := by
  have hne : n.iBlocks.toNat ≠ s.layout.maxFileBlocks := by
    intro hfull
    have heval : (allocateBlockForFileInode env).eval (n, s) = (.error .inodeFull, (n, s)) := by
      simp [allocateBlockForFileInode, eval_bind, hfull]
    rw [Fs.AppendDisturbed, heval] at hd
    rcases hd with ⟨f, -, k, hk, hk', -⟩ | he
    · exact absurd hk (Nat.not_le.mpr hk')
    · cases he
  have hs := findFreeBlock_searched env hw
  generalize hfind : (findFreeBlock env true).eval s = r at hs ⊢
  have herror : ∀ {e : Err} {ios : ℕ}, r = (.error e, s.ticked ios) → s.AppendUndone env n := by
    rintro e ios rfl
    have heval : (allocateBlockForFileInode env).eval (n, s) =
        (.error e, (n, s.ticked ios)) := by
      simp [allocateBlockForFileInode, eval_bind, hne, hfind]
    rw [Fs.AppendUndone, heval]
    exact ⟨⟨e, rfl⟩, rfl, rfl, rfl, fun _ _ => rfl⟩
  cases hs with
  | full => exact ⟨fun _ => ⟨_, _, rfl⟩, fun _ => herror rfl⟩
  | failed => exact ⟨fun _ => ⟨_, _, rfl⟩, fun _ => herror rfl⟩
  | @found b ios hserved hlt hblock hclear hleast =>
    constructor
    · rintro ⟨⟨e, he⟩, -, -, -, hbits⟩
      exfalso
      by_cases h15 : n.iBlocks.toNat < 15
      · simp [allocateBlockForFileInode, eval_bind, hne, hfind, h15] at he
      · have hmark := allocateBlockForFileInode_marked hw hok
          (Fs.taking_setBlockBit hw hmeta hlt ios) hfind (Nat.not_lt.mp h15)
          (lt_of_le_of_ne hok.le hne)
        cases (hbits b (hlt.trans_le hw.layout.blockBits)).symm.trans hmark.marked |>.symm.trans
          hclear
    · rintro ⟨e, t, he⟩
      cases he

/-- On a device that always fails, the search for the first block fails. -/
theorem append_undone_broken :
    Fs.roomy.AppendUndone { Env.calm with fails := some fun _ => true } Inode.zero :=
  (append_undone_iff Fs.roomy_start.1 Fs.roomy_start.2 (.zero _)
    (.inl ⟨_, rfl, Fs.roomy.ios, le_rfl, by decide +kernel, rfl⟩)).mpr
    ⟨.fileReadError, _, Prod.ext (by decide +kernel) rfl⟩

/-- A file of fifteen blocks of 256 bytes. -/
def Fs.fifteen : Inode × Fs := ((Fs.appendBlocks .calm 15).eval (Inode.zero, Fs.roomy)).2

/-- **A leaked block**: the sixteenth block of a file is found, and the search for the pointer
block it needs fails. -/
theorem append_leaks :
    Fs.fifteen.2.AppendDisturbed { Env.calm with fails := some fun k => k == 2 } Fs.fifteen.1 ∧
      ¬Fs.fifteen.2.AppendUndone { Env.calm with fails := some fun k => k == 2 } Fs.fifteen.1 := by
  refine ⟨.inl ⟨_, rfl, 2, by decide +kernel, by decide +kernel, rfl⟩, fun h => ?_⟩
  have hbit := h.2.2.2.2 24 (by decide +kernel)
  have hleak : ((allocateBlockForFileInode { Env.calm with fails := some fun k => k == 2 }).eval
      (Fs.fifteen.1, Fs.fifteen.2)).2.2.blockBit 24 = true ∧ Fs.fifteen.2.blockBit 24 = false := by
    decide +kernel
  cases hleak.1.symm.trans (hbit.trans hleak.2)

end Fail

end OsPi
