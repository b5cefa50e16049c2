import OsPi.Fs.BlockLookup
import OsPi.Fs.Sound
import OsPi.Fs.Vfs

/-!
# The Store of Files

What the file system is for: every inode number has attributes and a file, which is the
sequence of the contents of its blocks. `Fs.store` reads it off a state. `Effect s st s'`
says that an operation has led from `s` to `s'`, that the store is now `st`, and that nothing
else a caller can see has changed; each operation on inodes is given its effect on the store
here, and what is built on them is described in terms of the store alone.
-/

namespace OsPi

open Function List

/-! ### Stores -/

/-- The attributes and contents of every file, which inodes are allocated, and the
superblock. -/
structure Store where
  attrs : ℕ → Attributes
  /-- The numbers of the blocks of a file. -/
  blocks : ℕ → List ℕ
  /-- The contents of the blocks of a file. -/
  file : ℕ → List ℕ
  allocated : ℕ → Bool
  superblock : ℕ

namespace Store

variable (st : Store) (id : ℕ)

/-- Assign the attributes of a file. -/
def setAttrs (a : Attributes) : Store :=
  { st with attrs := update st.attrs id a }

/-- Assign the attributes and the blocks of a file. -/
def assign (a : Attributes) (blocks file : List ℕ) : Store :=
  { st with
    attrs := update st.attrs id a
    blocks := update st.blocks id blocks
    file := update st.file id file }

/-- Assign the blocks of a file. -/
def setBlocks (blocks file : List ℕ) : Store :=
  st.assign id { st.attrs id with iBlocks := UInt32.ofNat blocks.length } blocks file

/-- Add the block `b`, which holds `x`, to a file. -/
def append (b x : ℕ) : Store := st.setBlocks id (st.blocks id ++ [b]) (st.file id ++ [x])

/-- Write a block of a file. -/
def write (i data : ℕ) : Store :=
  { st with file := update st.file id ((st.file id).set i data) }

/-- Keep the first `k` blocks of a file, and make it empty. -/
def truncate (k : ℕ) : Store :=
  st.assign id
    { st.attrs id with iBlocks := UInt32.ofNat (min k (st.blocks id).length), size := 0 }
    ((st.blocks id).take k) ((st.file id).take k)

/-- A block is added to a file, or there is none left and nothing changes. -/
def Appends (r : Except Err ℕ) (st' : Store) : Prop :=
  (∃ b x, r = .ok b ∧ st' = st.append id b x) ∨
    ∃ e, r = .error e ∧ st' = st ∧ (e = .noFreeBlocks ∨ e = .inodeFull)

theorem assign_self (a : Attributes) :
    st.assign id a (st.blocks id) (st.file id) = st.setAttrs id a := by
  simp only [assign, setAttrs, update_eq_self]

theorem setAttrs_self : st.setAttrs id (st.attrs id) = st := by
  simp only [setAttrs, update_eq_self]

end Store

/-- The store of a state. -/
def Fs.store (s : Fs) : Store where
  attrs id := (s.volume.inode id).toAttributes
  blocks id := s.volume.dataBlocks (s.volume.inode id)
  file id := (s.volume.dataBlocks (s.volume.inode id)).map s.volume.block
  allocated := s.volume.inodeBit
  superblock := s.volume.block 0

/-- **An effect on the store**: from `s` to a sound `s'` with the store `st`, everything else
unchanged. -/
structure Fs.Effect (s : Fs) (st : Store) (s' : Fs) : Prop where
  sound : s'.Sound
  store : s'.store = st
  refs : s'.refs = s.refs
  frame : s'.frame = s.frame

namespace Fs

variable {s s' s'' : Fs} {st st' : Store} {id b : ℕ} {c : CacheNode} {n' : Inode}

theorem Effect.refl (h : s.Sound) : s.Effect s.store s := ⟨h, rfl, rfl, rfl⟩

theorem Effect.trans (h : s.Effect st s') (h' : s'.Effect st' s'') : s.Effect st' s'' :=
  ⟨h'.sound, h'.store, h'.refs.trans h.refs, h'.frame.trans h.frame⟩

theorem Effect.layout (h : s.Effect st s') : s'.layout = s.layout :=
  congrArg Frame.layout h.frame

end Fs

/-- **A computation with an effect on the store**: started in `s` it ends with `r`, and the
store is then `st`. -/
def FsM.Runs {α : Type} (m : FsM α) (s : Fs) (r : Except Err α) (st : Store) : Prop :=
  ∃ s', m.eval s = (r, s') ∧ s.Effect st s'

namespace Fs

variable {s s' s'' : Fs} {st st' : Store} {id b : ℕ} {c : CacheNode} {n' : Inode}

/-! ### Reading the store -/

theorem store_attrs (hid : s.layout.HasId id) : s.store.attrs id = (s.inode id).toAttributes := by
  simp only [Fs.store, volume_inode hid]

theorem Sound.store_blocks (h : s.Sound) (hid : s.layout.HasId id) :
    s.store.blocks id = s.dataBlocks (s.inode id) ∧
      s.store.file id = (s.dataBlocks (s.inode id)).map s.block := by
  have hok := h.inodeOk hid
  obtain ⟨hdata, -⟩ := volume_blocks fun x hx => (hok.range x (mem_append_right _ hx)).1
  simp only [Fs.store, volume_inode hid, hdata, true_and]
  refine map_congr_left fun x hx => volume_block ?_
  exact (hok.range x (mem_append_left _ hx)).1

theorem Sound.length_blocks (h : s.Sound) (hid : s.layout.HasId id) :
    (s.store.blocks id).length = (s.inode id).iBlocks.toNat := by
  have hle := (h.inodeOk hid).le
  rw [Layout.maxFileBlocks_eq] at hle
  rw [(h.store_blocks hid).1]
  exact length_dataOf hle

theorem length_file : (s.store.file id).length = (s.store.blocks id).length :=
  length_map _

/-! ### Operations on a cached inode -/

/-- What an operation on a cached inode does to the store. -/
theorem Update.store (h : s.Sound) (hc : s.node? id = some c) (hu : s.Update s' id n') :
    (s'.setInode id n').store =
      s.store.assign id n'.toAttributes (s'.dataBlocks n') ((s'.dataBlocks n').map s'.block) := by
  have hid := h.cache.hasId id c hc
  have hlay : s'.layout = s.layout := by rw [hu.eq]
  have hid' : s'.layout.HasId id := by rwa [hlay]
  have hc' : s'.node? id = some c := by
    rw [Fs.node?, show s'.icache = s.icache by rw [hu.eq]]
    exact hc
  have hvol := volume_setInode (n := n') hc' hid'
  have hino : (s'.setInode id n').volume.inode id = n' := by
    rw [hvol, Volume.inode_setInode, if_pos rfl]
  have hstep := hu.step
  -- what the inode has now
  have hown : (s'.setInode id n').volume.dataBlocks n' = s'.dataBlocks n' ∧
      ((s'.setInode id n').volume.dataBlocks n').map (s'.setInode id n').volume.block =
        (s'.dataBlocks n').map s'.block := by
    have hok := hstep.ok
    rw [hino] at hok
    have hrange : ∀ x ∈ (s'.setInode id n').volume.blocks n',
        s'.layout.dataStartBlock ≤ x := fun x hx => (hok.range x hx).1
    have hdata : (s'.setInode id n').volume.dataBlocks n' = s'.dataBlocks n' :=
      (volume_blocks' (s := s'.setInode id n')
        fun x hx => hrange x (mem_append_right _ hx)).1.symm
    refine ⟨hdata, ?_⟩
    rw [hdata]
    refine map_congr_left fun x hx => ?_
    exact volume_block (s := s'.setInode id n')
      (hrange x (mem_append_left _ (by rw [hdata]; exact hx)))
  -- the other inodes and their blocks are the old ones
  have hother : ∀ id' ≠ id, (s'.setInode id n').volume.inode id' = s.volume.inode id' ∧
      (s'.setInode id n').volume.dataBlocks (s.volume.inode id') =
        s.volume.dataBlocks (s.volume.inode id') ∧
      ∀ x ∈ s.volume.dataBlocks (s.volume.inode id'),
        (s'.setInode id n').volume.block x = s.volume.block x := by
    intro id' hne
    refine ⟨hstep.inode id' hne, ?_⟩
    by_cases h' : s.layout.HasId id'
    · have hblock : ∀ x ∈ s.volume.blocks (s.volume.inode id'),
          (s'.setInode id n').volume.block x = s.volume.block x := fun x hx =>
        hstep.block x ((h.owned.ok id' h').range x hx).2.2 (h.owned.disjoint id' id h' hid hne hx)
      exact ⟨(Volume.blocks_congr hstep.layout fun x hx =>
        hblock x (mem_append_right _ hx)).1, fun x hx => hblock x (mem_append_left _ hx)⟩
    · have hzero : s.volume.inode id' = Inode.zero := if_neg h'
      rw [hzero]
      exact ⟨rfl, fun x hx => by cases hx⟩
  have hsuper : (s'.setInode id n').volume.block 0 = s.volume.block 0 := by
    have hpos : 0 < s.layout.dataStartBlock := by
      have h1 := h.wf.layout.blockBitmapStart
      have h2 := h.wf.layout.inodeBitmapStart
      have h3 := h.wf.layout.inodeTableStart
      have h4 := h.wf.layout.dataStartBlock
      omega
    refine hstep.block 0 (h.owned.metaBits 0 hpos) fun hmem => ?_
    have := ((h.owned.ok id hid).range 0 hmem).1
    exact absurd this (by simpa [Fs.volume] using hpos.ne')
  have hibit : (s'.setInode id n').volume.inodeBit = s.volume.inodeBit := by
    rw [hvol]
    exact hu.inodeBit
  unfold Fs.store Store.assign
  rw [Store.mk.injEq]
  refine ⟨?_, ?_, ?_, hibit, hsuper⟩
  · funext id'
    rw [update_apply]
    split_ifs with hne
    · rw [hne, hino]
    · rw [(hother id' hne).1]
  · funext id'
    rw [update_apply]
    split_ifs with hne
    · rw [hne, hino, hown.1]
    · rw [(hother id' hne).1, (hother id' hne).2.1]
  · funext id'
    rw [update_apply]
    split_ifs with hne
    · rw [hne, hino, hown.2]
    · rw [(hother id' hne).1, (hother id' hne).2.1]
      exact map_congr_left (hother id' hne).2.2

/-! ### References and the store -/

theorem refs_setInode : (s.setInode id n').refs = s.refs := by
  funext id'
  rw [Fs.refs, node?_setInode, Fs.refs]
  split_ifs with hne
  · cases s.node? id' <;> rfl
  · rfl

theorem frame_setInode : (s.setInode id n').frame = s.frame := by
  simp only [Fs.frame, Fs.setInode, Fs.modifyNode]

/-- An operation on the inode of an open file. -/
theorem Update.effect (hu : s.Update s' id n') (h : s.Sound) (hc : s.node? id = some c)
    (hn : normalizeDefaultInodeFops n' = n') :
    s.Effect
      (s.store.assign id n'.toAttributes (s'.dataBlocks n') ((s'.dataBlocks n').map s'.block))
      (s'.setInode id n') := by
  refine ⟨h.setInode hc hu hn, hu.store h hc, ?_, ?_⟩
  · rw [refs_setInode]
    funext id'
    rw [Fs.refs, Fs.node?, show s'.icache = s.icache by rw [hu.eq], Fs.refs, Fs.node?]
  · rw [frame_setInode, hu.eq]
    rfl

end Fs

end OsPi
