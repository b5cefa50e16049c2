import OsPi.Fs.Contents
import OsPi.Fs.Operations
import OsPi.Lib.Machine

/-!
# Writing a File

`default_write` against the bytes of the file in the store. `Store.Spliced` says what a file is
after the first `k` bytes of a buffer have been stored from an offset on; an iteration of the
loop stores one more piece (`Spliced.piece`), and the blocks appended on the way hold nothing of
the file yet (`Spliced.append`). On a device that does not fail the loop ends with all bytes
stored or reports that a block could not be allocated (`defaultWriteLoop_spec`).

`Handle` is one open file, and its machine the calls made through it: writes, truncating opens
and seeks inside the file. In every state reached the blocks of the file cover its size and the
cursor is inside it, so that the next write is right (`writes_right`).
-/

namespace OsPi

open Function Comp List

/-! ### Stored bytes -/

/-- The store with the first `k` bytes of `buf` stored in the file `id` from `off` on. -/
structure Store.Spliced (st st' : Store) (bs id off k buf : ℕ) : Prop where
  size : (st'.attrs id).size.toNat = max (st.attrs id).size.toNat (off + k)
  bytes : ∀ j < max (st.attrs id).size.toNat (off + k), st'.byte bs id j =
    if off ≤ j ∧ j < off + k then Bytes.byte buf (j - off) else st.byte bs id j
  attrs : ∀ id' ≠ id, st'.attrs id' = st.attrs id'
  file : ∀ id' ≠ id, st'.file id' = st.file id'

namespace Store

variable {st st' : Store} {bs id off k buf i data : ℕ}

theorem attrs_append (b x : ℕ) : (st.append id b x).attrs id =
    { st.attrs id with iBlocks := UInt32.ofNat (st.blocks id ++ [b]).length } :=
  update_self ..

theorem attrs_setAttrs (a : Attributes) : (st.setAttrs id a).attrs id = a :=
  update_self ..

theorem attrs_setAttrs_of_ne (a : Attributes) {id' : ℕ} (hne : id' ≠ id) :
    (st.setAttrs id a).attrs id' = st.attrs id' := update_of_ne hne ..

theorem file_write (id' : ℕ) : (st.write id i data).file id' =
    if id' = id then (st.file id).set i data else st.file id' := update_apply ..

theorem attrs_append_of_ne (b x : ℕ) {id' : ℕ} (hne : id' ≠ id) :
    (st.append id b x).attrs id' = st.attrs id' := update_of_ne hne ..

theorem file_append (b x id' : ℕ) :
    (st.append id b x).file id' = if id' = id then st.file id ++ [x] else st.file id' :=
  update_apply ..

theorem blocks_append (b x id' : ℕ) :
    (st.append id b x).blocks id' = if id' = id then st.blocks id ++ [b] else st.blocks id' :=
  update_apply ..

theorem byte_write (hi : i < (st.file id).length) (j : ℕ) :
    (st.write id i data).byte bs id j =
      if j / bs = i then Bytes.byte data (j % bs) else st.byte bs id j := by
  rw [byte, file_write, if_pos rfl, getD_eq_getElem?_getD, getElem?_set]
  split_ifs with h h' h'
  · rfl
  · exact absurd h.symm h'
  · exact absurd h'.symm h
  · rw [← getD_eq_getElem?_getD]
    rfl

/-- Nothing is stored yet. -/
theorem Spliced.refl (hoff : off ≤ (st.attrs id).size.toNat) : st.Spliced st bs id off 0 buf where
  size := by omega
  bytes j _ := by rw [if_neg (by omega)]
  attrs _ _ := rfl
  file _ _ := rfl

/-- A new block holds no byte of the file. -/
theorem Spliced.append (h : st.Spliced st' bs id off k buf) (hbs : 0 < bs)
    (hcover : max (st.attrs id).size.toNat (off + k) ≤ (st'.file id).length * bs) (b x : ℕ) :
    st.Spliced (st'.append id b x) bs id off k buf where
  size := by
    rw [attrs_append]
    exact h.size
  bytes j hj := by
    have hlt : j / bs < (st'.file id).length := (Nat.div_lt_iff_lt_mul hbs).mpr (by omega)
    rw [← h.bytes j hj, byte, file_append, if_pos rfl, byte, getD_eq_getElem?_getD,
      getElem?_append_left hlt, getD_eq_getElem?_getD]
  attrs id' hne := by rw [attrs_append_of_ne _ _ hne, h.attrs id' hne]
  file id' hne := by rw [file_append, if_neg hne, h.file id' hne]

/-- **One more piece**: the bytes after the first `k` are stored in the block at the offset, and
the size follows. -/
theorem Spliced.piece {len : ℕ} {a : Attributes} (h : st.Spliced st' bs id off k buf)
    (hbs : 0 < bs) (hlen : (off + k) % bs + len ≤ bs) (hi : (off + k) / bs < (st'.file id).length)
    (hdata : ∀ j < bs, Bytes.byte data j =
      if (off + k) % bs ≤ j ∧ j < (off + k) % bs + len then
        Bytes.byte buf (k + (j - (off + k) % bs))
      else Bytes.byte ((st'.file id).getD ((off + k) / bs) 0) j)
    (ha : a.size.toNat = max (st.attrs id).size.toNat (off + (k + len))) :
    st.Spliced ((st'.write id ((off + k) / bs) data).setAttrs id a) bs id off (k + len) buf where
  size := by
    rw [attrs_setAttrs]
    exact ha
  bytes j hj := by
    have hmod := Nat.mod_lt j hbs
    have hsplit := Nat.div_add_mod j bs
    have hsplit' := Nat.div_add_mod (off + k) bs
    have hattrs : ((st'.write id ((off + k) / bs) data).setAttrs id a).byte bs id j =
      (st'.write id ((off + k) / bs) data).byte bs id j := rfl
    rw [hattrs, byte_write hi]
    by_cases hblock : j / bs = (off + k) / bs
    · -- in the block that has been written
      rw [if_pos hblock, hdata _ hmod]
      rw [hblock] at hsplit
      by_cases hin : (off + k) % bs ≤ j % bs ∧ j % bs < (off + k) % bs + len
      · rw [if_pos hin, if_pos (by omega)]
        congr 1
        omega
      · rw [if_neg hin, ← hblock]
        change st'.byte bs id j = _
        rw [h.bytes j (by omega)]
        congr 1
        exact propext ⟨fun _ => by omega, fun _ => by omega⟩
    · have hout : ¬(off + k ≤ j ∧ j < off + (k + len)) := by
        rintro ⟨h1, h2⟩
        refine hblock (Nat.div_eq_of_lt_le ?_ ?_)
        · rw [Nat.mul_comm]
          omega
        · rw [Nat.succ_mul, Nat.mul_comm]
          omega
      rw [if_neg hblock, h.bytes j (by omega)]
      congr 1
      exact propext ⟨fun _ => by omega, fun _ => by omega⟩
  attrs id' hne := by
    rw [attrs_setAttrs_of_ne _ hne]
    exact h.attrs id' hne
  file id' hne := by
    change (st'.write id ((off + k) / bs) data).file id' = _
    rw [file_write, if_neg hne]
    exact h.file id' hne

end Store

/-! ### The steps of the loop -/

section Steps

variable {env : Env} {s : Fs} {id i buf : ℕ} (hr : env.Reliable) (h : s.Sound)

/-- An inode with references is cached. -/
theorem Fs.exists_node (hrefs : 0 < s.refs id) : ∃ c, s.node? id = some c := by
  cases hc : s.node? id with
  | none =>
    rw [Fs.refs, hc] at hrefs
    exact absurd hrefs (Nat.lt_irrefl 0)
  | some c => exact ⟨c, rfl⟩

include h in
theorem Fs.Sound.block_ne_zero {b : ℕ} (hid : s.layout.HasId id)
    (hb : (s.store.blocks id)[i]? = some b) : b ≠ 0 := by
  have hmem := mem_of_getElem? hb
  rw [(h.store_blocks hid).1] at hmem
  have hrange := (h.inodeOk hid).range b (mem_append_left _ hmem)
  have hstart := h.wf.layout.dataStartBlock
  have hpos := h.wf.layout.numTableBlocks_pos
  omega

include hr h

/-- Storing a piece changes one block of the file. -/
theorem writePiece_runs {v : WriteVars} {len : ℕ} (buf : ℕ) (hid : s.layout.HasId id)
    (hb : (s.store.blocks id)[i]? = some v.blockNo) (hto : v.bytesToWrite = len)
    (hlen : v.start + len ≤ s.layout.bytesPerBlock) :
    ∃ data, (writePiece env buf v).Runs s (.ok ()) (s.store.write id i data) ∧
      ∀ j < s.layout.bytesPerBlock, Bytes.byte data j =
        if v.start ≤ j ∧ j < v.start + len then Bytes.byte buf (v.pos + (j - v.start))
        else Bytes.byte ((s.store.file id).getD i 0) j := by
  obtain ⟨hlt, hblock⟩ := h.block_of_file hid hb
  by_cases hpart : v.bytesToWrite < s.layout.bytesPerBlock
  · refine ⟨Bytes.write ((s.store.file id).getD i 0) v.start len (Bytes.read buf v.pos len),
      ⟨_, ?_, h.setBlock_effect hid hb _⟩, ?_⟩
    · rw [writePiece, eval_get_bind, if_pos hpart,
        eval_bind_of_ok (readBlock_eval hr hlt), hto, Int.toNat_natCast,
        writeBlock_eval hr hlt, hblock]
    · intro j _
      rw [Bytes.byte_write]
      split_ifs with hj
      · rw [Bytes.byte_read (by omega)]
      · rfl
  · -- a whole block is not read first
    refine ⟨Bytes.read buf v.pos s.layout.bytesPerBlock, ⟨_, ?_, h.setBlock_effect hid hb _⟩, ?_⟩
    · rw [writePiece, eval_get_bind, if_neg hpart, writeBlock_eval hr hlt]
    · intro j hj
      rw [Bytes.byte_read hj, if_pos (by omega)]
      congr 1
      omega

/-- The block at an index inside the file or at its end. -/
theorem getOrAllocateBlock_runs (hrefs : 0 < s.refs id)
    (hi : i ≤ (s.store.blocks id).length)
    (hmax : i < 12 + 2 * s.layout.blocksInSinglePtr ∨ (s.store.blocks id).length ≤ i) :
    ∃ r st s', (getOrAllocateBlock env id i).eval s = (r, s') ∧ s.Effect st s' ∧
      ((∃ b, r = .ok b ∧ (s.store.blocks id)[i]? = some b ∧ st = s.store) ∨
        i = (s.store.blocks id).length ∧ s.store.Appends id r st ∧
          (allocateNewBlockForFile env id).eval s = (r, s')) := by
  obtain ⟨c, hc⟩ := Fs.exists_node hrefs
  have hid := h.cache.hasId id c hc
  have hlook := getIthBlockOfFile_eval hr h hc hmax
  rcases Nat.lt_or_eq_of_le hi with hlt | heq
  · obtain ⟨b, hb⟩ : ∃ b, (s.store.blocks id)[i]? = some b := ⟨_, getElem?_eq_getElem hlt⟩
    refine ⟨.ok b, s.store, s, ?_, .refl h, .inl ⟨b, rfl, hb, rfl⟩⟩
    rw [getD_eq_getElem?_getD, hb, Option.getD_some] at hlook
    rw [getOrAllocateBlock, eval_bind_of_ok hlook, if_neg (h.block_ne_zero hid hb), eval_pure]
  · obtain ⟨r, st, ⟨s', heval, heff⟩, happ⟩ := allocateNewBlockForFile_runs hr h hc
    refine ⟨r, st, s', ?_, heff, .inr ⟨heq, happ, heval⟩⟩
    rw [getD_eq_getElem?_getD, getElem?_eq_none (by omega), Option.getD_none] at hlook
    rw [getOrAllocateBlock, eval_bind_of_ok hlook, if_pos rfl, heval]

end Steps

/-! ### The loop -/

/-- The state after the first `k` bytes of `buf` have been stored in the file `id` from `off` on,
and nothing else has happened. -/
structure Fs.Stored (s₀ s : Fs) (id off k buf : ℕ) : Prop where
  effect : s₀.Effect s.store s
  spliced : s₀.store.Spliced s.store s₀.layout.bytesPerBlock id off k buf
  cover : (s.store.attrs id).size.toNat ≤
    (s.store.blocks id).length * s₀.layout.bytesPerBlock

/-- The variables of the loop when `k` of `n` bytes have been stored. -/
structure WriteVars.At (v : WriteVars) (s : Fs) (bs id off n k : ℕ) : Prop where
  left : v.n = n - k
  offset : v.offset = off + k
  blockIndex : v.blockIndex = (off + k) / bs
  start : v.start = (off + k) % bs
  bytesToWrite : v.bytesToWrite = (min (n - k) (bs - (off + k) % bs) : ℕ)
  total : v.total = k
  pos : v.pos = k
  size : v.size = toInt32 (s.store.attrs id).size.toNat
  block : (s.store.blocks id)[(off + k) / bs]? = some v.blockNo
  first : v.isFirst = false → (off + k) % bs = 0

theorem not_fatal_of_alloc {e : Err} (he : e = .noFreeBlocks ∨ e = .inodeFull) :
    ¬e.fatal = true := by
  rcases he with rfl | rfl <;> decide

section Loop

variable {env : Env} {s₀ s : Fs} {id off n k buf fuel : ℕ} {v : WriteVars}

/-- The part of an iteration that makes the size follow the offset. -/
def growSize (id : ℕ) (v : WriteVars) : FsM Unit :=
  if toUint32 v.size < toUint32 (v.offset + v.bytesToWrite) then
    updateFileSize id (toUint32 (v.offset + v.bytesToWrite))
  else pure ()

/-- The variables for the next block. -/
def WriteVars.next (v : WriteVars) (bs blockNo : ℕ) : WriteVars where
  blockIndex := (v.blockIndex + 1) % 2 ^ 32
  blockNo
  start := 0
  isFirst := false
  bytesToWrite := min (toInt32 (toSizeT (v.n - v.bytesToWrite))) bs
  n := toSizeT (v.n - v.bytesToWrite)
  offset := toUint32 (v.offset + v.bytesToWrite)
  cursor := toUint32 (v.offset + v.bytesToWrite)
  size := if toUint32 v.size < toUint32 (v.offset + v.bytesToWrite) then
    toInt32 (toUint32 (v.offset + v.bytesToWrite)) else v.size
  total := toInt32 (v.total + v.bytesToWrite)
  pos := v.pos + if v.isFirst then v.bytesToWrite.toNat else bs

/-- The part of an iteration after its piece has been stored. -/
def continueWrite (env : Env) (id buf fuel : ℕ) (v : WriteVars) : FsM WriteOut :=
  if toSizeT (v.n - v.bytesToWrite) = 0 then
    pure ⟨.ok (toInt32 (v.total + v.bytesToWrite)), toUint32 (v.offset + v.bytesToWrite)⟩
  else do
    match ← tryErr (getOrAllocateBlock env id ((v.blockIndex + 1) % 2 ^ 32)) with
    | .error e => pure ⟨.error e, toUint32 (v.offset + v.bytesToWrite)⟩
    | .ok blockNo => do
      let s ← get
      defaultWriteLoop env id buf fuel (v.next s.layout.bytesPerBlock blockNo)

/-- An iteration whose piece is stored. -/
theorem defaultWriteLoop_of_piece {s₁ s₂ : Fs} (hn : v.n ≠ 0) (hb : v.blockNo ≠ 0)
    (hpiece : (writePiece env buf v).eval s = (.ok (), s₁))
    (hgrow : (growSize id v).eval s₁ = (.ok (), s₂)) :
    (defaultWriteLoop env id buf (fuel + 1) v).eval s =
      (continueWrite env id buf fuel v).eval s₂ := by
  rw [defaultWriteLoop, if_neg hn, if_neg hb, eval_bind_of_ok (tryErr_eval_ok hpiece)]
  by_cases hsize : toUint32 v.size < toUint32 (v.offset + v.bytesToWrite)
  · rw [growSize, if_pos hsize] at hgrow
    rw [if_pos hsize]
    exact eval_bind_of_ok hgrow
  · rw [growSize, if_neg hsize, eval_pure] at hgrow
    cases hgrow
    exact congrArg (fun m => eval m s₁) (if_neg hsize)

section Next

variable {bs : ℕ} (hv : v.At s bs id off n k)
include hv

theorem WriteVars.At.toNat_piece :
    v.bytesToWrite.toNat = min (n - k) (bs - (off + k) % bs) := by
  rw [hv.bytesToWrite, Int.toNat_natCast]

theorem WriteVars.At.cast_piece : v.bytesToWrite = (v.bytesToWrite.toNat : ℤ) := by
  rw [hv.toNat_piece, hv.bytesToWrite]

section Sums

variable (hk : k ≤ n) (h31 : off + n < 2 ^ 31)
include hk h31

theorem WriteVars.At.left_next :
    toSizeT (v.n - v.bytesToWrite) = n - (k + v.bytesToWrite.toNat) := by
  have hlen := hv.toNat_piece
  have hsub : (v.n : ℤ) - v.bytesToWrite = (n - (k + v.bytesToWrite.toNat) : ℕ) := by
    rw [hv.left, hv.cast_piece, Int.toNat_natCast]
    omega
  rw [hsub, toSizeT_of_lt (by omega)]

theorem WriteVars.At.offset_next :
    toUint32 (v.offset + v.bytesToWrite) = off + (k + v.bytesToWrite.toNat) := by
  have hlen := hv.toNat_piece
  have hsum : (v.offset : ℤ) + v.bytesToWrite = (off + (k + v.bytesToWrite.toNat) : ℕ) := by
    rw [hv.offset, hv.cast_piece, Int.toNat_natCast]
    omega
  rw [hsum, toUint32_of_lt (by omega)]

theorem WriteVars.At.total_next :
    toInt32 (v.total + v.bytesToWrite) = (k + v.bytesToWrite.toNat : ℕ) := by
  have hlen := hv.toNat_piece
  have hsum : v.total + v.bytesToWrite = (k + v.bytesToWrite.toNat : ℕ) := by
    rw [hv.total, hv.cast_piece, Int.toNat_natCast]
    omega
  rw [hsum, toInt32_of_lt (by omega) (by omega)]

theorem WriteVars.At.blockIndex_next : (v.blockIndex + 1) % 2 ^ 32 = (off + k) / bs + 1 := by
  have hle : (off + k) / bs ≤ off + k := Nat.div_le_self _ _
  rw [hv.blockIndex]
  exact Nat.mod_eq_of_lt (by omega)

end Sums

variable (hbs : 0 < bs) (hmore : k + v.bytesToWrite.toNat < n)
include hbs hmore

/-- A piece that is not the last ends with its block. -/
theorem WriteVars.At.add_piece :
    off + (k + v.bytesToWrite.toNat) = bs * ((off + k) / bs + 1) := by
  have hlen := hv.toNat_piece
  have hsplit := Nat.div_add_mod (off + k) bs
  have hmod := Nat.mod_lt (off + k) hbs
  rw [Nat.mul_succ]
  omega

theorem WriteVars.At.div_next :
    (off + (k + v.bytesToWrite.toNat)) / bs = (off + k) / bs + 1 := by
  rw [hv.add_piece hbs hmore, Nat.mul_div_cancel_left _ hbs]

/-- The variables for the next block are right. -/
theorem WriteVars.At.next {s' : Fs} {b : ℕ} (h31 : off + n < 2 ^ 31)
    (hsize : (s'.store.attrs id).size.toNat =
      max (s.store.attrs id).size.toNat (off + (k + v.bytesToWrite.toNat)))
    (hb : (s'.store.blocks id)[(off + k) / bs + 1]? = some b) :
    (v.next bs b).At s' bs id off n (k + v.bytesToWrite.toNat) := by
  have hk : k ≤ n := by omega
  have hmod : (off + (k + v.bytesToWrite.toNat)) % bs = 0 := by
    rw [hv.add_piece hbs hmore, Nat.mul_mod_right]
  have hdiv := hv.div_next hbs hmore
  refine ⟨hv.left_next hk h31, hv.offset_next hk h31, (hv.blockIndex_next hk h31).trans hdiv.symm,
    hmod.symm, ?_, hv.total_next hk h31, ?_, ?_, hdiv ▸ hb, fun _ => hmod⟩
  · simp only [WriteVars.next, hv.left_next hk h31]
    rw [toInt32_of_lt (by omega) (by omega), hmod]
    omega
  · -- the pointer moves by the piece or by a whole block, which is the same after the first
    have hlen := hv.toNat_piece
    simp only [WriteVars.next, hv.pos]
    cases hfirst : v.isFirst with
    | false =>
      have := hv.first hfirst
      simp only [Bool.false_eq_true, if_false]
      omega
    | true => simp only [if_true]
  · have hF := (s.store.attrs id).size.toNat_lt
    simp only [WriteVars.next, hv.offset_next hk h31, hv.size, toUint32_toInt32 hF]
    rw [hsize]
    split_ifs with hgrows
    · rw [max_eq_right hgrows.le]
    · rw [max_eq_left (by omega)]

end Next

/-- Storing a piece leads from `k` bytes stored to `k` and its length. -/
theorem Fs.Stored.piece (hr : env.Reliable) (hst : s₀.Stored s id off k buf)
    (hrefs : 0 < s₀.refs id) (hv : v.At s s₀.layout.bytesPerBlock id off n k) (hk : k < n)
    (h31 : off + n < 2 ^ 31) :
    ∃ s₁ s₂, (writePiece env buf v).eval s = (.ok (), s₁) ∧ (growSize id v).eval s₁ = (.ok (), s₂) ∧
      s₀.Stored s₂ id off (k + v.bytesToWrite.toNat) buf ∧
      s₂.store.blocks id = s.store.blocks id := by
  have h := hst.effect.sound
  have hlay := hst.effect.layout
  obtain ⟨c, hc⟩ : ∃ c, s.node? id = some c := Fs.exists_node (by rw [hst.effect.refs]; exact hrefs)
  have hid := h.cache.hasId id c hc
  have hbs := h.wf.layout.bytesPerBlock_bounds
  rw [hlay] at hbs
  have hmod := Nat.mod_lt (off + k) (show 0 < s₀.layout.bytesPerBlock by omega)
  have hto := hv.cast_piece
  have hlen := hv.toNat_piece
  have hoffset := hv.offset_next hk.le h31
  generalize v.bytesToWrite.toNat = len at hto hlen hoffset ⊢
  have hfit : v.start + len ≤ s.layout.bytesPerBlock := by
    rw [hv.start, hlay]
    omega
  obtain ⟨data, ⟨s₁, hpiece, heff₁⟩, hdata⟩ :=
    writePiece_runs hr h buf hid hv.block hto hfit
  rw [hlay, hv.start, hv.pos] at hdata
  -- the size follows
  obtain ⟨F, hF⟩ : ∃ F, F = (s.store.attrs id).size.toNat := ⟨_, rfl⟩
  have hFlt : F < 2 ^ 32 := hF ▸ (s.store.attrs id).size.toNat_lt
  have hsize : toUint32 v.size = F := by rw [hv.size, ← hF, toUint32_toInt32 hFlt]
  obtain ⟨c₁, hc₁⟩ : ∃ c, s₁.node? id = some c :=
    Fs.exists_node (by rw [heff₁.refs, hst.effect.refs]; exact hrefs)
  have hattrs₁ : s₁.store.attrs id = s.store.attrs id := by rw [heff₁.store]; rfl
  obtain ⟨s₂, a, hgrow, heff₂, ha⟩ : ∃ s₂ a, (growSize id v).eval s₁ = (.ok (), s₂) ∧
      s₁.Effect (s₁.store.setAttrs id a) s₂ ∧ a.size.toNat = max F (off + (k + len)) := by
    unfold growSize
    rw [hsize, hoffset]
    by_cases hgrows : F < off + (k + len)
    · obtain ⟨s₂, heval, heff⟩ := updateFileSize_runs heff₁.sound hc₁ (off + (k + len))
      refine ⟨s₂, _, by rw [if_pos hgrows, heval], heff, ?_⟩
      rw [max_eq_right hgrows.le]
      exact UInt32.toNat_ofNat_of_lt' (show _ < 2 ^ 32 by omega)
    · refine ⟨s₁, s₁.store.attrs id, by rw [if_neg hgrows, eval_pure], ?_, ?_⟩
      · rw [Store.setAttrs_self]
        exact .refl heff₁.sound
      · rw [hattrs₁, ← hF]
        omega
  have hstore : s₂.store = (s.store.write id ((off + k) / s₀.layout.bytesPerBlock) data).setAttrs
      id a := by
    rw [heff₂.store, heff₁.store]
  have hidx : (off + k) / s₀.layout.bytesPerBlock < (s.store.blocks id).length :=
    (List.getElem?_eq_some_iff.mp hv.block).1
  have hsum : max F (off + (k + len)) =
      max (s₀.store.attrs id).size.toNat (off + (k + len)) := by
    rw [hF, hst.spliced.size]
    omega
  have heff : s₀.Effect s₂.store s₂ := by
    have := (hst.effect.trans heff₁).trans heff₂
    rwa [← heff₂.store] at this
  refine ⟨s₁, s₂, hpiece, hgrow, ⟨heff, ?_, ?_⟩, by rw [hstore]; rfl⟩
  · rw [hstore]
    exact hst.spliced.piece (by omega) (by omega) (by rw [Fs.length_file]; exact hidx) hdata
      (ha.trans hsum)
  · have hcover := hst.cover
    have hblocks : s₂.store.blocks id = s.store.blocks id := by rw [hstore]; rfl
    have hattrs : s₂.store.attrs id = a := by rw [hstore, Store.attrs_setAttrs]
    have hend : off + k + len ≤ (s.store.blocks id).length * s₀.layout.bytesPerBlock := by
      have hsplit := Nat.div_add_mod (off + k) s₀.layout.bytesPerBlock
      have hmul := Nat.mul_le_mul_left s₀.layout.bytesPerBlock (Nat.succ_le_of_lt hidx)
      rw [Nat.mul_succ, Nat.mul_comm s₀.layout.bytesPerBlock (s.store.blocks id).length] at hmul
      omega
    rw [hattrs, hblocks, ha]
    omega

theorem Fs.Stored.of_effect {s' : Fs} (hst : s₀.Stored s id off k buf)
    (heff : s.Effect s.store s') : s₀.Stored s' id off k buf := by
  have heff' := hst.effect.trans heff
  rw [← heff.store] at heff'
  refine ⟨heff', ?_, ?_⟩ <;> rw [heff.store]
  exacts [hst.spliced, hst.cover]

/-- An append keeps what is stored. -/
theorem Fs.Stored.append {s' : Fs} {b x : ℕ} (hst : s₀.Stored s id off k buf)
    (heff : s.Effect (s.store.append id b x) s') : s₀.Stored s' id off k buf := by
  have hbs := hst.effect.sound.wf.layout.bytesPerBlock_bounds
  rw [hst.effect.layout] at hbs
  have hcover := hst.cover
  have hsize := hst.spliced.size
  refine ⟨?_, ?_, ?_⟩
  · have := hst.effect.trans heff
    rwa [← heff.store] at this
  · rw [heff.store]
    refine hst.spliced.append (by omega) ?_ b x
    rw [Fs.length_file]
    omega
  · rw [heff.store, Store.attrs_append, Store.blocks_append, if_pos rfl, length_append,
      length_singleton, Nat.succ_mul]
    exact hcover.trans (Nat.le_add_right _ _)

/-- **The loop** ends with all bytes stored or reports that there is no block for the next ones. The
blocks of the file may lie where the lookup is wrong, except those it has to find. -/
theorem defaultWriteLoop_spec (hr : env.Reliable) (hrefs : 0 < s₀.refs id) (h31 : off + n < 2 ^ 31)
    (hst : s₀.Stored s id off k buf) (hv : v.At s s₀.layout.bytesPerBlock id off n k) (hk : k < n)
    (hlow : (s.store.blocks id).length ≤
      max (12 + 2 * s₀.layout.blocksInSinglePtr) ((off + k) / s₀.layout.bytesPerBlock + 1))
    (hfuel : n - k ≤ fuel) :
    ∃ out s' k', (defaultWriteLoop env id buf fuel v).eval s = (.ok out, s') ∧
      s₀.Stored s' id off k' buf ∧
      (k' = n ∧ out = ⟨.ok n, off + n⟩ ∨
        k' < n ∧ ∃ e t, out = ⟨.error e, off + k'⟩ ∧
          (allocateNewBlockForFile env id).eval t = (.error e, s')) := by
  induction fuel generalizing s v k with
  | zero => omega
  | succ fuel ih =>
    obtain ⟨s₁, s₂, hpiece, hgrow, hst₂, hblocks⟩ := hst.piece hr hrefs hv hk h31
    have h := hst.effect.sound
    have hlay := hst.effect.layout
    have hbs := h.wf.layout.bytesPerBlock_bounds
    rw [hlay] at hbs
    obtain ⟨c, hc⟩ := Fs.exists_node (s := s) (by rw [hst.effect.refs]; exact hrefs)
    rw [defaultWriteLoop_of_piece (by rw [hv.left]; omega)
      (h.block_ne_zero (h.cache.hasId id c hc) hv.block) hpiece hgrow, continueWrite]
    have hlen := hv.toNat_piece
    have hmod := Nat.mod_lt (off + k) (show 0 < s₀.layout.bytesPerBlock by omega)
    rw [hv.left_next hk.le h31, hv.offset_next hk.le h31, hv.total_next hk.le h31,
      hv.blockIndex_next hk.le h31]
    by_cases hlast : n - (k + v.bytesToWrite.toNat) = 0
    · -- the last piece
      have hn : k + v.bytesToWrite.toNat = n := by omega
      rw [hn] at hst₂ ⊢
      rw [if_pos (Nat.sub_self n)]
      exact ⟨_, s₂, n, eval_pure .., hst₂, .inl ⟨rfl, rfl⟩⟩
    · rw [if_neg hlast]
      have hdiv := hv.div_next (by omega) (by omega)
      have hidx : (off + k) / s₀.layout.bytesPerBlock < (s.store.blocks id).length :=
        (List.getElem?_eq_some_iff.mp hv.block).1
      have hsize : (s₂.store.attrs id).size.toNat =
          max (s.store.attrs id).size.toNat (off + (k + v.bytesToWrite.toNat)) := by
        rw [hst₂.spliced.size, hst.spliced.size]
        omega
      obtain ⟨r, st, s₃, hlook, heff, ⟨b, rfl, hb, rfl⟩ | ⟨hend, happ, halloc⟩⟩ :=
        getOrAllocateBlock_runs (i := (off + k) / s₀.layout.bytesPerBlock + 1) hr
          hst₂.effect.sound (by rw [hst₂.effect.refs]; exact hrefs) (by rw [hblocks]; omega)
          (by rw [hblocks, hst₂.effect.layout]; omega)
      · -- the file has the block
        have hst₃ := hst₂.of_effect heff
        rw [eval_bind_of_ok (tryErr_eval_ok hlook)]
        simp only
        rw [eval_get_bind, hst₃.effect.layout]
        refine ih hst₃ (hv.next (by omega) (by omega) h31 ?_ ?_) (by omega) ?_ (by omega)
        · rw [heff.store, hsize]
        · rw [heff.store, hb]
        · rw [heff.store, hblocks, hdiv]
          omega
      · rcases happ with ⟨b, x, rfl, rfl⟩ | ⟨e, rfl, rfl, he⟩
        · -- it is appended
          have hst₃ := hst₂.append heff
          have hblocks₃ : s₃.store.blocks id = s.store.blocks id ++ [b] := by
            rw [heff.store, Store.blocks_append, if_pos rfl, hblocks]
          rw [hblocks] at hend
          rw [eval_bind_of_ok (tryErr_eval_ok hlook)]
          simp only
          rw [eval_get_bind, hst₃.effect.layout]
          refine ih hst₃ (hv.next (by omega) (by omega) h31 ?_ ?_) (by omega) ?_ (by omega)
          · rw [heff.store, Store.attrs_append]
            exact hsize
          · rw [hblocks₃, hend, getElem?_concat_length]
          · rw [hblocks₃, length_append, length_singleton, hdiv]
            omega
        · -- there is none left
          have hst₃ := hst₂.of_effect heff
          have hfail := tryErr_eval_error hlook
          rw [if_neg (not_fatal_of_alloc he)] at hfail
          rw [eval_bind_of_ok hfail]
          exact ⟨_, s₃, _, eval_pure .., hst₃, .inr ⟨by omega, e, s₂, rfl, halloc⟩⟩

end Loop

/-! ### The calls through a handle -/

/-- The table of open files is no part of what makes a state sound. -/
theorem Fs.Sound.of_oft {s : Fs} (h : s.Sound) (oft : List (Option OftEntry)) :
    Fs.Sound { s with oft } where
  wf := ⟨h.wf.layout, h.wf.length_disk, h.wf.blockCount_eq⟩
  cache := ⟨h.cache.nodup, h.cache.hasId, h.cache.refs, h.cache.normal⟩
  owned := h.owned
  clean := h.clean

/-- **A seek inside the file** moves the cursor and does nothing else. -/
theorem kLseek_inside {env : Env} {s : Fs} {fd : ℕ} {offset : ℤ} {whence : Whence}
    {entry : OftEntry} (hr : env.Reliable) (h : s.Sound) (hm : s.isMounted = true)
    (hfd : s.oft[fd]? = some (some entry)) (hrefs : 0 < s.refs entry.inoId)
    (hcover : (s.store.attrs entry.inoId).size.toNat ≤
      (s.store.blocks entry.inoId).length * s.layout.bytesPerBlock)
    (hlow : (s.store.blocks entry.inoId).length ≤ 12 + s.layout.blocksInSinglePtr)
    (h0 : 0 ≤ offset)
    (hin : seekTarget entry.cursor.toNat (s.store.attrs entry.inoId).size.toNat offset whence ≤
      (s.store.attrs entry.inoId).size.toNat) :
    (kLseek env fd offset whence).eval s =
      (.ok (seekTarget entry.cursor.toNat (s.store.attrs entry.inoId).size.toNat offset whence),
        { s with oft := s.oft.set fd (some { entry with cursor := UInt32.ofNat (seekTarget
          entry.cursor.toNat (s.store.attrs entry.inoId).size.toNat offset whence) }) }) := by
  obtain ⟨c, hc⟩ := Fs.exists_node hrefs
  have hbs := h.wf.layout.bytesPerBlock_bounds
  have hentry : (getOftEntryByFd fd).eval s = (.ok entry, s) := by
    rw [getOftEntryByFd, eval_get_bind]
    simp only [hfd]
    rfl
  generalize hT : seekTarget entry.cursor.toNat (s.store.attrs entry.inoId).size.toNat offset
    whence = target at hin ⊢
  generalize hF : (s.store.attrs entry.inoId).size.toNat = size at *
  have hsize : size + s.layout.bytesPerBlock < 2 ^ 31 := by
    have hmul := Nat.mul_le_mul_right s.layout.bytesPerBlock hlow
    have hS : s.layout.blocksInSinglePtr * 4 ≤ s.layout.bytesPerBlock := Nat.div_mul_le_self _ _
    have hprod := Nat.mul_le_mul (show 12 + s.layout.blocksInSinglePtr ≤ 1036 by omega) hbs.2
    omega
  have hback : toInt32 ((target : ℤ) - size) = (target : ℤ) - size :=
    Int.bmod_eq_of_le (by omega) (by omega)
  obtain ⟨i, hi, hindex⟩ : ∃ i, i ≤ (s.store.blocks entry.inoId).length ∧
      toUint32 ((toInt32 (toInt32 size + s.layout.bytesPerBlock - 1)).tdiv
        s.layout.bytesPerBlock) = i := by
    refine ⟨(size + s.layout.bytesPerBlock - 1) / s.layout.bytesPerBlock, ?_, ?_⟩
    · refine Nat.lt_succ_iff.mp ((Nat.div_lt_iff_lt_mul (by omega)).mpr ?_)
      rw [Nat.succ_mul]
      omega
    · have hsum : (size : ℤ) + s.layout.bytesPerBlock - 1 =
        (size + s.layout.bytesPerBlock - 1 : ℕ) := by omega
      have hle := Nat.div_le_self (size + s.layout.bytesPerBlock - 1) s.layout.bytesPerBlock
      have hsize' : toInt32 size = size := toInt32_of_lt (by omega) (by omega)
      rw [hsize', hsum, toInt32_of_lt (by omega) (by omega),
        ← Int.ofNat_tdiv, toUint32_of_lt (by omega)]
  have hlook := getIthBlockOfFile_eval (i := i) hr (h.of_oft (s.oft.set fd
    (some { entry with cursor := UInt32.ofNat target }))) hc (.inl (by
      change i < 12 + 2 * s.layout.blocksInSinglePtr
      have := h.wf.layout.blocksInSinglePtr_ge
      omega))
  rw [kLseek, if_neg (by omega)]
  dsimp only
  rw [eval_get_bind, if_neg (by rw [hm]; decide),
    eval_bind_of_ok hentry, eval_bind_of_ok (getFileSize_eval h hc), hF, hT]
  rw [setOftEntry, eval_modify_bind, hindex, eval_bind_of_ok hlook]
  rw [if_neg (fun hf => absurd hf.1 (by omega)), if_neg (fun hf => absurd hf.1 (by omega)), hback]
  have htoNat : ((target : ℤ) - size).toNat = 0 := by omega
  rw [htoNat, fillBlocks, eval_bind_of_ok (eval_pure ..), if_neg (by omega)]
  exact eval_pure ..

/-- An open file: the file system, the mode it was opened with and the cursor. -/
structure Handle where
  fs : Fs
  mode : UInt8
  cursor : ℕ

/-- What is done through a handle. -/
inductive HandleOp
  | write (buf n : ℕ)
  | truncatingOpen (mode : UInt8)
  | seek (cursor : ℕ)

namespace Handle

/-- Where the next write starts. -/
def offset (h : Handle) (id : ℕ) : ℕ :=
  if h.mode &&& oAppend ≠ 0 then (h.fs.store.attrs id).size.toNat else h.cursor

/-- The machine of the calls through a handle of the file `id`, each with a device of its own. A
seek goes to a position inside the file or to its end, where it is as in `kLseek_inside`. -/
def step (id : ℕ) : Machine Handle (Env × HandleOp)
  | h, (env, .write buf n) =>
    match (defaultWrite env id h.mode h.cursor buf n).eval h.fs with
    | (.ok out, fs) => some ⟨fs, h.mode, out.cursor⟩
    | (.error _, _) => none
  | h, (env, .truncatingOpen mode) =>
    match (clearBlocksOfFile env id).eval h.fs with
    | (.ok _, fs) => some ⟨fs, mode, 0⟩
    | (.error _, _) => none
  | h, (_, .seek cursor) =>
    if cursor ≤ (h.fs.store.attrs id).size.toNat then some { h with cursor } else none

/-- The device does not fail, and a write meets a file of at most `12 + S` blocks and leaves its
size below `2 ^ 31`. -/
def Small (id : ℕ) (h : Handle) : Env × HandleOp → Prop
  | (env, .write _ n) => env.Reliable ∧
      (h.fs.store.blocks id).length ≤ 12 + h.fs.layout.blocksInSinglePtr ∧
      h.offset id + n < 2 ^ 31
  | (env, _) => env.Reliable

/-- The handle of an empty file that has just been opened. -/
structure Fresh (id : ℕ) (h : Handle) : Prop where
  sound : h.fs.Sound
  refs : 0 < h.fs.refs id
  size : (h.fs.store.attrs id).size = 0
  cursor : h.cursor = 0

/-- What the calls keep: the blocks of the file cover its size, and the cursor is not past it. -/
structure Ok (id : ℕ) (h : Handle) : Prop where
  sound : h.fs.Sound
  refs : 0 < h.fs.refs id
  cover : (h.fs.store.attrs id).size.toNat ≤
    (h.fs.store.blocks id).length * h.fs.layout.bytesPerBlock
  cursor : h.cursor ≤ (h.fs.store.attrs id).size.toNat

variable {env : Env} {id buf n : ℕ} {h h' : Handle}

theorem Fresh.ok (hf : h.Fresh id) : h.Ok id where
  sound := hf.sound
  refs := hf.refs
  cover := by
    rw [hf.size]
    exact Nat.zero_le _
  cursor := by
    rw [hf.cursor]
    exact Nat.zero_le _

theorem Ok.offset_le (hok : h.Ok id) : h.offset id ≤ (h.fs.store.attrs id).size.toNat := by
  unfold offset
  split_ifs
  · exact le_refl _
  · exact hok.cursor

/-- The call is right: it stores the buffer at the offset, returns `n` and moves the cursor. With
nothing to write the cursor stays where it is. -/
structure Right (id buf n : ℕ) (h : Handle) (out : WriteOut) (fs : Fs) : Prop where
  ret : out.ret = .ok (n : ℤ)
  moved : out.cursor = if n = 0 then h.cursor else h.offset id + n
  spliced : h.fs.store.Spliced fs.store h.fs.layout.bytesPerBlock id (h.offset id) n buf

/-- The variables at the start of the loop. -/
def vars (h : Handle) (id n blockNo : ℕ) : WriteVars where
  blockIndex := h.offset id / h.fs.layout.bytesPerBlock
  blockNo
  start := h.offset id % h.fs.layout.bytesPerBlock
  isFirst := true
  bytesToWrite := min (toInt32 n)
    ((h.fs.layout.bytesPerBlock : ℤ) - (h.offset id % h.fs.layout.bytesPerBlock : ℕ))
  n
  offset := h.offset id
  cursor := h.cursor
  size := toInt32 (h.fs.store.attrs id).size.toNat
  total := 0
  pos := 0

theorem vars_at {s : Fs} {b : ℕ} (hbs : 0 < h.fs.layout.bytesPerBlock)
    (h31 : h.offset id + n < 2 ^ 31)
    (hsize : (s.store.attrs id).size = (h.fs.store.attrs id).size)
    (hb : (s.store.blocks id)[h.offset id / h.fs.layout.bytesPerBlock]? = some b) :
    (h.vars id n b).At s h.fs.layout.bytesPerBlock id (h.offset id) n 0 := by
  have hmod := Nat.mod_lt (h.offset id) hbs
  refine ⟨rfl, rfl, rfl, rfl, ?_, rfl, rfl, ?_, hb, nofun⟩
  · have hn : toInt32 n = n := toInt32_of_lt (by omega) (by omega)
    simp only [vars, hn, Nat.add_zero, Nat.sub_zero]
    omega
  · rw [hsize, vars]

theorem Ok.of_stored {fs : Fs} {k : ℕ} (hok : h.Ok id)
    (hst : h.fs.Stored fs id (h.offset id) k buf) {cursor : ℕ}
    (hcur : cursor ≤ max (h.fs.store.attrs id).size.toNat (h.offset id + k)) :
    Ok id ⟨fs, h.mode, cursor⟩ where
  sound := hst.effect.sound
  refs := by
    rw [hst.effect.refs]
    exact hok.refs
  cover := by
    rw [hst.effect.layout]
    exact hst.cover
  cursor := by
    rw [hst.spliced.size]
    exact hcur

/-- The loop from the first block on. -/
theorem Ok.loop {s : Fs} {b : ℕ} (hok : h.Ok id) (hr : env.Reliable)
    (h31 : h.offset id + n < 2 ^ 31) (hst : h.fs.Stored s id (h.offset id) 0 buf)
    (hsize : (s.store.attrs id).size = (h.fs.store.attrs id).size)
    (hb : (s.store.blocks id)[h.offset id / h.fs.layout.bytesPerBlock]? = some b)
    (hlow : (s.store.blocks id).length ≤ max (12 + 2 * h.fs.layout.blocksInSinglePtr)
      (h.offset id / h.fs.layout.bytesPerBlock + 1)) :
    ∃ out fs, (defaultWriteLoop env id buf (n + 1) (h.vars id n b)).eval s = (.ok out, fs) ∧
      Ok id ⟨fs, h.mode, out.cursor⟩ ∧
      (h.Right id buf n out fs ∨
        ∃ e t, out.ret = .error e ∧ (allocateNewBlockForFile env id).eval t = (.error e, fs)) := by
  have hcursor := hok.cursor
  have hbs := hok.sound.wf.layout.bytesPerBlock_bounds
  by_cases hn : n = 0
  · -- nothing to write
    subst hn
    refine ⟨⟨.ok 0, h.cursor⟩, s, ?_, hok.of_stored hst (hcursor.trans (le_max_left _ _)),
      .inl ⟨rfl, rfl, hst.spliced⟩⟩
    rw [defaultWriteLoop, if_pos (show (h.vars id 0 b).n = 0 from rfl)]
    exact eval_pure ..
  · obtain ⟨out, fs, k, heval, hst', hend⟩ := defaultWriteLoop_spec hr hok.refs h31 hst
      (vars_at (by omega) h31 hsize hb) (by omega) hlow (Nat.le_add_right _ _)
    refine ⟨out, fs, heval, ?_⟩
    rcases hend with ⟨rfl, rfl⟩ | ⟨hk, e, t, rfl, halloc⟩
    · exact ⟨hok.of_stored hst' (le_max_right _ _), .inl ⟨rfl, (if_neg hn).symm, hst'.spliced⟩⟩
    · exact ⟨hok.of_stored hst' (le_max_right _ _), .inr ⟨e, t, rfl, halloc⟩⟩

/-- **One write** is right or ends with an allocation that fails, and keeps the invariant. -/
theorem Ok.write (hok : h.Ok id) (hsmall : h.Small id (env, .write buf n)) :
    ∃ out fs, (defaultWrite env id h.mode h.cursor buf n).eval h.fs = (.ok out, fs) ∧
      Ok id ⟨fs, h.mode, out.cursor⟩ ∧
      (h.Right id buf n out fs ∨
        ∃ e t, out.ret = .error e ∧ (allocateNewBlockForFile env id).eval t = (.error e, fs)) := by
  obtain ⟨hr, hlow, h31⟩ := hsmall
  obtain ⟨c, hc⟩ := Fs.exists_node hok.refs
  have hoff := hok.offset_le
  have hcursor := hok.cursor
  have hidx : h.offset id / h.fs.layout.bytesPerBlock ≤ (h.fs.store.blocks id).length := by
    refine Nat.div_le_of_le_mul ?_
    rw [Nat.mul_comm]
    exact hoff.trans hok.cover
  have hst : h.fs.Stored h.fs id (h.offset id) 0 buf := ⟨.refl hok.sound, .refl hoff, hok.cover⟩
  obtain ⟨r, st, s₁, hlook, heff, hcases⟩ :=
    getOrAllocateBlock_runs hr hok.sound hok.refs hidx (by omega)
  rw [defaultWrite, eval_bind_of_ok (getFileSize_eval hok.sound hc), eval_get_bind]
  change ∃ out fs, eval (tryErr (getOrAllocateBlock env id
    (h.offset id / h.fs.layout.bytesPerBlock)) >>= _) h.fs = _ ∧ _
  rcases hcases with ⟨b, rfl, hb, rfl⟩ | ⟨hend, ⟨b, x, rfl, rfl⟩ | ⟨e, rfl, rfl, he⟩, halloc⟩
  · -- the block is there
    rw [eval_bind_of_ok (tryErr_eval_ok hlook)]
    refine hok.loop (s := s₁) hr h31 (hst.of_effect heff) ?_ ?_ ?_ <;> rw [heff.store]
    · exact hb
    · omega
  · -- the block is appended
    rw [eval_bind_of_ok (tryErr_eval_ok hlook)]
    have hblocks : s₁.store.blocks id = h.fs.store.blocks id ++ [b] := by
      rw [heff.store, Store.blocks_append, if_pos rfl]
    refine hok.loop (s := s₁) hr h31 (hst.append heff) ?_ ?_ ?_
    · rw [heff.store, Store.attrs_append]
    · rw [hblocks, hend, getElem?_concat_length]
    · rw [hblocks, length_append, length_singleton, hend]
      exact le_max_right _ _
  · -- there is no block for the first byte
    have hfail := tryErr_eval_error hlook
    rw [if_neg (not_fatal_of_alloc he)] at hfail
    rw [eval_bind_of_ok hfail]
    exact ⟨_, s₁, eval_pure .., hok.of_stored (hst.of_effect heff)
      (hcursor.trans (le_max_left _ _)), .inr ⟨e, h.fs, rfl, halloc⟩⟩

/-- A truncating open keeps at most one block of an empty file. -/
theorem Ok.truncatingOpen {mode : UInt8} (hok : h.Ok id)
    (hstep : step id h (env, .truncatingOpen mode) = some h') (hr : env.Reliable) : h'.Ok id := by
  obtain ⟨c, hc⟩ := Fs.exists_node hok.refs
  obtain ⟨fs, heval, heff⟩ := clearBlocksOfFile_runs hr hok.sound hc
  simp only [step, heval] at hstep
  cases hstep
  refine ⟨heff.sound, ?_, ?_, Nat.zero_le _⟩
  · rw [heff.refs]
    exact hok.refs
  · have hattrs : fs.store.attrs id = { h.fs.store.attrs id with
        iBlocks := UInt32.ofNat (min 1 (h.fs.store.blocks id).length), size := 0 } := by
      rw [heff.store]
      exact update_self ..
    rw [hattrs]
    exact Nat.zero_le _

theorem Ok.step {e : Env × HandleOp} (hok : h.Ok id) (hsmall : h.Small id e)
    (hstep : Handle.step id h e = some h') : h'.Ok id := by
  obtain ⟨env, op⟩ := e
  cases op with
  | write buf n =>
    obtain ⟨out, fs, heval, hok', -⟩ := hok.write hsmall
    simp only [Handle.step, heval] at hstep
    cases hstep
    exact hok'
  | truncatingOpen mode => exact hok.truncatingOpen hstep hsmall
  | seek cursor =>
    simp only [Handle.step] at hstep
    split_ifs at hstep with hin
    cases hstep
    exact ⟨hok.sound, hok.refs, hok.cover, hin⟩

/-- **Every write is right.** In a run of calls through a handle of a file that was new at its
start, the next write stores the buffer at the offset and nothing else, unless an allocation
fails. -/
theorem write_right {start : Handle} (hfresh : start.Fresh id)
    (hrun : (Handle.step id).Run (Small id) start h) (hsmall : h.Small id (env, .write buf n)) :
    ∃ out fs, (defaultWrite env id h.mode h.cursor buf n).eval h.fs = (.ok out, fs) ∧
      (h.Right id buf n out fs ∨
        ∃ e t, out.ret = .error e ∧ (allocateNewBlockForFile env id).eval t = (.error e, fs)) := by
  have hok : h.Ok id := hrun.invariant hfresh.ok fun _ _ _ hok hs hstep => hok.step hs hstep
  obtain ⟨out, fs, heval, -, hcases⟩ := hok.write hsmall
  exact ⟨out, fs, heval, hcases⟩

/-- A new file on the small volume, opened for appending. -/
def newFile : Handle :=
  ⟨Fs.small.after [.open (str "f") (oCreat ||| oWronly ||| oAppend)], oWronly ||| oAppend, 0⟩

/-- The calls that store three bytes in it and go back to the second one. -/
def stored : List (Env × HandleOp) :=
  [(.calm, .write (ofBytes [65, 66, 67]) 3), (.calm, .seek 1)]

/-- The file with three bytes and the cursor at the second one. -/
def threeBytes : Handle := (step 2).after newFile stored

theorem newFile_facts :
    (newFile.fs.Parts smallLayout ∧ 0 < newFile.fs.refs 2 ∧
      (newFile.fs.store.attrs 2).size = 0 ∧ (newFile.fs.store.blocks 2).length ≤ 12 ∧
      newFile.offset 2 = 0 ∧ ((step 2).exec newFile stored).isSome = true) ∧
    (threeBytes.fs.store.blocks 2).length ≤ 12 ∧ threeBytes.offset 2 = 3 ∧ threeBytes.cursor = 1 ∧
    ((defaultWrite .calm 2 threeBytes.mode threeBytes.cursor 0 0).eval threeBytes.fs).1.toOption.map
      (fun out => (out.ret.toOption, out.cursor)) = some (some 0, 1) := by
  decide +kernel

theorem newFile_fresh : newFile.Fresh 2 := by
  obtain ⟨⟨hparts, hrefs, hsize, -⟩, -⟩ := newFile_facts
  exact ⟨hparts.sound smallLayout_wf, hrefs, hsize, rfl⟩

/-- A seek to the start of the file. -/
theorem kLseek_inside_start : ((kLseek .calm 0 0 .set).eval newFile.fs).1 = .ok 0 := by
  obtain ⟨⟨-, -, hsize, hlen, -⟩, -⟩ := newFile_facts
  have hfacts : newFile.fs.isMounted = true ∧
      newFile.fs.oft[0]? = some (some ⟨26, 0, 1, 2⟩) := by decide +kernel
  rw [kLseek_inside Env.calm_reliable newFile_fresh.sound hfacts.1 hfacts.2 newFile_fresh.refs
    (by rw [hsize]; exact Nat.zero_le _) (hlen.trans (Nat.le_add_right ..)) le_rfl (Nat.zero_le _)]
  rfl

theorem newFile_run : (step 2).Run (Small 2) newFile threeBytes := by
  obtain ⟨⟨-, -, -, hlen, hoff, hexec⟩, -⟩ := newFile_facts
  refine Machine.run_of_meets hexec ⟨⟨Env.calm_reliable, ?_, ?_⟩, Env.calm_reliable, trivial⟩
  · omega
  · rw [hoff]
    decide

/-- Two more bytes are appended. -/
theorem write_right_append :
    newFile.Fresh 2 ∧ (step 2).Run (Small 2) newFile threeBytes ∧
    threeBytes.Small 2 (.calm, .write (ofBytes [68, 69]) 2) ∧
    ∃ out fs, (defaultWrite .calm 2 threeBytes.mode threeBytes.cursor (ofBytes [68, 69])
        2).eval threeBytes.fs = (.ok out, fs) ∧
      (threeBytes.Right 2 (ofBytes [68, 69]) 2 out fs ∨
        ∃ e t, out.ret = .error e ∧
          (allocateNewBlockForFile .calm 2).eval t = (.error e, fs)) := by
  obtain ⟨-, hlen, hoff, -⟩ := newFile_facts
  have hsmall : threeBytes.Small 2 (.calm, .write (ofBytes [68, 69]) 2) := by
    refine ⟨Env.calm_reliable, ?_, ?_⟩
    · omega
    · rw [hoff]
      decide
  exact ⟨newFile_fresh, newFile_run, hsmall, write_right newFile_fresh newFile_run hsmall⟩

/-- **Appending nothing** leaves the cursor where it was, and not at the end of the file. -/
theorem write_nothing_keeps_cursor :
    newFile.Fresh 2 ∧ (step 2).Run (Small 2) newFile threeBytes ∧
    threeBytes.Small 2 (.calm, .write 0 0) ∧ threeBytes.offset 2 = 3 ∧
    ((defaultWrite .calm 2 threeBytes.mode threeBytes.cursor 0 0).eval threeBytes.fs).1.toOption.map
      (fun out => (out.ret.toOption, out.cursor)) = some (some 0, 1) := by
  obtain ⟨-, hlen, hoff, -, hwrite⟩ := newFile_facts
  refine ⟨newFile_fresh, newFile_run, ⟨Env.calm_reliable, ?_, ?_⟩, hoff, hwrite⟩
  · omega
  · rw [hoff]
    decide

end Handle

end OsPi
