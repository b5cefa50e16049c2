import OsPi.Fs.Contents
import OsPi.Fs.Operations

/-!
# Reading a File

`default_read` against the bytes of the file in the store. The loop of the source copies every
piece it reads to the start of the caller's buffer and never moves the pointer on, so a read
that goes on into a second block overwrites what it has read before and leaves the rest of the
buffer as it was. What is left of the promise is a read within one block, at an index at which
the lookup finds a block with the right bytes (`read_right_iff`).
-/

namespace OsPi

open Bytes Comp List

/-! ### What a read should do -/

/-- What the caller's buffer holds after a read: every piece is copied to its start. -/
def ReadOut.buffer (out : ReadOut) (buf : ℕ) : ℕ :=
  out.chunks.foldl (fun buf c => write buf 0 c.len c.data) buf

/-- The number of bytes a read of up to `n` bytes at `cursor` finds in a file. -/
def Store.readable (st : Store) (id cursor n : ℕ) : ℕ := min n ((st.attrs id).size.toNat - cursor)

/-- The read has returned the number of bytes there are, moved the cursor past them and copied
them to the buffer `buf`, of which it has changed nothing else. -/
structure ReadOut.Right (out : ReadOut) (st : Store) (bs id cursor n buf : ℕ) : Prop where
  ret : out.ret = .ok (st.readable id cursor n : ℤ)
  moved : out.cursor = cursor + st.readable id cursor n
  bytes : ∀ i, byte (out.buffer buf) i =
    if i < st.readable id cursor n then st.byte bs id (cursor + i) else byte buf i

/-- Every read of up to `n` bytes at `cursor` of an open file is right: with any buffer, and
whatever lies behind the blocks in memory. -/
def Fs.ReadsRight (s : Fs) (id cursor n : ℕ) : Prop :=
  ∀ (env : Env) (buf : ℕ), env.Reliable → ∃ out,
    (defaultRead env id cursor n).eval s = (.ok out, s) ∧
    out.Right s.store s.layout.bytesPerBlock id cursor n buf

/-- The block the lookup finds holds the same bytes as the block with the index `i`, `len` of
them from `start` on. -/
def Fs.FindsBytes (s : Fs) (id i start len : ℕ) : Prop :=
  ∃ k, s.layout.lookupIndex i = some k ∧ ∀ j < len,
    byte ((s.store.file id).getD k 0) (start + j) = byte ((s.store.file id).getD i 0) (start + j)

/-! ### The buffer -/

/-- Bytes no piece reaches are left alone. -/
theorem byte_foldl_chunks {chunks : List Chunk} {i : ℕ} (h : ∀ c ∈ chunks, c.len ≤ i) (buf : ℕ) :
    byte (chunks.foldl (fun buf c => write buf 0 c.len c.data) buf) i = byte buf i := by
  induction chunks generalizing buf with
  | nil => rfl
  | cons c cs ih =>
    rw [foldl_cons, ih (fun d hd => h d (mem_cons_of_mem _ hd)), byte_write,
      if_neg (by have := h c mem_cons_self; omega)]

/-- A buffer in which a byte is not the given one. -/
theorem exists_byte_ne (i x : ℕ) : ∃ buf, byte buf i ≠ x := by
  refine ⟨if x = 0 then write 0 i 1 1 else 0, ?_⟩
  split_ifs with h
  · rw [byte, read_write_self, h]
    decide
  · intro hx
    refine h (hx.symm.trans ?_)
    simp [byte, Bytes.read]

/-! ### The loop -/

/-- The local variables after a piece has been copied from the block with the contents `data`. -/
def ReadVars.copied (v : ReadVars) (data : ℕ) : ReadVars :=
  { v with
    n := toSizeT (v.n - v.bytesToRead)
    cursor := toUint32 (v.cursor + v.bytesToRead)
    total := toInt32 (v.total + v.bytesToRead)
    chunks := v.chunks ++
      [⟨v.blockNo, v.bytesToRead.toNat, Bytes.read data v.start v.bytesToRead.toNat⟩] }

/-- The local variables for the next block. -/
def ReadVars.moved (v : ReadVars) (size : ℤ) (bs blockNo : ℕ) : ReadVars :=
  { v with
    blockIndex := (v.blockIndex + 1) % 2 ^ 32
    blockNo
    start := 0
    bytesToRead := min (toInt32 (size - toInt32 v.cursor)) (min (toInt32 v.n) bs) }

section Moved

variable (v : ReadVars) (size : ℤ) (bs x : ℕ)

@[simp] theorem ReadVars.cursor_moved : (v.moved size bs x).cursor = v.cursor := rfl

@[simp] theorem ReadVars.n_moved : (v.moved size bs x).n = v.n := rfl

end Moved

section Loop

variable {env : Env} {s : Fs} {id fuel : ℕ} {size : ℤ} {c : CacheNode} {v : ReadVars}
  (hr : env.Reliable) (h : s.Sound) (hc : s.node? id = some c)

theorem defaultReadLoop_error (hn : v.n ≠ 0) (hb : s.blockCount ≤ v.blockNo) :
    (defaultReadLoop env id size (fuel + 1) v).eval s =
      (.ok ⟨.error .fileReadError, v.cursor, v.chunks⟩, s) := by
  have hread : (tryErr (readBlock env v.blockNo)).eval s = (.ok (.error .fileReadError), s) :=
    tryErr_eval_error (readBlock_eval_error hb)
  rw [defaultReadLoop, if_neg hn, eval_bind_of_ok hread, eval_pure]

include hr in
/-- The last piece. -/
theorem defaultReadLoop_last (hn : v.n ≠ 0) (hb : v.blockNo < s.blockCount)
    (hlast : (v.copied (s.block v.blockNo)).n = 0 ∨
      toUint32 size ≤ (v.copied (s.block v.blockNo)).cursor) :
    (defaultReadLoop env id size (fuel + 1) v).eval s =
      (.ok ⟨.ok (v.copied (s.block v.blockNo)).total, (v.copied (s.block v.blockNo)).cursor,
        (v.copied (s.block v.blockNo)).chunks⟩, s) := by
  have hread := tryErr_eval_ok (readBlock_eval hr hb)
  have hstop : toSizeT (v.n - v.bytesToRead) = 0 ∨
    toUint32 size ≤ toUint32 (v.cursor + v.bytesToRead) := hlast
  rw [defaultReadLoop, if_neg hn, eval_bind_of_ok hread]
  simp only
  rw [if_pos hstop, eval_pure]
  rfl

include hr h hc in
/-- A piece that is not the last one. -/
theorem defaultReadLoop_next (hn : v.n ≠ 0) (hb : v.blockNo < s.blockCount)
    (hnext : ¬((v.copied (s.block v.blockNo)).n = 0 ∨
      toUint32 size ≤ (v.copied (s.block v.blockNo)).cursor)) :
    ∃ x, (defaultReadLoop env id size (fuel + 1) v).eval s =
      (defaultReadLoop env id size fuel
        ((v.copied (s.block v.blockNo)).moved size s.layout.bytesPerBlock x)).eval s := by
  have hread := tryErr_eval_ok (readBlock_eval hr hb)
  obtain ⟨x, hx⟩ := getIthBlockOfFile_ok h hc hr ((v.blockIndex + 1) % 2 ^ 32)
  have hgo : ¬(toSizeT (v.n - v.bytesToRead) = 0 ∨
    toUint32 size ≤ toUint32 (v.cursor + v.bytesToRead)) := hnext
  refine ⟨x, ?_⟩
  rw [defaultReadLoop, if_neg hn, eval_bind_of_ok hread]
  simp only
  rw [if_neg hgo, eval_get_bind, eval_bind_of_ok hx]
  rfl

/-- The variables of a read of a file of `F` bytes that has bytes left to copy. -/
structure ReadVars.Inside (v : ReadVars) (F : ℕ) : Prop where
  cursor : v.cursor < F
  left : F - v.cursor < 2 ^ 31
  n_lt : v.n < 2 ^ 31
  pos : 0 < v.bytesToRead
  le : v.bytesToRead ≤ min v.n (F - v.cursor)

variable {F : ℕ} (hF : F < 2 ^ 32)
include hF

theorem ReadVars.Inside.copied (hv : v.Inside F) (data : ℕ) :
    (v.copied data).n = v.n - v.bytesToRead.toNat ∧
      (v.copied data).cursor = v.cursor + v.bytesToRead.toNat := by
  obtain ⟨b, hb⟩ := Int.eq_ofNat_of_zero_le hv.pos.le
  have h1 := hv.cursor
  have h2 := hv.n_lt
  have h3 := hv.le
  rw [hb] at h3
  simp only [ReadVars.copied, hb, Int.toNat_natCast]
  constructor
  · rw [show (v.n : ℤ) - b = ((v.n - b : ℕ) : ℤ) by omega, toSizeT_of_lt (by omega)]
  · rw [show (v.cursor : ℤ) + b = ((v.cursor + b : ℕ) : ℤ) by omega, toUint32_of_lt (by omega)]

theorem ReadVars.Inside.moved (hv : v.Inside F) {data bs x : ℕ} (hbs : 0 < bs)
    (hnext : ¬((v.copied data).n = 0 ∨ F ≤ (v.copied data).cursor)) :
    ((v.copied data).moved (toInt32 F) bs x).Inside F ∧
      ((v.copied data).moved (toInt32 F) bs x).bytesToRead ≤
        (min v.n (F - v.cursor) : ℤ) - v.bytesToRead := by
  obtain ⟨hn, hcur⟩ := hv.copied hF data
  obtain ⟨b, hb⟩ := Int.eq_ofNat_of_zero_le hv.pos.le
  have h0 := hv.pos
  have h1 := hv.cursor
  have h2 := hv.n_lt
  have h3 := hv.le
  have h4 := hv.left
  rw [hb, Int.toNat_natCast] at hn hcur
  rw [hb] at h0 h3
  rw [not_or, hn, hcur] at hnext
  obtain ⟨hn0, hcur0⟩ := hnext
  have hbn : b < v.n := by omega
  have hbF : v.cursor + b < F := by omega
  have hleft : toInt32 (toInt32 F - toInt32 (v.cursor + b : ℕ)) =
      ((F - (v.cursor + b) : ℕ) : ℤ) := by
    rw [toInt32_sub_toInt32, ← Int.ofNat_sub hbF.le, toInt32_of_lt (by omega) (by omega)]
  have hcount : toInt32 ((v.n - b : ℕ) : ℤ) = ((v.n - b : ℕ) : ℤ) :=
    toInt32_of_lt (by omega) (by omega)
  have hto : ((v.copied data).moved (toInt32 F) bs x).bytesToRead =
      min ((F - (v.cursor + b) : ℕ) : ℤ) (min ((v.n - b : ℕ) : ℤ) bs) := by
    simp only [ReadVars.moved, hn, hcur, hleft, hcount]
  clear hleft hcount
  refine ⟨⟨?_, ?_, ?_, ?_, ?_⟩, ?_⟩
  · rwa [ReadVars.cursor_moved, hcur]
  · rw [ReadVars.cursor_moved, hcur]
    omega
  · rw [ReadVars.n_moved, hn]
    omega
  · rw [hto]
    omega
  · rw [hto, ReadVars.n_moved, ReadVars.cursor_moved, hn, hcur]
    omega
  · rw [hto, hb]
    omega

include hr h hc

/-- No piece is longer than the first one or than what is left after it. -/
theorem defaultReadLoop_len_le {B : ℕ} {s' : Fs} {out : ReadOut} (hv : v.Inside F)
    (hB : v.bytesToRead ≤ B) (hleft : (min v.n (F - v.cursor) : ℤ) - v.bytesToRead ≤ B)
    (hold : ∀ c ∈ v.chunks, c.len ≤ B)
    (heval : (defaultReadLoop env id (toInt32 F) fuel v).eval s = (.ok out, s')) :
    ∀ c ∈ out.chunks, c.len ≤ B := by
  induction fuel generalizing v with
  | zero => cases heval
  | succ fuel ih =>
    have hn : v.n ≠ 0 := by
      have h1 := hv.pos
      have h2 := hv.le
      omega
    by_cases hb : s.blockCount ≤ v.blockNo
    · rw [defaultReadLoop_error hn hb] at heval
      cases heval
      exact hold
    have hnew : ∀ c ∈ (v.copied (s.block v.blockNo)).chunks, c.len ≤ B := by
      intro c hmem
      rcases mem_append.mp hmem with hmem | hmem
      · exact hold c hmem
      · rw [mem_singleton.mp hmem]
        simpa using hB
    have hsize : toUint32 (toInt32 F) = F := toUint32_toInt32 hF
    have hbs : 0 < s.layout.bytesPerBlock := by
      have := h.wf.layout.bytesPerBlock_bounds
      omega
    by_cases hlast : (v.copied (s.block v.blockNo)).n = 0 ∨
        toUint32 (toInt32 F) ≤ (v.copied (s.block v.blockNo)).cursor
    · rw [defaultReadLoop_last hr hn (Nat.not_le.mp hb) hlast] at heval
      cases heval
      exact hnew
    · obtain ⟨x, hnext⟩ := defaultReadLoop_next hr h hc hn (Nat.not_le.mp hb) hlast
      rw [hsize] at hlast
      obtain ⟨hin, hle⟩ := hv.moved (x := x) hF hbs hlast
      have hpos := hin.pos
      have hle' := hin.le
      have hrest : (min ((v.copied (s.block v.blockNo)).moved (toInt32 F)
          s.layout.bytesPerBlock x).n (F - ((v.copied (s.block v.blockNo)).moved (toInt32 F)
          s.layout.bytesPerBlock x).cursor) : ℤ) ≤ (min v.n (F - v.cursor) : ℤ) -
            v.bytesToRead := by
        obtain ⟨hn', hcur'⟩ := hv.copied hF (s.block v.blockNo)
        have h1 := hv.pos
        have h2 := hv.le
        rw [ReadVars.n_moved, ReadVars.cursor_moved, hn', hcur']
        omega
      refine ih hin (by omega) (by omega) ?_ (hnext ▸ heval)
      exact hnew

end Loop

/-! ### The call -/

/-- The variables with which the loop starts. -/
def ReadVars.first (F bs cursor n blockNo : ℕ) : ReadVars where
  blockIndex := cursor / bs
  blockNo
  start := cursor % bs
  bytesToRead := min (toInt32 (toInt32 F - toInt32 cursor))
    (min (toInt32 n) ((bs : ℤ) - (cursor % bs : ℕ)))
  n
  cursor
  total := 0
  chunks := []

@[simp] theorem ReadVars.blockNo_first (F bs cursor n x : ℕ) :
    (ReadVars.first F bs cursor n x).blockNo = x := rfl

section Call

variable {env : Env} {s : Fs} {id cursor n : ℕ} {c : CacheNode}
  (h : s.Sound) (hc : s.node? id = some c)
include h hc

theorem defaultRead_past (hcur : (s.store.attrs id).size.toNat ≤ cursor) :
    (defaultRead env id cursor n).eval s = (.ok ⟨.ok 0, cursor, []⟩, s) := by
  have hsize : toUint32 (toInt32 (s.store.attrs id).size.toNat) = (s.store.attrs id).size.toNat :=
    toUint32_toInt32 (s.store.attrs id).size.toNat_lt
  rw [defaultRead, eval_bind_of_ok (getFileSize_eval h hc), if_pos (hsize.symm ▸ hcur), eval_pure]

theorem defaultRead_inside {x : ℕ} (hcur : cursor < (s.store.attrs id).size.toNat)
    (hx : (getIthBlockOfFile env id (cursor / s.layout.bytesPerBlock)).eval s = (.ok x, s)) :
    (defaultRead env id cursor n).eval s =
      (defaultReadLoop env id (toInt32 (s.store.attrs id).size.toNat) (n + 1)
        (.first (s.store.attrs id).size.toNat s.layout.bytesPerBlock cursor n x)).eval s := by
  have hsize : toUint32 (toInt32 (s.store.attrs id).size.toNat) = (s.store.attrs id).size.toNat :=
    toUint32_toInt32 (s.store.attrs id).size.toNat_lt
  rw [defaultRead, eval_bind_of_ok (getFileSize_eval h hc),
    if_neg (by rw [hsize]; omega), eval_get_bind, eval_bind_of_ok hx]
  rfl

omit h hc in
theorem ReadVars.first_bytesToRead {F bs x : ℕ} (hn : n < 2 ^ 31)
    (hleft : F - cursor < 2 ^ 31) (hcur : cursor < F) (hbs : 0 < bs) :
    (ReadVars.first F bs cursor n x).bytesToRead =
      (min (F - cursor) (min n (bs - cursor % bs)) : ℕ) := by
  have hmod := Nat.mod_lt cursor hbs
  have h1 : toInt32 (toInt32 F - toInt32 cursor) = ((F - cursor : ℕ) : ℤ) := by
    rw [toInt32_sub_toInt32, ← Int.ofNat_sub hcur.le, toInt32_of_lt (by omega) (by omega)]
  have h2 : toInt32 n = (n : ℤ) := toInt32_of_lt (by omega) (by omega)
  simp only [ReadVars.first, h1, h2]
  omega

omit h hc in
theorem ReadVars.first_inside {F bs x : ℕ} (hn : n < 2 ^ 31) (hn0 : n ≠ 0)
    (hleft : F - cursor < 2 ^ 31) (hcur : cursor < F) (hbs : 0 < bs) :
    (ReadVars.first F bs cursor n x).Inside F := by
  have hmod := Nat.mod_lt cursor hbs
  have hto := ReadVars.first_bytesToRead (x := x) hn hleft hcur hbs
  refine ⟨hcur, hleft, hn, ?_, ?_⟩
  · rw [hto]
    omega
  · rw [hto]
    change _ ≤ ((min n (F - cursor) : ℕ) : ℤ)
    omega

/-- At or past the end there is nothing to read. -/
theorem Fs.Sound.readsRight_of_past (hcur : (s.store.attrs id).size.toNat ≤ cursor) :
    s.ReadsRight id cursor n := by
  have hzero : s.store.readable id cursor n = 0 := by
    rw [Store.readable]
    omega
  intro env buf _
  refine ⟨_, defaultRead_past h hc hcur, ?_, ?_, ?_⟩
  · rw [hzero]
    rfl
  · rw [hzero]
    rfl
  · intro i
    rw [hzero, if_neg (Nat.not_lt_zero i)]
    rfl

/-- Nothing is read when nothing is asked for. -/
theorem Fs.Sound.readsRight_of_zero (hcur : cursor < (s.store.attrs id).size.toNat) :
    s.ReadsRight id cursor 0 := by
  have hzero : s.store.readable id cursor 0 = 0 := Nat.zero_min _
  intro env buf hr
  obtain ⟨x, hx⟩ := getIthBlockOfFile_ok h hc hr (cursor / s.layout.bytesPerBlock)
  refine ⟨⟨.ok 0, cursor, []⟩, ?_, ?_, ?_, ?_⟩
  · rw [defaultRead_inside h hc hcur hx]
    rfl
  · rw [hzero]
    rfl
  · rw [hzero]
    rfl
  · intro i
    rw [hzero, if_neg (Nat.not_lt_zero i)]
    rfl

/-- With `2 ^ 31` bytes or more to the end of the file the amount to read is negative. -/
theorem Fs.Sound.not_readsRight_of_far (hn : n < 2 ^ 31) (hn0 : n ≠ 0)
    (hfar : 2 ^ 31 ≤ (s.store.attrs id).size.toNat - cursor) : ¬s.ReadsRight id cursor n := by
  intro hright
  obtain ⟨out, heval, hout⟩ := hright .calm 0 Env.calm_reliable
  have hF := (s.store.attrs id).size.toNat_lt
  have hbs := h.wf.layout.bytesPerBlock_bounds
  have hmod := Nat.mod_lt cursor (show 0 < s.layout.bytesPerBlock by omega)
  obtain ⟨x, hx⟩ := getIthBlockOfFile_ok h hc Env.calm_reliable (cursor / s.layout.bytesPerBlock)
  rw [defaultRead_inside h hc (by omega) hx] at heval
  generalize (s.store.attrs id).size.toNat = F at *
  have hret := hout.ret
  have hto : (ReadVars.first F s.layout.bytesPerBlock cursor n x).bytesToRead =
      (F : ℤ) - cursor - 2 ^ 32 := by
    have h1 : toInt32 (toInt32 F - toInt32 cursor) = (F : ℤ) - cursor - 2 ^ 32 := by
      rw [toInt32_sub_toInt32, toInt32, Int.bmod_def, if_neg (by omega)]
      omega
    have h2 : toInt32 n = (n : ℤ) := toInt32_of_lt (by omega) (by omega)
    simp only [ReadVars.first, h1, h2]
    omega
  by_cases hb : s.blockCount ≤ x
  · rw [defaultReadLoop_error hn0 hb] at heval
    cases heval
    cases hret
  · have hlast : toUint32 (toInt32 F) ≤
        ((ReadVars.first F s.layout.bytesPerBlock cursor n x).copied (s.block x)).cursor := by
      rw [toUint32_toInt32 hF]
      change F ≤ toUint32 (cursor + (ReadVars.first F s.layout.bytesPerBlock cursor n x).bytesToRead)
      rw [hto, toUint32]
      omega
    rw [defaultReadLoop_last Env.calm_reliable hn0 (Nat.not_le.mp hb) (.inr hlast)] at heval
    cases heval
    have hneg := Except.ok.inj hret
    change toInt32 (0 + (ReadVars.first F s.layout.bytesPerBlock cursor n x).bytesToRead) = _
      at hneg
    rw [hto, zero_add, toInt32, Int.bmod_eq_of_le (by omega) (by omega)] at hneg
    omega

/-- Past the first block the buffer is left as it was. -/
theorem Fs.Sound.not_readsRight_of_two (hn : n < 2 ^ 31)
    (hleft : (s.store.attrs id).size.toNat - cursor < 2 ^ 31)
    (hcur : cursor < (s.store.attrs id).size.toNat)
    (htwo : s.layout.bytesPerBlock <
      cursor % s.layout.bytesPerBlock + s.store.readable id cursor n) :
    ¬s.ReadsRight id cursor n := by
  intro hright
  have hbs := h.wf.layout.bytesPerBlock_bounds
  have hmod := Nat.mod_lt cursor (show 0 < s.layout.bytesPerBlock by omega)
  obtain ⟨m, hm⟩ : ∃ m, m = s.store.readable id cursor n := ⟨_, rfl⟩
  have hmdef : m = min n ((s.store.attrs id).size.toNat - cursor) := hm
  -- the last byte should be in the buffer and is not what the buffer held before
  obtain ⟨buf, hbuf⟩ :=
    exists_byte_ne (m - 1) (s.store.byte s.layout.bytesPerBlock id (cursor + (m - 1)))
  obtain ⟨out, heval, hout⟩ := hright .calm buf Env.calm_reliable
  obtain ⟨x, hx⟩ := getIthBlockOfFile_ok h hc Env.calm_reliable (cursor / s.layout.bytesPerBlock)
  rw [defaultRead_inside h hc hcur hx] at heval
  have hin := ReadVars.first_inside (x := x) hn (by omega) hleft hcur
    (show 0 < s.layout.bytesPerBlock by omega)
  have hto := ReadVars.first_bytesToRead (x := x) hn hleft hcur
    (show 0 < s.layout.bytesPerBlock by omega)
  have hlens : ∀ c ∈ out.chunks, c.len ≤ m - 1 := by
    refine defaultReadLoop_len_le Env.calm_reliable h hc (s.store.attrs id).size.toNat_lt hin
      ?_ ?_ (by simp [ReadVars.first]) heval
    · rw [hto]
      omega
    · rw [hto]
      change min (n : ℤ) ((s.store.attrs id).size.toNat - cursor) - _ ≤ _
      omega
  have hbyte := hout.bytes (m - 1)
  rw [← hm, if_pos (by omega), ReadOut.buffer, byte_foldl_chunks hlens] at hbyte
  exact hbuf hbyte

/-- A lookup that leaves the pointer blocks may find a block that does not exist. -/
theorem Fs.Sound.not_readsRight_of_wild (hn0 : n ≠ 0)
    (hcur : cursor < (s.store.attrs id).size.toNat)
    (hi : cursor / s.layout.bytesPerBlock < (s.store.blocks id).length)
    (hk : s.layout.lookupIndex (cursor / s.layout.bytesPerBlock) = none) :
    ¬s.ReadsRight id cursor n := by
  intro hright
  obtain ⟨x, j, hwild⟩ := getIthBlockOfFile_wild h hc hi hk
  have hr : ({ Env.calm with wild := fun _ _ => s.blockCount } : Env).Reliable := rfl
  obtain ⟨out, heval, hout⟩ := hright _ 0 hr
  have hlt : s.blockCount % 2 ^ 32 = s.blockCount := by
    rw [h.wf.blockCount_eq]
    exact Nat.mod_eq_of_lt h.wf.layout.totalBlocks_lt
  rw [defaultRead_inside h hc hcur (hwild _ hr), hlt,
    defaultReadLoop_error hn0 (le_refl s.blockCount)] at heval
  cases heval
  cases hout.ret

/-- Within one block the read copies the bytes of the block the lookup has found. -/
theorem Fs.Sound.readsRight_of_one_iff {k : ℕ} (hn : n < 2 ^ 31) (hn0 : n ≠ 0)
    (hleft : (s.store.attrs id).size.toNat - cursor < 2 ^ 31)
    (hcur : cursor < (s.store.attrs id).size.toNat)
    (hone : cursor % s.layout.bytesPerBlock + s.store.readable id cursor n ≤
      s.layout.bytesPerBlock)
    (hi : cursor / s.layout.bytesPerBlock < (s.store.blocks id).length)
    (hk : s.layout.lookupIndex (cursor / s.layout.bytesPerBlock) = some k) :
    s.ReadsRight id cursor n ↔
      ∀ j < s.store.readable id cursor n,
        byte ((s.store.file id).getD k 0) (cursor % s.layout.bytesPerBlock + j) =
          byte ((s.store.file id).getD (cursor / s.layout.bytesPerBlock) 0)
            (cursor % s.layout.bytesPerBlock + j) := by
  have hbs := h.wf.layout.bytesPerBlock_bounds
  have hpos : 0 < s.layout.bytesPerBlock := by omega
  have hmod := Nat.mod_lt cursor hpos
  have hid := h.cache.hasId id c hc
  obtain ⟨m, hm⟩ : ∃ m, m = s.store.readable id cursor n := ⟨_, rfl⟩
  have hmdef : m = min n ((s.store.attrs id).size.toNat - cursor) := hm
  rw [← hm] at hone ⊢
  have hki : k ≤ cursor / s.layout.bytesPerBlock :=
    (getIthBlockOfFile_found h hc Env.calm_reliable hi hk).2
  obtain ⟨b, hb⟩ : ∃ b, (s.store.blocks id)[k]? = some b :=
    ⟨_, getElem?_eq_getElem (show k < (s.store.blocks id).length by omega)⟩
  obtain ⟨hlt, hblock⟩ := h.block_of_file hid hb
  have hto := ReadVars.first_bytesToRead (x := b) hn hleft hcur hpos
  have hto' : (ReadVars.first (s.store.attrs id).size.toNat s.layout.bytesPerBlock cursor n
      b).bytesToRead = m := by
    rw [hto]
    omega
  have hin := ReadVars.first_inside (x := b) hn hn0 hleft hcur hpos
  obtain ⟨hn', hcur'⟩ := hin.copied (s.store.attrs id).size.toNat_lt (s.block b)
  rw [hto', Int.toNat_natCast] at hn' hcur'
  have hsize : toUint32 (toInt32 (s.store.attrs id).size.toNat) = (s.store.attrs id).size.toNat :=
    toUint32_toInt32 (s.store.attrs id).size.toNat_lt
  -- the one piece that is copied
  have heval : ∀ env : Env, env.Reliable → (defaultRead env id cursor n).eval s =
      (.ok ⟨.ok m, cursor + m, [⟨b, m, Bytes.read (s.block b) (cursor % s.layout.bytesPerBlock) m⟩]⟩,
        s) := by
    intro env hr
    have hx := (getIthBlockOfFile_found h hc hr hi hk).1
    rw [getD_eq_getElem?_getD, hb, Option.getD_some] at hx
    have hlast : ((ReadVars.first (s.store.attrs id).size.toNat s.layout.bytesPerBlock cursor n
        b).copied (s.block b)).n = 0 ∨ toUint32 (toInt32 (s.store.attrs id).size.toNat) ≤
        ((ReadVars.first (s.store.attrs id).size.toNat s.layout.bytesPerBlock cursor n
          b).copied (s.block b)).cursor := by
      rw [hn', hcur', hsize]
      change n - m = 0 ∨ _ ≤ cursor + m
      omega
    rw [defaultRead_inside h hc hcur hx, defaultReadLoop_last hr hn0 hlt hlast,
      ReadVars.blockNo_first, hcur']
    simp only [ReadVars.copied, hto', Int.toNat_natCast]
    have htotal : toInt32 (0 + m) = m := by
      rw [zero_add]
      exact toInt32_of_lt (by omega) (by omega)
    simp only [ReadVars.first, htotal, nil_append]
  have hbyte : ∀ j < m, s.store.byte s.layout.bytesPerBlock id (cursor + j) =
      byte ((s.store.file id).getD (cursor / s.layout.bytesPerBlock) 0)
        (cursor % s.layout.bytesPerBlock + j) := by
    intro j hj
    have hsplit : cursor + j =
        cursor % s.layout.bytesPerBlock + j + s.layout.bytesPerBlock * (cursor /
          s.layout.bytesPerBlock) := by
      have := Nat.mod_add_div cursor s.layout.bytesPerBlock
      omega
    have hless : cursor % s.layout.bytesPerBlock + j < s.layout.bytesPerBlock := by omega
    rw [Store.byte, hsplit, Nat.add_mul_div_left _ _ hpos, Nat.div_eq_of_lt hless, Nat.zero_add,
      Nat.add_mul_mod_self_left, Nat.mod_eq_of_lt hless]
  have hbuffer : ∀ buf j, byte ((ReadOut.mk (.ok (m : ℤ)) (cursor + m)
      [⟨b, m, Bytes.read (s.block b) (cursor % s.layout.bytesPerBlock) m⟩]).buffer buf) j =
      if j < m then byte ((s.store.file id).getD k 0) (cursor % s.layout.bytesPerBlock + j)
      else byte buf j := by
    intro buf j
    rw [ReadOut.buffer, foldl_cons, foldl_nil, byte_write]
    simp only [Nat.zero_le, true_and, Nat.zero_add, Nat.sub_zero]
    split_ifs with hj
    · rw [byte_read hj, hblock]
    · rfl
  constructor
  · intro hright j hj
    obtain ⟨out, hrun, hout⟩ := hright .calm 0 Env.calm_reliable
    rw [heval .calm Env.calm_reliable] at hrun
    cases hrun
    have hj' := hout.bytes j
    rw [hbuffer, ← hm, if_pos hj, if_pos hj, hbyte j hj] at hj'
    exact hj'
  · intro hsame env buf hr
    refine ⟨_, heval env hr, ?_, ?_, ?_⟩
    · rw [← hm]
    · rw [← hm]
    · intro j
      rw [hbuffer, ← hm]
      split_ifs with hj
      · rw [hsame j hj, hbyte j hj]
      · rfl

/-- **A read is right** exactly when there is nothing to read, or when it stays within one block
at which the lookup finds the right bytes and the rest of the file fits an `int`. -/
theorem Fs.Sound.read_right_iff (hn : n < 2 ^ 31)
    (hcover : (s.store.attrs id).size.toNat ≤
      (s.store.blocks id).length * s.layout.bytesPerBlock) :
    s.ReadsRight id cursor n ↔
      n = 0 ∨ (s.store.attrs id).size.toNat ≤ cursor ∨
      (s.store.attrs id).size.toNat - cursor < 2 ^ 31 ∧
        cursor % s.layout.bytesPerBlock + s.store.readable id cursor n ≤
          s.layout.bytesPerBlock ∧
        s.FindsBytes id (cursor / s.layout.bytesPerBlock) (cursor % s.layout.bytesPerBlock)
          (s.store.readable id cursor n) := by
  by_cases hpast : (s.store.attrs id).size.toNat ≤ cursor
  · exact iff_of_true (h.readsRight_of_past hc hpast) (.inr (.inl hpast))
  have hcur : cursor < (s.store.attrs id).size.toNat := Nat.not_le.mp hpast
  by_cases hn0 : n = 0
  · subst hn0
    exact iff_of_true (h.readsRight_of_zero hc hcur) (.inl rfl)
  by_cases hleft : (s.store.attrs id).size.toNat - cursor < 2 ^ 31
  swap
  · refine iff_of_false (h.not_readsRight_of_far hc hn hn0 (by omega)) ?_
    omega
  by_cases hone : cursor % s.layout.bytesPerBlock + s.store.readable id cursor n ≤
      s.layout.bytesPerBlock
  swap
  · refine iff_of_false (h.not_readsRight_of_two hc hn hleft hcur (by omega)) ?_
    omega
  have hi : cursor / s.layout.bytesPerBlock < (s.store.blocks id).length := by
    refine Nat.div_lt_of_lt_mul ?_
    rw [Nat.mul_comm]
    omega
  simp only [hn0, hpast, hleft, hone, false_or, true_and, Fs.FindsBytes]
  cases hk : s.layout.lookupIndex (cursor / s.layout.bytesPerBlock) with
  | none =>
    refine iff_of_false (h.not_readsRight_of_wild hc hn0 hcur hi hk) ?_
    simp
  | some k =>
    rw [h.readsRight_of_one_iff hc hn hn0 hleft hcur hone hi hk]
    simp

end Call

/-! ### A file of two blocks -/

/-- A file of 600 bytes on the small volume: a block of `A`s and 88 `B`s. -/
def Fs.twoBlocks : Fs :=
  Fs.small.after [.open (str "f") (oCreat ||| oWronly ||| oRdonly),
    .write 0 (ofBytes (List.replicate 512 65 ++ List.replicate 88 66)) 600]

theorem Fs.twoBlocks_facts :
    (Fs.twoBlocks.Parts smallLayout ∧
      (Fs.twoBlocks.node? 2).map (·.inode.size) = some 600 ∧
      (Fs.twoBlocks.store.attrs 2).size = 600 ∧ (Fs.twoBlocks.store.blocks 2).length = 2) ∧
    ((defaultRead .calm 2 0 600).eval Fs.twoBlocks).1.toOption.map
      (fun out => (byte (out.buffer 0) 0, byte (out.buffer 0) 599)) = some (66, 0) ∧
    Fs.twoBlocks.store.byte 512 2 0 = 65 ∧ Fs.twoBlocks.store.byte 512 2 599 = 66 := by
  decide +kernel

theorem Fs.twoBlocks_open :
    ∃ c, Fs.twoBlocks.Sound ∧ Fs.twoBlocks.node? 2 = some c ∧
      (Fs.twoBlocks.store.attrs 2).size.toNat = 600 ∧ (Fs.twoBlocks.store.blocks 2).length = 2 ∧
      Fs.twoBlocks.layout.bytesPerBlock = 512 := by
  obtain ⟨⟨hparts, hnode, hsize, hlen⟩, -⟩ := Fs.twoBlocks_facts
  obtain ⟨c, hc, -⟩ := Option.map_eq_some_iff.mp hnode
  exact ⟨c, hparts.sound smallLayout_wf, hc, by rw [hsize]; rfl, hlen,
    congrArg Layout.bytesPerBlock hparts.1.1⟩

/-- Its last 88 bytes can be read with one call. -/
theorem Fs.Sound.read_right_last :
    (Fs.twoBlocks.store.attrs 2).size.toNat = 600 ∧ Fs.twoBlocks.ReadsRight 2 512 100 := by
  obtain ⟨c, h, hc, hsize, hlen, hbs⟩ := Fs.twoBlocks_open
  refine ⟨hsize, (h.read_right_iff hc (by omega) ?_).mpr (.inr (.inr ?_))⟩
  · rw [hsize, hlen, hbs]
    omega
  · have hlook : Fs.twoBlocks.layout.lookupIndex 1 = some 1 :=
      if_pos (by have := h.wf.layout.blocksInSinglePtr_ge; omega)
    rw [Store.readable, hsize, hbs]
    exact ⟨by omega, by omega, 1, hlook, fun _ _ => rfl⟩

/-- **Reading the whole file fails**: the buffer holds the last 88 bytes of the file, the end
of its first block, and what it held before. -/
theorem Fs.Sound.read_wrong_whole :
    ∃ c, Fs.twoBlocks.Sound ∧ Fs.twoBlocks.node? 2 = some c ∧
      (Fs.twoBlocks.store.attrs 2).size.toNat = 600 ∧
      ((defaultRead .calm 2 0 600).eval Fs.twoBlocks).1.toOption.map
        (fun out => (byte (out.buffer 0) 0, byte (out.buffer 0) 599)) = some (66, 0) ∧
      Fs.twoBlocks.store.byte 512 2 0 = 65 ∧ Fs.twoBlocks.store.byte 512 2 599 = 66 ∧
      ¬Fs.twoBlocks.ReadsRight 2 0 600 := by
  obtain ⟨c, h, hc, hsize, -, hbs⟩ := Fs.twoBlocks_open
  obtain ⟨-, hread, hfirst, hlast⟩ := Fs.twoBlocks_facts
  refine ⟨c, h, hc, hsize, hread, hfirst, hlast, ?_⟩
  refine h.not_readsRight_of_two hc (by omega) (by omega) (by omega) ?_
  rw [Store.readable, hsize, hbs]
  omega

end OsPi
