import OsPi.Fs.Format

/-!
# Bitmaps, Specified

A bitmap over consecutive blocks is a row of bits `bitAt`, and `setBitAt` assigns one of
them. On a reliable device `set_bit_in_bitmap_range` is `setBitAt`, and
`find_free_from_bitmap_range` finds the least clear bit below its bound, if there is one.
The last section instantiates both for the two bitmaps of the file system.
-/

namespace OsPi

open Comp List

variable {data valid : ℕ}

/-! ### Scanning a block -/

theorem bitInBlock_of_byte {k i : ℕ} (hi : i < 8) :
    bitInBlock data (k * 8 + i) = decide (Bytes.read data k 1 &&& bitMask i ≠ 0) := by
  have hdiv : (k * 8 + i) / 8 = k := by omega
  have hmod : (k * 8 + i) % 8 = i % 8 := by omega
  rw [bitInBlock, bitMask, bitMask, hdiv, hmod]

/-- How a search of the bits from `lo` to `hi` can end: with the least clear bit below the bound, or
with none. -/
def FirstClear (data lo hi valid : ℕ) : Option ℕ → Prop
  | some b => lo ≤ b ∧ b < valid ∧ bitInBlock data b = false ∧
      ∀ c, lo ≤ c → c < b → bitInBlock data c = true
  | none => ∀ c, lo ≤ c → c < hi → c < valid → bitInBlock data c = true

/-- A search that goes on after bits that are set. -/
theorem FirstClear.cons {lo mid hi : ℕ} {r : Option ℕ}
    (h : FirstClear data mid hi valid r) (hle : lo ≤ mid)
    (hset : ∀ c, lo ≤ c → c < mid → c < valid → bitInBlock data c = true) :
    FirstClear data lo hi valid r := by
  cases r with
  | none =>
    intro c hc hc' hcv
    by_cases hmid : c < mid
    · exact hset c hc hmid hcv
    · exact h c (Nat.not_lt.mp hmid) hc' hcv
  | some b =>
    obtain ⟨hmb, hlt, hclear, hleast⟩ := h
    refine ⟨hle.trans hmb, hlt, hclear, fun c hc hcb => ?_⟩
    by_cases hmid : c < mid
    · exact hset c hc hmid (hcb.trans hlt)
    · exact hleast c (Nat.not_lt.mp hmid) hcb

theorem scanByte_firstClear {k a n : ℕ} (hn : a + n ≤ 8) :
    FirstClear data (k * 8 + a) (k * 8 + (a + n)) valid
      (scanByte (Bytes.read data k 1) (k * 8) valid (List.range' a n)) := by
  induction n generalizing a with
  | zero => exact fun c hc hc' => by omega
  | succ n ih =>
    have hbit : bitInBlock data (k * 8 + a) = decide (Bytes.read data k 1 &&& bitMask a ≠ 0) :=
      bitInBlock_of_byte (by omega)
    rw [range'_succ, scanByte]
    split_ifs with hvalid hclear
    · exact fun c hc hc' hcv => by omega
    · exact ⟨le_rfl, by omega, by simp [hbit, hclear], fun c hc hcb => by omega⟩
    · have hrest := @ih (a + 1) (by omega)
      rw [Nat.add_right_comm, Nat.add_assoc a] at hrest
      refine hrest.cons (by omega) fun c hc hc' _ => ?_
      obtain rfl : c = k * 8 + a := by omega
      simpa [hbit] using hclear

/-- A byte of all ones is skipped rightly. -/
theorem bitInBlock_of_ff {k c : ℕ} (h : Bytes.read data k 1 = 0xFF) (hc : k * 8 ≤ c)
    (hc' : c < k * 8 + 8) : bitInBlock data c = true := by
  obtain ⟨i, rfl⟩ : ∃ i, c = k * 8 + i := ⟨c - k * 8, by omega⟩
  rw [bitInBlock_of_byte (by omega), h]
  have hi : i < 8 := by omega
  clear hc hc' h
  revert i
  decide

theorem scanBytes_firstClear {a n : ℕ} :
    FirstClear data (a * 8) ((a + n) * 8) valid
      (scanBytes data valid (List.range' a n)) := by
  induction n generalizing a with
  | zero => exact fun c hc hc' => by omega
  | succ n ih =>
    have hrest := @ih (a + 1)
    rw [Nat.add_right_comm, Nat.add_assoc a] at hrest
    rw [range'_succ, scanBytes]
    split_ifs with hff
    · exact hrest.cons (by omega) fun c hc hc' _ => bitInBlock_of_ff hff hc (by omega)
    · have hbyte := @scanByte_firstClear data valid a 0 8 le_rfl
      rw [← range_eq_range', Nat.add_zero] at hbyte
      split
      · rename_i hbit
        rwa [hbit] at hbyte
      · rename_i hbit
        rw [hbit] at hbyte
        exact hrest.cons (by omega) fun c hc hc' => hbyte c hc (by omega)

/-- The search of one block finds the least clear bit below the bound. -/
theorem scanBlock_some {b : ℕ} (h : scanBlock data valid = some b) :
    b < valid ∧ bitInBlock data b = false ∧ ∀ c < b, bitInBlock data c = true := by
  have hscan := @scanBytes_firstClear data valid 0 ((valid + 7) / 8)
  rw [← range_eq_range', ← scanBlock, h] at hscan
  exact ⟨hscan.2.1, hscan.2.2.1, fun c => hscan.2.2.2 c (by omega)⟩

theorem scanBlock_none (h : scanBlock data valid = none) :
    ∀ c < valid, bitInBlock data c = true := by
  have hscan := @scanBytes_firstClear data valid 0 ((valid + 7) / 8)
  rw [← range_eq_range', ← scanBlock, h] at hscan
  exact fun c hc => hscan c (by omega) (by omega) hc

/-! ### A bitmap over consecutive blocks -/

namespace Fs

/-- Bit `b` of the bitmap that starts at block `start`. -/
def bitAt (s : Fs) (start b : ℕ) : Bool :=
  bitInBlock (s.block (start + b / s.layout.bitsPerBlock)) (b % s.layout.bitsPerBlock)

/-- Assign bit `b` of the bitmap that starts at block `start`. -/
def setBitAt (s : Fs) (start b : ℕ) (value : Bool) : Fs :=
  s.setBlock (start + b / s.layout.bitsPerBlock)
    (assignBit (s.block (start + b / s.layout.bitsPerBlock)) (b % s.layout.bitsPerBlock) value)

variable {s : Fs} {start b : ℕ} {value : Bool}

@[simp] theorem layout_setBitAt : (s.setBitAt start b value).layout = s.layout := rfl

@[simp] theorem length_disk_setBitAt :
    (s.setBitAt start b value).disk.length = s.disk.length := length_set

theorem block_setBitAt_of_ne {m : ℕ} (h : m ≠ start + b / s.layout.bitsPerBlock) :
    (s.setBitAt start b value).block m = s.block m :=
  block_setBlock_of_ne h

/-- Assigning a bit of a bitmap assigns that bit only. -/
theorem bitAt_setBitAt (c : ℕ) (h : start + b / s.layout.bitsPerBlock < s.disk.length) :
    (s.setBitAt start b value).bitAt start c = if c = b then value else s.bitAt start c := by
  unfold bitAt
  rw [layout_setBitAt]
  by_cases hdiv : c / s.layout.bitsPerBlock = b / s.layout.bitsPerBlock
  · have hmod : c % s.layout.bitsPerBlock = b % s.layout.bitsPerBlock ↔ c = b := by
      constructor
      · intro hm
        rw [← Nat.div_add_mod c s.layout.bitsPerBlock, hdiv, hm, Nat.div_add_mod]
      · rintro rfl
        rfl
    rw [setBitAt, hdiv, block_setBlock_self h, bitInBlock_assignBit]
    simp only [hmod]
  · have hcb : c ≠ b := fun hc => hdiv (by rw [hc])
    rw [if_neg hcb, block_setBitAt_of_ne]
    omega

end Fs

section Range

variable {env : Env} {s : Fs} {start blocks valid : ℕ}

theorem setBitInBitmapRange_eval {b : ℕ} {value : Bool} (hr : env.Reliable) (hb : b < valid)
    (hblk : b / s.layout.bitsPerBlock < blocks) (hdev : start + blocks ≤ s.blockCount) :
    (setBitInBitmapRange env start blocks valid b value).eval s =
      (.ok (), s.setBitAt start b value) := by
  have h1 : ¬(blocks = 0 ∨ valid ≤ b) :=
    not_or.mpr ⟨Nat.ne_zero_of_lt hblk, Nat.not_le.mpr hb⟩
  have h2 : start + b / s.layout.bitsPerBlock < s.blockCount :=
    Nat.lt_of_lt_of_le (Nat.add_lt_add_left hblk start) hdev
  simp [setBitInBitmapRange, eval_bind, h1, Nat.not_le.mpr hblk, readBlock_eval hr h2,
    writeBlock_eval hr h2, Fs.setBitAt]

end Range

/-! ### The search -/

/-- How a search of the blocks `a` to `a + n` of a bitmap can end: with the least clear bit
below the bound, which it has set; with none, when all of them are set; or with an error of the
device. -/
inductive Fs.Searched (env : Env) (s : Fs) (start valid a n : ℕ) : Except Err ℕ × Fs → Prop
  | found {b ios : ℕ} (served : env.AllServed s.ios ios) (lt : b < valid)
      (block : b / s.layout.bitsPerBlock < a + n) (clear : s.bitAt start b = false)
      (least : ∀ c, a * s.layout.bitsPerBlock ≤ c → c < b → s.bitAt start c = true) :
      Searched env s start valid a n (.ok b, (s.setBitAt start b true).ticked ios)
  | full {ios : ℕ} (served : env.AllServed s.ios ios)
      (set : ∀ c, a * s.layout.bitsPerBlock ≤ c → c < (a + n) * s.layout.bitsPerBlock →
        c < valid → s.bitAt start c = true) :
      Searched env s start valid a n (.error .noFreeBlocks, s.ticked ios)
  | failed {e : Err} {ios : ℕ} (failed : env.SomeFailed s.ios ios) (ne : e ≠ .noFreeBlocks) :
      Searched env s start valid a n (.error e, s.ticked ios)

section Search

variable {env : Env} {s : Fs} {start valid a n : ℕ}

/-- The bits of one block of a bitmap. -/
theorem bitAt_of_block {B c : ℕ} (hB : s.layout.bitsPerBlock = B) (h1 : a * B ≤ c)
    (h2 : c < a * B + B) :
    s.bitAt start c = bitInBlock (s.block (start + a)) (c - a * B) := by
  have hdiv : c / B = a := by
    rw [Nat.div_eq_of_lt_le (by rwa [Nat.mul_comm] at h1 ⊢)]
    rwa [Nat.succ_mul]
  have hmod : c % B = c - a * B := by
    have := Nat.div_add_mod' c B
    rw [hdiv] at this
    omega
  rw [Fs.bitAt, hB, hdiv, hmod]

/-- The bit found in a block, as a bit of the bitmap. -/
theorem setBitAt_of_block {B bit : ℕ} (hB : s.layout.bitsPerBlock = B) (hbit : bit < B) :
    (a * B + bit) / B = a ∧ s.setBitAt start (a * B + bit) true =
      s.setBlock (start + a) (assignBit (s.block (start + a)) bit true) := by
  have hdiv : (a * B + bit) / B = a := by
    rw [Nat.add_comm, Nat.add_mul_div_right _ _ (by omega), Nat.div_eq_of_lt hbit, Nat.zero_add]
  have hmod : (a * B + bit) % B = bit := by
    rw [Nat.add_comm, Nat.add_mul_mod_self_right, Nat.mod_eq_of_lt hbit]
  exact ⟨hdiv, by rw [Fs.setBitAt, hB, hdiv, hmod]⟩

/-- A search that goes on after a block without a clear bit. -/
theorem Fs.Searched.cons {r : Except Err ℕ × Fs} {ios : ℕ} (hserved : env.AllServed s.ios ios)
    (hset : ∀ c, a * s.layout.bitsPerBlock ≤ c →
      c < a * s.layout.bitsPerBlock + s.layout.bitsPerBlock → c < valid → s.bitAt start c = true)
    (h : (s.ticked ios).Searched env start valid (a + 1) n r) :
    s.Searched env start valid a (n + 1) r := by
  have hnext : (a + 1) * s.layout.bitsPerBlock =
      a * s.layout.bitsPerBlock + s.layout.bitsPerBlock := Nat.succ_mul a _
  have hcount : a + 1 + n = a + (n + 1) := by omega
  cases h with
  | found hserved' hlt hblock hclear hleast =>
    refine .found (hserved.trans hserved') hlt (hcount ▸ hblock) hclear fun c hc hcb => ?_
    by_cases hca : c < a * s.layout.bitsPerBlock + s.layout.bitsPerBlock
    · exact hset c hc hca (hcb.trans hlt)
    · exact hleast c (hnext.trans_le (Nat.not_lt.mp hca)) hcb
  | full hserved' hset' =>
    refine .full (hserved.trans hserved') fun c hc hc' hcv => ?_
    by_cases hca : c < a * s.layout.bitsPerBlock + s.layout.bitsPerBlock
    · exact hset c hc hca hcv
    · exact hset' c (hnext.trans_le (Nat.not_lt.mp hca)) (hcount ▸ hc') hcv
  | failed hfailed hne => exact .failed (hfailed.mono hserved.le le_rfl) hne

/-- The loop over the blocks of a bitmap of at most `2 ^ 32` bits. -/
theorem findFreeLoop_searched (hbits : 0 < s.layout.bitsPerBlock)
    (hwidth : (a + n) * s.layout.bitsPerBlock ≤ 2 ^ 32) (hdev : start + (a + n) ≤ s.blockCount) :
    s.Searched env start valid a n
      ((findFreeLoop env start valid true (List.range' a n)).eval s) := by
  induction n generalizing a s with
  | zero =>
    exact .full (.refl env s.ios) fun c h1 h2 => absurd h2 (Nat.not_lt.mpr h1)
  | succ n ih =>
    rw [range'_succ, findFreeLoop]
    rcases readBlock_cases env s (show start + a < s.blockCount by omega) with
      ⟨ios, hread, hserved⟩ | ⟨ios, hread, hfailed⟩
    · rw [eval_bind_of_ok hread, eval_get_bind]
      have hB : (s.ticked ios).layout.bitsPerBlock = s.layout.bitsPerBlock := rfl
      have hfirst : a * s.layout.bitsPerBlock % 2 ^ 32 = a * s.layout.bitsPerBlock := by
        refine Nat.mod_eq_of_lt (Nat.lt_of_lt_of_le ?_ hwidth)
        exact Nat.mul_lt_mul_of_pos_right (by omega) hbits
      rw [hB, hfirst]
      dsimp only
      cases hscan : scanBlock (s.block (start + a))
          (min (valid - a * s.layout.bitsPerBlock) s.layout.bitsPerBlock) with
      | none =>
        refine Fs.Searched.cons hserved (fun c h1 h2 h3 => ?_)
          (@ih (s.ticked ios) (a + 1) hbits (by rwa [show a + 1 + n = a + (n + 1) by omega]) (by
            change start + (a + 1 + n) ≤ s.blockCount
            omega))
        rw [bitAt_of_block rfl h1 h2]
        exact scanBlock_none hscan _ (by omega)
      | some bit =>
        obtain ⟨hlt, hclear, hleast⟩ := scanBlock_some hscan
        obtain ⟨hdiv, hset⟩ := @setBitAt_of_block s start a _ bit rfl (by omega)
        dsimp only
        rw [if_pos rfl]
        rcases writeBlock_cases env (s.ticked ios) (assignBit (s.block (start + a)) bit true)
          (show start + a < s.blockCount by omega) with
          ⟨ios', hwrite, hserved'⟩ | ⟨ios', hwrite, hfailed⟩
        · rw [eval_bind_of_ok hwrite]
          have hfound : s.Searched env start valid a (n + 1)
              (.ok (a * s.layout.bitsPerBlock + bit),
                (s.setBitAt start (a * s.layout.bitsPerBlock + bit) true).ticked ios') := by
            refine .found (hserved.trans hserved') (by omega) (by omega) ?_ fun c hc hcb => ?_
            · rw [@bitAt_of_block s start a _ _ rfl (by omega) (by omega),
                Nat.add_sub_cancel_left, hclear]
            · rw [@bitAt_of_block s start a _ _ rfl hc (by omega)]
              exact hleast _ (by omega)
          rwa [hset] at hfound
        · rw [eval_bind_of_error hwrite]
          exact .failed (hfailed.mono hserved.le le_rfl) (by decide)
    · rw [eval_bind_of_error hread]
      exact .failed hfailed (by decide)

/-- **The search of a bitmap** of at most `2 ^ 32` bits, on any device. -/
theorem findFreeFromBitmapRange_searched {blocks : ℕ} (hbits : 0 < s.layout.bitsPerBlock)
    (hblocks : 0 < blocks) (hvalid : 0 < valid) (hdev : start + blocks ≤ s.blockCount)
    (hwidth : blocks * s.layout.bitsPerBlock ≤ 2 ^ 32) :
    s.Searched env start valid 0 blocks
      ((findFreeFromBitmapRange env start blocks valid true).eval s) := by
  rw [findFreeFromBitmapRange, if_neg (by omega), range_eq_range']
  exact findFreeLoop_searched hbits (by rwa [Nat.zero_add]) (by rwa [Nat.zero_add])

/-- On a reliable device the least clear bit below the bound is found and set, or every bit
below the bound is set and nothing changes. -/
theorem Fs.Searched.reliable {blocks : ℕ} {r : Except Err ℕ × Fs} (hr : env.Reliable)
    (hcover : valid ≤ blocks * s.layout.bitsPerBlock)
    (h : s.Searched env start valid 0 blocks r) :
    (∃ b, r = (.ok b, s.setBitAt start b true) ∧ b < valid ∧ b / s.layout.bitsPerBlock < blocks ∧
        s.bitAt start b = false ∧ ∀ c < b, s.bitAt start c = true) ∨
    r = (.error .noFreeBlocks, s) ∧ ∀ c < valid, s.bitAt start c = true := by
  cases h with
  | found hserved hlt hblock hclear hleast =>
    rw [hserved.eq hr]
    exact .inl ⟨_, rfl, hlt, by rwa [Nat.zero_add] at hblock, hclear,
      fun c => hleast c (by rw [Nat.zero_mul]; exact c.zero_le)⟩
  | full hserved hset =>
    rw [hserved.eq hr]
    refine .inr ⟨rfl, fun c hc => hset c ?_ ?_ hc⟩
    · rw [Nat.zero_mul]
      exact c.zero_le
    · rw [Nat.zero_add]
      exact hc.trans_le hcover
  | failed hfailed _ => exact absurd hr hfailed.not_reliable

end Search

end OsPi
