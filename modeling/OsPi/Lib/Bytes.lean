import Mathlib.Data.Nat.Bitwise

/-!
# Byte Strings as Numbers

A string of bytes is the number whose digits in base 256 they are, least significant
first. The `len` bytes from `off` on are then the number `read b off len`, which is also
the value of a little-endian integer stored there, and `write b off len v` stores `v` in
those bytes and leaves the others alone.

Every fact follows from the description of the two by bits (`testBit_read`,
`testBit_write`); the lemmas after them say what reading finds after writing when the two
ranges are the same, nested or disjoint. `pack` lays out fields of one width one after the
other, `cat` fields of several widths.
-/

namespace Bytes

variable {off len v b : ℕ}

/-- The number stored in the `len` bytes from `off` on. -/
def read (b off len : ℕ) : ℕ :=
  b >>> (8 * off) % 2 ^ (8 * len)

/-- Store `v` in the `len` bytes from `off` on. -/
def write (b off len v : ℕ) : ℕ :=
  b % 2 ^ (8 * off) + 2 ^ (8 * off) * (v % 2 ^ (8 * len) + 2 ^ (8 * len) * b >>> (8 * (off + len)))

/-- `n` fields of `w` bytes each, one after the other. -/
def pack (w : ℕ) (f : ℕ → ℕ) : ℕ → ℕ
  | 0 => 0
  | n + 1 => write (pack w f n) (w * n) w (f n)

/-- Fields of the given widths, one after the other. -/
def cat : List (ℕ × ℕ) → ℕ
  | [] => 0
  | (w, v) :: fs => v % 2 ^ (8 * w) + 2 ^ (8 * w) * cat fs

/-! ### Bits -/

theorem testBit_read (b off len i : ℕ) :
    (read b off len).testBit i = (decide (i < 8 * len) && b.testBit (8 * off + i)) := by
  rw [read, Nat.testBit_mod_two_pow, Nat.testBit_shiftRight]

theorem testBit_write (b off len v i : ℕ) :
    (write b off len v).testBit i =
      if 8 * off ≤ i ∧ i < 8 * (off + len) then v.testBit (i - 8 * off) else b.testBit i := by
  have hb : b % 2 ^ (8 * off) < 2 ^ (8 * off) := Nat.mod_lt _ (Nat.two_pow_pos _)
  have hv : v % 2 ^ (8 * len) < 2 ^ (8 * len) := Nat.mod_lt _ (Nat.two_pow_pos _)
  rw [write, Nat.add_comm (b % _), Nat.testBit_two_pow_mul_add _ hb, Nat.add_comm (v % _),
    Nat.testBit_two_pow_mul_add _ hv, Nat.testBit_mod_two_pow, Nat.testBit_mod_two_pow,
    Nat.testBit_shiftRight]
  by_cases h1 : i < 8 * off
  · simp [h1, Nat.not_le.mpr h1]
  · by_cases h2 : i - 8 * off < 8 * len
    · have h3 : 8 * off ≤ i ∧ i < 8 * (off + len) := by omega
      simp [h1, h2, h3]
    · have h3 : ¬(8 * off ≤ i ∧ i < 8 * (off + len)) := by omega
      have h4 : 8 * (off + len) + (i - 8 * off - 8 * len) = i := by omega
      simp [h1, h2, h3, h4]

theorem read_lt (b off len : ℕ) : read b off len < 2 ^ (8 * len) :=
  Nat.mod_lt _ (Nat.two_pow_pos _)

/-! ### Reading after writing -/

/-- Inside the range written, the bytes are those of the value. -/
theorem read_write_of_le {off' len' : ℕ} (h : off ≤ off') (h' : off' + len' ≤ off + len) :
    read (write b off len v) off' len' = read v (off' - off) len' := by
  refine Nat.eq_of_testBit_eq fun i => ?_
  rw [testBit_read, testBit_write, testBit_read]
  by_cases hi : i < 8 * len'
  · have hin : 8 * off ≤ 8 * off' + i ∧ 8 * off' + i < 8 * (off + len) := by omega
    have hoff : 8 * off' + i - 8 * off = 8 * (off' - off) + i := by omega
    rw [if_pos hin, hoff]
  · simp [hi]

theorem read_zero (v len : ℕ) : read v 0 len = v % 2 ^ (8 * len) := by
  simp [read]

@[simp] theorem read_write_self (b off len v : ℕ) :
    read (write b off len v) off len = v % 2 ^ (8 * len) := by
  rw [read_write_of_le (le_refl _) (le_refl _), Nat.sub_self, read_zero]

/-- Outside the range written, nothing changes. -/
theorem read_write_of_disjoint {off' len' : ℕ} (h : off' + len' ≤ off ∨ off + len ≤ off') :
    read (write b off len v) off' len' = read b off' len' := by
  refine Nat.eq_of_testBit_eq fun i => ?_
  rw [testBit_read, testBit_write, testBit_read]
  by_cases hi : i < 8 * len'
  · have hout : ¬(8 * off ≤ 8 * off' + i ∧ 8 * off' + i < 8 * (off + len)) := by omega
    rw [if_neg hout]
  · simp [hi]

/-- Reading inside a range already read. -/
theorem read_read {off' len' : ℕ} (h : off' + len' ≤ len) :
    read (read b off len) off' len' = read b (off + off') len' := by
  refine Nat.eq_of_testBit_eq fun i => ?_
  rw [testBit_read, testBit_read, testBit_read]
  by_cases hi : i < 8 * len'
  · have hin : 8 * off' + i < 8 * len := by omega
    have hoff : 8 * off + (8 * off' + i) = 8 * (off + off') + i := by omega
    simp [hi, hin, hoff]
  · simp [hi]

/-! ### Single bytes -/

/-- The byte at the position `i`. -/
def byte (b i : ℕ) : ℕ := read b i 1

theorem byte_write (b off len v i : ℕ) :
    byte (write b off len v) i =
      if off ≤ i ∧ i < off + len then byte v (i - off) else byte b i := by
  split_ifs with h
  · exact read_write_of_le h.1 (by omega)
  · exact read_write_of_disjoint (by omega)

theorem byte_read {i : ℕ} (h : i < len) : byte (read b off len) i = byte b (off + i) :=
  read_read (by omega)

/-! ### Fields -/

/-- The fields of a packed string. -/
theorem read_pack {w : ℕ} {f : ℕ → ℕ} {n i : ℕ} (hi : i < n) :
    read (pack w f n) (w * i) w = f i % 2 ^ (8 * w) := by
  induction n with
  | zero => omega
  | succ n ih =>
    by_cases h : i = n
    · rw [h, pack, read_write_self]
    · have hle : w * i + w ≤ w * n := by
        have := Nat.mul_le_mul_left w (show i + 1 ≤ n by omega)
        rwa [Nat.mul_succ] at this
      rw [pack, read_write_of_disjoint (.inl hle), ih (by omega)]

/-- Reading inside the first field of a string of fields. -/
theorem read_cat_head {w : ℕ} {fs : List (ℕ × ℕ)} (h : off + len ≤ w) :
    read (cat ((w, v) :: fs)) off len = read v off len := by
  have hv : v % 2 ^ (8 * w) < 2 ^ (8 * w) := Nat.mod_lt _ (Nat.two_pow_pos _)
  refine Nat.eq_of_testBit_eq fun i => ?_
  rw [testBit_read, testBit_read, cat, Nat.add_comm (v % _), Nat.testBit_two_pow_mul_add _ hv]
  by_cases hi : i < 8 * len
  · have hin : 8 * off + i < 8 * w := by omega
    simp [hin]
  · simp [hi]

/-- Reading past the first field is reading the rest. -/
theorem read_cat_tail {w : ℕ} {fs : List (ℕ × ℕ)} (h : w ≤ off) :
    read (cat ((w, v) :: fs)) off len = read (cat fs) (off - w) len := by
  have hv : v % 2 ^ (8 * w) < 2 ^ (8 * w) := Nat.mod_lt _ (Nat.two_pow_pos _)
  refine Nat.eq_of_testBit_eq fun i => ?_
  have hge : ¬8 * off + i < 8 * w := by omega
  have hoff : 8 * off + i - 8 * w = 8 * (off - w) + i := by omega
  rw [testBit_read, testBit_read, cat, Nat.add_comm (v % _), Nat.testBit_two_pow_mul_add _ hv,
    if_neg hge, hoff]

/-- Fields spell a string of their total width. -/
theorem cat_lt (fs : List (ℕ × ℕ)) : cat fs < 2 ^ (8 * (fs.map Prod.fst).sum) := by
  induction fs with
  | nil => simp [cat]
  | cons f fs ih =>
    obtain ⟨w, v⟩ := f
    have hv : v % 2 ^ (8 * w) < 2 ^ (8 * w) := Nat.mod_lt _ (Nat.two_pow_pos _)
    have hle : 2 ^ (8 * w) * (cat fs + 1) ≤ 2 ^ (8 * w) * 2 ^ (8 * (fs.map Prod.fst).sum) :=
      Nat.mul_le_mul_left _ ih
    have hsum : ((w, v) :: fs |>.map Prod.fst).sum = w + (fs.map Prod.fst).sum := rfl
    rw [cat, hsum, Nat.mul_add, Nat.pow_add]
    rw [Nat.mul_succ] at hle
    omega

end Bytes
