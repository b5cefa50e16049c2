import OsPi.Fs.Inodes

/-!
# Formats, Read Back

What the definitions of the formats and of the state mean to a reader: an inode stored in
the inode table is read back as it was, entries of pointer blocks and of the inode table do
not disturb each other, and a bitmap block is a row of bits. Below them, `read_block` and
`write_block` on a device that does not fail.
-/

namespace OsPi

open Comp List

/-! ### Inodes -/

theorem Inode.blk_lt (n : Inode) (i : ℕ) : n.blk i < 2 ^ 32 :=
  UInt32.toNat_lt _

theorem Inode.blk_setBlk (n : Inode) {i : ℕ} (j v : ℕ) (hi : i < 15) :
    (n.setBlk i v).blk j = if j = i then v % 2 ^ 32 else n.blk j := by
  simp only [Inode.blk, Inode.setBlk, Vector.getElem?_setIfInBounds]
  by_cases h : i = j
  · subst h
    simp [hi]
  · simp [h, Ne.symm h]

@[simp] theorem Inode.toAttributes_setBlk (n : Inode) (i v : ℕ) :
    (n.setBlk i v).toAttributes = n.toAttributes := rfl

/-- An inode is the inode its bytes spell. -/
@[simp] theorem Inode.decode_encode (n : Inode) : Inode.decode n.encode = n := by
  have hblocks : (Inode.decode n.encode).blocks = n.blocks := by
    refine Vector.ext fun i hi => ?_
    have hread : Bytes.read n.encode (48 + 4 * i) 4 = n.blk i := by
      rw [Inode.encode]
      repeat rw [Bytes.read_cat_tail (by omega)]
      rw [Bytes.read_cat_head (by omega)]
      have hoff : 48 + 4 * i - 2 - 1 - 1 - 4 - 4 - 4 - 8 - 2 - 2 - 4 - 8 - 8 = 4 * i := by omega
      rw [hoff, Bytes.read_pack hi]
      exact Nat.mod_eq_of_lt (n.blk_lt i)
    simp [Inode.decode, hread, Inode.blk, hi]
  have hattrs : (Inode.decode n.encode).toAttributes = n.toAttributes := by
    simp (disch := decide) only [Inode.decode, Inode.encode, Bytes.read_cat_tail,
      Bytes.read_cat_head, Nat.reduceSub]
    simp [Bytes.read_zero]
  calc Inode.decode n.encode
      = ⟨(Inode.decode n.encode).toAttributes, (Inode.decode n.encode).blocks⟩ := rfl
    _ = n := by rw [hblocks, hattrs]

theorem Inode.encode_lt (n : Inode) : n.encode < 2 ^ (8 * inodeSize) := by
  refine Nat.lt_of_lt_of_eq (Bytes.cat_lt _) ?_
  simp only [map_cons, map_nil, List.sum_cons, List.sum_nil, inodeSize, Nat.reduceAdd]

/-- The inode stored is the inode found, and no other place changes. -/
theorem inodeAt_storeInode (data i j : ℕ) (n : Inode) :
    inodeAt (storeInode data i n) j = if j = i then n else inodeAt data j := by
  unfold inodeAt storeInode
  by_cases h : j = i
  · rw [if_pos h, h, Bytes.read_write_self, Nat.mod_eq_of_lt n.encode_lt, Inode.decode_encode]
  · rw [if_neg h, Bytes.read_write_of_disjoint]
    unfold inodeSize
    omega

/-! ### Pointer blocks -/

theorem ptrAt_setPtrAt (data i j v : ℕ) :
    ptrAt (setPtrAt data i v) j = if j = i then v % 2 ^ 32 else ptrAt data j := by
  unfold ptrAt setPtrAt
  by_cases h : j = i
  · rw [if_pos h, h, Bytes.read_write_self]
  · rw [if_neg h, Bytes.read_write_of_disjoint]
    omega

/-! ### Bitmap blocks -/

/-- The bit of the number that spells a bitmap block at which a bit of the bitmap is. -/
def bitPos (bit : ℕ) : ℕ := 8 * (bit / 8) + (7 - bit % 8)

theorem bitPos_injective : Function.Injective bitPos := by
  intro a b h
  unfold bitPos at h
  omega

theorem bitInBlock_eq_testBit (data bit : ℕ) :
    bitInBlock data bit = data.testBit (bitPos bit) := by
  have hlt : 7 - bit % 8 < 8 * 1 := by omega
  unfold bitInBlock bitMask bitPos
  rw [Nat.shiftLeft_eq, Nat.one_mul, Nat.and_two_pow, Bytes.testBit_read]
  cases data.testBit (8 * (bit / 8) + (7 - bit % 8)) <;> simp [hlt]

/-- Setting or clearing one bit of a byte. -/
theorem testBit_assignByte (byte j p : ℕ) (value : Bool) (hp : p < 8) :
    (if value then byte ||| 2 ^ j else byte &&& (0xFF ^^^ 2 ^ j)).testBit p =
      if p = j then value else byte.testBit p := by
  have h255 : Nat.testBit 0xFF p = true := by
    rw [show (0xFF : ℕ) = 2 ^ 8 - 1 from rfl, Nat.testBit_two_pow_sub_one]
    simpa using hp
  by_cases h : p = j
  · subst h
    cases value <;> simp [h255]
  · cases value <;> simp [h, Ne.symm h, h255]

theorem testBit_assignBit (data bit i : ℕ) (value : Bool) :
    (assignBit data bit value).testBit i =
      if i = bitPos bit then value else data.testBit i := by
  unfold assignBit bitMask bitPos
  rw [Bytes.testBit_write, Nat.shiftLeft_eq, Nat.one_mul]
  by_cases hin : 8 * (bit / 8) ≤ i ∧ i < 8 * (bit / 8 + 1)
  · have hlt : i - 8 * (bit / 8) < 8 := by omega
    have hback : 8 * (bit / 8) + (i - 8 * (bit / 8)) = i := by omega
    have hiff : i - 8 * (bit / 8) = 7 - bit % 8 ↔ i = 8 * (bit / 8) + (7 - bit % 8) := by omega
    rw [if_pos hin, testBit_assignByte _ _ _ _ hlt, Bytes.testBit_read, hback]
    simp only [hiff, hlt, Nat.mul_one, decide_true, Bool.true_and]
  · have hi : i ≠ 8 * (bit / 8) + (7 - bit % 8) := by omega
    rw [if_neg hin, if_neg hi]

/-- Assigning a bit assigns that bit only. -/
theorem bitInBlock_assignBit (data b c : ℕ) (value : Bool) :
    bitInBlock (assignBit data b value) c = if c = b then value else bitInBlock data c := by
  rw [bitInBlock_eq_testBit, bitInBlock_eq_testBit, testBit_assignBit]
  simp only [bitPos_injective.eq_iff]

/-! ### Blocks -/

section Blocks

variable (s : Fs) (num data : ℕ)

@[simp] theorem Fs.layout_setBlock : (s.setBlock num data).layout = s.layout := by
  simp only [Fs.setBlock]

@[simp] theorem Fs.blockCount_setBlock : (s.setBlock num data).blockCount = s.blockCount := by
  simp only [Fs.setBlock]

@[simp] theorem Fs.length_disk_setBlock :
    (s.setBlock num data).disk.length = s.disk.length := length_set

variable {s num data}

theorem Fs.block_setBlock_self (h : num < s.disk.length) :
    (s.setBlock num data).block num = data := by
  simp [Fs.block, Fs.setBlock, getD_eq_getElem?_getD, h]

theorem Fs.block_setBlock_of_ne {m : ℕ} (h : m ≠ num) :
    (s.setBlock num data).block m = s.block m := by
  simp [Fs.block, Fs.setBlock, getD_eq_getElem?_getD, getElem?_set_ne h.symm]

end Blocks

/-- Every device operation succeeds. -/
def Env.Reliable (env : Env) : Prop := env.fails = none

section Reliable

variable {env : Env} {s : Fs} {num data : ℕ}

theorem readBlock_eval (hr : env.Reliable) (h : num < s.blockCount) :
    (readBlock env num).eval s = (.ok (s.block num), s) := by
  have hfails : env.fails = none := hr
  simp [readBlock, deviceFails, hfails, eval_bind, Nat.not_le.mpr h]

theorem readBlock_eval_error (h : s.blockCount ≤ num) :
    (readBlock env num).eval s = (.error .fileReadError, s) := by
  simp [readBlock, eval_bind, h]

theorem writeBlock_eval (hr : env.Reliable) (h : num < s.blockCount) :
    (writeBlock env data num).eval s = (.ok (), s.setBlock num data) := by
  have hfails : env.fails = none := hr
  simp [writeBlock, deviceFails, hfails, eval_bind, Nat.not_le.mpr h]

theorem writeBlock_eval_error (h : s.blockCount ≤ num) :
    (writeBlock env data num).eval s = (.error .fileWriteError, s) := by
  simp [writeBlock, eval_bind, h]

end Reliable

/-! ### Devices that may fail -/

/-- The state after device operations have been counted. -/
def Fs.ticked (s : Fs) (ios : ℕ) : Fs := { s with ios }

/-- The device operations from number `a` to number `b` have all succeeded. -/
def Env.AllServed (env : Env) (a b : ℕ) : Prop :=
  match env.fails with
  | none => b = a
  | some f => a ≤ b ∧ ∀ k, a ≤ k → k < b → f k = false

/-- One of the device operations from number `a` to number `b` has failed. -/
def Env.SomeFailed (env : Env) (a b : ℕ) : Prop :=
  ∃ f, env.fails = some f ∧ ∃ k, a ≤ k ∧ k < b ∧ f k = true

namespace Env

variable {env : Env} {a b c : ℕ}

theorem AllServed.refl (env : Env) (a : ℕ) : env.AllServed a a := by
  rw [AllServed]
  split
  · rfl
  · exact ⟨le_rfl, fun k h h' => absurd h (Nat.not_le.mpr h')⟩

theorem AllServed.le (h : env.AllServed a b) : a ≤ b := by
  rw [AllServed] at h
  split at h
  · exact h.ge
  · exact h.1

theorem AllServed.trans (h : env.AllServed a b) (h' : env.AllServed b c) :
    env.AllServed a c := by
  cases hf : env.fails with
  | none =>
    rw [AllServed, hf] at h h' ⊢
    exact Eq.trans h' h
  | some f =>
    rw [AllServed, hf] at h h' ⊢
    refine ⟨le_trans h.1 h'.1, fun k hk hk' => ?_⟩
    by_cases hkb : k < b
    · exact h.2 k hk hkb
    · exact h'.2 k (Nat.not_lt.mp hkb) hk'

theorem AllServed.eq (h : env.AllServed a b) (hr : env.Reliable) : b = a := by
  rwa [AllServed, show env.fails = none from hr] at h

theorem SomeFailed.mono {a' b' : ℕ} (h : env.SomeFailed a b) (ha : a' ≤ a) (hb : b ≤ b') :
    env.SomeFailed a' b' := by
  obtain ⟨f, hf, k, hak, hkb, hk⟩ := h
  exact ⟨f, hf, k, ha.trans hak, hkb.trans_le hb, hk⟩

theorem SomeFailed.not_reliable (h : env.SomeFailed a b) : ¬env.Reliable := by
  obtain ⟨f, hf, -⟩ := h
  exact fun hr => by cases hr.symm.trans hf

end Env

section Unreliable

variable (env : Env) (s : Fs)

theorem deviceFails_cases :
    ∃ fails ios, (deviceFails env).eval s = (.ok fails, s.ticked ios) ∧
      if fails then env.SomeFailed s.ios ios else env.AllServed s.ios ios := by
  cases h : env.fails with
  | none =>
    refine ⟨false, s.ios, ?_, Env.AllServed.refl env s.ios⟩
    rw [deviceFails, h]
    rfl
  | some f =>
    refine ⟨f s.ios, s.ios + 1, ?_, ?_⟩
    · rw [deviceFails, h]
      rfl
    · cases hf : f s.ios with
      | true => exact ⟨f, h, s.ios, le_rfl, Nat.lt_succ_self _, hf⟩
      | false =>
        rw [Env.AllServed, h]
        refine ⟨Nat.le_succ _, fun k hk hk' => ?_⟩
        rwa [show k = s.ios by omega]

theorem readBlock_cases {num : ℕ} (hnum : num < s.blockCount) :
    (∃ ios, (readBlock env num).eval s = (.ok (s.block num), s.ticked ios) ∧
      env.AllServed s.ios ios) ∨
    ∃ ios, (readBlock env num).eval s = (.error .fileReadError, s.ticked ios) ∧
      env.SomeFailed s.ios ios := by
  have hle := Nat.not_le.mpr hnum
  obtain ⟨fails, ios, heval, hserved⟩ := deviceFails_cases env s
  cases fails with
  | true => exact .inr ⟨ios, by simp [readBlock, eval_bind, hle, heval], hserved⟩
  | false =>
    refine .inl ⟨ios, ?_, hserved⟩
    simp [readBlock, eval_bind, hle, heval, Fs.block]

theorem writeBlock_cases (data : ℕ) {num : ℕ} (hnum : num < s.blockCount) :
    (∃ ios, (writeBlock env data num).eval s = (.ok (), (s.setBlock num data).ticked ios) ∧
      env.AllServed s.ios ios) ∨
    ∃ ios, (writeBlock env data num).eval s = (.error .fileWriteError, s.ticked ios) ∧
      env.SomeFailed s.ios ios := by
  have hle := Nat.not_le.mpr hnum
  obtain ⟨fails, ios, heval, hserved⟩ := deviceFails_cases env s
  cases fails with
  | true => exact .inr ⟨ios, by simp [writeBlock, eval_bind, hle, heval], hserved⟩
  | false =>
    refine .inl ⟨ios, ?_, hserved⟩
    simp only [writeBlock, eval_bind, eval_get, hle, if_false, heval, Bool.false_eq_true]
    rfl

end Unreliable

/-! ### Computations on an inode -/

section InodeM

variable {α : Type} (n : Inode) (s : Fs)

@[simp] theorem theInode_eval : theInode.eval (n, s) = (.ok n, (n, s)) := rfl

@[simp] theorem modifyInode_eval (f : Inode → Inode) :
    (modifyInode f).eval (n, s) = (.ok (), (f n, s)) := rfl

@[simp] theorem onFs_eval (m : FsM α) :
    (onFs m).eval (n, s) = ((m.eval s).1, (n, (m.eval s).2)) := rfl

end InodeM

/-! ### Error codes a caller looks at -/

section TryErr

variable {σ α : Type} {m : Comp σ Err α} {t t' : σ} {a : α} {e : Err}

theorem tryErr_eval_ok (h : m.eval t = (.ok a, t')) :
    (tryErr m).eval t = (.ok (.ok a), t') := by
  simp [tryErr, eval_bind, h]

theorem tryErr_eval_error (h : m.eval t = (.error e, t')) :
    (tryErr m).eval t = (if e.fatal then .error e else .ok (.error e), t') := by
  cases hf : e.fatal <;> simp [tryErr, eval_bind, h, hf]

end TryErr

end OsPi
