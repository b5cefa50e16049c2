import OsPi.Fs.Operations

/-!
# The Two Bitmaps

What the rest of the file system relies on: that a bitmap is searched and updated rightly
(`Fs.BitmapServed`), whatever its length and contents, and that the two bitmaps of a new file
system say which blocks and inodes are in use (`Fs.Painted`).
-/

namespace OsPi

open Comp List

/-! ### What callers rely on -/

section Served

variable {env : Env} {s : Fs} {start blocks valid block value : ℕ}

/-- A bitmap whose first `2 ^ 32` bits are set and the others clear. -/
def Fs.filled (s : Fs) (start : ℕ) : Fs :=
  { s with disk := (List.range s.disk.length).map fun x =>
      if start ≤ x ∧ x < start + 2 ^ 32 / s.layout.bitsPerBlock
      then 2 ^ s.layout.bitsPerBlock - 1 else 0 }

end Served

/-! ### The bitmaps of a new file system -/

/-- The blocks `a` to `b` of the bitmap that starts at block `start` have been written, with the
bits `want`, and no other block. -/
structure Fs.Painted (s s' : Fs) (start : ℕ) (want : ℕ → Bool) (a b : ℕ) : Prop where
  layout : s'.layout = s.layout
  length : s'.disk.length = s.disk.length
  bits : ∀ k, a ≤ k → k < b → ∀ i < s.layout.bitsPerBlock,
    bitInBlock (s'.block (start + k)) i = want (k * s.layout.bitsPerBlock + i)
  other : ∀ x, x < start + a ∨ start + b ≤ x → s'.block x = s.block x

section Painted

variable {env : Env} {s s' s'' : Fs} {start a b c : ℕ} {want : ℕ → Bool}

namespace Fs.Painted

theorem refl (s : Fs) (start : ℕ) (want : ℕ → Bool) (a : ℕ) : s.Painted s start want a a :=
  ⟨rfl, rfl, fun _ h h' => absurd h (Nat.not_le.mpr h'), fun _ _ => rfl⟩

theorem trans (h : s.Painted s' start want a b) (h' : s'.Painted s'' start want b c)
    (hab : a ≤ b) (hbc : b ≤ c) : s.Painted s'' start want a c where
  layout := h'.layout.trans h.layout
  length := h'.length.trans h.length
  bits k hk hk' i hi := by
    by_cases hkb : k < b
    · rw [h'.other _ (by omega)]
      exact h.bits k hk hkb i hi
    · have hbits := h'.bits k (Nat.not_lt.mp hkb) hk' i
      rw [h.layout] at hbits
      exact hbits hi
  other x hx := by rw [h'.other x (by omega), h.other x (by omega)]

/-- The blocks get one value each. -/
theorem of_block (hlayout : s'.layout = s.layout) (hlength : s'.disk.length = s.disk.length)
    (hblock : ∀ x, s'.block x = if start + a ≤ x ∧ x < start + b then value
      else s.block x)
    (hvalue : ∀ k, a ≤ k → k < b → ∀ i < s.layout.bitsPerBlock,
      bitInBlock value i = want (k * s.layout.bitsPerBlock + i)) :
    s.Painted s' start want a b where
  layout := hlayout
  length := hlength
  bits k hk hk' i hi := by
    rw [hblock, if_pos (by omega)]
    exact hvalue k hk hk' i hi
  other x hx := by rw [hblock, if_neg (by omega)]

/-- The bits of the bitmap, once all its blocks have been written. -/
theorem bitAt (h : s.Painted s' start want 0 b) (hpos : 0 < s.layout.bitsPerBlock) {x : ℕ}
    (hx : x < b * s.layout.bitsPerBlock) : s'.bitAt start x = want x := by
  have hdiv := (Nat.div_lt_iff_lt_mul hpos).mpr hx
  have hbits := h.bits _ (Nat.zero_le _) hdiv _ (Nat.mod_lt x hpos)
  rwa [Nat.mul_comm, Nat.div_add_mod, ← h.layout] at hbits

end Fs.Painted

theorem bitInBlock_ones {l : Layout} {i : ℕ} (hi : i < l.bitsPerBlock) :
    bitInBlock (2 ^ l.bitsPerBlock - 1) i = true := by
  rw [bitInBlock_eq_testBit, Nat.testBit_two_pow_sub_one, decide_eq_true_eq, bitPos]
  rw [Layout.bitsPerBlock] at hi ⊢
  omega

theorem bitInBlock_bitmapOf (bit : ℕ → Bool) (n i : ℕ) :
    bitInBlock (bitmapOf bit n) i = (decide (i < n) && bit i) := by
  induction n with
  | zero => simp [bitmapOf, bitInBlock_eq_testBit]
  | succ n ih =>
    rw [bitmapOf]
    by_cases hi : i = n
    · subst hi
      cases hbit : bit i <;> simp [hbit, bitInBlock_assignBit, ih]
    · have hlt : i < n + 1 ↔ i < n := by omega
      split_ifs
      · rw [bitInBlock_assignBit, if_neg hi, ih, decide_eq_decide.mpr hlt]
      · rw [ih, decide_eq_decide.mpr hlt]

/-- What a successful write leaves, whether or not other operations fail. -/
theorem writeBlock_ok {data num : ℕ} (h : (writeBlock env data num).eval s = (.ok (), s'))
    (hnum : num < s.disk.length) : s'.layout = s.layout ∧ s'.disk.length = s.disk.length ∧
      s'.blockCount = s.blockCount ∧
      ∀ x, s'.block x = if num ≤ x ∧ x < num + 1 then data else s.block x := by
  by_cases hcount : num < s.blockCount
  · rcases writeBlock_cases env s data hcount with ⟨ios, heval, -⟩ | ⟨ios, heval, -⟩
    · cases heval.symm.trans h
      refine ⟨rfl, length_set, rfl, fun x => ?_⟩
      change (s.setBlock num data).block x = _
      split_ifs with hx
      · rw [show x = num by omega, Fs.block_setBlock_self hnum]
      · exact Fs.block_setBlock_of_ne (by omega)
    · cases heval.symm.trans h
  · cases (writeBlock_eval_error (Nat.not_lt.mp hcount)).symm.trans h

theorem block_fillBlocks (s : Fs) (start value : ℕ) {count : ℕ}
    (h : start + count ≤ s.disk.length) (x : ℕ) :
    (s.fillBlocks start value count).block x =
      if start ≤ x ∧ x < start + count then value else s.block x := by
  induction count with
  | zero => rw [if_neg (by omega), Fs.fillBlocks]
  | succ count ih =>
    rw [Fs.fillBlocks]
    by_cases hx : x = start + count
    · rw [hx, Fs.block_setBlock_self (by rw [length_disk_fillBlocks]; omega), if_pos (by omega)]
    · rw [Fs.block_setBlock_of_ne hx, ih (by omega)]
      exact if_congr (by omega) rfl rfl

theorem fillBlocks_layout (s : Fs) (start value count : ℕ) :
    (s.fillBlocks start value count).layout = s.layout ∧
      (s.fillBlocks start value count).blockCount = s.blockCount := by
  induction count with
  | zero => exact ⟨rfl, rfl⟩
  | succ count ih => exact ih

/-- The chunks of a run cover it. -/
theorem writeFilledLoop_ok {fuel current remaining : ℕ} (hfuel : remaining ≤ fuel)
    (h : (writeFilledLoop env value fuel current remaining).eval s = (.ok (), s'))
    (hlen : current + remaining ≤ s.disk.length) :
    s'.layout = s.layout ∧ s'.disk.length = s.disk.length ∧ s'.blockCount = s.blockCount ∧
      ∀ x, s'.block x = if current ≤ x ∧ x < current + remaining then value else s.block x := by
  induction fuel generalizing current remaining s with
  | zero =>
    cases h
    exact ⟨rfl, rfl, rfl, fun x => by rw [if_neg (by omega)]⟩
  | succ fuel ih =>
    rw [writeFilledLoop, eval_ite] at h
    split_ifs at h with h0
    · cases h
      exact ⟨rfl, rfl, rfl, fun x => by rw [if_neg (by omega)]⟩
    have hchunk : 0 < min remaining mkfsFillChunkBlocks := by
      rw [mkfsFillChunkBlocks]
      omega
    generalize hc : min remaining mkfsFillChunkBlocks = chunk at h hchunk
    have hle : chunk ≤ remaining := by omega
    obtain ⟨fails, ios, hdev, -⟩ := deviceFails_cases env s
    rw [eval_bind_of_ok hdev, eval_ite] at h
    cases fails with
    | true => cases h
    | false =>
      rw [if_neg Bool.false_ne_true, eval_modify_bind] at h
      have hlength := length_disk_fillBlocks (s.ticked ios) current value chunk
      obtain ⟨h1, h2, h3, h4⟩ := ih (by omega) h (by
        rw [hlength]
        change current + chunk + (remaining - chunk) ≤ s.disk.length
        omega)
      obtain ⟨hl, hcount⟩ := fillBlocks_layout (s.ticked ios) current value chunk
      refine ⟨h1.trans hl, h2.trans hlength, h3.trans hcount, fun x => ?_⟩
      rw [h4, block_fillBlocks _ _ _ (by change current + chunk ≤ s.disk.length; omega)]
      change (if _ then _ else if _ then _ else s.block x) = _
      split_ifs <;> first | rfl | omega

theorem takeWhile_range' (p : ℕ → Bool) (a n : ℕ) :
    ((List.range' a n).takeWhile p).length ≤ n ∧
      ∀ k, a ≤ k → k < a + ((List.range' a n).takeWhile p).length → p k = true := by
  induction n generalizing a with
  | zero => exact ⟨le_rfl, fun k hk hk' => absurd hk (Nat.not_le.mpr hk')⟩
  | succ n ih =>
    obtain ⟨hle, hall⟩ := ih (a + 1)
    rw [range'_succ]
    cases hp : p a with
    | false =>
      rw [takeWhile_cons_of_neg (by rw [hp]; exact Bool.false_ne_true)]
      exact ⟨Nat.zero_le _, fun k hk hk' => absurd hk (Nat.not_le.mpr hk')⟩
    | true =>
      rw [takeWhile_cons_of_pos hp, length_cons]
      refine ⟨Nat.succ_le_succ hle, fun k hk hk' => ?_⟩
      rcases Nat.eq_or_lt_of_le hk with rfl | hlt
      · exact hp
      · exact hall k hlt (by omega)

theorem runLength_spec (p : ℕ → Bool) {limit : ℕ} (hlt : block < limit)
    (hp : p block = true) : 0 < runLength p block limit ∧
      block + runLength p block limit ≤ limit ∧
      ∀ k, block ≤ k → k < block + runLength p block limit → p k = true := by
  obtain ⟨hle, hall⟩ := takeWhile_range' p block (limit - block)
  refine ⟨?_, ?_, hall⟩
  · obtain ⟨n, hn⟩ : ∃ n, limit - block = n + 1 := ⟨limit - block - 1, by omega⟩
    rw [runLength, hn, range'_succ, takeWhile_cons_of_pos hp]
    exact Nat.succ_pos _
  · rw [runLength]
    omega

/-! ### Running the code -/

/-- The bits of the block bitmap that are set: those of the blocks up to the first data block,
which the root directory has, and those past the last block. -/
def Layout.blockInUse (l : Layout) (b : ℕ) : Bool :=
  decide (b ≤ l.dataStartBlock) || decide (l.totalBlocks ≤ b)

/-- The bits of the inode bitmap that are set. -/
def Layout.inodeInUse (l : Layout) (b : ℕ) : Bool :=
  decide (b = 0) || decide (l.inodeCapacity ≤ b)

/-- A run of blocks of one value. -/
theorem Fs.Painted.of_run {p : ℕ → Bool} {block limit : ℕ} (hlt : block < limit)
    (hp : p block = true) (hlen : start + limit ≤ s.disk.length)
    (hvalue : ∀ k, p k = true → ∀ i < s.layout.bitsPerBlock,
      bitInBlock value i = want (k * s.layout.bitsPerBlock + i))
    (h : (writeFilledBlocks env (start + block) (runLength p block limit) value).eval s =
      (.ok (), s')) :
    s.Painted s' start want block (block + runLength p block limit) := by
  obtain ⟨-, hle, hall⟩ := runLength_spec p hlt hp
  obtain ⟨h1, h2, -, h4⟩ := writeFilledLoop_ok le_rfl h (by omega)
  refine .of_block h1 h2 (fun x => ?_) fun k hk hk' => hvalue k (hall k hk hk')
  rw [h4]
  exact if_congr (by omega) rfl rfl

theorem writeBlockBitmapLoop_painted {l : Layout} (hlayout : s.layout = l)
    (hlen : l.blockBitmapStart + l.blockBitmapBlocks ≤ s.disk.length) {fuel : ℕ}
    (hfuel : l.blockBitmapBlocks ≤ block + fuel) (hblock : block ≤ l.blockBitmapBlocks)
    (h : (writeBlockBitmapLoop env l fuel block).eval s = (.ok (), s')) :
    s.Painted s' l.blockBitmapStart l.blockInUse block l.blockBitmapBlocks := by
  induction fuel generalizing block s with
  | zero =>
    cases h
    obtain rfl : block = l.blockBitmapBlocks := by omega
    exact .refl _ _ _ _
  | succ fuel ih =>
    rw [writeBlockBitmapLoop] at h
    have hrest : ∀ {s₁ : Fs} {next : ℕ}, s.Painted s₁ l.blockBitmapStart l.blockInUse block next →
        block < next → next ≤ l.blockBitmapBlocks →
        (writeBlockBitmapLoop env l fuel next).eval s₁ = (.ok (), s') →
        s.Painted s' l.blockBitmapStart l.blockInUse block l.blockBitmapBlocks := by
      intro s₁ next hpaint hlt hle hrun
      exact hpaint.trans (ih (hpaint.layout.trans hlayout) (by rwa [hpaint.length]) (by omega)
        hle hrun) hlt.le hle
    have hbound : ∀ k i : ℕ, i < l.bitsPerBlock →
        k * l.bitsPerBlock + i < (k + 1) * l.bitsPerBlock := fun k i hi => by
      rw [Nat.succ_mul]
      omega
    simp only [eval_ite] at h
    split_ifs at h with hdone hfull hclear
    · cases h
      obtain rfl : block = l.blockBitmapBlocks := by omega
      exact .refl _ _ _ _
    · obtain ⟨_, s₁, hrun, h⟩ := eval_bind_eq_ok.mp h
      obtain ⟨hpos, hle, -⟩ := runLength_spec _ (Nat.not_le.mp hdone) hfull
      refine hrest (.of_run (Nat.not_le.mp hdone) hfull hlen (fun k hk i hi => ?_) hrun)
        (by omega) hle h
      rw [hlayout] at hi ⊢
      have hlt := hbound k i hi
      have hset : k * l.bitsPerBlock + i ≤ l.dataStartBlock ∨
          l.totalBlocks ≤ k * l.bitsPerBlock + i := by
        rw [writeBlockBitmapLoop.isFull, Bool.or_eq_true, decide_eq_true_eq,
          decide_eq_true_eq] at hk
        omega
      rw [bitInBlock_ones hi, Layout.blockInUse, Eq.comm, Bool.or_eq_true, decide_eq_true_eq,
        decide_eq_true_eq]
      exact hset
    · obtain ⟨_, s₁, hrun, h⟩ := eval_bind_eq_ok.mp h
      obtain ⟨hpos, hle, -⟩ := runLength_spec _ (Nat.not_le.mp hdone) hclear
      refine hrest (.of_run (Nat.not_le.mp hdone) hclear hlen (fun k hk i hi => ?_) hrun)
        (by omega) hle h
      rw [hlayout] at hi ⊢
      have hlt := hbound k i hi
      have hunset : ¬k * l.bitsPerBlock + i ≤ l.dataStartBlock ∧
          ¬l.totalBlocks ≤ k * l.bitsPerBlock + i := by
        rw [writeBlockBitmapLoop.isClear, Bool.and_eq_true, decide_eq_true_eq,
          decide_eq_true_eq] at hk
        omega
      rw [bitInBlock_eq_testBit, Nat.zero_testBit, Layout.blockInUse, decide_eq_false hunset.1,
        decide_eq_false hunset.2]
      rfl
    · obtain ⟨_, s₁, hrun, h⟩ := eval_bind_eq_ok.mp h
      obtain ⟨h1, h2, -, h4⟩ := writeBlock_ok hrun (by omega)
      refine hrest (.of_block h1 h2 h4 fun k hk hk' i hi => ?_) (by omega) (by omega) h
      obtain rfl : k = block := by omega
      rw [hlayout] at hi ⊢
      rw [bitInBlock_bitmapOf, decide_eq_true hi, Bool.true_and, Layout.blockInUse]
      exact congrArg (· || _) (decide_eq_decide.mpr Nat.lt_succ_iff)

theorem writeInodeBitmapLoop_painted {l : Layout} (hlayout : s.layout = l)
    {n : ℕ} (hlen : l.inodeBitmapStart + (block + n) ≤ s.disk.length)
    (h : (writeInodeBitmapLoop env l (List.range' block n)).eval s = (.ok (), s')) :
    s.Painted s' l.inodeBitmapStart l.inodeInUse block (block + n) := by
  induction n generalizing block s with
  | zero =>
    cases h
    exact .refl _ _ _ _
  | succ n ih =>
    rw [range'_succ, writeInodeBitmapLoop] at h
    obtain ⟨_, s₁, hrun, h⟩ := eval_bind_eq_ok.mp h
    obtain ⟨h1, h2, -, h4⟩ := writeBlock_ok hrun (by omega)
    have hpaint : s.Painted s₁ l.inodeBitmapStart l.inodeInUse block (block + 1) := by
      refine .of_block h1 h2 h4 fun k hk hk' i hi => ?_
      obtain rfl : k = block := by omega
      rw [hlayout] at hi ⊢
      rw [bitInBlock_bitmapOf, decide_eq_true hi, Bool.true_and, Layout.inodeInUse]
    have hcount : block + 1 + n = block + (n + 1) := by omega
    have hrest := ih (h1.trans hlayout) (by rw [h2, hcount]; exact hlen) h
    rw [hcount] at hrest
    exact hpaint.trans hrest (by omega) (by omega)

end Painted

section Initial

variable {env : Env} {s s₀ s₁ s₂ : Fs}

/-- **The bitmaps `mkfs` writes**: once both have been written, a bit of the block bitmap is set
exactly for the blocks up to the first data block and past the last block, a bit of the inode
bitmap exactly for the first inode and past the last one, and no other block has been written,
whichever other device operations fail. -/
theorem initial_bitmaps {table config : ℤ} (hlen : s.disk.length = s.blockCount)
    (hchecks : (mkfsChecks table config).eval s = (.ok (), s₀))
    (hblocks : (writeBlockBitmapLoop env s₀.layout s₀.layout.blockBitmapBlocks 0).eval s₀ =
      (.ok (), s₁))
    (hinodes : (writeInodeBitmapLoop env s₀.layout
      (List.range s₀.layout.inodeBitmapBlocks)).eval s₁ = (.ok (), s₂)) :
    (∀ b < s₀.layout.blockBitmapBlocks * s₀.layout.bitsPerBlock,
      s₂.bitAt s₀.layout.blockBitmapStart b = true ↔
        b ≤ s₀.layout.dataStartBlock ∨ s₀.layout.totalBlocks ≤ b) ∧
    (∀ b < s₀.layout.inodeBitmapBlocks * s₀.layout.bitsPerBlock,
      s₂.bitAt s₀.layout.inodeBitmapStart b = true ↔ b = 0 ∨ s₀.layout.inodeCapacity ≤ b) ∧
    ∀ x, x < s₀.layout.blockBitmapStart ∨
      s₀.layout.inodeBitmapStart + s₀.layout.inodeBitmapBlocks ≤ x → s₂.block x = s.block x := by
  obtain ⟨l, rfl, hw, -, htotal, -⟩ := mkfsChecks_ok hchecks
  dsimp only at hblocks hinodes ⊢
  have hstart := hw.inodeBitmapStart
  have htable := hw.inodeTableStart
  have hdata := hw.dataStartBlock
  have hlt := hw.dataStartBlock_lt
  have hB := hw.bitsPerBlock_pos
  have hb := writeBlockBitmapLoop_painted (s := { s with layout := l }) (l := l) rfl
    (by dsimp only; omega) (Nat.le_of_eq (Nat.zero_add _).symm) (Nat.zero_le _) hblocks
  rw [range_eq_range'] at hinodes
  have hi := writeInodeBitmapLoop_painted (l := l) hb.layout
    (by rw [hb.length]; dsimp only; omega) hinodes
  rw [Nat.zero_add] at hi
  refine ⟨fun b hbit => ?_, fun b hbit => ?_, fun x hx => ?_⟩
  · have hsame : s₂.bitAt l.blockBitmapStart b = s₁.bitAt l.blockBitmapStart b := by
      have hdiv := (Nat.div_lt_iff_lt_mul hB).mpr hbit
      rw [Fs.bitAt, Fs.bitAt, hi.layout, hb.layout, hi.other]
      dsimp only
      omega
    rw [hsame, hb.bitAt hB hbit, Layout.blockInUse, Bool.or_eq_true, decide_eq_true_eq,
      decide_eq_true_eq]
  · rw [hi.bitAt (by rwa [hb.layout]) (by rwa [hb.layout]), Layout.inodeInUse, Bool.or_eq_true,
      decide_eq_true_eq, decide_eq_true_eq]
  · rw [hi.other x (by omega), hb.other x (by omega)]
    rfl

/-- On a device of sixty-four blocks both bitmaps have a mixed first block. -/
theorem initial_bitmaps_blank :
    let s₀ := ((mkfsChecks 5 1).eval (Fs.blank 512 64)).2
    let s₁ := ((writeBlockBitmapLoop .calm s₀.layout s₀.layout.blockBitmapBlocks 0).eval s₀).2
    let s₂ := ((writeInodeBitmapLoop .calm s₀.layout
      (List.range s₀.layout.inodeBitmapBlocks)).eval s₁).2
    ∀ b < s₀.layout.blockBitmapBlocks * s₀.layout.bitsPerBlock,
      s₂.bitAt s₀.layout.blockBitmapStart b = true ↔
        b ≤ s₀.layout.dataStartBlock ∨ s₀.layout.totalBlocks ≤ b :=
  (initial_bitmaps (s := Fs.blank 512 64) (by decide +kernel)
    (Prod.ext (by decide +kernel) rfl) (Prod.ext (by decide +kernel) rfl)
    (Prod.ext (by decide +kernel) rfl)).1

end Initial

end OsPi
