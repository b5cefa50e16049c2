import OsPi.Fs.State

/-!
# Bitmaps

The bitmap functions of `fs/disk.c`. A bitmap spreads over consecutive blocks; within a
byte, bit 0 of the bitmap is the most significant one. The number of the first bit of a block
is a product of 32 bits.
-/

namespace OsPi

variable (env : Env)

/-- The mask of bit `bit` within its byte. -/
def bitMask (bit : ℕ) : ℕ := 1 <<< (7 - bit % 8)

/-- The bit of a bitmap held in a block. -/
def bitInBlock (data bit : ℕ) : Bool :=
  Bytes.read data (bit / 8) 1 &&& bitMask bit ≠ 0

/-- `data[bit / 8] |= mask`, or `&= ~mask`. -/
def assignBit (data bit : ℕ) (value : Bool) : ℕ :=
  let byte := Bytes.read data (bit / 8) 1
  Bytes.write data (bit / 8) 1 (if value then byte ||| bitMask bit else byte &&& (0xFF ^^^ bitMask bit))

/-- `set_bit_in_bitmap_range`. -/
def setBitInBitmapRange (bitmapStart bitmapBlocks validBits bitIdx : ℕ) (setBit : Bool) :
    FsM Unit := do
  if bitmapBlocks = 0 ∨ validBits ≤ bitIdx then throw .invalidArgs
  let s ← get
  let bitsPerBlock := s.layout.bitsPerBlock
  let bitmapBlockIdx := bitIdx / bitsPerBlock
  if bitmapBlocks ≤ bitmapBlockIdx then throw .invalidArgs
  let data ← readBlock env (bitmapStart + bitmapBlockIdx)
  writeBlock env (assignBit data (bitIdx % bitsPerBlock) setBit) (bitmapStart + bitmapBlockIdx)

/-- The search for a clear bit among the given positions of one byte. -/
def scanByte (byte firstBit validBits : ℕ) : List ℕ → Option ℕ
  | [] => none
  | index :: rest =>
    if validBits ≤ firstBit + index then none
    else if byte &&& bitMask index = 0 then some (firstBit + index)
    else scanByte byte firstBit validBits rest

/-- The search for a clear bit among the given bytes of one block. -/
def scanBytes (data validBits : ℕ) : List ℕ → Option ℕ
  | [] => none
  | indexByte :: rest =>
    let byte := Bytes.read data indexByte 1
    if byte = 0xFF then scanBytes data validBits rest
    else
      match scanByte byte (indexByte * 8) validBits (List.range 8) with
      | some bit => some bit
      | none => scanBytes data validBits rest

/-- The search for a clear bit in one block of the bitmap. -/
def scanBlock (data validBitsInBlock : ℕ) : Option ℕ :=
  scanBytes data validBitsInBlock (List.range ((validBitsInBlock + 7) / 8))

/-- The loop of `find_free_from_bitmap_range` over the given blocks of the bitmap. -/
def findFreeLoop (bitmapStart validBits : ℕ) (updateTaken : Bool) : List ℕ → FsM ℕ
  | [] => throw .noFreeBlocks
  | bitmapBlockIdx :: rest => do
    let data ← readBlock env (bitmapStart + bitmapBlockIdx)
    let s ← get
    let firstBit := bitmapBlockIdx * s.layout.bitsPerBlock % 2 ^ 32
    let validBitsInBlock := min (validBits - firstBit) s.layout.bitsPerBlock
    match scanBlock data validBitsInBlock with
    | some bit => do
      if updateTaken then
        writeBlock env (assignBit data bit true) (bitmapStart + bitmapBlockIdx)
      pure (firstBit + bit)
    | none => findFreeLoop bitmapStart validBits updateTaken rest

/-- `find_free_from_bitmap_range`. -/
def findFreeFromBitmapRange (bitmapStart bitmapBlocks validBits : ℕ) (updateTaken : Bool) :
    FsM ℕ := do
  if bitmapBlocks = 0 ∨ validBits = 0 then throw .invalidArgs
  findFreeLoop env bitmapStart validBits updateTaken (List.range bitmapBlocks)

end OsPi
