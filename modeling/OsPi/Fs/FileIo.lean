import OsPi.Fs.Vfs

/-!
# Reading and Writing Regular Files

A model of `default_read` and `default_write` of `fs/kapi.c`. The source computes offsets in
`uint32_t`, amounts in `int` and counts in `size_t`; the conversions between them are written
out. A buffer is the number its bytes spell, like a block, and a read says of every piece it
copies which block it comes from.

Both loops run until the count is used up. A call whose amounts stop being positive, which
takes a count of `2 ^ 31` or more, may not return.
-/

namespace OsPi

variable (env : Env)

/-! ### Conversions -/

/-- `(int)x`. -/
def toInt32 (x : ℤ) : ℤ := Int.bmod x (2 ^ 32)

/-- `(uint32_t)x`. -/
def toUint32 (x : ℤ) : ℕ := (x % 2 ^ 32).toNat

/-- `(size_t)x`. -/
def toSizeT (x : ℤ) : ℕ := (x % 2 ^ 64).toNat

/-! ### Reading -/

/-- Bytes copied to the caller and the block they come from. -/
structure Chunk where
  block : ℕ
  len : ℕ
  data : ℕ
  deriving DecidableEq, Repr

/-- What a read leaves: the value it returns, the cursor and the bytes copied. -/
structure ReadOut where
  ret : Except Err ℤ
  cursor : ℕ
  chunks : List Chunk

/-- The local variables of the loop of `default_read`. -/
structure ReadVars where
  blockIndex : ℕ
  blockNo : ℕ
  /-- Where in the block the bytes start: zero after the first block. -/
  start : ℕ
  bytesToRead : ℤ
  n : ℕ
  cursor : ℕ
  total : ℤ
  chunks : List Chunk

/-- The loop of `default_read`. -/
def defaultReadLoop (ino : ℕ) (size : ℤ) : ℕ → ReadVars → FsM ReadOut
  | 0, _ => throw .fault
  | fuel + 1, v => do
    if v.n = 0 then pure ⟨.ok 0, v.cursor, v.chunks⟩
    else do
      match ← tryErr (readBlock env v.blockNo) with
      | .error e => pure ⟨.error e, v.cursor, v.chunks⟩
      | .ok data => do
        let len := v.bytesToRead.toNat
        let chunks := v.chunks ++ [⟨v.blockNo, len, Bytes.read data v.start len⟩]
        let cursor := toUint32 (v.cursor + v.bytesToRead)
        let n := toSizeT (v.n - v.bytesToRead)
        let total := toInt32 (v.total + v.bytesToRead)
        if n = 0 ∨ toUint32 size ≤ cursor then pure ⟨.ok total, cursor, chunks⟩
        else do
          let s ← get
          let blockIndex := (v.blockIndex + 1) % 2 ^ 32
          let blockNo ← getIthBlockOfFile env ino blockIndex
          let bytesToRead := min (toInt32 (size - toInt32 cursor))
            (min (toInt32 n) s.layout.bytesPerBlock)
          defaultReadLoop ino size fuel
            ⟨blockIndex, blockNo, 0, bytesToRead, n, cursor, total, chunks⟩

/-- `default_read`, for an open file with the given inode and cursor. -/
def defaultRead (ino cursor n : ℕ) : FsM ReadOut := do
  let fileSize ← getFileSize ino
  let size := toInt32 fileSize
  if toUint32 size ≤ cursor then pure ⟨.ok 0, cursor, []⟩
  else do
    let s ← get
    let bs := s.layout.bytesPerBlock
    let blockNo ← getIthBlockOfFile env ino (cursor / bs)
    let start := cursor % bs
    let bytesToRead := min (toInt32 (size - toInt32 cursor))
      (min (toInt32 n) ((bs : ℤ) - start))
    defaultReadLoop env ino size (n + 1) ⟨cursor / bs, blockNo, start, bytesToRead, n, cursor, 0, []⟩

/-! ### Writing -/

/-- What a write leaves: the value it returns and the cursor. -/
structure WriteOut where
  ret : Except Err ℤ
  cursor : ℕ

/-- The local variables of the loop of `default_write`. -/
structure WriteVars where
  blockIndex : ℕ
  blockNo : ℕ
  /-- Where in the block the bytes go: zero after the first block. -/
  start : ℕ
  isFirst : Bool
  bytesToWrite : ℤ
  n : ℕ
  offset : ℕ
  cursor : ℕ
  size : ℤ
  total : ℤ
  /-- How far the source has moved its pointer into the buffer. -/
  pos : ℕ

/-- The block of a file with the given index, or a new one when there is none. -/
def getOrAllocateBlock (ino blockIndex : ℕ) : FsM ℕ := do
  let blockNo ← getIthBlockOfFile env ino blockIndex
  if blockNo = 0 then allocateNewBlockForFile env ino else pure blockNo

/-- Store the next bytes of the buffer in a block: all of it, or some bytes of it. -/
def writePiece (buf : ℕ) (v : WriteVars) : FsM Unit := do
  let s ← get
  let bs := s.layout.bytesPerBlock
  if v.bytesToWrite < bs then do
    let data ← readBlock env v.blockNo
    let len := v.bytesToWrite.toNat
    writeBlock env (Bytes.write data v.start len (Bytes.read buf v.pos len)) v.blockNo
  else writeBlock env (Bytes.read buf v.pos bs) v.blockNo

/-- The loop of `default_write`. -/
def defaultWriteLoop (ino buf : ℕ) : ℕ → WriteVars → FsM WriteOut
  | 0, _ => throw .fault
  | fuel + 1, v => do
    if v.n = 0 then pure ⟨.ok 0, v.cursor⟩
    else if v.blockNo = 0 then pure ⟨.error .fatNoSpaceRemaining, v.cursor⟩
    else do
      match ← tryErr (writePiece env buf v) with
      | .error e => pure ⟨.error e, v.cursor⟩
      | .ok _ => do
        let offset := toUint32 (v.offset + v.bytesToWrite)
        let grows := toUint32 v.size < offset
        if grows then updateFileSize ino offset
        let size := if grows then toInt32 offset else v.size
        let n := toSizeT (v.n - v.bytesToWrite)
        let total := toInt32 (v.total + v.bytesToWrite)
        if n = 0 then pure ⟨.ok total, offset⟩
        else do
          let blockIndex := (v.blockIndex + 1) % 2 ^ 32
          match ← tryErr (getOrAllocateBlock env ino blockIndex) with
          | .error e => pure ⟨.error e, offset⟩
          | .ok blockNo => do
            let s ← get
            let bs := s.layout.bytesPerBlock
            let pos := v.pos + if v.isFirst then v.bytesToWrite.toNat else bs
            defaultWriteLoop ino buf fuel
              ⟨blockIndex, blockNo, 0, false, min (toInt32 n) bs, n, offset, offset, size,
                total, pos⟩

/-- `O_APPEND` and the other flags of `k_open`. -/
def oRdonly : UInt8 := 1
def oWronly : UInt8 := 2
def oTrunc : UInt8 := 4
def oCreat : UInt8 := 8
def oAppend : UInt8 := 16

/-- `default_write`, for an open file with the given inode, mode and cursor. -/
def defaultWrite (ino : ℕ) (mode : UInt8) (cursor buf n : ℕ) : FsM WriteOut := do
  let fileSize ← getFileSize ino
  let offset := if mode &&& oAppend ≠ 0 then fileSize else cursor
  let s ← get
  let bs := s.layout.bytesPerBlock
  match ← tryErr (getOrAllocateBlock env ino (offset / bs)) with
  | .error e => pure ⟨.error e, cursor⟩
  | .ok blockNo => do
    let start := offset % bs
    defaultWriteLoop env ino buf (n + 1)
      ⟨offset / bs, blockNo, start, true, min (toInt32 n) ((bs : ℤ) - start), n, offset,
        cursor, toInt32 fileSize, 0, 0⟩

end OsPi
