import OsPi.Fs.State
import Mathlib.Data.List.DropRight

/-!
# The Parser of the Shell

`parse_command` of the shell. A first pass over the line counts its words and commands; with
the counts the block of the result is made large enough for the vectors of pointers and a copy
of the line, and a second pass fills it: a pointer for each word, a null pointer at the end of
each command and a terminator after each word.

The text of a line is the list of its characters from `start` to `end`, and `cur` is a position
in it, which may be past its end. The counters are natural numbers: a user process has less than
`2 ^ 24` bytes of memory, so that the `int` of the source does not overflow on a line it has.
-/

namespace OsPi.Shell

/-- The characters with a meaning of their own. -/
def hash : UInt8 := 35
def amp : UInt8 := 38
def lt : UInt8 := 60
def gt : UInt8 := 62
def bar : UInt8 := 124

/-- `isspace`. -/
def isspace (c : UInt8) : Bool :=
  c == 32 || c == 9 || c == 10 || c == 11 || c == 12 || c == 13

/-- The characters `skip_word` passes. -/
def wordChar (c : UInt8) : Bool :=
  c != lt && c != gt && c != bar && c != amp && !isspace c

/-- The position at which a loop that passes the given characters stops. -/
def skipWhile (p : UInt8 → Bool) (s : Str) (cur : ℕ) : ℕ :=
  cur + ((s.drop cur).takeWhile p).length

/-- `skip_word`. -/
def skipWord : Str → ℕ → ℕ := skipWhile wordChar

/-- `skip_space`. -/
def skipSpace : Str → ℕ → ℕ := skipWhile isspace

/-- The codes `parse_command` returns when it fails. -/
inductive ParseError
  | noMemory
  | unexpectedFileInput
  | unexpectedFileOutput
  | unexpectedPipeline
  | unexpectedAmpersand
  | expectInputFilename
  | expectOutputFilename
  | expectCommands
  deriving DecidableEq, Repr

def ParseError.code : ParseError → ℤ
  | .noMemory => -1
  | .unexpectedFileInput => 1
  | .unexpectedFileOutput => 2
  | .unexpectedPipeline => 3
  | .unexpectedAmpersand => 4
  | .expectInputFilename => 5
  | .expectOutputFilename => 6
  | .expectCommands => 7

/-- How the function can end other than with a result: with a code, with a write outside the
block of the result, or not at all. -/
inductive Stop
  | failed (e : ParseError)
  | outOfBounds
  | stuck
  deriving DecidableEq, Repr

/-! ### The first pass -/

/-- What the first pass has found: fields of the result and its local variables. -/
structure Count where
  isFileAppend : Bool
  isHereDocument : Bool
  numCommands : ℕ
  totalStrings : ℕ
  hasTokenLast : Bool
  hasFileInput : Bool
  hasFileOutput : Bool
  deriving DecidableEq, Repr

def Count.zero : Count := ⟨false, false, 0, 0, false, false, false⟩

/-- One iteration of the first pass, at a position before the end of the text. -/
def countStep (s : Str) (st : Count) (cur : ℕ) : Except Stop (Count × ℕ) :=
  let c := s.getD cur 0
  if c = amp then throw (.failed .unexpectedAmpersand)
  else if c = lt then
    if 0 < st.numCommands ∨ st.hasFileInput then throw (.failed .unexpectedFileInput)
    else
      let here := s[cur + 1]? = some lt
      let cur := skipSpace s (if here then cur + 2 else cur + 1)
      let skipped := skipWord s cur
      if skipped ≤ cur then throw (.failed .expectInputFilename)
      else pure ({ st with isHereDocument := st.isHereDocument || here, hasFileInput := true },
        skipped)
  else if c = gt then
    if st.hasFileOutput then throw (.failed .unexpectedFileOutput)
    else
      let append := s[cur + 1]? = some gt
      let cur := skipSpace s (if append then cur + 2 else cur + 1)
      let skipped := skipWord s cur
      if skipped ≤ cur then throw (.failed .expectOutputFilename)
      else pure ({ st with isFileAppend := st.isFileAppend || append, hasFileOutput := true },
        skipped)
  else if c = bar then
    if st.hasFileOutput then throw (.failed .unexpectedFileOutput)
    else if !st.hasTokenLast then throw (.failed .unexpectedPipeline)
    else pure ({ st with hasTokenLast := false, numCommands := st.numCommands + 1 }, cur + 1)
  else
    pure ({ st with hasTokenLast := true, totalStrings := st.totalStrings + 1 }, skipWord s cur)

/-- The loop of the first pass. -/
def countLoop (s : Str) : ℕ → Count → ℕ → Except Stop Count
  | 0, st, cur => if cur < s.length then throw .stuck else pure st
  | fuel + 1, st, cur =>
    if cur < s.length then do
      let (st, cur) ← countStep s st cur
      countLoop s fuel st (skipSpace s cur)
    else pure st

/-! ### The result -/

/-- `struct parsed_command` and the block of memory it starts: the fields of fixed size, and the
bytes of the block, of which the first 32 are those fields. -/
structure Parsed where
  isBackground : Bool
  isFileAppend : Bool
  isHereDocument : Bool
  stdinFile : ℕ
  stdoutFile : ℕ
  numCommands : ℕ
  addr : ℕ
  size : ℕ
  mem : ℕ

/-- The structure `calloc` returns, with what the first pass has found in a line without words. -/
def Parsed.empty (addr : ℕ) (st : Count) : Parsed where
  isBackground := false
  isFileAppend := st.isFileAppend
  isHereDocument := st.isHereDocument
  stdinFile := 0
  stdoutFile := 0
  numCommands := st.numCommands
  addr
  size := 32
  mem := 0

/-- Store a value in `len` bytes of the block. -/
def Parsed.store (p : Parsed) (off len v : ℕ) : Except Stop Parsed :=
  if off + len ≤ p.size then pure { p with mem := Bytes.write p.mem off len v }
  else throw .outOfBounds

/-- The parts of the block, from the counts of the first pass. -/
structure Sizes where
  numCommands : ℕ
  totalStrings : ℕ
  slen : ℕ

/-- The size of a pointer. -/
def ptrSize : ℕ := 8

/-- The offset of the field `commands`. -/
def startOfCommands : ℕ := 32

def Sizes.startOfArray (z : Sizes) : ℕ := startOfCommands + z.numCommands * ptrSize

def Sizes.startOfStr (z : Sizes) : ℕ :=
  z.startOfArray + (z.numCommands + z.totalStrings) * ptrSize

/-- The size the block gets. -/
def Sizes.total (z : Sizes) : ℕ := z.startOfStr + z.slen + 1

/-! ### The second pass -/

/-- The result and the local variables of the second pass: the number of the command and the
offset of the next pointer in the block. -/
structure Fill where
  pcmd : Parsed
  curCmd : ℕ
  argvPtr : ℕ

/-- Put a terminator at a position of the copy. -/
def terminate (z : Sizes) (p : Parsed) (cur : ℕ) : Except Stop Parsed :=
  p.store (z.startOfStr + cur) 1 0

/-- One iteration of the second pass. -/
def fillStep (z : Sizes) (s : Str) (f : Fill) (cur : ℕ) : Except Stop (Fill × ℕ) :=
  let c := s.getD cur 0
  if c = lt then do
    let cur := skipSpace s (if f.pcmd.isHereDocument then cur + 2 else cur + 1)
    let p := { f.pcmd with stdinFile := f.pcmd.addr + z.startOfStr + cur }
    let cur := skipWord s cur
    let p ← terminate z p cur
    pure ({ f with pcmd := p }, cur)
  else if c = gt then do
    let cur := skipSpace s (if f.pcmd.isFileAppend then cur + 2 else cur + 1)
    let p := { f.pcmd with stdoutFile := f.pcmd.addr + z.startOfStr + cur }
    let cur := skipWord s cur
    let p ← terminate z p cur
    pure ({ f with pcmd := p }, cur)
  else if c = bar then do
    let p ← f.pcmd.store f.argvPtr ptrSize 0
    let argvPtr := f.argvPtr + ptrSize
    let curCmd := f.curCmd + 1
    let p ← p.store (startOfCommands + curCmd * ptrSize) ptrSize (p.addr + argvPtr)
    pure (⟨p, curCmd, argvPtr⟩, cur + 1)
  else do
    let p ← f.pcmd.store f.argvPtr ptrSize (f.pcmd.addr + z.startOfStr + cur)
    let cur := skipWord s cur
    let p ← terminate z p cur
    pure ({ f with pcmd := p, argvPtr := f.argvPtr + ptrSize }, cur)

/-- The loop of the second pass. -/
def fillLoop (z : Sizes) (s : Str) : ℕ → Fill → ℕ → Except Stop Fill
  | 0, f, cur => if cur < s.length then throw .stuck else pure f
  | fuel + 1, f, cur =>
    if cur < s.length then do
      let (f, cur) ← fillStep z s f cur
      fillLoop z s fuel f (skipSpace s cur)
    else pure f

/-! ### The function -/

/-- The part of the line before a `#`. The line ends at its first null character. -/
def beforeHash (line : Str) : Str := (line.takeWhile (· != 0)).takeWhile (· != hash)

/-- The text without the spaces around it. -/
def trim (s : Str) : Str := (s.dropWhile isspace).rdropWhile isspace

/-- What the first part of `parse_command` finds out before it needs a larger block: a line with
no words, or the counts of a line with some. -/
inductive Measured
  | empty (st : Count)
  | commands (background : Bool) (s : Str) (st : Count)
  deriving DecidableEq, Repr

/-- `parse_command` up to the second allocation. -/
def measure (line : Str) : Except Stop Measured := do
  let s := trim (beforeHash line)
  if s = [] then pure (.empty .zero)
  else do
    let background := s.getLast? = some amp
    let s := if background then s.dropLast else s
    let st ← countLoop s s.length .zero 0
    if st.totalStrings = 0 then
      if background ∨ st.hasFileInput ∨ st.hasFileOutput then throw (.failed .expectCommands)
      else pure (.empty st)
    else if !st.hasTokenLast then throw (.failed .unexpectedPipeline)
    else pure (.commands background s { st with numCommands := st.numCommands + 1 })

/-- The memory the allocator hands out: the addresses of the two blocks, zero when there is none
left, and what the new part of the larger one holds. -/
structure Heap where
  calloc : ℕ
  realloc : ℕ → ℕ
  fresh : ℕ

/-- The block `realloc` returns, which starts with the fields. -/
def newBlock (heap : Heap) (z : Sizes) (background : Bool) (st : Count) : Parsed where
  isBackground := background
  isFileAppend := st.isFileAppend
  isHereDocument := st.isHereDocument
  stdinFile := 0
  stdoutFile := 0
  numCommands := st.numCommands
  addr := heap.realloc z.total
  size := z.total
  mem := heap.fresh

/-- `memcpy` of a text to an offset of the block. -/
def copyText (off : ℕ) : Str → Parsed → Except Stop Parsed
  | [], p => pure p
  | c :: s, p => do
    let p ← p.store off 1 c.toNat
    copyText (off + 1) s p

/-- The second part of `parse_command`. -/
def pack (heap : Heap) (background : Bool) (s : Str) (st : Count) : Except Stop Parsed := do
  let z : Sizes := ⟨st.numCommands, st.totalStrings, s.length⟩
  if heap.realloc z.total = 0 then throw (.failed .noMemory)
  else do
    let p ← copyText z.startOfStr s (newBlock heap z background st)
    let p ← p.store startOfCommands ptrSize (p.addr + z.startOfArray)
    let f ← fillLoop z s s.length ⟨p, 0, z.startOfArray⟩ 0
    f.pcmd.store f.argvPtr ptrSize 0

/-- `parse_command`. -/
def parseCommand (heap : Heap) (line : Str) : Except Stop Parsed :=
  if heap.calloc = 0 then throw (.failed .noMemory)
  else do
    match ← measure line with
    | .empty st => pure (.empty heap.calloc st)
    | .commands background s st => pack heap background s st

end OsPi.Shell
