import OsPi.Pipe.RingBuffer

/-!
# Committing a Line of a Terminal

`tty_commit_input_line` puts the line that is being edited, and the character that ended it, in the
receive ring of the terminal, byte by byte, after it has noted the line in the history. A ring that
fills up on the way keeps what was put in it, although the line stays in the line buffer
(`commitInputLine_allOrNothing_iff`).
-/

namespace OsPi

open List

/-- Put bytes in a buffer one by one until one does not fit, and whether all of them did. -/
def RingBuffer.produceAll : List UInt8 → RingBuffer → RingBuffer × Bool
  | [], b => (b, true)
  | x :: xs, b =>
    match b.produce x with
    | none => (b, false)
    | some b => produceAll xs b

/-- The bytes that still fit in a buffer. -/
def RingBuffer.free (b : RingBuffer) : ℕ := b.capacity - b.size

theorem RingBuffer.size_eq_capacity_iff {b : RingBuffer} (hwf : b.Wf) :
    b.size = b.capacity ↔ b.free = 0 := by
  have hle := hwf.size_le
  rw [free]
  omega

/-- What fits is put behind what is in the buffer. -/
theorem RingBuffer.produceAll_spec {b : RingBuffer} (hwf : b.Wf) (xs : List UInt8) :
    (produceAll xs b).1.Wf ∧ (produceAll xs b).1.capacity = b.capacity ∧
      (produceAll xs b).1.contents = b.contents ++ xs.take b.free ∧
      ((produceAll xs b).2 = true ↔ xs.length ≤ b.free) ∧
      (b.free = 0 → (produceAll xs b).1 = b) := by
  induction xs generalizing b with
  | nil => exact ⟨hwf, rfl, by simp [produceAll], by simp [produceAll], fun _ => rfl⟩
  | cons x xs ih =>
    by_cases hfull : b.size = b.capacity
    · have hfree := (size_eq_capacity_iff hwf).mp hfull
      rw [produceAll, produce_full hfull, hfree]
      exact ⟨hwf, rfl, by simp, by simp, fun _ => rfl⟩
    · have hfree := mt (size_eq_capacity_iff hwf).mpr hfull
      obtain ⟨b', hput, hwf', hcontents, hcap⟩ := produce_append hwf hfull x
      have hsize : b'.size = b.size + 1 := by
        rw [← length_contents, hcontents, length_append, length_contents]
        rfl
      have hnext : b.free = b'.free + 1 := by
        have hle := hwf'.size_le
        rw [free, free]
        omega
      obtain ⟨hwf'', hcap'', hcontents'', hall, -⟩ := ih hwf'
      rw [produceAll, hput]
      refine ⟨hwf'', hcap''.trans hcap, ?_, ?_, fun h0 => absurd h0 hfree⟩
      · rw [hcontents'', hcontents, hnext, take_succ_cons, append_assoc, singleton_append]
      · rw [hall, hnext, length_cons, Nat.succ_le_succ_iff]

theorem RingBuffer.free_produceAll {b : RingBuffer} (hwf : b.Wf) (xs : List UInt8) :
    (produceAll xs b).1.free = b.free - xs.length := by
  obtain ⟨-, hcap, hcontents, -⟩ := produceAll_spec hwf xs
  rw [free, hcap, ← length_contents, hcontents, length_append, length_take, length_contents, free]
  omega

/-- The number of lines of the history, and the size of each. -/
def historyDepth : ℕ := 16
def historyLineSize : ℕ := 256

/-- The fields of `struct tty_device` for the line that is being edited. -/
structure Tty where
  rx : RingBuffer
  inputBuffer : ℕ → UInt8
  inputLen : ℕ
  inputCursor : ℕ
  commandHistory : ℕ → ℕ → UInt8
  commandHistoryLen : ℕ → ℕ
  commandHistoryCount : ℕ
  commandHistoryCursor : ℤ
  commandHistoryScratchLen : ℕ

namespace Tty

variable {t t' : Tty} {terminator : UInt8}

/-- The line in the line buffer. -/
def line (t : Tty) : List UInt8 := (List.range t.inputLen).map t.inputBuffer

/-- `tty_lines_equal`. -/
def linesEqual (lhs : ℕ → UInt8) (lhsLen : ℕ) (rhs : ℕ → UInt8) (rhsLen : ℕ) : Bool :=
  lhsLen = rhsLen ∧ ∀ i < lhsLen, lhs i = rhs i

/-- `tty_history_reset_navigation`. -/
def historyResetNavigation (t : Tty) : Tty :=
  { t with commandHistoryCursor := -1, commandHistoryScratchLen := 0 }

/-- The oldest line of the history makes room for a new one. -/
def historyShift (t : Tty) : Tty :=
  { t with
    commandHistory := fun i => t.commandHistory (if i + 1 < historyDepth then i + 1 else i)
    commandHistoryLen := fun i => t.commandHistoryLen (if i + 1 < historyDepth then i + 1 else i)
    commandHistoryCount := t.commandHistoryCount - 1 }

/-- The start of the line is put behind the others of the history. -/
def historyAppend (t : Tty) (len : ℕ) : Tty :=
  let slot := t.commandHistoryCount
  { t with
    commandHistory := Function.update t.commandHistory slot fun i =>
      if i < len then t.inputBuffer i else if i = len then 0 else t.commandHistory slot i
    commandHistoryLen := Function.update t.commandHistoryLen slot len
    commandHistoryCount := slot + 1 }

/-- `tty_history_push`. -/
def historyPush (t : Tty) : Tty :=
  if t.inputLen = 0 then t.historyResetNavigation
  else
    let len := if historyLineSize ≤ t.inputLen then historyLineSize - 1 else t.inputLen
    let newest := t.commandHistoryCount - 1
    if 0 < t.commandHistoryCount ∧
        linesEqual (t.commandHistory newest) (t.commandHistoryLen newest) t.inputBuffer len then
      t.historyResetNavigation
    else
      let t := if t.commandHistoryCount = historyDepth then t.historyShift else t
      (t.historyAppend len).historyResetNavigation

/-- The part of `tty_commit_input_line` after the history. -/
def sendLine (t : Tty) (terminator : UInt8) : Tty :=
  match t.rx.produceAll t.line with
  | (rx, false) => { t with rx }
  | (rx, true) =>
    match rx.produce terminator with
    | none => { t with rx }
    | some rx => { t with rx, inputLen := 0, inputCursor := 0 }

/-- The part before: a line that ends with a newline is noted in the history. -/
def noteLine (t : Tty) (terminator : UInt8) : Tty :=
  if terminator = 10 then t.historyPush else t.historyResetNavigation

/-- `tty_commit_input_line`. -/
def commitInputLine (t : Tty) (terminator : UInt8) : Tty :=
  (t.noteLine terminator).sendLine terminator

/-- The ring, the line in the line buffer and the position of the cursor in it. -/
def input (t : Tty) : RingBuffer × List UInt8 × ℕ := (t.rx, t.line, t.inputCursor)

/-- The line and the terminator are in the ring and the line buffer is empty, or the ring and the
line buffer are as they were. -/
def AllOrNothing (terminator : UInt8) (before after : RingBuffer × List UInt8 × ℕ) : Prop :=
  after.1.contents = before.1.contents ++ before.2.1 ++ [terminator] ∧ after.2 = ([], 0) ∨
    after = before

theorem length_line : t.line.length = t.inputLen := by
  rw [line, length_map, length_range]

/-- A line that fits goes to the ring. -/
theorem sendLine_of_lt (hwf : t.rx.Wf) (terminator : UInt8) (h : t.inputLen < t.rx.free) :
    AllOrNothing terminator t.input (t.sendLine terminator).input := by
  obtain ⟨hwf', -, hcontents, hall, -⟩ := RingBuffer.produceAll_spec hwf t.line
  rw [length_line] at hall
  rw [take_of_length_le (by rw [length_line]; exact h.le)] at hcontents
  have hroom := mt (RingBuffer.size_eq_capacity_iff hwf').mp
    (by rw [RingBuffer.free_produceAll hwf, length_line]; omega)
  obtain ⟨rx, hput, -, hcontents', -⟩ := RingBuffer.produce_append hwf' hroom terminator
  rw [sendLine, ← Prod.mk.eta (p := t.rx.produceAll t.line), hall.mpr h.le]
  dsimp only
  rw [hput]
  exact .inl ⟨hcontents'.trans (by rw [hcontents]; rfl), rfl⟩

/-- Of any other line what fits does. -/
theorem sendLine_of_le (hwf : t.rx.Wf) (terminator : UInt8) (h : t.rx.free ≤ t.inputLen) :
    t.sendLine terminator = { t with rx := (t.rx.produceAll t.line).1 } := by
  obtain ⟨hwf', -⟩ := RingBuffer.produceAll_spec hwf t.line
  have hfull := (RingBuffer.size_eq_capacity_iff hwf').mpr
    (by rw [RingBuffer.free_produceAll hwf, length_line]; omega)
  rw [sendLine, ← Prod.mk.eta (p := t.rx.produceAll t.line)]
  cases (t.rx.produceAll t.line).2 with
  | false => rfl
  | true =>
    dsimp only
    rw [RingBuffer.produce_full hfull]

theorem sendLine_iff (hwf : t.rx.Wf) (terminator : UInt8) :
    AllOrNothing terminator t.input (t.sendLine terminator).input ↔
      t.rx.free = 0 ∨ t.line.length < t.rx.free := by
  rw [length_line]
  refine ⟨fun h => ?_, fun h => ?_⟩
  · by_contra hpart
    obtain ⟨hfree, hle⟩ : t.rx.free ≠ 0 ∧ t.rx.free ≤ t.inputLen := by omega
    rw [sendLine_of_le hwf terminator hle] at h
    obtain ⟨-, -, hcontents, -⟩ := RingBuffer.produceAll_spec hwf t.line
    have hlen : (t.rx.produceAll t.line).1.contents.length = t.rx.contents.length + t.rx.free := by
      rw [hcontents, length_append, length_take, length_line, Nat.min_eq_left hle]
    rcases h with ⟨hput, -⟩ | hsame
    · -- the terminator is not in the ring
      have hput' : (t.rx.produceAll t.line).1.contents = t.rx.contents ++ t.line ++ [terminator] :=
        hput
      rw [hput', length_append, length_append, length_line, length_singleton] at hlen
      omega
    · -- part of the line is
      have hrx : (t.rx.produceAll t.line).1 = t.rx := congrArg Prod.fst hsame
      rw [hrx] at hlen
      omega
  · by_cases hlt : t.inputLen < t.rx.free
    · exact sendLine_of_lt hwf terminator hlt
    · obtain ⟨-, -, -, -, hnone⟩ := RingBuffer.produceAll_spec hwf t.line
      rw [sendLine_of_le hwf terminator (by omega)]
      exact .inr (congrArg (·, t.line, t.inputCursor) (hnone (h.resolve_right hlt)))

/-- The history leaves the ring and the line buffer alone. -/
theorem input_noteLine (t : Tty) (terminator : UInt8) :
    (t.noteLine terminator).input = t.input := by
  simp only [noteLine, historyPush]
  generalize (if historyLineSize ≤ t.inputLen then _ else _) = len
  repeat' split
  all_goals rfl

theorem input_commitInputLine (t : Tty) (terminator : UInt8) :
    (t.commitInputLine terminator).input = (t.sendLine terminator).input := by
  have hinput := input_noteLine t terminator
  have hrx : (t.noteLine terminator).rx = t.rx := congrArg Prod.fst hinput
  have hline : (t.noteLine terminator).line = t.line := congrArg (·.2.1) hinput
  rw [commitInputLine, sendLine, sendLine, hrx, hline]
  split
  · exact congrArg (_, ·.2) hinput
  · split
    · exact congrArg (_, ·.2) hinput
    · rfl

/-- **A line is committed whole or not at all** exactly if the ring is full or has room for the line
and its terminator. -/
theorem commitInputLine_allOrNothing_iff (hwf : t.rx.Wf) (terminator : UInt8) :
    AllOrNothing terminator t.input (t.commitInputLine terminator).input ↔
      t.rx.free = 0 ∨ t.inputLen < t.rx.free := by
  rw [input_commitInputLine, sendLine_iff hwf, length_line]

/-- A terminal on which `a` has been typed, with a receive ring that holds the given bytes. -/
def typed (bytes : List UInt8) : Tty where
  rx := ((RingBuffer.create 4096).produceAll bytes).1
  inputBuffer := fun _ => 97
  inputLen := 1
  inputCursor := 1
  commandHistory := fun _ _ => 0
  commandHistoryLen := fun _ => 0
  commandHistoryCount := 0
  commandHistoryCursor := -1
  commandHistoryScratchLen := 0

theorem typed_rx (bytes : List UInt8) :
    (typed bytes).rx.Wf ∧ (typed bytes).rx.free = 4096 - bytes.length :=
  have hwf := RingBuffer.wf_create (show 0 < 4096 by decide)
  ⟨(RingBuffer.produceAll_spec hwf bytes).1, RingBuffer.free_produceAll hwf bytes⟩

/-- A line in an empty ring. -/
theorem commitInputLine_allOrNothing_empty :
    AllOrNothing 10 (typed []).input ((typed []).commitInputLine 10).input :=
  (commitInputLine_allOrNothing_iff (RingBuffer.wf_create (by decide)) 10).mpr
    (.inr (show 1 < 4096 by decide))

/-- One byte is left in the ring, and the line is in it without its terminator. -/
theorem commitInputLine_allOrNothing_not :
    ¬AllOrNothing 10 (typed (List.replicate 4095 120)).input
      ((typed (List.replicate 4095 120)).commitInputLine 10).input := by
  obtain ⟨hwf, hfree⟩ := typed_rx (List.replicate 4095 120)
  rw [length_replicate] at hfree
  rw [input_commitInputLine, sendLine_iff hwf, length_line, hfree]
  exact (by decide : ¬(4096 - 4095 = 0 ∨ 1 < 4096 - 4095))

end Tty

end OsPi
