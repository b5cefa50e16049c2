import OsPi.Lib.Machine
import OsPi.Pipe.RingBuffer

/-!
# The Stream of a Pipe

A model of `pipe_read`, `pipe_write`, `pipe_open` and `pipe_close` of `pipe/pipe.c` for one pipe
and any number of threads. Each section under the lock of the pipe is one step, and the steps of
different threads interleave freely. A thread that waits takes its next turn when it has been woken;
as signals wake it too, that may be at any time.

The state has a record of the bytes accepted from writers and of those delivered to readers. The
last writer puts the byte 4 in the buffer when it closes its end, and a reader that finds this byte
returns with what it has got. So the stream is kept as long as nobody writes the byte 4, and
nobody writes after the last writer has closed its end.
-/

namespace OsPi

open List Option

/-- `struct pipe_st`. -/
structure PipeSt where
  numReaders : ℤ
  numWriters : ℤ
  buffer : RingBuffer
  rxWaitQueue : List ℕ
  txWaitQueue : List ℕ

/-- The call that a thread is in: `pipe_read` of `want` bytes, of which it has got some, or
`pipe_write` with bytes still to be written. -/
inductive PipeOp
  | idle
  | reading (want : ℕ) (got : List UInt8)
  | writing (bytes : List UInt8)
  deriving DecidableEq, Repr

/-- A call of `pipe_read` that has returned, with the writers and the bytes left at that time. -/
structure ReadReturn where
  want : ℕ
  got : List UInt8
  writers : ℤ
  left : ℕ
  deriving DecidableEq, Repr

/-- A pipe with the threads that use it. -/
structure Stream where
  pipe : PipeSt
  freed : Bool
  ops : ℕ → PipeOp
  accepted : List UInt8
  delivered : List UInt8
  returns : List ReadReturn

/-- The end of a pipe: an entry of the open file table for reading, or one for writing. -/
inductive PipeEnd
  | reader
  | writer
  deriving DecidableEq, Repr

namespace Stream

variable (s : Stream)

/-- Assign the call a thread is in. -/
def setOp (tid : ℕ) (op : PipeOp) : Stream := { s with ops := Function.update s.ops tid op }

/-- `pipe_read` returns. -/
def finishRead (tid want : ℕ) (got : List UInt8) : Stream :=
  { s.setOp tid .idle with
    returns := ⟨want, got, s.pipe.numWriters, s.pipe.buffer.size⟩ :: s.returns }

/-- Assign the buffer. -/
def setBuffer (b : RingBuffer) : Stream := { s with pipe := { s.pipe with buffer := b } }

/-- `pipe_wake_up_writers`, and for a thread that has to wait its entry in the other queue. -/
def wakeWriters (waiting : List ℕ) : Stream :=
  { s with pipe := { s.pipe with
      txWaitQueue := []
      rxWaitQueue := s.pipe.rxWaitQueue ++ waiting } }

/-- `pipe_wake_up_readers`, likewise. -/
def wakeReaders (waiting : List ℕ) : Stream :=
  { s with pipe := { s.pipe with
      rxWaitQueue := []
      txWaitQueue := s.pipe.txWaitQueue ++ waiting } }

/-- One turn of the loop of `pipe_read`, or what comes after the loop. -/
def readTurn (tid want : ℕ) (got : List UInt8) : Stream :=
  if got.length < want then
    match s.pipe.buffer.consume with
    | none =>
      if s.pipe.numWriters = 0 then s.finishRead tid want got
      else s.wakeWriters [tid]
    | some (x, b) =>
      if x = 4 then (s.setBuffer b).finishRead tid want got
      else { (s.setBuffer b).setOp tid (.reading want (got ++ [x])) with
        delivered := s.delivered ++ [x] }
  else (s.wakeWriters []).finishRead tid want got

/-- One turn of the loop of `pipe_write`, or what comes after the loop. -/
def writeTurn (tid : ℕ) : List UInt8 → Stream
  | [] => (s.wakeReaders []).setOp tid .idle
  | x :: rest =>
    match s.pipe.buffer.produce x with
    | none => s.wakeReaders [tid]
    | some b => { (s.setBuffer b).setOp tid (.writing rest) with accepted := s.accepted ++ [x] }

/-- The writers that are left after the given change. -/
def addWriters (n : ℤ) : Stream :=
  { s with pipe := { s.pipe with numWriters := s.pipe.numWriters + n } }

/-- The readers that are left after the given change. -/
def addReaders (n : ℤ) : Stream :=
  { s with pipe := { s.pipe with numReaders := s.pipe.numReaders + n } }

/-- The part of `pipe_close` that frees the pipe. -/
def freeIfClosed : Stream :=
  if s.pipe.numReaders = 0 ∧ s.pipe.numWriters = 0 then { s with freed := true } else s

/-- `pipe_close`. When the buffer is full the last writer cannot mark the end, and the rest is
left out. -/
def close : PipeEnd → Stream
  | .reader => (s.addReaders (-1)).freeIfClosed
  | .writer =>
    if (s.addWriters (-1)).pipe.numWriters = 0 then
      match s.pipe.buffer.produce 4 with
      | none => s.addWriters (-1)
      | some b => (((s.addWriters (-1)).setBuffer b).wakeReaders []).freeIfClosed
    else (s.addWriters (-1)).freeIfClosed

/-- The steps of the threads. -/
inductive Event
  | read (tid count : ℕ)
  | write (tid : ℕ) (bytes : List UInt8)
  /-- A thread goes on with its call. -/
  | turn (tid : ℕ)
  /-- `pipe_open`, for one more reference to an end that is open. -/
  | openEnd (e : PipeEnd)
  | closeEnd (e : PipeEnd)

/-- The references to an end. -/
def refs : PipeEnd → ℤ
  | .reader => s.pipe.numReaders
  | .writer => s.pipe.numWriters

/-- `pipe_open`. -/
def openEnd : PipeEnd → Stream
  | .reader => s.addReaders 1
  | .writer => s.addWriters 1

/-- One step. A pipe that has been freed takes no more. -/
def machine : Machine Stream Event
  | s, e =>
    if s.freed then none
    else
      match e with
      | .read tid count =>
        if s.ops tid = .idle then some (s.setOp tid (.reading count [])) else none
      | .write tid bytes =>
        if s.ops tid = .idle then some (s.setOp tid (.writing bytes)) else none
      | .turn tid =>
        match s.ops tid with
        | .idle => none
        | .reading want got => some (s.readTurn tid want got)
        | .writing bytes => some (s.writeTurn tid bytes)
      | .openEnd e => if 0 < s.refs e then some (s.openEnd e) else none
      | .closeEnd e => if 0 < s.refs e then some (s.close e) else none

/-- A pipe as `pipe` makes it. -/
def fresh (capacity : ℕ) : Stream :=
  ⟨⟨1, 1, .create capacity, [], []⟩, false, fun _ => .idle, [], [], []⟩

/-- A byte that is accepted is not 4, and there is a writer left. -/
def Clean (s : Stream) : Event → Prop
  | .turn tid => ∀ x rest, s.ops tid = .writing (x :: rest) →
      s.pipe.buffer.size < s.pipe.buffer.capacity → x ≠ 4 ∧ 0 < s.pipe.numWriters
  | _ => True

/-- The stream is kept: what has been delivered is the beginning of what was accepted, and a read
has returned with less than it was asked for only at the end. -/
structure Kept (s : Stream) : Prop where
  order : s.delivered <+: s.accepted
  short : ∀ r ∈ s.returns, r.got.length < r.want → r.writers = 0 ∧ r.left = 0

/-! ### The books of a pipe -/

/-- What has been accepted has been delivered or is in the buffer, which holds besides only the mark
of the last writer, at its end. -/
structure Books (s : Stream) : Prop where
  wf : s.pipe.buffer.Wf
  bytes : ∃ pending, s.accepted = s.delivered ++ pending ∧ 4 ∉ pending ∧
    (s.pipe.buffer.contents = pending ∨
      s.pipe.buffer.contents = pending ++ [4] ∧ s.pipe.numWriters = 0)
  short : ∀ r ∈ s.returns, r.got.length < r.want → r.writers = 0 ∧ r.left = 0

variable {s} {t : Stream}

theorem Books.kept (h : s.Books) : s.Kept := by
  obtain ⟨pending, haccepted, -⟩ := h.bytes
  exact ⟨⟨pending, haccepted.symm⟩, h.short⟩

theorem books_fresh {capacity : ℕ} (h : 0 < capacity) : (fresh capacity).Books where
  wf := RingBuffer.wf_create h
  bytes := ⟨[], rfl, not_mem_nil, .inl rfl⟩
  short := fun _ hr => absurd hr not_mem_nil

/-- Steps that touch neither the bytes nor the writers. -/
theorem Books.congr (h : s.Books) (hbuffer : t.pipe.buffer = s.pipe.buffer)
    (hwriters : t.pipe.numWriters = s.pipe.numWriters) (haccepted : t.accepted = s.accepted)
    (hdelivered : t.delivered = s.delivered) (hreturns : t.returns = s.returns) : t.Books where
  wf := hbuffer ▸ h.wf
  bytes := by
    rw [haccepted, hdelivered, hbuffer, hwriters]
    exact h.bytes
  short := hreturns ▸ h.short

theorem Books.freeIfClosed (h : s.Books) : s.freeIfClosed.Books := by
  rw [Stream.freeIfClosed]
  split
  · exact h.congr rfl rfl rfl rfl rfl
  · exact h

/-- A read that returns with all it was asked for, or at the end of the stream. -/
theorem Books.finishRead (h : s.Books) (tid : ℕ) {want : ℕ} {got : List UInt8}
    (hend : got.length < want → s.pipe.numWriters = 0 ∧ s.pipe.buffer.size = 0) :
    (s.finishRead tid want got).Books where
  wf := h.wf
  bytes := h.bytes
  short := by
    intro r hr
    obtain rfl | hr := mem_cons.mp hr
    · exact hend
    · exact h.short r hr

/-- A byte is consumed: the mark, which is the last one, or the next byte of the stream. -/
theorem Books.readTurn (h : s.Books) (tid want : ℕ) (got : List UInt8) :
    (s.readTurn tid want got).Books := by
  obtain ⟨pending, haccepted, hmark, hcontents⟩ := h.bytes
  rw [Stream.readTurn]
  split
  · rcases hb : s.pipe.buffer.contents with _ | ⟨x, rest⟩
    · rw [RingBuffer.consume_nil hb]
      have hsize : s.pipe.buffer.size = 0 := by
        rw [← RingBuffer.length_contents, hb, length_nil]
      dsimp only
      split
      · rename_i hwriters
        exact h.finishRead tid fun _ => ⟨hwriters, hsize⟩
      · exact h.congr rfl rfl rfl rfl rfl
    · obtain ⟨b, hconsume, hwf, hrest, -⟩ := RingBuffer.consume_cons h.wf hb
      rw [hconsume]
      dsimp only
      rw [hb] at hcontents
      split
      · rename_i hx
        -- the bytes accepted before are no marks, so that nothing is left behind the mark
        obtain ⟨rfl, rfl, hwriters⟩ : pending = [] ∧ rest = [] ∧ s.pipe.numWriters = 0 := by
          rcases pending with _ | ⟨y, pending⟩
          · obtain hnil | ⟨hlast, hwriters⟩ := hcontents
            · cases hnil
            · rw [nil_append, List.cons.injEq] at hlast
              exact ⟨rfl, hlast.2, hwriters⟩
          · have hy : y = x := by
              obtain heq | ⟨heq, -⟩ := hcontents
              · exact (List.cons.inj heq).1.symm
              · rw [cons_append] at heq
                exact (List.cons.inj heq).1.symm
            rw [hy, hx] at hmark
            exact absurd mem_cons_self hmark
        have hbooks : (s.setBuffer b).Books :=
          ⟨hwf, ⟨[], haccepted, not_mem_nil, .inl hrest⟩, h.short⟩
        refine hbooks.finishRead tid fun _ => ⟨hwriters, ?_⟩
        change b.size = 0
        rw [← RingBuffer.length_contents, hrest, length_nil]
      · rename_i hx
        obtain ⟨pending', rfl, hrest'⟩ : ∃ pending', pending = x :: pending' ∧
            (rest = pending' ∨ rest = pending' ++ [4] ∧ s.pipe.numWriters = 0) := by
          rcases pending with _ | ⟨y, pending⟩
          · obtain hnil | ⟨hlast, -⟩ := hcontents
            · cases hnil
            · rw [nil_append, List.cons.injEq] at hlast
              exact absurd hlast.1 hx
          · obtain heq | ⟨heq, hwriters⟩ := hcontents
            · obtain ⟨rfl, rfl⟩ := List.cons.inj heq
              exact ⟨_, rfl, .inl rfl⟩
            · rw [cons_append] at heq
              obtain ⟨rfl, rfl⟩ := List.cons.inj heq
              exact ⟨_, rfl, .inr ⟨rfl, hwriters⟩⟩
        refine ⟨hwf, ⟨pending', ?_, fun hmem => hmark (mem_cons_of_mem _ hmem), ?_⟩, h.short⟩
        · change s.accepted = s.delivered ++ [x] ++ pending'
          rw [haccepted, append_assoc, singleton_append]
        · change b.contents = pending' ∨ b.contents = pending' ++ [4] ∧ _
          rw [hrest]
          exact hrest'
  · rename_i hlen
    exact (h.congr rfl rfl rfl rfl rfl : (s.wakeWriters []).Books).finishRead tid
      fun hlt => absurd hlt hlen

/-- While there is a writer the buffer holds the bytes that are not read yet, and no mark. -/
theorem Books.unread (h : s.Books) (hwriters : 0 < s.pipe.numWriters) :
    s.accepted = s.delivered ++ s.pipe.buffer.contents ∧ 4 ∉ s.pipe.buffer.contents := by
  obtain ⟨pending, haccepted, hmark, heq | ⟨-, hzero⟩⟩ := h.bytes
  · exact heq ▸ ⟨haccepted, hmark⟩
  · omega

/-- A byte that is not the mark is accepted while there is a writer. -/
theorem Books.writeTurn (h : s.Books) (tid : ℕ) {bytes : List UInt8}
    (hclean : ∀ x rest, bytes = x :: rest → s.pipe.buffer.size < s.pipe.buffer.capacity →
      x ≠ 4 ∧ 0 < s.pipe.numWriters) :
    (s.writeTurn tid bytes).Books := by
  rcases bytes with _ | ⟨x, rest⟩
  · exact h.congr rfl rfl rfl rfl rfl
  · rw [Stream.writeTurn]
    by_cases hfull : s.pipe.buffer.size = s.pipe.buffer.capacity
    · rw [RingBuffer.produce_full hfull]
      exact h.congr rfl rfl rfl rfl rfl
    · obtain ⟨b, hproduce, hwf, hb, -⟩ := RingBuffer.produce_append h.wf hfull x
      obtain ⟨hx, hwriters⟩ := hclean x rest rfl (lt_of_le_of_ne h.wf.size_le hfull)
      obtain ⟨haccepted, hmark⟩ := h.unread hwriters
      rw [hproduce]
      refine ⟨hwf, ⟨s.pipe.buffer.contents ++ [x], ?_, ?_, .inl hb⟩, h.short⟩
      · change s.accepted ++ [x] = s.delivered ++ (s.pipe.buffer.contents ++ [x])
        rw [haccepted, append_assoc]
      · simp only [mem_append, mem_singleton, not_or]
        exact ⟨hmark, hx.symm⟩

/-- The last writer puts its mark behind the bytes, or finds the buffer full. -/
theorem Books.close (h : s.Books) (e : PipeEnd) (hrefs : 0 < s.refs e) : (s.close e).Books := by
  cases e with
  | reader => exact (h.congr rfl rfl rfl rfl rfl : (s.addReaders (-1)).Books).freeIfClosed
  | writer =>
    obtain ⟨haccepted, hmark⟩ := h.unread hrefs
    have hless : (s.addWriters (-1)).Books :=
      ⟨h.wf, ⟨_, haccepted, hmark, .inl rfl⟩, h.short⟩
    rw [Stream.close]
    split
    · rename_i hzero
      by_cases hfull : s.pipe.buffer.size = s.pipe.buffer.capacity
      · rw [RingBuffer.produce_full hfull]
        exact hless
      · obtain ⟨b, hproduce, hwf, hb, -⟩ := RingBuffer.produce_append h.wf hfull 4
        rw [hproduce]
        exact Books.freeIfClosed ⟨hwf, ⟨_, haccepted, hmark, .inr ⟨hb, hzero⟩⟩, h.short⟩
    · exact hless.freeIfClosed

theorem Books.openEnd (h : s.Books) (e : PipeEnd) (hrefs : 0 < s.refs e) :
    (s.openEnd e).Books := by
  cases e with
  | reader => exact h.congr rfl rfl rfl rfl rfl
  | writer =>
    obtain ⟨haccepted, hmark⟩ := h.unread hrefs
    exact ⟨h.wf, ⟨_, haccepted, hmark, .inl rfl⟩, h.short⟩

theorem Books.step (h : s.Books) {e : Event} (hclean : s.Clean e) (hstep : machine s e = some t) :
    t.Books := by
  rw [machine.eq_def] at hstep
  dsimp only at hstep
  split at hstep
  · cases hstep
  · cases e with
    | read tid count =>
      dsimp only at hstep
      split at hstep
      · obtain rfl := some.inj hstep
        exact h.congr rfl rfl rfl rfl rfl
      · cases hstep
    | write tid bytes =>
      dsimp only at hstep
      split at hstep
      · obtain rfl := some.inj hstep
        exact h.congr rfl rfl rfl rfl rfl
      · cases hstep
    | turn tid =>
      dsimp only at hstep
      split at hstep
      · cases hstep
      · obtain rfl := some.inj hstep
        exact h.readTurn tid _ _
      · rename_i bytes hop
        obtain rfl := some.inj hstep
        exact h.writeTurn tid fun x rest hbytes => hclean x rest (hop.trans (congrArg _ hbytes))
    | openEnd e =>
      dsimp only at hstep
      split at hstep
      · rename_i hrefs
        obtain rfl := some.inj hstep
        exact h.openEnd e hrefs
      · cases hstep
    | closeEnd e =>
      dsimp only at hstep
      split at hstep
      · rename_i hrefs
        obtain rfl := some.inj hstep
        exact h.close e hrefs
      · cases hstep

/-- **The stream is kept.** In every run in which no writer gets the byte 4 accepted, and none gets
a byte accepted after the last writer has closed its end, readers get the bytes of the writers in
order, and a read returns early only when there is no writer and no byte left. -/
theorem stream_kept {capacity : ℕ} (hcap : 0 < capacity)
    (hrun : machine.Run Clean (fresh capacity) t) : t.Kept :=
  (hrun.invariant (books_fresh hcap) fun _ _ _ h hclean hstep => h.step hclean hstep).kept

/-- The state after the given steps of a new pipe. -/
def after (es : List Event) : Stream := machine.after (fresh pipeCapacity) es

/-- A byte is written and read, the writer closes its end, and a second read finds the end. -/
theorem stream_kept_to_end :
    ∃ t, machine.Run Clean (fresh pipeCapacity) t ∧ t.delivered = [65] ∧
      t.returns = [⟨1, [], 0, 0⟩, ⟨1, [65], 1, 0⟩] ∧ t.Kept := by
  have hwrite : Clean (after [.write 0 [65]]) (.turn 0) := by
    intro x rest hop _
    obtain ⟨rfl, -⟩ := List.cons.inj (PipeOp.writing.inj hop)
    exact ⟨by decide, by decide⟩
  have hrun : machine.Run Clean (fresh pipeCapacity) (after [.write 0 [65], .turn 0, .read 1 1,
      .turn 1, .turn 1, .closeEnd .writer, .read 1 1, .turn 1]) :=
    (((((((Relation.ReflTransGen.refl.tail ⟨.write 0 [65], trivial, rfl⟩).tail
      ⟨.turn 0, hwrite, rfl⟩).tail ⟨.read 1 1, trivial, rfl⟩).tail ⟨.turn 1, nofun, rfl⟩).tail
      ⟨.turn 1, nofun, rfl⟩).tail ⟨.closeEnd .writer, trivial, rfl⟩).tail
      ⟨.read 1 1, trivial, rfl⟩).tail ⟨.turn 1, nofun, rfl⟩
  exact ⟨_, hrun, by decide, by decide, stream_kept (by decide) hrun⟩

/-- A writer writes the bytes 4 and 65: the first read returns at once although there is a writer
and a byte left, and the second one delivers 65 first. A writer that is under way when the last
reference is closed leaves a byte behind the mark. -/
theorem byte_four_lost :
    (∃ t, machine.Run Machine.Any (fresh pipeCapacity) t ∧ t.accepted = [4, 65] ∧
      t.delivered = [65] ∧ ¬t.delivered <+: t.accepted ∧ ⟨2, [], 1, 1⟩ ∈ t.returns) ∧
    ∃ t, machine.Run Machine.Any (fresh pipeCapacity) t ∧ ⟨1, [], 0, 1⟩ ∈ t.returns := by
  refine ⟨⟨after [.write 0 [4, 65], .turn 0, .turn 0, .read 1 2, .turn 1, .read 1 1, .turn 1],
    Machine.run_after rfl, ?_, ?_, ?_, ?_⟩,
    ⟨after [.write 0 [65], .closeEnd .writer, .turn 0, .read 1 1, .turn 1],
      Machine.run_after rfl, ?_⟩⟩ <;> decide

end Stream

end OsPi
