import OsPi.Pipe.Stream

/-!
# Threads That Wait for a Pipe

A thread that finds the buffer of a pipe empty, or full, puts itself in a queue of the pipe and
lets go of the lock; `block_thread` comes after that, as a step of its own. The machine adds to the
one of `OsPi.Pipe.Stream` how far each thread is in this, so that a thread takes its next turn only
when it is not blocked. Signals and the ends of processes take threads out of their waits at any
time.

A thread that is woken between the two steps is in no queue any more when it blocks
(`pipe_wakeup_lost`). In the runs in which that does not happen no wake-up is lost
(`no_wakeup_lost_while_clean`).
-/

namespace OsPi

open Function List Option

/-- How far a thread is with waiting: it is not, it is in a queue and has still to block, or it is
blocked. -/
inductive WaitPhase
  | running
  | queued
  | blocked
  deriving DecidableEq, Repr

/-- A pipe and its threads, with their states. -/
structure Waits where
  stream : Stream
  phases : ℕ → WaitPhase

namespace Waits

variable (w : Waits)

/-- The states of threads after `unblock_thread` for each of those given: the others than the
blocked ones stay as they are. -/
def unblocked (tids : List ℕ) (tid : ℕ) : WaitPhase :=
  if tid ∈ tids ∧ w.phases tid = .blocked then .running else w.phases tid

/-- The states of threads after one of them has put itself in a queue. -/
def queuedAfter (tids : List ℕ) (tid : ℕ) : ℕ → WaitPhase :=
  update (w.unblocked tids) tid .queued

/-- The states of threads after a turn of `pipe_read`. -/
def readPhases (tid want : ℕ) (got : List UInt8) : ℕ → WaitPhase :=
  let pipe := w.stream.pipe
  if got.length < want then
    match pipe.buffer.consume with
    | none => if pipe.numWriters = 0 then w.phases else w.queuedAfter pipe.txWaitQueue tid
    | some _ => w.phases
  else w.unblocked pipe.txWaitQueue

/-- The states of threads after a turn of `pipe_write`. -/
def writePhases (tid : ℕ) : List UInt8 → ℕ → WaitPhase
  | [] => w.unblocked w.stream.pipe.rxWaitQueue
  | x :: _ =>
    match w.stream.pipe.buffer.produce x with
    | none => w.queuedAfter w.stream.pipe.rxWaitQueue tid
    | some _ => w.phases

/-- The states of threads after `pipe_close`. -/
def closePhases : PipeEnd → ℕ → WaitPhase
  | .reader => w.phases
  | .writer =>
    if (w.stream.addWriters (-1)).pipe.numWriters = 0 ∧
        (w.stream.pipe.buffer.produce 4).isSome then
      w.unblocked w.stream.pipe.rxWaitQueue
    else w.phases

/-- The states of threads after a step of the pipe. -/
def phasesAfter : Stream.Event → ℕ → WaitPhase
  | .turn tid =>
    match w.stream.ops tid with
    | .idle => w.phases
    | .reading want got => w.readPhases tid want got
    | .writing bytes => w.writePhases tid bytes
  | .closeEnd e => w.closePhases e
  | _ => w.phases

/-- The steps of threads. -/
inductive Event
  /-- A section under the lock of the pipe. -/
  | locked (e : Stream.Event)
  /-- `block_thread`, for a thread that has put itself in a queue. -/
  | block (tid : ℕ)
  /-- A signal wakes a blocked thread, or stops it until it goes on. -/
  | unblock (tid : ℕ)
  /-- A thread is killed, and its number may be used again. -/
  | kill (tid : ℕ)

/-- A thread takes a turn when it is running. -/
def ready : Stream.Event → Bool
  | .turn tid => w.phases tid = .running
  | _ => true

/-- One step. -/
def machine : Machine Waits Event
  | w, .locked e =>
    if w.ready e then (Stream.machine w.stream e).map fun s => ⟨s, w.phasesAfter e⟩ else none
  | w, .block tid =>
    if w.phases tid = .queued then
      some { w with phases := update w.phases tid .blocked }
    else none
  | w, .unblock tid => some { w with phases := w.unblocked [tid] }
  | w, .kill tid =>
    some ⟨w.stream.setOp tid .idle, update w.phases tid .running⟩

/-- A new pipe. -/
def fresh (capacity : ℕ) : Waits := ⟨.fresh capacity, fun _ => .running⟩

/-! ### Lost wake-ups -/

/-- The call that a thread is in is a `pipe_read`. -/
def reads (tid : ℕ) : Prop := ∃ want got, w.stream.ops tid = .reading want got

/-- The call that a thread is in is a `pipe_write`. -/
def writes (tid : ℕ) : Prop := ∃ bytes, w.stream.ops tid = .writing bytes

/-- A thread is blocked in `pipe_read` and in no queue, while there are bytes or no writers. -/
def LostReader : Prop :=
  ∃ tid, w.reads tid ∧ w.phases tid = .blocked ∧ tid ∉ w.stream.pipe.rxWaitQueue ∧
    (w.stream.pipe.buffer.size ≠ 0 ∨ w.stream.pipe.numWriters = 0)

/-- A thread is blocked in `pipe_write` and in no queue, while there is room. -/
def LostWriter : Prop :=
  ∃ tid, w.writes tid ∧ w.phases tid = .blocked ∧ tid ∉ w.stream.pipe.txWaitQueue ∧
    w.stream.pipe.buffer.size < w.stream.pipe.buffer.capacity

/-- A step takes every thread out of the queue of readers. -/
def wakesReaders : Stream.Event → Prop
  | .turn tid => w.stream.ops tid = .writing [] ∨
      ∃ x rest, w.stream.ops tid = .writing (x :: rest) ∧ w.stream.pipe.buffer.produce x = none
  | .closeEnd .writer =>
    (w.stream.addWriters (-1)).pipe.numWriters = 0 ∧ (w.stream.pipe.buffer.produce 4).isSome
  | _ => False

/-- A step takes every thread out of the queue of writers. -/
def wakesWriters : Stream.Event → Prop
  | .turn tid => ∃ want got, w.stream.ops tid = .reading want got ∧
      (got.length < want → w.stream.pipe.buffer.consume = none ∧ w.stream.pipe.numWriters ≠ 0)
  | _ => False

/-- No thread is woken between the two steps of its wait. -/
def Clean : Event → Prop
  | .locked e =>
    (w.wakesReaders e → ∀ tid, w.reads tid → w.phases tid ≠ .queued) ∧
      (w.wakesWriters e → ∀ tid, w.writes tid → w.phases tid ≠ .queued)
  | _ => True

/-! ### Threads in their places -/

/-- A thread that waits is in the queue for its call. -/
def Placed (tid : ℕ) : Prop :=
  w.phases tid = .running ∨ w.reads tid ∧ tid ∈ w.stream.pipe.rxWaitQueue ∨
    w.writes tid ∧ tid ∈ w.stream.pipe.txWaitQueue

variable {w} {w' : Waits} {s : Stream} {tid u : ℕ}

theorem not_writes_of_reads (h : w.reads tid) : ¬w.writes tid := by
  obtain ⟨want, got, hread⟩ := h
  rintro ⟨bytes, hwrite⟩
  rw [hread] at hwrite
  cases hwrite

theorem unblocked_of_running (h : w.phases tid = .running) (tids : List ℕ) :
    w.unblocked tids tid = .running := by
  rw [unblocked, h, ite_self]

theorem unblocked_of_mem {tids : List ℕ} (hmem : tid ∈ tids) (h : w.phases tid ≠ .queued) :
    w.unblocked tids tid = .running := by
  rw [unblocked]
  cases hphase : w.phases tid with
  | running => exact ite_self _
  | queued => exact absurd hphase h
  | blocked => rw [if_pos ⟨hmem, rfl⟩]

theorem Placed.not_lostReader (h : ∀ tid, w.Placed tid) : ¬w.LostReader := by
  rintro ⟨tid, hreads, hblocked, hmissing, -⟩
  rcases h tid with hrun | ⟨-, hmem⟩ | ⟨hwrites, -⟩
  · rw [hrun] at hblocked
    cases hblocked
  · exact hmissing hmem
  · exact not_writes_of_reads hreads hwrites

theorem Placed.not_lostWriter (h : ∀ tid, w.Placed tid) : ¬w.LostWriter := by
  rintro ⟨tid, hwrites, hblocked, hmissing, -⟩
  rcases h tid with hrun | ⟨hreads, -⟩ | ⟨-, hmem⟩
  · rw [hrun] at hblocked
    cases hblocked
  · exact not_writes_of_reads hreads hwrites
  · exact hmissing hmem

/-- A thread that a step does not concern. -/
theorem Placed.congr (h : w.Placed u) (hops : w'.stream.ops u = w.stream.ops u)
    (hphase : w.phases u = .running → w'.phases u = .running)
    (hrx : u ∈ w.stream.pipe.rxWaitQueue → u ∈ w'.stream.pipe.rxWaitQueue)
    (htx : u ∈ w.stream.pipe.txWaitQueue → u ∈ w'.stream.pipe.txWaitQueue) : w'.Placed u := by
  rw [Placed, reads, writes, hops]
  exact h.imp hphase (Or.imp (And.imp_right hrx) (And.imp_right htx))

/-- A thread when the readers are woken. -/
theorem Placed.wakeReaders (h : w.Placed u) (hclean : w.reads u → w.phases u ≠ .queued)
    (hops : w'.stream.ops u = w.stream.ops u)
    (hphase : w'.phases u = w.unblocked w.stream.pipe.rxWaitQueue u)
    (htx : u ∈ w.stream.pipe.txWaitQueue → u ∈ w'.stream.pipe.txWaitQueue) : w'.Placed u := by
  rcases h with hrun | ⟨hreads, hmem⟩ | ⟨hwrites, hmem⟩
  · exact .inl (hphase.trans (unblocked_of_running hrun _))
  · exact .inl (hphase.trans (unblocked_of_mem hmem (hclean hreads)))
  · refine .inr (.inr ⟨?_, htx hmem⟩)
    rwa [writes, hops]

/-- A thread when the writers are woken. -/
theorem Placed.wakeWriters (h : w.Placed u) (hclean : w.writes u → w.phases u ≠ .queued)
    (hops : w'.stream.ops u = w.stream.ops u)
    (hphase : w'.phases u = w.unblocked w.stream.pipe.txWaitQueue u)
    (hrx : u ∈ w.stream.pipe.rxWaitQueue → u ∈ w'.stream.pipe.rxWaitQueue) : w'.Placed u := by
  rcases h with hrun | ⟨hreads, hmem⟩ | ⟨hwrites, hmem⟩
  · exact .inl (hphase.trans (unblocked_of_running hrun _))
  · refine .inr (.inl ⟨?_, hrx hmem⟩)
    rwa [reads, hops]
  · exact .inl (hphase.trans (unblocked_of_mem hmem (hclean hwrites)))

/-- The call of the thread that takes a step changes, and no other. -/
theorem ops_setOp_of_ne (hne : u ≠ tid) (op : PipeOp) : (s.setOp tid op).ops u = s.ops u :=
  update_of_ne hne _ _

theorem readTurn_placed {want : ℕ} {got : List UInt8} (h : ∀ u, w.Placed u)
    (hop : w.stream.ops tid = .reading want got) (hrun : w.phases tid = .running)
    (hclean : w.wakesWriters (.turn tid) → ∀ u, w.writes u → w.phases u ≠ .queued) (u : ℕ) :
    Placed ⟨w.stream.readTurn tid want got, w.readPhases tid want got⟩ u := by
  rw [Stream.readTurn, readPhases]
  by_cases hlen : got.length < want
  · simp only [if_pos hlen]
    cases hconsume : w.stream.pipe.buffer.consume with
    | none =>
      simp only
      by_cases hwriters : w.stream.pipe.numWriters = 0
      · simp only [if_pos hwriters]
        by_cases hu : u = tid
        · exact .inl (hu ▸ hrun)
        · exact (h u).congr (ops_setOp_of_ne hu _) id id id
      · simp only [if_neg hwriters]
        have hwake := hclean ⟨want, got, hop, fun _ => ⟨hconsume, hwriters⟩⟩
        by_cases hu : u = tid
        · refine .inr (.inl ⟨⟨want, got, hu ▸ hop⟩, ?_⟩)
          exact mem_append_right _ (mem_singleton.mpr hu)
        · exact (h u).wakeWriters (hwake u) rfl (update_of_ne hu _ _)
            (mem_append_left _)
    | some out =>
      obtain ⟨x, b⟩ := out
      simp only
      by_cases hu : u = tid
      · exact .inl (hu ▸ hrun)
      · by_cases hx : x = 4
        · rw [if_pos hx]
          exact (h u).congr (ops_setOp_of_ne hu _) id id id
        · rw [if_neg hx]
          exact (h u).congr (ops_setOp_of_ne hu _) id id id
  · simp only [if_neg hlen]
    have hwake := hclean ⟨want, got, hop, fun hlt => absurd hlt hlen⟩
    by_cases hu : u = tid
    · exact .inl (unblocked_of_running (hu ▸ hrun) _)
    · exact (h u).wakeWriters (hwake u) (ops_setOp_of_ne hu _) rfl (mem_append_left _)

theorem writeTurn_placed {bytes : List UInt8} (h : ∀ u, w.Placed u)
    (hop : w.stream.ops tid = .writing bytes) (hrun : w.phases tid = .running)
    (hclean : w.wakesReaders (.turn tid) → ∀ u, w.reads u → w.phases u ≠ .queued) (u : ℕ) :
    Placed ⟨w.stream.writeTurn tid bytes, w.writePhases tid bytes⟩ u := by
  cases bytes with
  | nil =>
    have hwake := hclean (.inl hop)
    by_cases hu : u = tid
    · exact .inl (unblocked_of_running (hu ▸ hrun) _)
    · exact (h u).wakeReaders (hwake u) (ops_setOp_of_ne hu _) rfl (mem_append_left _)
  | cons x rest =>
    rw [Stream.writeTurn, writePhases.eq_def]
    cases hproduce : w.stream.pipe.buffer.produce x with
    | none =>
      simp only [hproduce]
      have hwake := hclean (.inr ⟨x, rest, hop, hproduce⟩)
      by_cases hu : u = tid
      · refine .inr (.inr ⟨⟨x :: rest, hu ▸ hop⟩, ?_⟩)
        exact mem_append_right _ (mem_singleton.mpr hu)
      · exact (h u).wakeReaders (hwake u) rfl (update_of_ne hu _ _)
          (mem_append_left _)
    | some b =>
      simp only [hproduce]
      by_cases hu : u = tid
      · exact .inl (hu ▸ hrun)
      · exact (h u).congr (ops_setOp_of_ne hu _) id id id

theorem freeIfClosed_fields :
    s.freeIfClosed.ops = s.ops ∧ s.freeIfClosed.pipe = s.pipe := by
  rw [Stream.freeIfClosed]
  split_ifs <;> exact ⟨rfl, rfl⟩

theorem freeIfClosed_placed {phases : ℕ → WaitPhase} (h : Placed ⟨s, phases⟩ u) :
    Placed ⟨s.freeIfClosed, phases⟩ u := by
  obtain ⟨hops, hpipe⟩ := freeIfClosed_fields (s := s)
  exact h.congr (congrFun hops u) id (fun hmem => hpipe ▸ hmem) fun hmem => hpipe ▸ hmem

theorem close_placed (h : ∀ u, w.Placed u) (e : PipeEnd)
    (hclean : w.wakesReaders (.closeEnd e) → ∀ u, w.reads u → w.phases u ≠ .queued) (u : ℕ) :
    Placed ⟨w.stream.close e, w.closePhases e⟩ u := by
  cases e with
  | reader => exact freeIfClosed_placed ((h u).congr rfl id id id)
  | writer =>
    rw [Stream.close, closePhases]
    by_cases hlast : (w.stream.addWriters (-1)).pipe.numWriters = 0
    · rw [if_pos hlast]
      cases hproduce : w.stream.pipe.buffer.produce 4 with
      | none =>
        rw [if_neg (by simp)]
        exact (h u).congr rfl id id id
      | some b =>
        rw [if_pos ⟨hlast, rfl⟩]
        have hwake := hclean ⟨hlast, by rw [hproduce]; rfl⟩
        exact freeIfClosed_placed
          ((h u).wakeReaders (hwake u) rfl rfl (mem_append_left _))
    · rw [if_neg hlast, if_neg fun hlast' => hlast hlast'.1]
      exact freeIfClosed_placed ((h u).congr rfl id id id)

theorem locked_placed {e : Stream.Event} (h : ∀ u, w.Placed u) (hready : w.ready e = true)
    (hclean : w.Clean (.locked e)) (hstep : Stream.machine w.stream e = some s) (u : ℕ) :
    Placed ⟨s, w.phasesAfter e⟩ u := by
  rw [Stream.machine.eq_def] at hstep
  dsimp only at hstep
  split_ifs at hstep
  cases e with
  | read tid count =>
    simp only [ite_none_right_eq_some, some.injEq] at hstep
    obtain ⟨hidle, rfl⟩ := hstep
    by_cases hu : u = tid
    · -- a thread that is in no call is running
      refine .inl ((h u).resolve_right ?_)
      rw [reads, writes, hu, hidle]
      simp
    · exact (h u).congr (ops_setOp_of_ne hu _) id id id
  | write tid bytes =>
    simp only [ite_none_right_eq_some, some.injEq] at hstep
    obtain ⟨hidle, rfl⟩ := hstep
    by_cases hu : u = tid
    · refine .inl ((h u).resolve_right ?_)
      rw [reads, writes, hu, hidle]
      simp
    · exact (h u).congr (ops_setOp_of_ne hu _) id id id
  | turn tid =>
    have hrun : w.phases tid = .running := of_decide_eq_true hready
    dsimp only at hstep
    split at hstep
    · cases hstep
    · next want got hop =>
        obtain rfl := some.inj hstep
        have hphases : w.phasesAfter (.turn tid) = w.readPhases tid want got := by
          simp only [phasesAfter, hop]
        rw [hphases]
        exact readTurn_placed h hop hrun hclean.2 u
    · next bytes hop =>
        obtain rfl := some.inj hstep
        have hphases : w.phasesAfter (.turn tid) = w.writePhases tid bytes := by
          simp only [phasesAfter, hop]
        rw [hphases]
        exact writeTurn_placed h hop hrun hclean.1 u
  | openEnd e =>
    simp only [ite_none_right_eq_some, some.injEq] at hstep
    obtain ⟨-, rfl⟩ := hstep
    cases e <;> exact (h u).congr rfl id id id
  | closeEnd e =>
    simp only [ite_none_right_eq_some, some.injEq] at hstep
    obtain ⟨-, rfl⟩ := hstep
    exact close_placed h e hclean.1 u

/-- What one step keeps. -/
theorem step_placed {e : Event} (h : ∀ u, w.Placed u) (hclean : w.Clean e)
    (hstep : machine w e = some w') (u : ℕ) : w'.Placed u := by
  cases e with
  | locked e =>
    simp only [machine, ite_none_right_eq_some, map_eq_some_iff] at hstep
    obtain ⟨hready, s, hs, rfl⟩ := hstep
    exact locked_placed h hready hclean hs u
  | block tid =>
    simp only [machine, ite_none_right_eq_some, some.injEq] at hstep
    obtain ⟨hqueued, rfl⟩ := hstep
    by_cases hu : u = tid
    · refine .inr ((h u).resolve_left fun hrun => ?_)
      rw [hu, hqueued] at hrun
      cases hrun
    · exact (h u).congr rfl (fun hrun => (update_of_ne hu _ _).trans hrun) id id
  | unblock tid =>
    simp only [machine, some.injEq] at hstep
    obtain rfl := hstep
    exact (h u).congr rfl (fun hrun => unblocked_of_running hrun _) id id
  | kill tid =>
    simp only [machine, some.injEq] at hstep
    obtain rfl := hstep
    by_cases hu : u = tid
    · refine .inl ?_
      rw [hu]
      exact update_self ..
    · exact (h u).congr (ops_setOp_of_ne hu _)
        (fun hrun => (update_of_ne hu _ _).trans hrun) id id

/-- **No wake-up is lost** in the runs in which no thread is woken between its entry in a queue and
its `block_thread`, for any number of readers and writers. -/
theorem no_wakeup_lost_while_clean {capacity : ℕ} (hrun : machine.Run Clean (fresh capacity) w) :
    ¬w.LostReader ∧ ¬w.LostWriter := by
  have h : ∀ u, w.Placed u := hrun.invariant (P := fun w => ∀ u, w.Placed u)
    (fun _ => .inl rfl) fun _ _ _ h hclean hstep => step_placed h hclean hstep
  exact ⟨Placed.not_lostReader h, Placed.not_lostWriter h⟩

theorem clean_of_none_queued (h : ∀ tid, w.phases tid ≠ .queued) (e : Event) : w.Clean e := by
  cases e with
  | locked e => exact ⟨fun _ tid _ => h tid, fun _ tid _ => h tid⟩
  | _ => exact trivial

/-- The state after the given steps of a new pipe. -/
def after (es : List Event) : Waits := machine.after (fresh pipeCapacity) es

/-- A reader blocks, a byte is written, and the reader is woken. -/
theorem no_wakeup_lost_while_clean_read :
    ∃ w, machine.Run Clean (fresh pipeCapacity) w ∧ w.phases 1 = .running ∧
      w.stream.pipe.rxWaitQueue = [] ∧ w.stream.pipe.buffer.size = 1 ∧ ¬w.LostReader := by
  have hblocked : ∀ tid, (after [.locked (.read 1 1), .locked (.turn 1), .block 1]).phases tid ≠
      .queued := fun tid => by
    by_cases htid : tid = 1
    · rw [htid]
      decide
    · have hrunning : (after [.locked (.read 1 1), .locked (.turn 1), .block 1]).phases tid =
          .running := by
        change @update ℕ (fun _ => WaitPhase) _ _ 1 .blocked tid = _
        rw [update_of_ne htid]
        exact update_of_ne htid _ _
      rw [hrunning]
      decide
  have hrun : machine.Run Clean (fresh pipeCapacity) (after [.locked (.read 1 1), .locked (.turn 1),
      .block 1, .locked (.write 0 [65]), .locked (.turn 0), .locked (.turn 0)]) := by
    refine Machine.run_of_meets rfl ⟨clean_of_none_queued ?_ _, clean_of_none_queued ?_ _, trivial,
      clean_of_none_queued ?_ _, clean_of_none_queued ?_ _, clean_of_none_queued ?_ _, trivial⟩
    · exact fun _ (h : WaitPhase.running = .queued) => by cases h
    · exact fun _ (h : WaitPhase.running = .queued) => by cases h
    · exact hblocked
    · exact hblocked
    · exact hblocked
  exact ⟨_, hrun, by decide, by decide, by decide, (no_wakeup_lost_while_clean hrun).1⟩

/-- A reader is in the queue and has still to block when a byte is written and the readers are
woken. It blocks after that, in no queue, with a byte in the buffer. -/
theorem pipe_wakeup_lost : ∃ w, machine.Run Machine.Any (fresh pipeCapacity) w ∧ w.LostReader := by
  refine ⟨after [.locked (.read 1 1), .locked (.turn 1), .locked (.write 0 [65]),
    .locked (.turn 0), .locked (.turn 0), .block 1], Machine.run_after rfl, 1, ⟨1, [], rfl⟩, ?_⟩
  decide

end Waits

end OsPi
