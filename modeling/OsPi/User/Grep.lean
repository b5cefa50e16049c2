import Mathlib.Algebra.Order.BigOperators.Group.List
import Mathlib.Algebra.Order.Group.Nat
import Mathlib.Data.List.Infix
import OsPi.Fs.State

/-!
# Searching for a Pattern

The user program `grep`. The bytes it reads are put together to lines in a buffer of 1024 bytes,
and a line is written when it contains the pattern. What does not fit in the buffer is dropped, so
that the lines are written whole exactly when those that contain the pattern fit
(`grepFd_eq_iff`): it does not matter how the bytes were split when they were read.
-/

namespace OsPi.Grep

open List

/-- `GREP_LINE_SIZE`. -/
def lineSize : ℕ := 1024

/-- The character that ends a line. -/
def newline : UInt8 := 10

/-- The inner loop of `contains`: the number of characters of the pattern that match. -/
def matching : Str → Str → ℕ
  | p :: pattern, c :: line => if c = p then matching pattern line + 1 else 0
  | _, _ => 0

/-- The outer loop of `contains`. -/
def containsAt (pattern : Str) : Str → Bool
  | [] => false
  | c :: line => matching pattern (c :: line) = pattern.length || containsAt pattern line

/-- `contains`. -/
def contains (line pattern : Str) : Bool := pattern.length = 0 || containsAt pattern line

/-- A line as it is written, with a newline at its end. -/
def ended (line : Str) : Str :=
  line ++ if line = [] ∨ line.getLast? ≠ some newline then [newline] else []

/-- What `flush_line` writes. -/
def flushLine (pattern line : Str) : Str := if contains line pattern then ended line else []

/-- What `read` returns before the end: bytes that fit in the buffer, and no null character. -/
abbrev Chunk := { buf : Str // buf ≠ [] ∧ buf.length ≤ 512 ∧ 0 ∉ buf }

/-- The line in the buffer and what was written. -/
structure State where
  line : Str
  out : Str

/-- The body of the loop over the bytes that were read. -/
def State.add (pattern : Str) (s : State) (c : UInt8) : State :=
  let line := if s.line.length < lineSize then s.line ++ [c] else s.line
  if c = newline then ⟨[], s.out ++ flushLine pattern line⟩ else ⟨line, s.out⟩

/-- The last line, which may have no newline. -/
def State.finish (pattern : Str) (s : State) : Str :=
  if 0 < s.line.length then s.out ++ flushLine pattern s.line else s.out

/-- What `grep_fd` writes for what it reads, when no call fails. -/
def grepFd (pattern : Str) (chunks : List Chunk) : Str :=
  (chunks.foldl (fun s (buf : Chunk) => buf.val.foldl (State.add pattern) s)
    (State.mk [] [])).finish pattern

/-! ### Lines -/

/-- The lines of a text, each with its newline, when the first of them has begun already. -/
def linesFrom (begun : Str) : Str → List Str
  | [] => if begun = [] then [] else [begun]
  | c :: text =>
    if c = newline then (begun ++ [c]) :: linesFrom [] text else linesFrom (begun ++ [c]) text

@[inherit_doc linesFrom] def lines : Str → List Str := linesFrom []

/-- **What should be written**: the lines that contain the pattern. -/
def found (pattern text : Str) : Str :=
  (lines text).flatMap fun line => if pattern <:+: line then ended line else []

variable {pattern text line begun : Str} {c : UInt8}

theorem matching_eq_iff : matching pattern line = pattern.length ↔ pattern <+: line := by
  induction pattern generalizing line with
  | nil => simp [matching]
  | cons p pattern ih =>
    cases line with
    | nil => simp [matching]
    | cons c line =>
      rw [matching, cons_prefix_cons, ← ih]
      by_cases hc : c = p
      · simp [hc]
      · simp [hc, Ne.symm hc]

theorem contains_iff : contains line pattern = true ↔ pattern <:+: line := by
  have hat : pattern ≠ [] → (containsAt pattern line = true ↔ pattern <:+: line) := by
    intro hne
    induction line with
    | nil => simp [containsAt, hne]
    | cons c line ih =>
      rw [containsAt, Bool.or_eq_true, ih, decide_eq_true_eq, matching_eq_iff, infix_cons_iff]
  by_cases hnil : pattern = []
  · simp [contains, hnil]
  · simp [contains, hnil, hat]

theorem flushLine_eq : flushLine pattern line = if pattern <:+: line then ended line else [] := by
  simp [flushLine, contains_iff]

/-- The buffer holds the start of the line that has begun. -/
theorem finish_foldl (pattern out text : Str) (begun : Str) :
    (text.foldl (State.add pattern) ⟨begun.take lineSize, out⟩).finish pattern =
      out ++ (linesFrom begun text).flatMap fun line => flushLine pattern (line.take lineSize) := by
  induction text generalizing begun out with
  | nil =>
    rw [foldl_nil, State.finish, linesFrom]
    cases begun <;> simp [lineSize]
  | cons c text ih =>
    have hbuf : (if (begun.take lineSize).length < lineSize then begun.take lineSize ++ [c]
        else begun.take lineSize) = (begun ++ [c]).take lineSize := by
      rw [length_take]
      split
      · rw [take_of_length_le (by omega), take_of_length_le (by rw [length_append]; simp; omega)]
      · rw [take_append_of_le_length (by omega)]
    rw [foldl_cons, State.add, hbuf, linesFrom]
    split
    · have hnext := ih (out ++ flushLine pattern ((begun ++ [c]).take lineSize)) []
      rw [take_nil] at hnext
      rw [hnext, flatMap_cons, append_assoc]
    · exact ih out (begun ++ [c])

theorem grepFd_eq (pattern : Str) (chunks : List Chunk) :
    grepFd pattern chunks = (lines (chunks.map Subtype.val).flatten).flatMap fun line =>
      flushLine pattern (line.take lineSize) := by
  rw [lines, ← nil_append (flatMap ..), ← finish_foldl, foldl_flatten, foldl_map]
  rfl

/-- A line that contains the pattern is written whole: the buffer holds a part that contains it, and
all of the line but for a newline at its end. -/
def Fits (pattern line : Str) : Prop :=
  pattern <:+: line.take lineSize ∧ ended (line.take lineSize) = ended line

theorem ended_ne_nil : ended line ≠ [] := by
  rw [ended]
  split
  · exact append_ne_nil_of_right_ne_nil _ (cons_ne_nil _ _)
  · rename_i h
    exact append_ne_nil_of_left_ne_nil (mt .inl h) _

theorem length_ended_take : (ended (line.take lineSize)).length ≤ (ended line).length := by
  rcases le_or_gt line.length lineSize with hle | hlt
  · rw [take_of_length_le hle]
  · simp only [ended, length_append, length_take]
    split_ifs <;> simp <;> omega

theorem flushLine_take :
    (flushLine pattern (line.take lineSize)).length ≤ (flushLine pattern line).length ∧
      (flushLine pattern (line.take lineSize) = flushLine pattern line ↔
        (pattern <:+: line → Fits pattern line)) := by
  rw [flushLine_eq, flushLine_eq, Fits]
  by_cases htake : pattern <:+: line.take lineSize
  · have hin := htake.trans ( take_prefix _ _).isInfix
    simp [htake, hin, length_ended_take]
  · by_cases hin : pattern <:+: line <;> simp [htake, hin, ended_ne_nil.symm]

theorem flatMap_eq_iff {α β : Type} {f g : α → List β} {l : List α}
    (h : ∀ x, (f x).length ≤ (g x).length) :
    l.flatMap f = l.flatMap g ↔ ∀ x ∈ l, f x = g x := by
  induction l with
  | nil => simp
  | cons x l ih =>
    rw [flatMap_cons, flatMap_cons, forall_mem_cons, ← ih]
    refine ⟨fun heq => append_inj heq ?_, fun ⟨hx, hl⟩ => by rw [hx, hl]⟩
    have hlen := congrArg length heq
    have hle : (l.flatMap f).length ≤ (l.flatMap g).length := by
      rw [length_flatMap, length_flatMap]
      exact sum_le_sum fun x _ => h x
    rw [length_append, length_append] at hlen
    have := h x
    omega

/-- **The lines are written whole**, however the text was split, exactly when the ones that contain
the pattern fit in the buffer. -/
theorem grepFd_eq_iff (pattern : Str) (chunks : List Chunk) :
    grepFd pattern chunks = found pattern (chunks.map Subtype.val).flatten ↔
      ∀ line ∈ lines (chunks.map Subtype.val).flatten, pattern <:+: line → Fits pattern line := by
  simp only [grepFd_eq, found, ← flushLine_eq]
  rw [flatMap_eq_iff fun line => flushLine_take.1]
  exact forall₂_congr fun line _ => flushLine_take.2

theorem linesFrom_of_notMem (h : newline ∉ text) (hne : begun ++ text ≠ []) :
    linesFrom begun text = [begun ++ text] := by
  induction text generalizing begun with
  | nil => simpa [linesFrom] using hne
  | cons c text ih =>
    rw [mem_cons, not_or] at h
    rw [linesFrom, if_neg (Ne.symm h.1), ih h.2 (by simp), append_assoc, singleton_append]

/-- The text is a line that is one letter longer than the buffer, and the pattern is the letter. -/
theorem grepFd_long_line :
    let chunks : List Chunk := replicate (lineSize + 1) ⟨[97], by decide⟩
    (grepFd [97] chunks).length = lineSize + 1 ∧
      (found [97] (chunks.map Subtype.val).flatten).length = lineSize + 2 := by
  intro chunks
  have htext : (chunks.map Subtype.val).flatten = replicate (lineSize + 1) 97 := by
    rw [map_replicate, flatten_replicate_singleton]
  have hlines : lines (replicate (lineSize + 1) 97) = [replicate (lineSize + 1) 97] :=
    linesFrom_of_notMem (fun h => absurd (eq_of_mem_replicate h) (by decide)) (by simp)
  have hflush : ∀ n, (flushLine [97] (replicate (n + 1) 97)).length = n + 2 := by
    intro n
    have hlast : (replicate (n + 1) (97 : UInt8)).getLast? ≠ some newline := by
      simp [getLast?_replicate, newline]
    rw [flushLine_eq, if_pos ⟨[], replicate n 97, rfl⟩, ended, if_pos (.inr hlast)]
    simp
  rw [grepFd_eq, htext, found, hlines]
  simp only [flatMap_singleton, ← flushLine_eq, take_replicate, hflush]
  exact ⟨hflush 1023, trivial⟩

end OsPi.Grep
