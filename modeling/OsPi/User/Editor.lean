import Mathlib.Data.Prod.Lex
import OsPi.Fs.State

/-!
# Moving the Cursor of the Editor

The editor `vim` shows its text in rows: a row ends at a newline, or where the screen does.
`cursor_position` walks over the text to find the row and column of an index, and
`index_at_position` to find the index for a row and column.

For a column that the row does not have `index_at_position` gives the end of the text, and
`move_vertical` goes there only when the row is the last one. Otherwise the cursor stays where it
is (`moveVertical_iff`).
-/

namespace OsPi

/-- The variables of the editor: its text, the columns of the screen and the cursor. -/
structure Editor where
  text : Str
  cols : ℕ
  cursor : ℕ

/-- Where a walk over the text is, and whether it is there because the row before was full. -/
structure Place where
  row : ℕ
  col : ℕ
  wrapped : Bool

namespace Editor

variable (e : Editor) {row col : ℕ}

/-- The body of the loops, for the character of the place. -/
def next (p : Place) (c : UInt8) : Place :=
  if c = 10 then ⟨if p.wrapped then p.row else p.row + 1, 0, false⟩
  else if p.col + 1 = e.cols then ⟨p.row + 1, 0, true⟩
  else ⟨p.row, p.col + 1, false⟩

/-- `cursor_position`. -/
def cursorPosition (index : ℕ) : Place := (e.text.take index).foldl e.next ⟨0, 0, false⟩

/-- The loop of `index_at_position`. -/
def indexFrom (row col : ℕ) : Place → Str → ℕ
  | _, [] => 0
  | p, c :: text =>
    if p.row = row ∧ col ≤ p.col then 0 else indexFrom row col (e.next p c) text + 1

/-- `index_at_position`. -/
def indexAtPosition (row col : ℕ) : ℕ := e.indexFrom row col ⟨0, 0, false⟩ e.text

/-- `delta`, for a movement down or up. -/
def delta (down : Bool) : ℤ := if down then 1 else -1

/-- `move_vertical`. -/
def moveVertical (down : Bool) : Editor :=
  let p := e.cursorPosition e.cursor
  let row := (p.row + delta down).toNat
  let target := e.indexAtPosition row p.col
  let actual := e.cursorPosition target
  if actual.row = row ∨ row > actual.row then { e with cursor := target } else e

/-! ### Walks -/

/-- A walk goes on in the row, or to the beginning of the next. -/
theorem next_cases (p : Place) (c : UInt8) :
    (e.next p c).row = p.row ∧ (e.next p c).col ≤ p.col + 1 ∨
      (e.next p c).row = p.row + 1 ∧ (e.next p c).col = 0 := by
  rw [next]
  split
  · cases p.wrapped <;> simp
  · split <;> simp

theorem cursorPosition_succ (i : ℕ) :
    e.cursorPosition (i + 1) = e.cursorPosition i ∨
      ∃ c, e.cursorPosition (i + 1) = e.next (e.cursorPosition i) c := by
  rw [cursorPosition, List.take_add_one, List.foldl_append]
  cases e.text[i]? with
  | none => exact .inl rfl
  | some c => exact .inr ⟨c, rfl⟩

theorem col_of_wrapped (i : ℕ) (h : (e.cursorPosition i).wrapped = true) :
    (e.cursorPosition i).col = 0 := by
  induction i with
  | zero => rfl
  | succ i ih =>
    obtain heq | ⟨c, heq⟩ := e.cursorPosition_succ i <;> rw [heq] at h ⊢
    · exact ih h
    · rw [next] at h ⊢
      split_ifs at h ⊢
      all_goals rfl

/-- A walk does not go back: a newline after a full row leaves it at the beginning of the next. -/
theorem monotone_cursorPosition :
    Monotone fun i => toLex ((e.cursorPosition i).row, (e.cursorPosition i).col) := by
  refine monotone_nat_of_le_succ fun i => ?_
  obtain heq | ⟨c, heq⟩ := e.cursorPosition_succ i <;> rw [heq]
  have hcol := e.col_of_wrapped i
  simp only [Prod.Lex.toLex_le_toLex, next]
  split_ifs with hc hw <;> simp [*]

/-- The end of the text is the last place. -/
theorem le_last (i : ℕ) :
    (e.cursorPosition i).row < (e.cursorPosition e.text.length).row ∨
      (e.cursorPosition i).row = (e.cursorPosition e.text.length).row ∧
      (e.cursorPosition i).col ≤ (e.cursorPosition e.text.length).col := by
  rcases le_total i e.text.length with h | h
  · exact Prod.Lex.toLex_le_toLex.mp (e.monotone_cursorPosition h)
  · simp [cursorPosition, List.take_of_length_le h]

/-- A place in the row, at the column or after it. -/
def At (row col i : ℕ) : Prop := (e.cursorPosition i).row = row ∧ col ≤ (e.cursorPosition i).col

variable {e}

/-- The first place in a row that is not before the column is at the column. -/
theorem col_le_of_first {i : ℕ} (h : ∀ j < i, ¬e.At row col j)
    (hrow : (e.cursorPosition i).row = row) : (e.cursorPosition i).col ≤ col := by
  cases i with
  | zero => exact Nat.zero_le _
  | succ i =>
    have hnot := h i (Nat.lt_succ_self i)
    rw [At] at hnot
    obtain heq | ⟨c, heq⟩ := e.cursorPosition_succ i <;> rw [heq] at hrow ⊢
    · omega
    · have := e.next_cases (e.cursorPosition i) c
      omega

variable (e)

/-- `index_at_position` stops at the first place that is not before the column. -/
theorem indexAtPosition_spec (row col : ℕ) :
    e.indexAtPosition row col ≤ e.text.length ∧
      (e.indexAtPosition row col < e.text.length → e.At row col (e.indexAtPosition row col)) ∧
      ∀ j < e.indexAtPosition row col, ¬e.At row col j := by
  have hwalk : ∀ (text : Str) (p : Place),
      let i := e.indexFrom row col p text
      let q := fun i => (text.take i).foldl e.next p
      i ≤ text.length ∧ (i < text.length → (q i).row = row ∧ col ≤ (q i).col) ∧
        ∀ j < i, ¬((q j).row = row ∧ col ≤ (q j).col) := by
    intro text
    induction text with
    | nil => simp [indexFrom]
    | cons c text ih =>
      intro p
      rw [indexFrom]
      split
      · rename_i hat
        simp [hat]
      · rename_i hat
        obtain ⟨hle, hat', hbefore⟩ := ih (e.next p c)
        refine ⟨Nat.succ_le_succ hle, fun hlt => hat' (Nat.lt_of_succ_lt_succ hlt), fun j hj => ?_⟩
        cases j with
        | zero => exact hat
        | succ j => exact hbefore j (Nat.lt_of_succ_lt_succ hj)
  exact hwalk e.text ⟨0, 0, false⟩

/-! ### Movement -/

/-- A place is in the row above or below the one of the cursor. -/
def Beyond (down : Bool) (i : ℕ) : Prop :=
  (e.cursorPosition i).row = (e.cursorPosition e.cursor).row + delta down

/-- A place in the row beyond that is at the column of the cursor, or the last of a shorter row. -/
def Target (down : Bool) (i : ℕ) : Prop :=
  e.Beyond down i ∧
    ((e.cursorPosition i).col = (e.cursorPosition e.cursor).col ∨
      (e.cursorPosition i).col < (e.cursorPosition e.cursor).col ∧
        ∀ j, e.Beyond down j → (e.cursorPosition j).col ≤ (e.cursorPosition i).col)

/-- **Vertical movement** reaches the row beyond, when there is one, exactly when that row has a
character at the column of the cursor or after it, or is the last row. -/
theorem moveVertical_iff (down : Bool) :
    ((∃ i, e.Beyond down i) → e.Target down (e.moveVertical down).cursor) ↔
      ((∃ i, e.Beyond down i) → e.Beyond down e.text.length ∨ ∃ i < e.text.length,
        e.Beyond down i ∧ (e.cursorPosition e.cursor).col ≤ (e.cursorPosition i).col) := by
  refine forall_congr' fun ⟨i, hi⟩ => ?_
  have hdelta : delta down = 1 ∨ delta down = -1 := by cases down <;> simp [delta]
  unfold Target moveVertical Beyond at *
  generalize hp : e.cursorPosition e.cursor = p at hi ⊢
  simp only [← hi, Int.toNat_natCast, Int.natCast_inj]
  obtain ⟨hle, hat, hfirst⟩ := e.indexAtPosition_spec (e.cursorPosition i).row p.col
  have hcol := col_le_of_first hfirst
  generalize e.indexAtPosition (e.cursorPosition i).row p.col = target at hle hat hfirst hcol ⊢
  have hlast := e.le_last
  rcases hle.lt_or_eq with hlt | rfl
  · -- the row has a character at the column
    obtain ⟨hrow, hge⟩ := hat hlt
    rw [if_pos (.inl hrow)]
    exact iff_of_true ⟨hrow, .inl (le_antisymm (hcol hrow) hge)⟩ (.inr ⟨target, hlt, hrow, hge⟩)
  · by_cases hrow : (e.cursorPosition e.text.length).row = (e.cursorPosition i).row
    · rw [if_pos (.inl hrow)]
      refine iff_of_true ⟨hrow, (hcol hrow).eq_or_lt.imp_right fun hlt => ⟨hlt, ?_⟩⟩ (.inl hrow)
      intro j hj
      have := hlast j
      change (e.cursorPosition j).col ≤ (e.cursorPosition e.text.length).col
      omega
    · have := hlast i
      rw [if_neg (by omega), hp]
      refine iff_of_false (fun h => by omega) ?_
      rintro (h | ⟨j, hj, hat⟩)
      · exact hrow h
      · exact hfirst j hj hat

/-- The cursor is on the second letter, above an empty row that is not the last. -/
theorem moveVertical_empty_row :
    let e : Editor := ⟨[97, 98, 10, 10, 99], 80, 1⟩
    (∃ i, e.Beyond true i) ∧ (e.moveVertical true).cursor = 1 ∧ ¬e.Target true 1 :=
  ⟨⟨3, rfl⟩, rfl, fun h => absurd h.1 (by unfold Beyond; decide)⟩

end Editor

end OsPi
