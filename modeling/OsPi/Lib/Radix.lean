import Mathlib.Algebra.BigOperators.Group.Multiset.Basic
import Mathlib.Algebra.Order.BigOperators.Group.Multiset
import Mathlib.Tactic.Abel

/-!
# Radix Trees of Numbered Nodes

A tree of height `0` is a leaf. A tree of height `n + 1` is a node with a number of its own
and a row of trees of height `n`, some of them absent. A row is written as the list of its
slots; slots past the end of the list are empty, so the empty list is a row with nothing in
it and `Row.put` extends the list when it has to.

`lookup` descends by one digit for each level. `leaves` and `frames` collect the leaves and
the numbers of the nodes with their multiplicities: putting an entry into a row changes these
by what was there before (`Row.sum_put`), and what `lookup` finds are exactly the leaves
(`mem_leaves`).
-/

/-! ### Rows -/

namespace Row

variable {β γ : Type}

/-- The entry in slot `i`. -/
def get (row : List (Option β)) (i : ℕ) : Option β :=
  row[i]?.join

/-- The row with `b` in slot `i`. -/
def put : List (Option β) → ℕ → β → List (Option β)
  | [], 0, b => [some b]
  | [], i + 1, b => none :: put [] i b
  | _ :: row, 0, b => some b :: row
  | e :: row, i + 1, b => e :: put row i b

/-- What `f` collects over the entries of a row. -/
def sum (f : β → Multiset γ) (row : List (Option β)) : Multiset γ :=
  (row.map fun e => e.elim 0 f).sum

@[simp] theorem get_nil (i : ℕ) : get ([] : List (Option β)) i = none := rfl

@[simp] theorem get_cons_zero (e : Option β) (row : List (Option β)) :
    get (e :: row) 0 = e := by
  simp [get]

@[simp] theorem get_cons_succ (e : Option β) (row : List (Option β)) (i : ℕ) :
    get (e :: row) (i + 1) = get row i := by
  simp [get]

variable (f : β → Multiset γ)

@[simp] theorem sum_nil : sum f [] = 0 := rfl

@[simp] theorem sum_cons (e : Option β) (row : List (Option β)) :
    sum f (e :: row) = e.elim 0 f + sum f row := rfl

/-- An entry put into a row counts, and the entry it replaces no longer does. -/
theorem sum_put (row : List (Option β)) (i : ℕ) (b : β) :
    sum f (put row i b) + (get row i).elim 0 f = sum f row + f b := by
  fun_induction put row i b with
  | case1 => simp
  | case2 i b ih => simpa using ih
  | case3 e row b => simp only [sum_cons, get_cons_zero, Option.elim_some]; abel
  | case4 e row i b ih =>
    simp only [sum_cons, get_cons_succ]
    rw [add_assoc, ih, add_assoc]

theorem sum_put_of_none {row : List (Option β)} {i : ℕ} (h : get row i = none) (b : β) :
    sum f (put row i b) = sum f row + f b := by
  simpa [h] using sum_put f row i b

theorem map_sum {δ : Type} (g : γ → δ) (row : List (Option β)) :
    (sum f row).map g = sum (fun b => (f b).map g) row := by
  induction row with
  | nil => rfl
  | cons e row ih =>
    rw [sum_cons, sum_cons, Multiset.map_add, ih]
    cases e <;> rfl

/-- What a row collects is what its entries do. -/
theorem mem_sum {row : List (Option β)} {c : γ} :
    c ∈ sum f row ↔ ∃ i b, get row i = some b ∧ c ∈ f b := by
  induction row with
  | nil => simp
  | cons e row ih =>
    simp only [sum_cons, Multiset.mem_add, ih]
    constructor
    · rintro (h | ⟨i, b, hb, hc⟩)
      · obtain ⟨b, rfl⟩ : ∃ b, e = some b := by
          cases e with
          | none => simp at h
          | some b => exact ⟨b, rfl⟩
        exact ⟨0, b, rfl, h⟩
      · exact ⟨i + 1, b, hb, hc⟩
    · rintro ⟨i, b, hb, hc⟩
      cases i with
      | zero =>
        rw [get_cons_zero] at hb
        exact .inl (by simpa [hb] using hc)
      | succ i => exact .inr ⟨i, b, hb, hc⟩

end Row

/-! ### Trees -/

/-- A node: its number, and its row of subtrees. -/
structure Node (β : Type) where
  frame : ℕ
  row : List (Option β)
  deriving DecidableEq

/-- A tree of the given height with leaves in `α`. -/
def Radix (α : Type) : ℕ → Type
  | 0 => α
  | n + 1 => Node (Radix α n)

namespace Radix

variable {α : Type}

/-- The leaves of a tree. -/
def leaves : {n : ℕ} → Radix α n → Multiset α
  | 0, a => {(show α from a)}
  | _ + 1, t => Row.sum leaves t.row

/-- The numbers of the nodes of a tree. -/
def frames : {n : ℕ} → Radix α n → Multiset ℕ
  | 0, _ => 0
  | _ + 1, t => t.frame ::ₘ Row.sum frames t.row

/-- The leaf a descent ends at: the node of height `n + 1` is left through slot `d n`. -/
def lookup (d : ℕ → ℕ) : {n : ℕ} → Radix α n → Option α
  | 0, a => some (show α from a)
  | n + 1, t => (Row.get t.row (d n)).bind (lookup d)

@[simp] theorem leaves_zero (a : α) : leaves (n := 0) a = {a} := rfl

@[simp] theorem frames_zero (a : α) : frames (n := 0) a = (0 : Multiset ℕ) := rfl

variable {n : ℕ}

@[simp] theorem leaves_node (x : ℕ) (row : List (Option (Radix α n))) :
    leaves (n := n + 1) (Node.mk x row) = Row.sum leaves row := rfl

@[simp] theorem frames_node (x : ℕ) (row : List (Option (Radix α n))) :
    frames (n := n + 1) (Node.mk x row) = x ::ₘ Row.sum frames row := rfl

@[simp] theorem lookup_node (d : ℕ → ℕ) (x : ℕ) (row : List (Option (Radix α n))) :
    lookup (n := n + 1) d (Node.mk x row) = (Row.get row (d n)).bind (lookup d) := rfl

/-- A descent of a tree of height `n` looks at the digits below `n` only. -/
theorem lookup_congr {d e : ℕ → ℕ} {n : ℕ} (t : Radix α n) (h : ∀ k < n, d k = e k) :
    lookup d t = lookup e t := by
  induction n with
  | zero => rfl
  | succ n ih =>
    obtain ⟨x, row⟩ := t
    rw [lookup_node, lookup_node, h n (Nat.lt_succ_self n)]
    cases Row.get row (e n) with
    | none => rfl
    | some u => exact ih u fun k hk => h k (Nat.lt_succ_of_lt hk)

/-- The leaves of a tree are what a descent can find. -/
theorem mem_leaves {n : ℕ} {t : Radix α n} {a : α} :
    a ∈ leaves t ↔ ∃ d, lookup d t = some a := by
  induction n with
  | zero =>
    exact ⟨fun h => ⟨fun _ => 0, congrArg some (Multiset.mem_singleton.mp h).symm⟩,
      fun ⟨_, h⟩ => Multiset.mem_singleton.mpr (Option.some.inj h).symm⟩
  | succ n ih =>
    obtain ⟨x, row⟩ := t
    rw [leaves_node, Row.mem_sum]
    constructor
    · rintro ⟨i, b, hb, ha⟩
      obtain ⟨d, hd⟩ := ih.mp ha
      refine ⟨Function.update d n i, ?_⟩
      have hlow : lookup (Function.update d n i) b = lookup d b :=
        lookup_congr b fun k hk => Function.update_of_ne (Nat.ne_of_lt hk) _ _
      simp [hb, hlow, hd]
    · rintro ⟨d, hd⟩
      obtain ⟨b, hb, hd⟩ := Option.bind_eq_some_iff.mp hd
      exact ⟨d n, b, hb, ih.mpr ⟨d, hd⟩⟩

end Radix
