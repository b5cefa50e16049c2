import Mathlib.Data.List.Basic

/-!
# Doubly Linked Lists in a Heap

A heap maps addresses to cells that hold a value and two links. `DList` is a heap with a
head and a tail pointer, the C representation of a doubly linked list; `unlink` and
`pushFront` are the pointer updates every such list performs, in the order C code writes
them.

`Linked h prev l next` says that the cells of `l`, taken in order, are chained in `h`
between `prev` and `next`; `DList.Repr d l` says that `d` represents the list `l` of
address-value pairs. `Repr.unlink` and `Repr.pushFront` say what the two updates do to the
represented list.
-/

/-- A cell of a doubly linked list. -/
structure Cell (α : Type) where
  val : α
  next : Option ℕ
  prev : Option ℕ

/-- A doubly linked list: the heap its cells live in, its head and its tail. -/
structure DList (α : Type) where
  heap : ℕ → Option (Cell α)
  head : Option ℕ
  tail : Option ℕ

namespace DList

open List Option

variable {α : Type} {l : List (ℕ × α)} {h h' : ℕ → Option (Cell α)} {p : ℕ} {prev next : Option ℕ}

/-- Overwrite the cell at an allocated address. -/
def update (h : ℕ → Option (Cell α)) (p : ℕ) (f : Cell α → Cell α) : ℕ → Option (Cell α) :=
  fun q => if q = p then (h q).map f else h q

/-- Overwrite the cell a link points to, if it points anywhere. -/
def updateLink (h : ℕ → Option (Cell α)) (l : Option ℕ) (f : Cell α → Cell α) :
    ℕ → Option (Cell α) :=
  match l with
  | none => h
  | some p => update h p f

/-- Take the cell at `p` out of the list: move the head and the tail past it, join its
neighbours, clear its links. The cell itself stays in the heap. -/
def unlink (d : DList α) (p : ℕ) : DList α :=
  match d.heap p with
  | none => d
  | some c =>
    let head := if d.head = some p then c.next else d.head
    let tail := if d.tail = some p then c.prev else d.tail
    let heap := updateLink d.heap c.next fun n => { n with prev := c.prev }
    let heap := updateLink heap c.prev fun n => { n with next := c.next }
    let heap := update heap p fun n => { n with next := none, prev := none }
    { heap, head, tail }

/-- Put the cell at `p` in front of the list. -/
def pushFront (d : DList α) (p : ℕ) : DList α :=
  let heap := update d.heap p fun c => { c with next := d.head, prev := none }
  match d.head with
  | none => { heap, head := some p, tail := some p }
  | some q => { heap := update heap q fun c => { c with prev := some p }
                head := some p, tail := d.tail }

/-- Allocate a cell at `p`. -/
def alloc (d : DList α) (p : ℕ) (c : Cell α) : DList α :=
  { d with heap := Function.update d.heap p (some c) }

/-- Release the cell at `p`. -/
def free (d : DList α) (p : ℕ) : DList α :=
  { d with heap := Function.update d.heap p none }

/-! ### Chains -/

/-- The address of the first cell of `l`, or `next` when there is none. -/
def first (l : List (ℕ × α)) (next : Option ℕ) : Option ℕ :=
  match l with
  | [] => next
  | (p, _) :: _ => some p

/-- The address of the last cell of `l`, or `prev` when there is none. -/
def last (prev : Option ℕ) : List (ℕ × α) → Option ℕ
  | [] => prev
  | (p, _) :: l => last (some p) l

/-- The cells of `l` are chained in order between `prev` and `next`. -/
def Linked (h : ℕ → Option (Cell α)) (prev : Option ℕ) :
    List (ℕ × α) → Option ℕ → Prop
  | [], _ => True
  | (p, a) :: l, next => h p = some ⟨a, first l next, prev⟩ ∧ Linked h (some p) l next

theorem first_append (l₁ l₂ : List (ℕ × α)) (next : Option ℕ) :
    first (l₁ ++ l₂) next = first l₁ (first l₂ next) := by
  cases l₁ <;> rfl

theorem last_append (prev : Option ℕ) (l₁ l₂ : List (ℕ × α)) :
    last prev (l₁ ++ l₂) = last (last prev l₁) l₂ := by
  induction l₁ generalizing prev with
  | nil => rfl
  | cons x l₁ ih => exact ih (some x.1)

/-- A chain splits where its list does. -/
theorem linked_append (h : ℕ → Option (Cell α)) (prev next : Option ℕ)
    (l₁ l₂ : List (ℕ × α)) :
    Linked h prev (l₁ ++ l₂) next ↔
      Linked h prev l₁ (first l₂ next) ∧ Linked h (last prev l₁) l₂ next := by
  induction l₁ generalizing prev with
  | nil => simp [Linked, last]
  | cons x l₁ ih =>
    simp only [cons_append, Linked, last, first_append, ih, and_assoc]

/-- A chain only depends on the cells of its list. -/
theorem Linked.congr (hl : Linked h prev l next)
    (heq : ∀ p ∈ l.map Prod.fst, h' p = h p) : Linked h' prev l next := by
  induction l generalizing prev with
  | nil => trivial
  | cons x l ih =>
    obtain ⟨hx, hl⟩ := hl
    refine ⟨?_, ih hl fun p hp => heq p (mem_cons_of_mem _ hp)⟩
    rw [heq x.1 (by simp), hx]

/-- The last cell of a nonempty chain is one of its cells. -/
theorem mem_of_last_eq {y : ℕ × α} {l' : List (ℕ × α)} (prev : Option ℕ)
    (h : last prev l' = some p) (hl : l' = y :: l) : p ∈ (y :: l).map Prod.fst := by
  induction l generalizing prev y l' with
  | nil =>
    subst hl
    obtain rfl : y.1 = p := some.inj h
    simp
  | cons z l ih =>
    subst hl
    exact mem_cons_of_mem _ (ih (some y.1) h rfl)

theorem mem_of_last (h : last none l = some p) :
    p ∈ l.map Prod.fst := by
  cases l with
  | nil => simp [last] at h
  | cons y l => exact mem_of_last_eq none h rfl

theorem mem_of_first (h : first l none = some p) :
    p ∈ l.map Prod.fst := by
  cases l with
  | nil => simp [first] at h
  | cons y l =>
    obtain rfl : y.1 = p := some.inj h
    simp

/-- Redirecting the `next` link of the last cell redirects the chain. -/
theorem Linked.relink_last {next' : Option ℕ}
    (hl : Linked h prev l next) (hnd : (l.map Prod.fst).Nodup)
    (hlast : ∀ p, last none l = some p → h' p = (h p).map fun c => { c with next := next' })
    (heq : ∀ p ∈ l.map Prod.fst, last none l ≠ some p → h' p = h p) :
    Linked h' prev l next' := by
  induction l generalizing prev with
  | nil => trivial
  | cons x l ih =>
    obtain ⟨hx, hl⟩ := hl
    rw [map_cons, nodup_cons] at hnd
    cases l with
    | nil =>
      refine ⟨?_, trivial⟩
      rw [hlast x.1 rfl, hx]
      rfl
    | cons y l =>
      have hne : last none (x :: y :: l) ≠ some x.1 := by
        intro hc
        have hmem : x.1 ∈ (y :: l).map Prod.fst := mem_of_last_eq (some x.1) hc rfl
        exact hnd.1 hmem
      refine ⟨?_, ih hl hnd.2 hlast fun p hp => heq p (mem_cons_of_mem _ hp)⟩
      rw [heq x.1 (by simp) hne, hx]
      rfl

/-- Redirecting the `prev` link of the first cell redirects the chain. -/
theorem Linked.relink_first {prev' : Option ℕ}
    (hl : Linked h prev l next) (hnd : (l.map Prod.fst).Nodup)
    (hfirst : ∀ p, first l none = some p →
      h' p = (h p).map fun c => { c with prev := prev' })
    (heq : ∀ p ∈ l.map Prod.fst, first l none ≠ some p → h' p = h p) :
    Linked h' prev' l next := by
  cases l with
  | nil => trivial
  | cons x l =>
    obtain ⟨hx, hl⟩ := hl
    rw [map_cons, nodup_cons] at hnd
    refine ⟨?_, hl.congr fun p hp => ?_⟩
    · rw [hfirst x.1 rfl, hx]
      rfl
    · refine heq p (mem_cons_of_mem _ hp) ?_
      intro hc
      obtain rfl : x.1 = p := some.inj hc
      exact hnd.1 hp

/-! ### Represented lists -/

/-- `d` represents the list `l` of addresses and values, front to back. -/
structure Repr (d : DList α) (l : List (ℕ × α)) : Prop where
  nodup : (l.map Prod.fst).Nodup
  linked : Linked d.heap none l none
  head_eq : d.head = first l none
  tail_eq : d.tail = last none l

/-- The cell of a represented element, with the links its place in the list gives it. -/
theorem Repr.heap_eq {d : DList α} {l₁ l₂ : List (ℕ × α)} {a : α}
    (h : d.Repr (l₁ ++ (p, a) :: l₂)) :
    d.heap p = some ⟨a, first l₂ none, last none l₁⟩ :=
  ((linked_append _ _ _ _ _).mp h.linked).2.1

theorem updateLink_of_ne {l : Option ℕ} {f : Cell α → Cell α}
    {q : ℕ} (hq : l ≠ some q) : updateLink h l f q = h q := by
  cases l with
  | none => rfl
  | some p =>
    have hqp : q ≠ p := fun hc => hq (by rw [hc])
    simp [updateLink, update, hqp]

theorem updateLink_of_eq {l : Option ℕ} {f : Cell α → Cell α}
    {q : ℕ} (hq : l = some q) : updateLink h l f q = (h q).map f := by
  subst hq
  simp [updateLink, update]

/-- **Unlinking** removes the element from the represented list, leaves its cell in the
heap with cleared links, and touches no cell outside the list. -/
theorem Repr.unlink {d : DList α} {l₁ l₂ : List (ℕ × α)} {a : α} (h : d.Repr (l₁ ++ (p, a) :: l₂)) :
    (d.unlink p).Repr (l₁ ++ l₂) ∧ (d.unlink p).heap p = some ⟨a, none, none⟩ ∧
      ∀ q, q ∉ (l₁ ++ (p, a) :: l₂).map Prod.fst → (d.unlink p).heap q = d.heap q := by
  have hp := h.heap_eq
  obtain ⟨hl₁, hp', hl₂⟩ := (linked_append _ _ _ _ _).mp h.linked
  have hnd := h.nodup
  simp only [map_append, map_cons] at hnd
  obtain ⟨hnd₁, hnd₂', hdisj⟩ := nodup_append.mp hnd
  obtain ⟨hp₂, hnd₂⟩ := nodup_cons.mp hnd₂'
  have hp₁ : p ∉ l₁.map Prod.fst := fun hc => hdisj p hc p (by simp) rfl
  have h₁₂ : ∀ q ∈ l₁.map Prod.fst, q ∉ l₂.map Prod.fst :=
    fun q hq hc => hdisj q hq q (mem_cons_of_mem _ hc) rfl
  -- the links of the removed cell point into the two halves
  have hlast : ∀ q, last none l₁ = some q → q ∈ l₁.map Prod.fst := fun q => mem_of_last
  have hfirst : ∀ q, first l₂ none = some q → q ∈ l₂.map Prod.fst := fun q => mem_of_first
  have heap_ne : ∀ q, q ≠ p → (d.unlink p).heap q =
      updateLink (updateLink d.heap (first l₂ none) fun n => { n with prev := last none l₁ })
        (last none l₁) (fun n => { n with next := first l₂ none }) q := by
    intro q hq
    simp [DList.unlink, hp, update, hq]
  refine ⟨⟨?_, ?_, ?_, ?_⟩, ?_, ?_⟩
  · rw [map_append]
    exact nodup_append.mpr ⟨hnd₁, hnd₂, fun x hx y hy hxy => h₁₂ x hx (hxy ▸ hy)⟩
  · refine (linked_append _ _ _ _ _).mpr ⟨?_, ?_⟩
    · refine hl₁.relink_last hnd₁ ?_ ?_
      · intro q hq
        have hq₁ := hlast q hq
        rw [heap_ne q (fun hc => hp₁ (hc ▸ hq₁)), updateLink_of_eq hq,
          updateLink_of_ne fun hc => h₁₂ q hq₁ (hfirst q hc)]
      · intro q hq₁ hq
        rw [heap_ne q (fun hc => hp₁ (hc ▸ hq₁)), updateLink_of_ne hq,
          updateLink_of_ne fun hc => h₁₂ q hq₁ (hfirst q hc)]
    · refine hl₂.relink_first hnd₂ ?_ ?_
      · intro q hq
        have hq₂ := hfirst q hq
        rw [heap_ne q (fun hc => hp₂ (hc ▸ hq₂)),
          updateLink_of_ne fun hc => h₁₂ q (hlast q hc) hq₂, updateLink_of_eq hq]
      · intro q hq₂ hq
        rw [heap_ne q (fun hc => hp₂ (hc ▸ hq₂)),
          updateLink_of_ne fun hc => h₁₂ q (hlast q hc) hq₂, updateLink_of_ne hq]
  · have hhead : d.head = first l₁ (some p) := by rw [h.head_eq, first_append]; rfl
    simp only [DList.unlink, hp, hhead, first_append]
    cases l₁ with
    | nil => simp [first]
    | cons x l₁ =>
      have hx : x.1 ≠ p := fun hc => hp₁ (by simp [hc])
      simp [first, hx]
  · have htail : d.tail = last (some p) l₂ := by rw [h.tail_eq, last_append]; rfl
    simp only [DList.unlink, hp, htail, last_append]
    cases l₂ with
    | nil => simp [last]
    | cons y l₂ =>
      have hy : last (some p) (y :: l₂) ≠ some p :=
        fun hc => hp₂ (mem_of_last_eq (some p) hc rfl)
      rw [if_neg hy]
      rfl
  · have h₁ : updateLink d.heap (first l₂ none) (fun n => { n with prev := last none l₁ }) p
        = d.heap p := updateLink_of_ne fun hc => hp₂ (hfirst p hc)
    have h₂ := updateLink_of_ne (h := updateLink d.heap (first l₂ none)
      fun n => { n with prev := last none l₁ }) (l := last none l₁)
      (f := fun n => { n with next := first l₂ none }) (q := p) fun hc => hp₁ (hlast p hc)
    simp [DList.unlink, hp, update, h₁, h₂]
  · intro q hq
    simp only [map_append, map_cons, mem_append, mem_cons, not_or] at hq
    rw [heap_ne q hq.2.1, updateLink_of_ne fun hc => hq.1 (hlast q hc),
      updateLink_of_ne fun hc => hq.2.2 (hfirst q hc)]

/-- **Pushing** an allocated cell that is not in the list puts it in front. -/
theorem Repr.pushFront {d : DList α} {c : Cell α}
    (h : d.Repr l) (hc : d.heap p = some c) (hp : p ∉ l.map Prod.fst) :
    (d.pushFront p).Repr ((p, c.val) :: l) ∧
      ∀ q, q ∉ p :: l.map Prod.fst → (d.pushFront p).heap q = d.heap q := by
  have hnd : (((p, c.val) :: l).map Prod.fst).Nodup := nodup_cons.mpr ⟨hp, h.nodup⟩
  cases l with
  | nil =>
    have hhead : d.head = none := h.head_eq
    refine ⟨⟨hnd, ?_, ?_, ?_⟩, ?_⟩
    · simp [DList.pushFront, hhead, Linked, first, update, hc]
    · simp [DList.pushFront, hhead, first]
    · simp [DList.pushFront, hhead, last]
    · intro q hq
      have hqp : q ≠ p := fun e => hq (by simp [e])
      simp [DList.pushFront, hhead, update, hqp]
  | cons y l =>
    have hhead : d.head = some y.1 := h.head_eq
    have hyp : p ≠ y.1 := fun e => hp (by simp [e])
    refine ⟨⟨hnd, ⟨?_, ?_⟩, ?_, ?_⟩, ?_⟩
    · simp [DList.pushFront, hhead, update, hyp, hc, first]
    · refine h.linked.relink_first h.nodup ?_ ?_
      · intro q hq
        obtain rfl : y.1 = q := some.inj hq
        simp [DList.pushFront, hhead, update, hyp.symm]
      · intro q hq hqy
        have hqy' : q ≠ y.1 := fun e => hqy (by rw [e]; rfl)
        have hqp : q ≠ p := fun e => hp (e ▸ hq)
        simp [DList.pushFront, hhead, update, hqy', hqp]
    · simp [DList.pushFront, hhead, first]
    · simp only [DList.pushFront, hhead, h.tail_eq]
      rfl
    · intro q hq
      have hqp : q ≠ p := fun e => hq (by simp [e])
      have hqy : q ≠ y.1 := fun e => hq (by simp [e])
      simp [DList.pushFront, hhead, update, hqy, hqp]

end DList
