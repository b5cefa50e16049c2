import Mathlib.Data.List.Nodup

/-!
# Linked Lists Inside Other Data

A doubly linked list whose nodes are named by numbers, with zero for the null pointer, and
whose links are two functions from nodes to nodes. Nothing is said about where the links are
stored. Neighbours are `Joined` in both directions; a list is `Linked` when it is joined from
the null pointer at its front to the one at its end. Pushing a node to the front and removing
one from anywhere change the links of the neighbours only.
-/

namespace OsPi.Links

open List

variable {prev next prev' next' : ℕ → ℕ} {a b x y : ℕ} {l l₁ l₂ : List ℕ}

/-- Two neighbours refer to each other. The null pointer refers to nothing. -/
def Joined (prev next : ℕ → ℕ) (x y : ℕ) : Prop := (x ≠ 0 → next x = y) ∧ (y ≠ 0 → prev y = x)

/-- The nodes that follow `p`, joined up to the null pointer. -/
def LinkedFrom (prev next : ℕ → ℕ) : ℕ → List ℕ → Prop
  | p, [] => Joined prev next p 0
  | p, a :: l => a ≠ 0 ∧ Joined prev next p a ∧ LinkedFrom prev next a l

instance (x y : ℕ) : Decidable (Joined prev next x y) := inferInstanceAs (Decidable (_ ∧ _))

instance decidableLinkedFrom : ∀ p l, Decidable (LinkedFrom prev next p l)
  | p, [] => inferInstanceAs (Decidable (Joined prev next p 0))
  | p, a :: l =>
    have := decidableLinkedFrom a l
    inferInstanceAs (Decidable (a ≠ 0 ∧ Joined prev next p a ∧ LinkedFrom prev next a l))

/-- A list from its first node on. -/
def Linked (prev next : ℕ → ℕ) (l : List ℕ) : Prop := LinkedFrom prev next 0 l

instance (l : List ℕ) : Decidable (Linked prev next l) := decidableLinkedFrom 0 l

/-- The first node, or the null pointer. -/
def front (l : List ℕ) : ℕ := l.headD 0

theorem LinkedFrom.ne_zero (h : LinkedFrom prev next a l) (hx : x ∈ l) : x ≠ 0 := by
  induction l generalizing a with
  | nil => cases hx
  | cons b l ih =>
    obtain ⟨hb, -, hl⟩ := h
    rcases mem_cons.mp hx with rfl | hx
    · exact hb
    · exact ih hl hx

theorem LinkedFrom.front_ne_zero (h : LinkedFrom prev next a l) (hx : x ∈ l) : front l ≠ 0 := by
  cases l with
  | nil => cases hx
  | cons b l => exact h.1

theorem LinkedFrom.next_eq (h : LinkedFrom prev next a l) (ha : a ≠ 0) : next a = front l := by
  cases l with
  | nil => exact h.1 ha
  | cons b l => exact h.2.1.1 ha

/-- The link back from a node is to the one before it, and the link forward to the one after
it. -/
theorem LinkedFrom.links (h : LinkedFrom prev next x (l₁ ++ a :: l₂)) :
    prev a ∈ x :: l₁ ∧ next a = front l₂ := by
  induction l₁ generalizing x with
  | nil =>
    obtain ⟨ha, hj, hl⟩ := h
    exact ⟨mem_singleton.mpr (hj.2 ha), hl.next_eq ha⟩
  | cons b l₁ ih =>
    obtain ⟨h1, h2⟩ := ih h.2.2
    exact ⟨mem_cons_of_mem _ h1, h2⟩

theorem front_mem (h : front l ≠ 0) : front l ∈ l := by
  cases l with
  | nil => exact absurd rfl h
  | cons b l => exact mem_cons_self

/-- The links of the nodes, and the link from the node before them, are all that matters. -/
theorem LinkedFrom.congr (h : LinkedFrom prev next a l) (ha : a ≠ 0 → next' a = next a)
    (hnext : ∀ x ∈ l, next' x = next x) (hprev : ∀ x ∈ l, prev' x = prev x) :
    LinkedFrom prev' next' a l := by
  induction l generalizing a with
  | nil => exact ⟨fun h0 => (ha h0).trans (h.1 h0), fun h0 => absurd rfl h0⟩
  | cons b l ih =>
    obtain ⟨hb, hj, hl⟩ := h
    refine ⟨hb, ⟨fun h0 => (ha h0).trans (hj.1 h0), fun h0 => ?_⟩, ih hl ?_ ?_ ?_⟩
    · exact (hprev b mem_cons_self).trans (hj.2 h0)
    · exact fun _ => hnext b mem_cons_self
    · exact fun x hx => hnext x (mem_cons_of_mem _ hx)
    · exact fun x hx => hprev x (mem_cons_of_mem _ hx)

theorem Linked.congr (h : Linked prev next l) (hnext : ∀ x ∈ l, next' x = next x)
    (hprev : ∀ x ∈ l, prev' x = prev x) : Linked prev' next' l :=
  LinkedFrom.congr h (fun h0 => absurd rfl h0) hnext hprev

/-- **Pushing** a node: only the link back from the first node changes. -/
theorem Linked.push (h : Linked prev next l) (ha : a ≠ 0) (hnd : l.Nodup)
    (hprev_a : prev' a = 0) (hnext_a : next' a = front l)
    (hnext : ∀ x ∈ l, next' x = next x)
    (hprev : ∀ x ∈ l, prev' x = if x = front l then a else prev x) : Linked prev' next' (a :: l) := by
  refine ⟨ha, ⟨fun h0 => absurd rfl h0, fun _ => hprev_a⟩, ?_⟩
  cases l with
  | nil => exact ⟨fun _ => hnext_a, fun h0 => absurd rfl h0⟩
  | cons b l =>
    obtain ⟨hb, hj, hl⟩ := h
    have hfront : prev' b = a := by
      rw [hprev b mem_cons_self]
      exact if_pos rfl
    refine ⟨hb, ⟨fun _ => hnext_a, fun _ => hfront⟩, hl.congr ?_ ?_ ?_⟩
    · exact fun _ => hnext b mem_cons_self
    · exact fun x hx => hnext x (mem_cons_of_mem _ hx)
    · intro x hx
      rw [hprev x (mem_cons_of_mem _ hx), if_neg]
      rintro rfl
      exact (nodup_cons.mp hnd).1 hx

/-- Removing a node from the nodes that follow `p`. -/
theorem LinkedFrom.remove {p : ℕ} (h : LinkedFrom prev next p (l₁ ++ a :: l₂))
    (hnd : (l₁ ++ a :: l₂).Nodup) (hp : p ∉ l₁ ++ a :: l₂)
    (hnext_p : p ≠ 0 → next' p = if p = prev a then next a else next p)
    (hnext : ∀ x ∈ l₁ ++ l₂, next' x = if x = prev a then next a else next x)
    (hprev : ∀ x ∈ l₁ ++ l₂, prev' x = if x = next a then prev a else prev x) :
    LinkedFrom prev' next' p (l₁ ++ l₂) := by
  induction l₁ generalizing p with
  | nil =>
    obtain ⟨ha, hj, hl⟩ := h
    have hpa : prev a = p := hj.2 ha
    have hna : next a = front l₂ := hl.next_eq ha
    cases l₂ with
    | nil => exact ⟨fun h0 => by rw [hnext_p h0, if_pos hpa.symm, hna]; rfl, fun h0 => absurd rfl h0⟩
    | cons b l₂ =>
      obtain ⟨hb, -, hl⟩ := hl
      have hnd' := nodup_cons.mp (nodup_cons.mp hnd).2
      have hnot : ∀ x ∈ b :: l₂, x ≠ p := fun x hx he =>
        hp (mem_cons_of_mem _ (he ▸ hx))
      refine ⟨hb, ⟨fun h0 => ?_, fun _ => ?_⟩, hl.congr ?_ ?_ ?_⟩
      · rw [hnext_p h0, if_pos hpa.symm, hna]
        rfl
      · rw [hprev b mem_cons_self, if_pos (by rw [hna]; rfl), hpa]
      · intro _
        rw [hnext b mem_cons_self, if_neg (by rw [hpa]; exact hnot b mem_cons_self)]
      · intro x hx
        have hx' : x ∈ b :: l₂ := mem_cons_of_mem _ hx
        rw [hnext x hx', if_neg (by rw [hpa]; exact hnot x hx')]
      · intro x hx
        rw [hprev x (mem_cons_of_mem _ hx), if_neg]
        rw [hna]
        rintro rfl
        exact hnd'.1 hx
  | cons b l₁ ih =>
    obtain ⟨hb, hj, hl⟩ := h
    obtain ⟨hbnot, hnd'⟩ := nodup_cons.mp hnd
    -- the node before the removed one comes later, and so does the node after it
    obtain ⟨hlink, hlink'⟩ := hl.links
    have hpa : p ≠ prev a := by
      rintro rfl
      rcases mem_cons.mp hlink with he | hin
      · exact hp (he ▸ mem_cons_self)
      · exact hp (mem_cons_of_mem _ (mem_append_left _ hin))
    have hna : b ≠ next a := by
      intro he
      rw [hlink'] at he
      have hin := front_mem (l := l₂) (he ▸ hb)
      rw [← he] at hin
      exact hbnot (mem_append_right _ (mem_cons_of_mem _ hin))
    refine ⟨hb, ⟨fun h0 => ?_, fun _ => ?_⟩, ih hl hnd' hbnot ?_ ?_ ?_⟩
    · rw [hnext_p h0, if_neg hpa]
      exact hj.1 h0
    · rw [hprev b mem_cons_self, if_neg hna]
      exact hj.2 hb
    · intro _
      exact hnext b mem_cons_self
    · exact fun x hx => hnext x (mem_cons_of_mem _ hx)
    · exact fun x hx => hprev x (mem_cons_of_mem _ hx)

/-- **Removing** a node joins its neighbours. -/
theorem Linked.remove (h : Linked prev next (l₁ ++ a :: l₂)) (hnd : (l₁ ++ a :: l₂).Nodup)
    (hnext : ∀ x ∈ l₁ ++ l₂, next' x = if x = prev a then next a else next x)
    (hprev : ∀ x ∈ l₁ ++ l₂, prev' x = if x = next a then prev a else prev x) :
    Linked prev' next' (l₁ ++ l₂) :=
  LinkedFrom.remove h hnd (fun h0 => h.ne_zero h0 rfl) (fun h0 => absurd rfl h0) hnext hprev

/-- The front of the list without a node: the node after it when it was the first one. -/
theorem Linked.front_remove (h : Linked prev next (l₁ ++ a :: l₂)) :
    front (l₁ ++ l₂) = if prev a = 0 then next a else front (l₁ ++ a :: l₂) := by
  obtain ⟨hlink, hlink'⟩ := LinkedFrom.links h
  cases l₁ with
  | nil =>
    rw [if_pos (mem_singleton.mp hlink), hlink']
    rfl
  | cons b l₁ =>
    have hne : prev a ≠ 0 := by
      have hmem := (LinkedFrom.links h.2.2).1
      refine h.ne_zero ?_
      exact mem_append_left _ hmem
    rw [if_neg hne]
    rfl

end OsPi.Links
