import Mathlib.Data.List.Nodup

/-!
# Families

A family is a set of members, each with a parent and a list of children. In a family that agrees
the lists of children and the parents say the same, and every member descends from the root.

When a member is removed its children are in no list for a while: they are lost, until they are
removed as well or adopted by the root. So the agreement is stated up to a list of lost members, and
there is one lemma for each change: `insert` adds a child, `plant` the root, `remove` takes a member
away and `adopt` gives a lost one to the root.
-/

/-- The members of a family, with parents and children. -/
structure Family (α : Type) where
  live : α → Prop
  parent : α → α
  children : α → List α

namespace Family

open List

variable {α : Type}

/-- To descend from the root. -/
inductive Descends (f : Family α) (root : α) : α → Prop
  | root : Descends f root root
  | child {c : α} (h : Descends f root (f.parent c)) : Descends f root c

/-- Lists of children and parents agree, with the exception of members that are lost. -/
structure AgreesBut (root : α) (lost : List α) (f : Family α) : Prop where
  members : ∀ p, ∀ c ∈ f.children p, f.live p ∧ f.live c ∧ f.parent c = p ∧ c ≠ p ∧ c ≠ root
  listed : ∀ c, f.live c → c ≠ root → c ∉ lost → c ∈ f.children (f.parent c)
  nodup : ∀ p, (f.children p).Nodup
  orphans : ∀ c ∈ lost, f.live c ∧ c ≠ root ∧ ¬f.live (f.parent c)
  orphans_nodup : lost.Nodup
  descends : ∀ c, f.live c → f.Descends root c

/-- Lists of children and parents agree. -/
abbrev Agrees (root : α) : Family α → Prop := AgreesBut root []

variable {root : α} {lost : List α} {f f' : Family α} {p c x : α}

/-- Parents may be replaced by the root. -/
theorem Descends.mono (hparent : ∀ c, f'.parent c = f.parent c ∨ f'.parent c = root)
    (h : f.Descends root c) : f'.Descends root c := by
  induction h with
  | root => exact .root
  | @child c _ ih =>
    refine .child ?_
    rcases hparent c with heq | heq <;> rw [heq]
    · exact ih
    · exact .root

theorem AgreesBut.parent_live (h : AgreesBut root lost f) (hc : f.live c) (hroot : c ≠ root)
    (hlost : c ∉ lost) : f.live (f.parent c) :=
  (h.members _ c (h.listed c hc hroot hlost)).1

/-- Where there are members, the root is one of them. -/
theorem Agrees.live_root (h : Agrees root f) (hc : f.live c) : f.live root := by
  induction h.descends c hc with
  | root => exact hc
  | @child c _ ih =>
    by_cases hroot : c = root
    · exact hroot ▸ hc
    · exact ih (h.parent_live hc hroot not_mem_nil)

/-- A member other than the root is in one list of children, and only once there. -/
theorem Agrees.count_eq_one [DecidableEq α] (h : Agrees root f) (hc : f.live c) (hroot : c ≠ root) :
    f.live (f.parent c) ∧ (f.children (f.parent c)).count c = 1 ∧
      ∀ p, p ≠ f.parent c → c ∉ f.children p := by
  have hmem := h.listed c hc hroot not_mem_nil
  refine ⟨(h.members _ c hmem).1, count_eq_one_of_mem (h.nodup _) hmem, fun p hne hmem' => ?_⟩
  exact hne (h.members p c hmem').2.2.1.symm

/-- Nobody else is in a list. -/
theorem AgreesBut.not_mem (h : AgreesBut root lost f) (hc : ¬f.live c) (p : α) : c ∉ f.children p :=
  fun hmem => hc (h.members p c hmem).2.1

/-- Someone who is lost is in no list. -/
theorem AgreesBut.not_mem_of_lost (h : AgreesBut root lost f) (hc : c ∈ lost) (p : α) :
    c ∉ f.children p := by
  intro hmem
  obtain ⟨hp, -, hparent, -, -⟩ := h.members p c hmem
  exact (h.orphans c hc).2.2 (hparent ▸ hp)

theorem AgreesBut.congr (h : AgreesBut root lost f) (hlive : ∀ c, f'.live c ↔ f.live c)
    (hparent : ∀ c, f'.parent c = f.parent c) (hchildren : ∀ p, f'.children p = f.children p) :
    AgreesBut root lost f' where
  members p c hmem := by
    rw [hchildren] at hmem
    rw [hlive, hlive, hparent]
    exact h.members p c hmem
  listed c hc := by
    rw [hlive] at hc
    rw [hparent, hchildren]
    exact h.listed c hc
  nodup p := by
    rw [hchildren]
    exact h.nodup p
  orphans c hmem := by
    rw [hlive, hparent, hlive]
    exact h.orphans c hmem
  orphans_nodup := h.orphans_nodup
  descends c hc := (h.descends c ((hlive c).mp hc)).mono fun c => .inl (hparent c)

/-- A family without members. -/
theorem agrees_of_empty (hlive : ∀ c, ¬f.live c) (hchildren : ∀ p, f.children p = []) :
    Agrees root f where
  members p c hmem := by
    rw [hchildren] at hmem
    exact (not_mem_nil hmem).elim
  listed c hc := absurd hc (hlive c)
  nodup p := by
    rw [hchildren]
    exact nodup_nil
  orphans _ hmem := (not_mem_nil hmem).elim
  orphans_nodup := nodup_nil
  descends c hc := absurd hc (hlive c)

section Changes

variable [DecidableEq α]

/-- The root is added. -/
theorem Agrees.plant (h : Agrees root f) (hroot : ¬f.live root)
    (hlive : ∀ d, f'.live d ↔ f.live d ∨ d = root)
    (hchildren : ∀ p, f'.children p = if p = root then [] else f.children p) : Agrees root f' := by
  have hdead : ∀ d, ¬f.live d := fun d hd => hroot (h.live_root hd)
  have hempty : ∀ p, f'.children p = [] := by
    intro p
    rw [hchildren]
    split
    · rfl
    · refine eq_nil_iff_forall_not_mem.mpr fun c hmem => ?_
      exact hdead p (h.members p c hmem).1
  have honly : ∀ d, f'.live d → d = root := fun d hd =>
    ((hlive d).mp hd).resolve_left (hdead d)
  refine ⟨fun p c hmem => ?_, fun c hc hne _ => absurd (honly c hc) hne, fun p => ?_, nofun,
    nodup_nil, fun c hc => ?_⟩
  · rw [hempty] at hmem
    exact (not_mem_nil hmem).elim
  · rw [hempty]
    exact nodup_nil
  · rw [honly c hc]
    exact .root

/-- One list of children gets another child. -/
theorem mem_appended {l : α → List α} {q d : α} :
    d ∈ (if q = p then l q ++ [c] else l q) ↔ d ∈ l q ∨ q = p ∧ d = c := by
  split <;> simp [*]

theorem nodup_appended {l : α → List α} {q : α} (h : (l q).Nodup) (hc : c ∉ l q) :
    (if q = p then l q ++ [c] else l q).Nodup := by
  split
  · exact concat_eq_append ▸ h.concat hc
  · exact h

/-- A child is added. -/
theorem Agrees.insert (h : Agrees root f) (hp : f.live p) (hc : ¬f.live c)
    (hlive : ∀ d, f'.live d ↔ f.live d ∨ d = c)
    (hparent : ∀ d, f'.parent d = if d = c then p else f.parent d)
    (hchildren : ∀ q, f'.children q = if q = c then [] else
      if q = p then f.children q ++ [c] else f.children q) : Agrees root f' := by
  have hroot : c ≠ root := by
    rintro rfl
    exact hc (h.live_root hp)
  have hne : p ≠ c := by
    rintro rfl
    exact hc hp
  have hadded : ∀ q, f'.children q = if q = p then f.children q ++ [c] else f.children q := by
    intro q
    rw [hchildren]
    split
    · rename_i heq
      rw [heq, if_neg hne.symm, eq_comm, eq_nil_iff_forall_not_mem]
      exact fun d hmem => hc (h.members c d hmem).1
    · rfl
  have hold : ∀ d, f.live d → d ≠ c := by
    rintro d hd rfl
    exact hc hd
  refine ⟨fun q d hmem => ?_, fun d hd hdroot _ => ?_, fun q => ?_, nofun, nodup_nil,
    fun d hd => ?_⟩
  · rw [hadded] at hmem
    rcases mem_appended.mp hmem with hmem | ⟨rfl, rfl⟩
    · obtain ⟨hq, hd, hparent', hdq, hdroot⟩ := h.members q d hmem
      rw [hlive, hlive, hparent, if_neg (hold d hd)]
      exact ⟨.inl hq, .inl hd, hparent', hdq, hdroot⟩
    · rw [hlive, hlive, hparent, if_pos rfl]
      exact ⟨.inl hp, .inr rfl, rfl, hne.symm, hroot⟩
  · rw [hadded, mem_appended, hparent]
    rcases (hlive d).mp hd with hd | rfl
    · rw [if_neg (hold d hd)]
      exact .inl (h.listed d hd hdroot not_mem_nil)
    · rw [if_pos rfl]
      exact .inr ⟨rfl, rfl⟩
  · rw [hadded]
    exact nodup_appended (h.nodup q) (h.not_mem hc q)
  · -- the parents on the way to the root are members and stay the same
    have hway : ∀ d, f.Descends root d → f.live d → f'.Descends root d := by
      intro d hdesc
      induction hdesc with
      | root => exact fun _ => .root
      | @child d _ ih =>
        intro hd
        by_cases hdroot : d = root
        · exact hdroot ▸ .root
        · refine .child ?_
          rw [hparent, if_neg (hold d hd)]
          exact ih (h.parent_live hd hdroot not_mem_nil)
    rcases (hlive d).mp hd with hd | rfl
    · exact hway d (h.descends d hd) hd
    · refine .child ?_
      rw [hparent, if_pos rfl]
      exact hway p (h.descends p hp) hp

/-- A member is removed, and its children are lost. -/
theorem AgreesBut.remove (h : AgreesBut root lost f)
    (hlive : ∀ d, f'.live d ↔ f.live d ∧ d ≠ x) (hparent : ∀ d, f'.parent d = f.parent d)
    (hself : f'.children x = []) (hchildren : ∀ p, p ≠ x → f'.children p = (f.children p).erase x) :
    AgreesBut root ((f.children x).reverse ++ lost.erase x) f' := by
  have hmem_iff : ∀ q d, d ∈ f'.children q ↔ d ∈ f.children q ∧ q ≠ x ∧ d ≠ x := by
    intro q d
    by_cases hq : q = x
    · rw [hq, hself]
      exact ⟨fun hmem => (not_mem_nil hmem).elim, fun hmem => absurd rfl hmem.2.1⟩
    · rw [hchildren q hq, (h.nodup q).mem_erase_iff]
      exact ⟨fun ⟨hd, hmem⟩ => ⟨hmem, hq, hd⟩, fun ⟨hmem, _, hd⟩ => ⟨hd, hmem⟩⟩
  have hlost_iff : ∀ d, d ∈ (f.children x).reverse ++ lost.erase x ↔
      d ∈ f.children x ∨ d ≠ x ∧ d ∈ lost := by
    intro d
    rw [mem_append, mem_reverse, h.orphans_nodup.mem_erase_iff]
  refine ⟨fun q d hmem => ?_, fun d hd hroot hnot => ?_, fun q => ?_, fun d hmem => ?_, ?_,
    fun d hd => (h.descends d ((hlive d).mp hd).1).mono fun c => .inl (hparent c)⟩
  · obtain ⟨hmem, hq, hdx⟩ := (hmem_iff q d).mp hmem
    obtain ⟨hlq, hld, hrest⟩ := h.members q d hmem
    rw [hlive, hlive, hparent]
    exact ⟨⟨hlq, hq⟩, ⟨hld, hdx⟩, hrest⟩
  · obtain ⟨hd, hdx⟩ := (hlive d).mp hd
    rw [hlost_iff, not_or] at hnot
    have hmem := h.listed d hd hroot fun hmem => hnot.2 ⟨hdx, hmem⟩
    rw [hmem_iff, hparent]
    refine ⟨hmem, fun heq => hnot.1 ?_, hdx⟩
    rwa [heq] at hmem
  · by_cases hq : q = x
    · rw [hq, hself]
      exact nodup_nil
    · rw [hchildren q hq]
      exact (h.nodup q).erase x
  · rw [hlive, hparent, hlive]
    rcases (hlost_iff d).mp hmem with hmem | ⟨hdx, hmem⟩
    · obtain ⟨-, hd, hparent', hdx, hdroot⟩ := h.members x d hmem
      exact ⟨⟨hd, hdx⟩, hdroot, fun hp => hp.2 hparent'⟩
    · obtain ⟨hd, hdroot, hp⟩ := h.orphans d hmem
      exact ⟨⟨hd, hdx⟩, hdroot, fun hp' => hp hp'.1⟩
  · refine nodup_append.mpr ⟨nodup_reverse.mpr (h.nodup x), h.orphans_nodup.erase x, ?_⟩
    rintro d hd _ hmem rfl
    exact h.not_mem_of_lost (mem_of_mem_erase hmem) x (mem_reverse.mp hd)

/-- Someone who is lost is adopted by the root. -/
theorem AgreesBut.adopt (h : AgreesBut root (c :: lost) f) (hroot : f.live root)
    (hlive : ∀ d, f'.live d ↔ f.live d)
    (hparent : ∀ d, f'.parent d = if d = c then root else f.parent d)
    (hchildren : ∀ p, f'.children p = if p = root then f.children p ++ [c] else f.children p) :
    AgreesBut root lost f' := by
  obtain ⟨hc, hcroot, -⟩ := h.orphans c mem_cons_self
  have hnot := h.not_mem_of_lost (mem_cons_self (a := c))
  have hlost := nodup_cons.mp h.orphans_nodup
  refine ⟨fun q d hmem => ?_, fun d hd hdroot hdlost => ?_, fun q => ?_, fun d hmem => ?_, hlost.2,
    fun d hd => (h.descends d ((hlive d).mp hd)).mono fun e => ?_⟩
  · rw [hchildren] at hmem
    rw [hlive, hlive, hparent]
    rcases mem_appended.mp hmem with hold | ⟨rfl, rfl⟩
    · have hdc : d ≠ c := by
        rintro rfl
        exact hnot q hold
      rw [if_neg hdc]
      exact h.members q d hold
    · rw [if_pos rfl]
      exact ⟨hroot, hc, rfl, hcroot, hcroot⟩
  · rw [hchildren, mem_appended, hparent]
    split
    · rename_i heq
      exact .inr ⟨rfl, heq⟩
    · rename_i hdc
      refine .inl (h.listed d ((hlive d).mp hd) hdroot fun hmem => ?_)
      rcases mem_cons.mp hmem with heq | hmem
      · exact hdc heq
      · exact hdlost hmem
  · rw [hchildren]
    exact nodup_appended (h.nodup q) (hnot q)
  · have hdc : d ≠ c := by
      rintro rfl
      exact hlost.1 hmem
    rw [hlive, hlive, hparent, if_neg hdc]
    exact h.orphans d (mem_cons_of_mem c hmem)
  · rw [hparent]
    split
    · exact .inr rfl
    · exact .inl rfl

end Changes

end Family
