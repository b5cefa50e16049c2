import Mathlib.Logic.Relation

/-!
# Machines and Their Runs

A machine takes a step for an event, unless the event is not possible in its state. The runs
considered are those whose events all meet a condition, which may depend on the state before the
event; with the condition that is always true they are all runs of the machine.

`Machine.Run.invariant` is the rule for safety properties: what holds at the start and is kept by
each step holds in every state a run reaches.
-/

/-- A machine with states `σ` and events `ε`. -/
abbrev Machine (σ ε : Type) := σ → ε → Option σ

namespace Machine

open Option

variable {σ ε : Type} {m : Machine σ ε} {ok ok' : σ → ε → Prop} {s t u : σ}

/-- A step for some event that meets the condition. -/
def Step (m : Machine σ ε) (ok : σ → ε → Prop) (s t : σ) : Prop :=
  ∃ e, ok s e ∧ m s e = some t

/-- The runs whose events all meet the condition. -/
def Run (m : Machine σ ε) (ok : σ → ε → Prop) : σ → σ → Prop :=
  Relation.ReflTransGen (Step m ok)

/-- The condition that every event meets. -/
def Any : σ → ε → Prop := fun _ _ => True

/-- The state after the given events. -/
def exec (m : Machine σ ε) : σ → List ε → Option σ
  | s, [] => some s
  | s, e :: es => (m s e).bind fun t => exec m t es

/-- The state after the given events if all of them are possible. -/
def after (m : Machine σ ε) (s : σ) (es : List ε) : σ := (m.exec s es).getD s

/-- **The invariant rule.** -/
theorem Run.invariant {P : σ → Prop} (hrun : Run m ok s t) (h : P s)
    (hstep : ∀ s e t, P s → ok s e → m s e = some t → P t) : P t := by
  induction hrun with
  | refl => exact h
  | tail _ hlast ih =>
    obtain ⟨e, hok, he⟩ := hlast
    exact hstep _ e _ ih hok he

/-- Every event meets the condition when its turn comes. -/
def Meets (m : Machine σ ε) (ok : σ → ε → Prop) : σ → List ε → Prop
  | _, [] => True
  | s, e :: es => ok s e ∧ Meets m ok ((m s e).getD s) es

/-- Events that are possible one after the other and meet the condition make a run. -/
theorem run_of_meets {es : List ε} (h : (exec m s es).isSome = true) (hok : Meets m ok s es) :
    Run m ok s (after m s es) := by
  obtain ⟨t, ht⟩ := isSome_iff_exists.mp h
  rw [after, ht, getD_some]
  clear h
  induction es generalizing s with
  | nil =>
    obtain rfl : s = t := some.inj ht
    exact .refl
  | cons e es ih =>
    obtain ⟨u, hu, hrest⟩ := bind_eq_some_iff.mp ht
    obtain ⟨hfirst, hlater⟩ := hok
    rw [hu, getD_some] at hlater
    exact .head ⟨e, hfirst, hu⟩ (ih hlater hrest)

theorem meets_any (es : List ε) : Meets m Any s es := by
  induction es generalizing s with
  | nil => exact trivial
  | cons e es ih => exact ⟨trivial, ih⟩

theorem run_after {es : List ε} (h : (exec m s es).isSome = true) : Run m Any s (after m s es) :=
  run_of_meets h (meets_any es)

end Machine
