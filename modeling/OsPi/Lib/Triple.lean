import Mathlib
import OsPi.Lib.Comp

/-!
# Triples for Computations

`Comp σ ε α` with the weakest preconditions and triples of the standard library. The verification
condition generator knows the constructors of a computation; here it learns `attempt`, and the
two ways between a triple and the outcome `eval` computes.
-/

open Std.Do

namespace Comp

variable {σ ε α : Type} {m : Comp σ ε α} {P : α → σ → Prop} {E : ε → σ → Prop}

/-- The weakest precondition of a computation is its postcondition at the outcome. -/
theorem wp_eq (m : Comp σ ε α) (Q : PostCond α (.except ε (.arg σ .pure))) (s : σ) :
    wp⟦m⟧ Q s = match m.eval s with
      | (.ok a, s') => Q.1 a s'
      | (.error e, s') => Q.2.1 e s' := by
  rcases h : m.eval s with ⟨r, s'⟩
  have hrun : (StateT.run (ExceptT.run m) s).run = (r, s') := h
  cases r <;> simp [WP.wp, hrun]

/-- A triple about one starting state says what `eval` computes from it. -/
theorem eval_of_triple {s : σ}
    (h : ⦃fun s' => ⌜s' = s⌝⦄ m ⦃post⟨fun a s' => ⌜P a s'⌝, fun e s' => ⌜E e s'⌝⟩⦄) :
    match m.eval s with
      | (.ok a, s') => P a s'
      | (.error e, s') => E e s' := by
  have hs := h s rfl
  rw [wp_eq] at hs
  rcases hm : m.eval s with ⟨r, s'⟩
  rw [hm] at hs
  cases r <;> exact hs

/-- What `eval` computes from every state is a triple. -/
theorem triple_of_eval {s : σ}
    (h : match m.eval s with
      | (.ok a, s') => P a s'
      | (.error e, s') => E e s') :
    ⦃fun s' => ⌜s' = s⌝⦄ m ⦃post⟨fun a s' => ⌜P a s'⌝, fun e s' => ⌜E e s'⌝⟩⦄ := by
  rintro s' rfl
  rw [wp_eq]
  rcases hm : m.eval s' with ⟨r, s₁⟩
  rw [hm] at h
  cases r <;> exact h

/-- A triple about one starting state, together with the outcome `eval` computes. -/
theorem triple_and_eval {s : σ}
    (h : ⦃fun s' => ⌜s' = s⌝⦄ m ⦃post⟨fun a s' => ⌜P a s'⌝, fun e s' => ⌜E e s'⌝⟩⦄) :
    ⦃fun s' => ⌜s' = s⌝⦄ m
    ⦃post⟨fun a s' => ⌜P a s' ∧ m.eval s = (.ok a, s')⌝,
      fun e s' => ⌜E e s' ∧ m.eval s = (.error e, s')⌝⟩⦄ := by
  have hs := eval_of_triple h
  refine triple_of_eval ?_
  rcases hm : m.eval s with ⟨r, s'⟩
  rw [hm] at hs
  cases r <;> exact ⟨hs, rfl⟩

@[spec] theorem attempt_spec (m : Comp σ ε α)
    (Q : PostCond (Except ε α) (.except ε (.arg σ .pure))) :
    ⦃wp⟦m⟧ (fun a => Q.1 (.ok a), fun e => Q.1 (.error e), ())⦄ Comp.attempt m ⦃Q⦄ := by
  intro s h
  rw [wp_eq] at h ⊢
  rw [eval_attempt]
  rcases hm : m.eval s with ⟨r, s'⟩
  rw [hm] at h
  cases r <;> exact h

end Comp
