import Mathlib.Logic.Function.Basic

/-!
# Computations with Errors over a Surviving State

`Comp σ ε α` is the type of a computation that reads and writes a state `σ` and either
returns a value or stops with an error. As in C, stopping with an error does not undo
anything: the state reached so far is the state the caller sees.

`eval` runs a computation, the `eval_*` lemmas run its constructors, and `Post m s Q` says
that `Q` holds of the outcome and of the final state when `m` is started in `s`. The rules
`Post.pure`, `Post.throw`, `Post.bind` and `Post.mono` are the rules of pre- and
postconditions: a proof about a sequence is a proof about its first step followed by a
proof about the rest from every state the first step can reach.
-/

/-- A computation over the state `σ` that returns an `α` or stops with an `ε`; the state
survives the error. -/
abbrev Comp (σ ε α : Type) := ExceptT ε (StateM σ) α

namespace Comp

variable {σ ε α β : Type} {m : Comp σ ε α} {f : α → Comp σ ε β} {s s' : σ}
  {Q : Except ε β → σ → Prop}

/-- Run a computation from a state. -/
def eval (m : Comp σ ε α) (s : σ) : Except ε α × σ :=
  m.run.run s

/-- Run a computation and hand its outcome, error or not, to what follows: the C idiom
`err = f(); if (err == ...)`. -/
def attempt (m : Comp σ ε α) : Comp σ ε (Except ε α) :=
  ExceptT.mk (do let r ← m.run; pure (.ok r))

/-! ### Evaluation -/

@[simp] theorem eval_pure (a : α) (s : σ) : eval (pure a : Comp σ ε α) s = (.ok a, s) := rfl

@[simp] theorem eval_throw (e : ε) (s : σ) :
    eval (throw e : Comp σ ε α) s = (.error e, s) := rfl

@[simp] theorem eval_get (s : σ) : eval (get : Comp σ ε σ) s = (.ok s, s) := rfl

@[simp] theorem eval_set (s t : σ) : eval (set t : Comp σ ε PUnit) s = (.ok ⟨⟩, t) := rfl

@[simp] theorem eval_modify (f : σ → σ) (s : σ) :
    eval (modify f : Comp σ ε PUnit) s = (.ok ⟨⟩, f s) := rfl

@[simp] theorem eval_attempt (m : Comp σ ε α) (s : σ) :
    eval (attempt m) s = (.ok (eval m s).1, (eval m s).2) := rfl

/-- A sequence runs its first step and, unless that stopped, the rest from there. -/
theorem eval_bind (m : Comp σ ε α) (f : α → Comp σ ε β) (s : σ) :
    eval (m >>= f) s =
      match eval m s with
      | (.ok a, s') => eval (f a) s'
      | (.error e, s') => (.error e, s') := by
  simp only [eval, ExceptT.run_bind, StateT.run_bind]
  rcases m.run.run s with ⟨r, s'⟩
  cases r <;> rfl

@[simp] theorem eval_map (f : α → β) (m : Comp σ ε α) (s : σ) :
    eval (f <$> m) s = ((eval m s).1.map f, (eval m s).2) := by
  rw [← bind_pure_comp, eval_bind]
  rcases eval m s with ⟨r, s'⟩
  cases r <;> rfl

@[simp] theorem except_map_ok (f : α → β) (a : α) :
    Except.map f (.ok a : Except ε α) = .ok (f a) := rfl

@[simp] theorem except_map_error (f : α → β) (e : ε) :
    Except.map f (.error e : Except ε α) = .error e := rfl

theorem eval_bind_of_ok {a : α}
    (h : eval m s = (.ok a, s')) : eval (m >>= f) s = eval (f a) s' := by
  rw [eval_bind, h]

theorem eval_bind_of_error {e : ε}
    (h : eval m s = (.error e, s')) : eval (m >>= f) s = (.error e, s') := by
  rw [eval_bind, h]

theorem eval_get_bind (f : σ → Comp σ ε β) (s : σ) : eval (get >>= f) s = eval (f s) s := rfl

theorem eval_modify_bind (g : σ → σ) (f : PUnit → Comp σ ε β) (s : σ) :
    eval (modify g >>= f) s = eval (f ⟨⟩) (g s) := rfl

/-- A sequence succeeds when both of its steps do. -/
theorem eval_bind_eq_ok {b : β} :
    eval (m >>= f) s = (.ok b, s') ↔
      ∃ a s₁, eval m s = (.ok a, s₁) ∧ eval (f a) s₁ = (.ok b, s') := by
  rw [eval_bind]
  rcases hm : eval m s with ⟨r, s₁⟩
  cases r with
  | error e =>
    constructor
    · intro h
      cases h
    · rintro ⟨a, s₂, h, -⟩
      cases h
  | ok a =>
    constructor
    · intro h
      exact ⟨a, s₁, rfl, h⟩
    · rintro ⟨a', s₂, h, h'⟩
      cases h
      exact h'

/-- The outcome of a run that returns, from what it returns. -/
theorem eval_eq_of_toOption {a : α}
    (h : (eval m s).1.toOption = some a) : eval m s = (.ok a, (eval m s).2) := by
  rcases hm : eval m s with ⟨r, s'⟩
  rw [hm] at h
  cases r with
  | error e => cases h
  | ok b =>
    cases h
    rfl

theorem eval_ite {c : Prop} [Decidable c] (m n : Comp σ ε α) (s : σ) :
    eval (if c then m else n) s = if c then eval m s else eval n s := by
  split <;> rfl

/-! ### Postconditions -/

/-- Started in `s`, the computation ends with an outcome and a state that satisfy `Q`. -/
def Post (m : Comp σ ε α) (s : σ) (Q : Except ε α → σ → Prop) : Prop :=
  Q (eval m s).1 (eval m s).2

theorem Post.mono {Q Q' : Except ε α → σ → Prop}
    (h : Post m s Q) (hQ : ∀ r s', Q r s' → Q' r s') : Post m s Q' :=
  hQ _ _ h

/-- **The sequence rule**: the first step establishes `R`, every error it can stop with
satisfies the postcondition, and the rest establishes it from every state `R` allows. -/
theorem Post.bind {R : Except ε α → σ → Prop} (h : Post m s R)
    (herr : ∀ e s', R (.error e) s' → Q (.error e) s')
    (hok : ∀ a s', R (.ok a) s' → Post (f a) s' Q) : Post (m >>= f) s Q := by
  unfold Post at h ⊢
  rw [eval_bind]
  rcases hm : eval m s with ⟨r, s'⟩
  rw [hm] at h
  cases r with
  | error e => exact herr e s' h
  | ok a => exact hok a s' h

/-- The sequence rule for one assertion about the state that holds whatever the outcome is. -/
theorem Post.seq {I : σ → Prop}
    (h : Post m s fun _ s' => I s') (hok : ∀ a s', I s' → Post (f a) s' fun _ s'' => I s'') :
    Post (m >>= f) s fun _ s' => I s' :=
  h.bind (fun _ _ hI => hI) hok

theorem Post.get_bind {f : σ → Comp σ ε β} (h : Post (f s) s Q) : Post (get >>= f) s Q := h

theorem Post.modify_bind {g : σ → σ} {f : PUnit → Comp σ ε β}
    (h : Post (f ⟨⟩) (g s) Q) : Post (modify g >>= f) s Q := h

theorem Post.set_bind {f : PUnit → Comp σ ε β}
    (h : Post (f ⟨⟩) s' Q) : Post (set s' >>= f) s Q := h

theorem Post.ite {c : Prop} [Decidable c] {n : Comp σ ε α}
    {Q : Except ε α → σ → Prop} (hm : c → Post m s Q) (hn : ¬c → Post n s Q) :
    Post (if c then m else n) s Q := by
  split
  · exact hm ‹_›
  · exact hn ‹_›

/-! ### Frames -/

/-- Whatever the outcome, the computation leaves `f` of the state as it is. -/
def Keeps {τ : Type} (f : σ → τ) (m : Comp σ ε α) : Prop := ∀ s, f (eval m s).2 = f s

namespace Keeps

variable {τ : Type} {f : σ → τ} {m n : Comp σ ε α} {g : α → Comp σ ε β}

theorem pure {a : α} : Keeps f (Pure.pure a : Comp σ ε α) := fun _ => rfl

theorem throw {e : ε} : Keeps f (MonadExcept.throw e : Comp σ ε α) := fun _ => rfl

theorem of_eval (hm : Keeps f m) {r : Except ε α} (h : eval m s = (r, s')) :
    f s' = f s := by
  have hs := hm s
  rwa [h] at hs

/-- An error ends the computation: what would follow does not matter. -/
theorem throw_bind {e : ε} : Keeps f (MonadExcept.throw e >>= g : Comp σ ε β) := fun _ => rfl

theorem get : Keeps f (MonadState.get : Comp σ ε σ) := fun _ => rfl

theorem of_modify {h : σ → σ} (hh : ∀ s, f (h s) = f s) :
    Keeps f (modify h : Comp σ ε PUnit) := fun s => hh s

theorem bind (hm : Keeps f m) (hg : ∀ a, Keeps f (g a)) : Keeps f (m >>= g) := by
  intro s
  rw [eval_bind]
  have h := hm s
  rcases hres : eval m s with ⟨r, s'⟩
  rw [hres] at h
  cases r with
  | error e => exact h
  | ok a => exact (hg a s').trans h

theorem ite {c : Prop} [Decidable c] (hm : c → Keeps f m) (hn : ¬c → Keeps f n) :
    Keeps f (if c then m else n) := by
  split
  · exact hm ‹_›
  · exact hn ‹_›

end Keeps

end Comp
