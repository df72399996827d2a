import Mathlib.Logic.Basic

/-! # Computations that may fault

A computation on a state returns a value and the next state, or stops with a fault.
`Ensures` says what holds if it returns, `Yields` says that it does. Both are proved one
step after the other.
-/

namespace ConiferOS.Lib

abbrev Prog (ε σ : Type) := StateT σ (Except ε)

namespace Prog

variable {ε σ α β : Type} {x : Prog ε σ α} {f : α → Prog ε σ β} {s : σ}

def Ensures (x : Prog ε σ α) (s : σ) (post : α → σ → Prop) : Prop :=
  ∀ a s', x.run s = .ok (a, s') → post a s'

def Yields (x : Prog ε σ α) (s : σ) (post : α → σ → Prop) : Prop :=
  ∃ a s', x.run s = .ok (a, s') ∧ post a s'

theorem run_bind_eq_ok {r : β × σ} :
    (x >>= f).run s = .ok r ↔ ∃ a s', x.run s = .ok (a, s') ∧ (f a).run s' = .ok r := by
  rw [StateT.run_bind]
  cases first : x.run s with
  | error e => simp [bind, Except.bind]
  | ok p =>
      constructor
      · exact fun later => ⟨p.1, p.2, rfl, later⟩
      · rintro ⟨a, s', here, later⟩
        cases here
        exact later

/-- A step that returns is taken. -/
theorem run_bind_of_ok {a : α} {s' : σ} (first : x.run s = .ok (a, s')) :
    (x >>= f).run s = (f a).run s' := by
  rw [StateT.run_bind, first]
  rfl

section Rules

variable {post : α → σ → Prop} {after : β → σ → Prop}

theorem Ensures.pure {a : α} (holds : post a s) : Ensures (Pure.pure a : Prog ε σ α) s post := by
  intro b s' run
  cases run
  exact holds

theorem Ensures.bind (first : Ensures x s post) (rest : ∀ a s', post a s' → Ensures (f a) s' after) :
    Ensures (x >>= f) s after := by
  intro b s' run
  obtain ⟨a, s₁, here, later⟩ := run_bind_eq_ok.mp run
  exact rest a s₁ (first a s₁ here) b s' later

/-- Nothing is asked of the first step. -/
theorem Ensures.next (rest : ∀ a s', Ensures (f a) s' after) : Ensures (x >>= f) s after := by
  intro b s' run
  obtain ⟨a, s₁, -, later⟩ := run_bind_eq_ok.mp run
  exact rest a s₁ b s' later

theorem Ensures.throw (e : ε) : Ensures (MonadExcept.throw e : Prog ε σ α) s post := by
  intro a s' run
  cases run

theorem Yields.pure {a : α} (holds : post a s) : Yields (Pure.pure a : Prog ε σ α) s post :=
  ⟨a, s, rfl, holds⟩

theorem Yields.bind (first : Yields x s post) (rest : ∀ a s', post a s' → Yields (f a) s' after) :
    Yields (x >>= f) s after := by
  obtain ⟨a, s₁, here, holds⟩ := first
  obtain ⟨b, s₂, later, holds⟩ := rest a s₁ holds
  exact ⟨b, s₂, run_bind_eq_ok.mpr ⟨a, s₁, here, later⟩, holds⟩

/-- A computation has one outcome. -/
theorem Yields.ensures (yields : Yields x s post) : Ensures x s post := by
  obtain ⟨a, s', run, holds⟩ := yields
  intro b s₁ run'
  cases run.symm.trans run'
  exact holds

/-- A computation that returns does so with what is known of its outcome. -/
theorem Ensures.yields (ensures : Ensures x s post) (returns : Yields x s fun _ _ => True) :
    Yields x s post := by
  obtain ⟨a, s', run, -⟩ := returns
  exact ⟨a, s', run, ensures a s' run⟩

end Rules

end Prog

end ConiferOS.Lib
