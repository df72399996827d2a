import Mathlib.Logic.Basic

/-! # Runs of a labelled machine

A machine is a total step function on states; a run is a list of labels. `Always`
says that every step of a run satisfies a property of the state it is taken from
and of its label, which is how a side condition on calls is attached to a run.
-/

namespace ConiferOS.Lib.Run

variable {σ α : Type*} (step : σ → α → σ)

/-- The state a run ends in. -/
def final (s : σ) (ops : List α) : σ := ops.foldl step s

/-- Every step of the run satisfies `P` where it is taken. -/
def Always (P : σ → α → Prop) : σ → List α → Prop
  | _, [] => True
  | s, op :: ops => P s op ∧ Always P (step s op) ops

variable {step}

@[simp] theorem final_nil (s : σ) : final step s [] = s := rfl

@[simp] theorem final_cons (s : σ) (op : α) (ops : List α) :
    final step s (op :: ops) = final step (step s op) ops := rfl

theorem final_append (s : σ) (ops ops' : List α) :
    final step s (ops ++ ops') = final step (final step s ops) ops' := List.foldl_append

instance Always.decidable {P : σ → α → Prop} [∀ s op, Decidable (P s op)] :
    ∀ (s : σ) (ops : List α), Decidable (Always step P s ops)
  | _, [] => inferInstanceAs (Decidable True)
  | s, op :: ops => @instDecidableAnd _ _ inferInstance (Always.decidable (step s op) ops)

theorem Always.of_forall {P : σ → α → Prop} (holds : ∀ s op, P s op) (s : σ) (ops : List α) :
    Always step P s ops := by
  induction ops generalizing s with
  | nil => exact trivial
  | cons op ops ih => exact ⟨holds s op, ih _⟩

/-- Two side conditions that agree at every step agree on every run. -/
theorem Always.congr {P Q : σ → α → Prop} (agree : ∀ s op, P s op ↔ Q s op) (s : σ)
    (ops : List α) : Always step P s ops ↔ Always step Q s ops := by
  induction ops generalizing s with
  | nil => exact Iff.rfl
  | cons op ops ih => exact and_congr (agree s op) (ih _)

theorem always_append {P : σ → α → Prop} {ops ops' : List α} {s : σ} :
    Always step P s (ops ++ ops') ↔ Always step P s ops ∧ Always step P (final step s ops) ops' := by
  induction ops generalizing s with
  | nil => exact (iff_of_eq (true_and _)).symm
  | cons op ops ih => exact (and_congr_right fun _ => ih).trans and_assoc.symm

/-- An invariant that every allowed step keeps holds at the end of every allowed run. -/
theorem Always.invariant (Inv : σ → Prop) {P : σ → α → Prop}
    (keeps : ∀ s op, Inv s → P s op → Inv (step s op)) :
    ∀ {ops : List α} {s : σ}, Inv s → Always step P s ops → Inv (final step s ops) := by
  intro ops
  induction ops with
  | nil => exact fun inv _ => inv
  | cons op ops ih => exact fun inv run => ih (keeps _ op inv run.1) run.2

/-- Every step of an allowed run has a property that follows from the invariant. -/
theorem Always.imp_of_invariant (Inv : σ → Prop) {P Q : σ → α → Prop}
    (keeps : ∀ s op, Inv s → P s op → Inv (step s op) ∧ Q s op) :
    ∀ {ops : List α} {s : σ}, Inv s → Always step P s ops → Always step Q s ops := by
  intro ops
  induction ops with
  | nil => exact fun _ _ => trivial
  | cons op ops ih =>
      rintro s inv ⟨here, later⟩
      obtain ⟨inv, holds⟩ := keeps s op inv here
      exact ⟨holds, ih inv later⟩

/-- On legal runs two side conditions agree when they agree at every legal step from a
    state of the invariant, and the second one keeps the invariant. -/
theorem Always.iff_of_invariant (Inv : σ → Prop) {Legal P Q : σ → α → Prop}
    (agree : ∀ s op, Inv s → Legal s op → (P s op ↔ Q s op))
    (keeps : ∀ s op, Inv s → Legal s op → Q s op → Inv (step s op)) :
    ∀ {ops : List α} {s : σ}, Inv s → Always step Legal s ops →
      (Always step P s ops ↔ Always step Q s ops) := by
  intro ops
  induction ops with
  | nil => exact fun _ _ => Iff.rfl
  | cons op ops ih =>
      rintro s inv ⟨here, later⟩
      constructor
      · rintro ⟨first, rest⟩
        have first := (agree s op inv here).mp first
        exact ⟨first, (ih (keeps s op inv here first) later).mp rest⟩
      · rintro ⟨first, rest⟩
        exact ⟨(agree s op inv here).mpr first, (ih (keeps s op inv here first) later).mpr rest⟩

/-- A run that is not allowed has a first step that is not. -/
theorem Always.exists_first {P : σ → α → Prop} :
    ∀ {ops : List α} {s : σ}, ¬ Always step P s ops →
      ∃ before op after, ops = before ++ op :: after ∧ Always step P s before ∧
        ¬ P (final step s before) op := by
  intro ops
  induction ops with
  | nil => exact fun not => absurd trivial not
  | cons op ops ih =>
      intro s not
      by_cases here : P s op
      · obtain ⟨before, op', after, rfl, allowed, forbidden⟩ := ih fun later => not ⟨here, later⟩
        exact ⟨op :: before, op', after, rfl, ⟨here, allowed⟩, forbidden⟩
      · exact ⟨[], op, ops, rfl, trivial, here⟩

/-- Two machines over the same labels stay related along every allowed run when each allowed
    step keeps the relation. -/
theorem Always.final_related {τ : Type*} {stepA : τ → α → τ} (R : σ → τ → Prop) {P : τ → α → Prop}
    (keeps : ∀ s t op, R s t → P t op → R (step s op) (stepA t op)) :
    ∀ {ops : List α} {s : σ} {t : τ}, R s t → Always stepA P t ops →
      R (final step s ops) (final stepA t ops) := by
  intro ops
  induction ops with
  | nil => exact fun related _ => related
  | cons op ops ih => exact fun related run => ih (keeps _ _ op related run.1) run.2

/-- Two machines over the same labels stay related along every run when each step
    keeps the relation. -/
theorem final_related {τ : Type*} {stepA : τ → α → τ} (R : σ → τ → Prop)
    (keeps : ∀ s t op, R s t → R (step s op) (stepA t op)) :
    ∀ {ops : List α} {s : σ} {t : τ}, R s t → R (final step s ops) (final stepA t ops) := by
  intro ops
  induction ops with
  | nil => exact fun related => related
  | cons op ops ih => exact fun related => ih (keeps _ _ op related)

end ConiferOS.Lib.Run
