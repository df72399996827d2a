import ConiferOS.Lib.Run

/-! # What one user of a shared machine sees

A machine answers every call. If the calls of others never change what a user's own calls
depend on, the user's answers are those of a run in which the others do not take part.
The two states need only look alike to that user.
-/

namespace ConiferOS.Lib.Run

variable {σ α β : Type*} (call : σ → α → β × σ) (mine : α → Bool)

def next (s : σ) (op : α) : σ := (call s op).2

/-- The answers to the user's own calls. -/
def observe : σ → List α → List β
  | _, [] => []
  | s, op :: ops =>
      if mine op then (call s op).1 :: observe (call s op).2 ops else observe (call s op).2 ops

/-- `Alike` is kept by the user's calls on both sides, with the same answers, and by the
    calls of others on the one side. -/
theorem observe_filter (Alike : σ → σ → Prop) {Legal : σ → α → Prop}
    (own : ∀ s t op, Alike s t → Legal s op → mine op = true →
      (call s op).1 = (call t op).1 ∧ Alike (call s op).2 (call t op).2)
    (others : ∀ s t op, Alike s t → Legal s op → mine op = false → Alike (call s op).2 t) :
    ∀ {ops : List α} {s t : σ}, Alike s t → Always (next call) Legal s ops →
      observe call mine s ops = observe call mine t (ops.filter mine) := by
  intro ops
  induction ops with
  | nil => exact fun _ _ => rfl
  | cons op ops ih =>
      rintro s t alike ⟨here, later⟩
      cases user : mine op with
      | true =>
          obtain ⟨answer, after⟩ := own s t op alike here user
          rw [List.filter_cons_of_pos user, observe, observe, if_pos user, if_pos user, answer,
            ih after later]
      | false =>
          have other : ¬ mine op = true := by rw [user]; exact Bool.false_ne_true
          rw [List.filter_cons_of_neg other, observe, if_neg other,
            ih (others s t op alike here user) later]

end ConiferOS.Lib.Run
