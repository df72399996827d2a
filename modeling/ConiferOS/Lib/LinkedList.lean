import Mathlib.Data.List.Basic

/-! # Doubly linked lists

Nodes are the values of an arbitrary type, and two functions give the links of a
node. `Linked` says that the links follow a given list of nodes, between a node
before it and a node after it; either of them may be the null node.
-/

namespace ConiferOS.Lib

variable {α : Type*} {next prev next' prev' : α → α}

/-- Each node points back to the one before it and forward to the one after it. -/
def Linked (next prev : α → α) : (before : α) → List α → (after : α) → Prop
  | _, [], _ => True
  | before, x :: xs, after =>
      prev x = before ∧ next x = xs.headD after ∧ Linked next prev x xs after

/-- The nodes met by following `next` until the null node, `fuel` of them at most. -/
def visit [DecidableEq α] (next : α → α) (null : α) : (fuel : Nat) → α → List α
  | 0, _ => []
  | fuel + 1, x => if x = null then [] else x :: visit next null fuel (next x)

namespace Linked

/-- Only the links of the listed nodes matter. -/
theorem congr {xs : List α} (agree : ∀ x ∈ xs, next' x = next x ∧ prev' x = prev x)
    {before after : α} (linked : Linked next prev before xs after) :
    Linked next' prev' before xs after := by
  induction xs generalizing before with
  | nil => trivial
  | cons x xs ih =>
      obtain ⟨back, forth, rest⟩ := linked
      obtain ⟨sameNext, samePrev⟩ := agree x List.mem_cons_self
      exact ⟨samePrev.trans back, sameNext.trans forth,
        ih (fun y member => agree y (List.mem_cons_of_mem x member)) rest⟩

theorem append_iff (xs ys : List α) (before after : α) :
    Linked next prev before (xs ++ ys) after ↔
      Linked next prev before xs (ys.headD after) ∧
        Linked next prev (xs.getLastD before) ys after := by
  induction xs generalizing before with
  | nil => simp [Linked]
  | cons x xs ih =>
      have head : (xs ++ ys).headD after = xs.headD (ys.headD after) := by
        cases xs <;> rfl
      simp only [List.cons_append, Linked, ih, head, List.getLastD_cons, and_assoc]

/-- The links of the last node. -/
theorem concat_iff (xs : List α) (x before after : α) :
    Linked next prev before (xs ++ [x]) after ↔
      Linked next prev before xs x ∧ prev x = xs.getLastD before ∧ next x = after := by
  rw [append_iff]
  simp [Linked]

theorem isChain {xs : List α} {before after : α} (linked : Linked next prev before xs after) :
    xs.IsChain fun x y => next x = y ∧ prev y = x := by
  induction xs generalizing before with
  | nil => exact List.IsChain.nil
  | cons x xs ih =>
      obtain ⟨-, forth, rest⟩ := linked
      cases xs with
      | nil => exact List.IsChain.singleton x
      | cons y ys => exact List.IsChain.cons_cons ⟨forth, rest.1⟩ (ih rest)

theorem next_getD {xs : List α} {before after : α} (linked : Linked next prev before xs after)
    (default : α) {i : Nat} (inside : i < xs.length) :
    next (xs.getD i default) = xs.getD (i + 1) after := by
  induction xs generalizing before i with
  | nil => simp at inside
  | cons x xs ih =>
      obtain ⟨-, forth, rest⟩ := linked
      cases i with
      | zero => simpa [List.head?_eq_getElem?] using forth
      | succ i => simpa using ih rest (by simpa using inside)

theorem visit_eq [DecidableEq α] {null : α} {xs : List α} (nonnull : null ∉ xs) {before : α}
    (linked : Linked next prev before xs null) {fuel : Nat} (enough : xs.length ≤ fuel) :
    visit next null fuel (xs.headD null) = xs := by
  induction xs generalizing before fuel with
  | nil => cases fuel <;> simp [visit]
  | cons x xs ih =>
      obtain ⟨-, forth, rest⟩ := linked
      simp only [List.mem_cons, not_or] at nonnull
      cases fuel with
      | zero => simp at enough
      | succ fuel =>
          simp only [List.headD_cons, visit, if_neg (Ne.symm nonnull.1), forth]
          rw [ih nonnull.2 rest (by simpa using enough)]

end Linked

end ConiferOS.Lib
