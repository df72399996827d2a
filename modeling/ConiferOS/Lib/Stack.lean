import ConiferOS.Lib.ByteMemory

/-! # A stack of words

Words in a row, the first one at the lowest address. A stack grows towards lower addresses: a
push stores below the first word.
-/

namespace ConiferOS.Lib.Mem

/-- The words at `a`, at `a + 4` and so on. -/
def Words (m : Mem) : (a : BitVec 32) → List (BitVec 32) → Prop
  | _, [] => True
  | a, w :: ws => m.load32 a = w ∧ m.Words (a + 4) ws

namespace Words

variable {m : Mem} {a b v : BitVec 32} {ws : List (BitVec 32)}

/-- A store behind the words and before the next round of addresses. -/
theorem store (words : m.Words a ws) (behind : 4 * ws.length ≤ (b - a).toNat)
    (fits : (b - a).toNat + 4 ≤ 2 ^ 32) : (m.store32 b v).Words a ws := by
  induction ws generalizing a with
  | nil => exact trivial
  | cons w ws ih =>
      rw [List.length_cons] at behind
      refine ⟨?_, ih words.2 ?_ ?_⟩
      · rw [load32_store32_apart (by bv_omega) (by bv_omega)]
        exact words.1
      all_goals bv_omega

/-- Only the bytes of the words matter. -/
theorem congr {m' : Mem} (words : m.Words a ws) (fits : 4 * ws.length ≤ 2 ^ 32)
    (same : ∀ x, (x - a).toNat < 4 * ws.length → m' x = m x) : m'.Words a ws := by
  induction ws generalizing a with
  | nil => exact trivial
  | cons w ws ih =>
      rw [List.length_cons] at fits same
      refine ⟨?_, ih words.2 (by omega) fun x near => same x (by bv_omega)⟩
      rw [← words.1]
      exact load32_congr fun x near => same x (by omega)

theorem push (words : m.Words a ws) (fits : 4 * ws.length + 4 ≤ 2 ^ 32) :
    (m.store32 (a - 4) v).Words (a - 4) (v :: ws) := by
  refine ⟨load32_store32_self m (a - 4) v, ?_⟩
  rw [BitVec.sub_add_cancel]
  exact words.store (by bv_omega) (by bv_omega)

theorem get {i : Nat} {w : BitVec 32} (words : m.Words a ws) (found : ws[i]? = some w) :
    m.load32 (a + BitVec.ofNat 32 (4 * i)) = w := by
  induction ws generalizing a i with
  | nil => simp at found
  | cons first ws ih =>
      cases i with
      | zero =>
          obtain rfl : first = w := by simpa using found
          simpa using words.1
      | succ i =>
          have next := ih words.2 (by simpa using found)
          rwa [show a + BitVec.ofNat 32 (4 * (i + 1)) = a + 4 + BitVec.ofNat 32 (4 * i) by bv_omega]

theorem drop {first rest : List (BitVec 32)} (words : m.Words a (first ++ rest)) :
    m.Words (a + BitVec.ofNat 32 (4 * first.length)) rest := by
  induction first generalizing a with
  | nil => simpa using words
  | cons w first ih =>
      have later := ih words.2
      rwa [show a + BitVec.ofNat 32 (4 * (w :: first).length) =
        a + 4 + BitVec.ofNat 32 (4 * first.length) by rw [List.length_cons]; bv_omega]

end Words

end ConiferOS.Lib.Mem
