import ConiferOS.Lib.ForwardCopy
import ConiferOS.Memory.Strings

/-! # What `strncpy` reads and writes

`strncpy` with a trace of the addresses it writes, for any source: one that is longer than
the bound, or that the copy itself overwrites.
-/

namespace ConiferOS

open Lib Lib.ForwardCopy

/-- `memset`. -/
def Trace.fill (t : Trace) (a : Word) (n : Nat) (v : Byte) : Trace :=
  ⟨t.mem.fill a n v, (List.range n).map (fun i => a + BitVec.ofNat 32 i) ++ t.written⟩

theorem Trace.mem_written_fill {t : Trace} {a x : Word} {n : Nat} {v : Byte} :
    x ∈ (t.fill a n v).written ↔ (∃ i < n, x = a + BitVec.ofNat 32 i) ∨ x ∈ t.written := by
  simp only [fill, List.mem_append, List.mem_map, List.mem_range, @eq_comm _ x]

def strncpyTraceLoop (view : Word → Word) (dest src : Word) : (remaining i : Nat) → Trace → Trace
  | 0, i, t => t.store8 (view (dest + BitVec.ofNat 32 i)) 0
  | remaining + 1, i, t =>
      let c := t.mem (view (src + BitVec.ofNat 32 i))
      if c = 0 then t.store8 (view (dest + BitVec.ofNat 32 i)) 0
      else strncpyTraceLoop view dest src remaining (i + 1)
        (t.store8 (view (dest + BitVec.ofNat 32 i)) c)

def strncpyTrace (view : Word → Word) (t : Trace) (dest src : Word) (n : Nat) : Trace :=
  strncpyTraceLoop view dest src n 0 t

theorem strncpyTraceLoop_mem (view : Word → Word) (dest src : Word) (remaining i : Nat) (t : Trace) :
    (strncpyTraceLoop view dest src remaining i t).mem = strncpyLoop view dest src remaining i t.mem := by
  induction remaining generalizing i t with
  | zero => rfl
  | succ remaining ih =>
      simp only [strncpyTraceLoop, strncpyLoop]
      split
      case isTrue => rfl
      case isFalse => exact ih (i + 1) _

@[simp] theorem strncpyTrace_mem (view : Word → Word) (t : Trace) (dest src : Word) (n : Nat) :
    (strncpyTrace view t dest src n).mem = strncpy view t.mem dest src n :=
  strncpyTraceLoop_mem view dest src n 0 t

/-- Nothing that was written is forgotten. -/
theorem strncpyTraceLoop_written (view : Word → Word) (dest src : Word) (remaining i : Nat) (t : Trace) :
    t.written ⊆ (strncpyTraceLoop view dest src remaining i t).written := by
  induction remaining generalizing i t with
  | zero => exact List.subset_cons_self _ _
  | succ remaining ih =>
      simp only [strncpyTraceLoop]
      split
      case isTrue => exact List.subset_cons_self _ _
      case isFalse => exact fun x member => ih (i + 1) _ (List.mem_cons_of_mem _ member)

theorem strncpyTrace_written (view : Word → Word) (t : Trace) (dest src : Word) (n : Nat) :
    t.written ⊆ (strncpyTrace view t dest src n).written :=
  strncpyTraceLoop_written view dest src n 0 t

/-- The copy took `length` bytes and put a zero behind them. -/
structure Strncpied (view : Word → Word) (t t' : Trace) (dest src : Word) (n length : Nat) : Prop where
  stops : Stops (seen view t.mem dest src) n length
  mem : t'.mem = (after view t.mem dest src length).store8 (dest + BitVec.ofNat 32 length) 0
  written : ∀ x, x ∈ t'.written ↔ x ∈ t.written ∨ ∃ j ≤ length, x = dest + BitVec.ofNat 32 j

section Strncpy

variable {view : Word → Word} {dest src : Word} {n : Nat}

/-- One more store behind `i` bytes. -/
theorem written_store8 {t t' : Trace} {i : Nat}
    (written : ∀ x, x ∈ t'.written ↔ x ∈ t.written ∨ ∃ j < i, x = dest + BitVec.ofNat 32 j) (v : Byte)
    (x : Word) : x ∈ (t'.store8 (dest + BitVec.ofNat 32 i) v).written ↔
      x ∈ t.written ∨ ∃ j < i + 1, x = dest + BitVec.ofNat 32 j := by
  rw [Trace.store8, List.mem_cons, written x]
  constructor
  · rintro (rfl | old | ⟨j, before, rfl⟩)
    · exact .inr ⟨i, Nat.lt_succ_self i, rfl⟩
    · exact .inl old
    · exact .inr ⟨j, by omega, rfl⟩
  · rintro (old | ⟨j, before, rfl⟩)
    · exact .inr (.inl old)
    · rcases Nat.lt_or_eq_of_le (Nat.le_of_lt_succ before) with earlier | rfl
      · exact .inr (.inr ⟨j, earlier, rfl⟩)
      · exact .inl rfl

/-- The last store. -/
theorem Strncpied.of_stop {t t' : Trace} {i : Nat} (stops : Stops (seen view t.mem dest src) n i)
    (mem : t'.mem = after view t.mem dest src i)
    (written : ∀ x, x ∈ t'.written ↔ x ∈ t.written ∨ ∃ j < i, x = dest + BitVec.ofNat 32 j) :
    Strncpied view t (t'.store8 (dest + BitVec.ofNat 32 i) 0) dest src n i where
  stops := stops
  mem := by rw [Trace.store8, mem]
  written := by simpa only [Nat.lt_succ_iff] using written_store8 written 0

/-- Induction on the bytes left; memory is what it is after the bytes so far. -/
theorem strncpyTraceLoop_spec (direct : Direct view dest n) (small : n < 2 ^ 32) (t : Trace) :
    ∀ (remaining i : Nat) (t' : Trace), i + remaining = n → t'.mem = after view t.mem dest src i →
      (∀ j < i, seen view t.mem dest src j ≠ 0) →
      (∀ x, x ∈ t'.written ↔ x ∈ t.written ∨ ∃ j < i, x = dest + BitVec.ofNat 32 j) →
      ∃ length, Strncpied view t (strncpyTraceLoop view dest src remaining i t') dest src n length := by
  intro remaining
  induction remaining with
  | zero =>
      intro i t' count mem chars written
      rw [strncpyTraceLoop, direct i (by omega)]
      exact ⟨i, .of_stop ⟨by omega, chars, by omega⟩ mem written⟩
  | succ remaining ih =>
      intro i t' count mem chars written
      have byte : t'.mem (view (src + BitVec.ofNat 32 i)) = seen view t.mem dest src i := by
        rw [mem, after_read]
      rw [strncpyTraceLoop, direct i (by omega), byte]
      split
      case isTrue zero => exact ⟨i, .of_stop ⟨by omega, chars, fun _ => zero⟩ mem written⟩
      case isFalse nonzero =>
        refine ih (i + 1) _ (by omega) ?_ ?_ ?_
        · rw [Trace.store8, mem]
          exact store8_after view t.mem dest src (by omega)
        · intro j before
          rcases Nat.lt_or_eq_of_le (Nat.le_of_lt_succ before) with earlier | rfl
          · exact chars j earlier
          · exact nonzero
        · exact written_store8 written _

theorem strncpyTrace_spec (direct : Direct view dest n) (small : n < 2 ^ 32) (t : Trace) (src : Word) :
    ∃ length, Strncpied view t (strncpyTrace view t dest src n) dest src n length :=
  strncpyTraceLoop_spec direct small t n 0 t (Nat.zero_add n) rfl
    (fun j before => absurd before (Nat.not_lt_zero j)) fun x => by simp

namespace Strncpied

variable {t t' : Trace} {length : Nat}

theorem byte (copied : Strncpied view t t' dest src n length) (small : n < 2 ^ 32) {j : Nat}
    (inside : j < length) : t'.mem (dest + BitVec.ofNat 32 j) = seen view t.mem dest src j := by
  have le := copied.stops.le
  rw [copied.mem, store8_of_ne 0 (by bv_omega), after_self inside (by omega)]

theorem terminated (copied : Strncpied view t t' dest src n length) :
    t'.mem (dest + BitVec.ofNat 32 length) = 0 := by
  rw [copied.mem, store8_self]

theorem frame (copied : Strncpied view t t' dest src n length) (small : n < 2 ^ 32) {x : Word}
    (outside : ∀ j ≤ length, x ≠ dest + BitVec.ofNat 32 j) : t'.mem x = t.mem x := by
  have le := copied.stops.le
  rw [copied.mem, store8_of_ne 0 (outside length le_rfl), after_of_le]
  by_contra inside
  exact outside (x - dest).toNat (by omega) (by bv_omega)

/-- The copy is a string. -/
theorem stringAt (copied : Strncpied view t t' dest src n length) (small : n < 2 ^ 32) :
    StringAt t'.mem id dest ((List.range length).map (seen view t.mem dest src)) :=
  .of_bytes (fun _ inside => copied.byte small inside) copied.stops.chars copied.terminated

end Strncpied

variable {m : Mem} {text : List Byte}

/-- Where a copy of a string stops. -/
theorem stops_text (source : StringAt m view src text) (n : Nat) :
    Stops (fun i => m (view (src + BitVec.ofNat 32 i))) n (min n text.length) where
  le := min_le_left n _
  chars := by
    intro i inside
    simp only [source.byte i (by omega)]
    exact source.nonzero _ (List.getElem_mem _)
  zero := by
    intro short
    have whole : min n text.length = text.length := by omega
    simp only [whole, source.terminator]

/-- `strncpy` copies at most `n` bytes of a string and terminates the copy. -/
theorem strncpy_text (direct : Direct view dest n) (small : n < 2 ^ 32)
    (source : StringAt m view src text)
    (apart : ∀ k ≤ text.length, ∀ j ≤ n,
      view (src + BitVec.ofNat 32 k) ≠ dest + BitVec.ofNat 32 j) :
    StringAt (strncpy view m dest src n) id dest (text.take n) ∧
      ∀ x, (∀ j ≤ (text.take n).length, x ≠ dest + BitVec.ofNat 32 j) →
        strncpy view m dest src n x = m x := by
  have seen_eq : ∀ i ≤ text.length, i < n → seen view m dest src i = m (view (src + BitVec.ofNat 32 i)) :=
    fun i inside before => seen_of_apart fun j earlier => apart i inside j (by omega)
  obtain ⟨length, copied⟩ := strncpyTrace_spec direct small ⟨m, []⟩ src
  have stops := (stops_text source n).congr fun i inside before => seen_eq i (by omega) before
  obtain rfl := copied.stops.unique stops
  have bytes : (List.range (min n text.length)).map (seen view m dest src) = text.take n := by
    refine List.ext_getElem (by simp) fun i inside _ => ?_
    simp only [List.length_map, List.length_range] at inside
    simp only [List.getElem_map, List.getElem_range, List.getElem_take]
    rw [seen_eq i (by omega) (by omega), source.byte i (by omega)]
  have result := copied.stringAt small
  rw [strncpyTrace_mem, bytes] at result
  refine ⟨result, fun x outside => ?_⟩
  rw [← strncpyTrace_mem view ⟨m, []⟩, copied.frame small fun j inside => outside j ?_]
  rwa [List.length_take]

end Strncpy

end ConiferOS
