import ConiferOS.Config
import ConiferOS.Lib.Page

/-! # Flat page maps

What page tables are for: one 32-bit entry for each of the `2^20` pages of an
address space. Calls are accepted or rejected as a whole, and a rejected call
changes nothing.
-/

namespace ConiferOS

open Lib

/-- The entry of every page of an address space. -/
abbrev PageMap := BitVec 20 → Word

namespace PageMap

/-- Every page maps to the frame of the same number. -/
def linear (flags : BitVec 8) : PageMap := fun v => Page.base v ||| flags.setWidth 32

def set (map : PageMap) (v : BitVec 20) (entry : Word) : PageMap := Function.update map v entry

/-- Consecutive pages from `v` get consecutive frames from `phys`; page numbers and
    frames wrap. -/
def mapRange (map : PageMap) (v : BitVec 20) (phys prot : Word) : Nat → PageMap
  | 0 => map
  | n + 1 => (mapRange map v phys prot n).set (v + BitVec.ofNat 20 n)
      ((phys + BitVec.ofNat 32 (4096 * n)) ||| prot)

/-- The physical address a virtual address translates to. -/
def translate (map : PageMap) (va : Word) : Word :=
  (map (Page.number va) &&& Page.frameMask) + BitVec.ofNat 32 (va.toNat % 4096)

theorem translate_linear (flags : BitVec 8) (va : Word) : (linear flags).translate va = va := by
  have aligned : (Page.base (Page.number va)).toNat % 4096 = 0 := by
    rw [Page.toNat_base]
    omega
  have low : (flags.setWidth 32).toNat < 4096 := by
    have := flags.isLt
    rw [BitVec.toNat_setWidth]
    omega
  rw [translate, linear, Page.or_and_frameMask aligned low]
  apply BitVec.eq_of_toNat_eq
  rw [BitVec.toNat_add, Page.toNat_base, Page.toNat_number, BitVec.toNat_ofNat]
  omega

theorem mapRange_head (map : PageMap) (v : BitVec 20) (phys prot : Word) (n : Nat) :
    map.mapRange v phys prot (n + 1) =
      (map.set v (phys ||| prot)).mapRange (v + 1) (phys + 4096) prot n := by
  induction n with
  | zero => simp [mapRange]
  | succ n ih =>
      have page : v + 1 + BitVec.ofNat 20 n = v + BitVec.ofNat 20 (n + 1) := by bv_omega
      have frame : phys + 4096 + BitVec.ofNat 32 (4096 * n) =
          phys + BitVec.ofNat 32 (4096 * (n + 1)) := by bv_omega
      rw [mapRange, ih, mapRange, page, frame]

/-- What a page maps to afterwards; a range has at most as many pages as there are. -/
theorem mapRange_apply (map : PageMap) (v : BitVec 20) (phys prot : Word) {n : Nat}
    (bound : n ≤ 2 ^ 20) (page : BitVec 20) :
    map.mapRange v phys prot n page =
      if (page - v).toNat < n then (phys + BitVec.ofNat 32 (4096 * (page - v).toNat)) ||| prot
      else map page := by
  induction n with
  | zero => rfl
  | succ n ih =>
      rw [mapRange, set, Function.update_apply, ih (by omega)]
      by_cases last : page = v + BitVec.ofNat 20 n
      · have distance : (page - v).toNat = n := by bv_omega
        rw [if_pos last, if_pos (by omega), distance]
      · have distance : (page - v).toNat ≠ n := by bv_omega
        rw [if_neg last]
        exact if_congr (by omega) rfl rfl

end PageMap

/-- The calls that change page tables, with the arguments of the C functions. -/
inductive PageCall where
  | set (virtAddr val : Word)
  | mapRange (virtAddr physAddr : Word) (numPages : Int) (pgProt : Word)
  | createMapping (virtAddr physAddr physEndAddr pgProt : Word)

namespace PageCall

/-- When a call succeeds. -/
def Accepted : PageCall → Prop
  | set virtAddr _ => virtAddr.toNat % 4096 = 0
  | mapRange virtAddr physAddr _ _ => virtAddr.toNat % 4096 = 0 ∧ physAddr.toNat % 4096 = 0
  | createMapping virtAddr physAddr physEndAddr _ =>
      virtAddr.toNat % 4096 = 0 ∧ physAddr.toNat % 4096 = 0 ∧ physEndAddr.toNat % 4096 = 0 ∧
        physAddr.toNat ≤ physEndAddr.toNat

instance (call : PageCall) : Decidable call.Accepted :=
  match call with
  | set _ _ => inferInstanceAs (Decidable (_ = _))
  | mapRange _ _ _ _ => inferInstanceAs (Decidable (_ ∧ _))
  | createMapping _ _ _ _ => inferInstanceAs (Decidable (_ ∧ _))

/-- What a successful call does to the map. -/
def effect (map : PageMap) : PageCall → PageMap
  | set virtAddr val => map.set (Page.number virtAddr) val
  | mapRange virtAddr physAddr numPages pgProt =>
      map.mapRange (Page.number virtAddr) physAddr pgProt numPages.toNat
  | createMapping virtAddr physAddr physEndAddr pgProt =>
      map.mapRange (Page.number virtAddr) physAddr pgProt
        ((physEndAddr.toNat - physAddr.toNat) / 4096)

/-- One call on the flat map. -/
def apply (map : PageMap) (call : PageCall) : PageMap :=
  if call.Accepted then call.effect map else map

end PageCall

/-- `paging_create_mapping` on a flat map: the return code and the map. -/
def PageMap.createMapping (map : PageMap) (virtAddr physAddr physEndAddr pgProt : Word) :
    Int × PageMap :=
  let call := PageCall.createMapping virtAddr physAddr physEndAddr pgProt
  (if call.Accepted then 0 else -einvarg, call.apply map)

/-- A mapping that fails changes nothing. -/
theorem PageMap.createMapping_failed {map : PageMap} {virtAddr physAddr physEndAddr pgProt : Word}
    (failed : (map.createMapping virtAddr physAddr physEndAddr pgProt).1 < 0) :
    (map.createMapping virtAddr physAddr physEndAddr pgProt).2 = map := by
  simp only [createMapping, PageCall.apply] at failed ⊢
  split at failed
  · exact absurd failed (by decide)
  · rename_i rejected
    exact if_neg rejected

theorem PageMap.createMapping_rc (map : PageMap) {virtAddr physAddr physEndAddr pgProt : Word}
    (accepted : (PageCall.createMapping virtAddr physAddr physEndAddr pgProt).Accepted) :
    (map.createMapping virtAddr physAddr physEndAddr pgProt).1 = 0 :=
  if_pos accepted

theorem PageMap.createMapping_accepted {map : PageMap} {virtAddr physAddr physEndAddr pgProt : Word}
    (success : 0 ≤ (map.createMapping virtAddr physAddr physEndAddr pgProt).1) :
    (PageCall.createMapping virtAddr physAddr physEndAddr pgProt).Accepted := by
  by_contra rejected
  simp only [createMapping, if_neg rejected] at success
  exact absurd success (by decide)

/-- Page by page, what a successful mapping does. -/
theorem PageMap.createMapping_apply {map : PageMap} {virtAddr physAddr physEndAddr pgProt : Word}
    (success : 0 ≤ (map.createMapping virtAddr physAddr physEndAddr pgProt).1) (page : BitVec 20) :
    (map.createMapping virtAddr physAddr physEndAddr pgProt).2 page =
      if (page - Page.number virtAddr).toNat < (physEndAddr.toNat - physAddr.toNat) / 4096 then
        (physAddr + BitVec.ofNat 32 (4096 * (page - Page.number virtAddr).toNat)) ||| pgProt
      else map page := by
  have accepted := createMapping_accepted success
  simp only [createMapping, PageCall.apply, if_pos accepted, PageCall.effect]
  exact mapRange_apply map _ physAddr pgProt (by omega) page

/-- An empty range maps nothing. -/
theorem PageMap.createMapping_empty (map : PageMap) (virtAddr physAddr pgProt : Word) :
    (map.createMapping virtAddr physAddr physAddr pgProt).2 = map := by
  simp only [createMapping, PageCall.apply, PageCall.effect, Nat.sub_self, Nat.zero_div, mapRange,
    ite_self]

/-- `paging_get_pte`: an unaligned address gives the error code. -/
def PageMap.getPte (map : PageMap) (virtAddr : Word) : Word :=
  if virtAddr.toNat % 4096 = 0 then map (Page.number virtAddr) else BitVec.ofInt 32 (-einvarg)

end ConiferOS
