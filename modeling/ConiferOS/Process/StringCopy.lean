import ConiferOS.Memory.BoundedCopy
import ConiferOS.Memory.Ownership
import ConiferOS.Process.UserCopy

/-! # Copying a user string

`copy_string_from_user_task` with the heap that its temporary block comes from and the
addresses it writes. The block is not given back, the copy is terminated behind its last
byte, and a string on the page that is lent to the kernel is not the one the task sees.
-/

namespace ConiferOS.Process

open Lib Lib.ForwardCopy Paging Heap

/-- `none` when `kzalloc` damages kernel memory. -/
def copyStringOnHeap (heap : HeapDesc) (t : Trace) (pages : PageMap)
    (taskVirtAddr kernelVirtAddr : Word) (max : Int) : Option (Int × HeapDesc × Trace × PageMap) :=
  if (pagingPageSize : Int) ≤ max then some (-einvarg, heap, t, pages)
  else
    (kzalloc heap (BitVec.ofInt 32 max)).map fun (tmp, heap) =>
      if tmp = 0 then (-enomem, heap, t, pages)
      else
        -- The allocation and the copies take `max` as a `size_t`.
        let n := (BitVec.ofInt 32 max).toNat
        let t := t.fill tmp n 0
        let oldEntry := pages.getPte tmp
        let shared := sharePage pages tmp
        let t := strncpyTrace shared.translate t tmp taskVirtAddr n
        let restored := unsharePage shared tmp oldEntry
        if tmp.toNat % 4096 ≠ 0 then (-eio, kfree heap tmp, t, restored)
        else (0, heap, strncpyTrace id t kernelVirtAddr tmp n, restored)

/-- The block that the next call gets. -/
def temporary (heap : HeapDesc) (max : Int) : Word :=
  heapBlockToAddress heap (heapGetStartBlockIndex heap (blocksFor (BitVec.ofInt 32 max)))

variable {heap later : HeapDesc} {t t' : Trace} {pages pages' : PageMap} {u k tmp : Word} {max rc : Int}

/-- The two views of a copy agree: with the block as an argument, and with the heap. -/
theorem copyStringOnHeap_copyString {n : Nat} (narrow : n < 2 ^ 32)
    (served : kzalloc heap (BitVec.ofInt 32 n) = some (tmp, later)) :
    (copyStringOnHeap heap t pages u k n).map (fun r => (r.1, r.2.2.1.mem, r.2.2.2)) =
      some (copyStringFromUserTask t.mem pages tmp u k n) := by
  have size : (BitVec.ofInt 32 (n : Int)).toNat = n := by
    rw [BitVec.ofInt_natCast, BitVec.toNat_ofNat]
    omega
  simp only [copyStringOnHeap, copyStringFromUserTask, served, Option.map_some, size, Int.ofNat_le]
  split_ifs <;> simp [Trace.fill]

/-! ## The block -/

section Block

theorem heapMalloc_temporary (found : ¬ heap.Refuses (blocksFor (BitVec.ofInt 32 max))) :
    (heapMalloc heap (BitVec.ofInt 32 max)).1 = temporary heap max := by
  rw [← heapGetStartBlockIndex_neg_iff_refuses, not_lt] at found
  rw [heapMalloc, heapMallocBlocks_found found]
  rfl

theorem temporary_toNat (table : KernelTable heap)
    (found : ¬ heap.Refuses (blocksFor (BitVec.ofInt 32 max))) :
    (temporary heap max).toNat % 4096 = 0 ∧ 4096 ≤ (temporary heap max).toNat ∧
      (temporary heap max).toNat + 4096 < 2 ^ 32 := by
  rw [← heapGetStartBlockIndex_neg_iff_refuses, not_lt] at found
  have upper := (heapGetStartBlockIndex_spec heap _ found).1
  rw [table.total] at upper
  rw [temporary, heapBlockToAddress_kernel table.start found upper]
  omega

theorem temporary_ne_zero (table : KernelTable heap)
    (found : ¬ heap.Refuses (blocksFor (BitVec.ofInt 32 max))) : temporary heap max ≠ 0 := by
  obtain ⟨-, positive, -⟩ := temporary_toNat table found
  intro zero
  rw [zero] at positive
  exact absurd positive (by decide)

theorem heapMalloc_refused (refused : heap.Refuses (blocksFor (BitVec.ofInt 32 max))) :
    heapMalloc heap (BitVec.ofInt 32 max) = (0, heap) :=
  KernelHeap.heapMalloc_failed ((heapGetStartBlockIndex_neg_iff_refuses heap _).mpr refused)

theorem copyStringOnHeap_refused (refused : heap.Refuses (blocksFor (BitVec.ofInt 32 max)))
    (small : max < 4096) : copyStringOnHeap heap t pages u k max = some (-enomem, heap, t, pages) := by
  have served : kzalloc heap (BitVec.ofInt 32 max) = some (0, heap) := by
    rw [kzalloc, if_pos, heapMalloc_refused refused]
    intro found
    exact absurd ((heapGetStartBlockIndex_neg_iff_refuses heap _).mpr refused) (not_lt.mpr found)
  have fits : ¬ (pagingPageSize : Int) ≤ max := by
    rw [pagingPageSize]
    omega
  simp only [copyStringOnHeap, if_neg fits, served, Option.map_some, if_true]

/-- A call that gets its block returns 0, and keeps the block. -/
theorem copyStringOnHeap_served (table : KernelTable heap)
    (found : ¬ heap.Refuses (blocksFor (BitVec.ofInt 32 max))) (small : max < 4096) :
    copyStringOnHeap heap t pages u k max =
      (kzalloc heap (BitVec.ofInt 32 max)).map fun result =>
        (0, result.2, strncpyTrace id
          (strncpyTrace (sharePage pages (temporary heap max)).translate
            (t.fill (temporary heap max) (BitVec.ofInt 32 max).toNat 0) (temporary heap max) u
            (BitVec.ofInt 32 max).toNat) k (temporary heap max) (BitVec.ofInt 32 max).toNat, pages) := by
  have fits : ¬ (pagingPageSize : Int) ≤ max := by
    rw [pagingPageSize]
    omega
  obtain ⟨aligned, -⟩ := temporary_toNat table found
  rw [copyStringOnHeap, if_neg fits, kzalloc]
  split
  case isTrue =>
    simp only [Option.map_some, heapMalloc_temporary found, if_neg (temporary_ne_zero table found),
      aligned, ne_eq, not_true, if_false, unsharePage_sharePage]
  case isFalse => rfl

end Block

/-! ## What is left behind -/

/-- The page tables are put back by every call; the table of the heap is as it was only
    when no block was marked. -/
theorem copy_leaves_no_trace_iff (table : KernelTable heap) (lower : -2 ^ 31 ≤ max)
    (run : copyStringOnHeap heap t pages u k max = some (rc, later, t', pages')) :
    pages' = pages ∧ SameTable heap later ↔
      4096 ≤ max ∨ max = 0 ∨ heap.Refuses (blocksFor (BitVec.ofInt 32 max)) := by
  rcases le_or_gt 4096 max with big | small
  · rw [copyStringOnHeap, if_pos (show (pagingPageSize : Int) ≤ max from big)] at run
    cases run
    exact iff_of_true ⟨rfl, fun i _ _ => rfl⟩ (.inl big)
  · by_cases refused : heap.Refuses (blocksFor (BitVec.ofInt 32 max))
    · rw [copyStringOnHeap_refused refused small] at run
      cases run
      exact iff_of_true ⟨rfl, fun i _ _ => rfl⟩ (.inr (.inr refused))
    · rw [copyStringOnHeap_served table refused small] at run
      obtain ⟨⟨tmp, next⟩, served, result⟩ := Option.map_eq_some_iff.mp run
      cases result
      obtain ⟨-, address, rfl⟩ := kzalloc_eq_some served
      have found := refused
      rw [← heapGetStartBlockIndex_neg_iff_refuses, not_lt] at found
      rw [or_iff_right (not_le.mpr small), or_iff_left refused]
      by_cases zero : max = 0
      · subst zero
        have empty : blocksFor (BitVec.ofInt 32 0) = 0 := by decide
        obtain ⟨marks, -⟩ := KernelHeap.heapMalloc_empty empty found
        rw [marks]
        exact iff_of_true ⟨rfl, fun i _ _ => rfl⟩ rfl
      · have nonnull : tmp ≠ 0 := by
          rw [← address, heapMalloc_temporary refused]
          exact temporary_ne_zero table refused
        have nonempty : BitVec.ofInt 32 max ≠ 0 := by
          intro same
          have value := congrArg BitVec.toInt same
          rw [BitVec.toInt_ofInt, Int.bmod_eq_of_le (by omega) (by omega)] at value
          exact zero value
        have marked := ends_heapMalloc (table.blocksFor_pos served nonnull nonempty) found
        have total := (HeapState.heapMalloc_frame heap (BitVec.ofInt 32 max)).1
        exact iff_of_false (fun both => not_sameTable_of_ends total (by omega) both.2) zero

/-- The part of `isr80h_command_1_print` that uses the heap, call after call; memory, page
    tables and the two addresses may be others each time. -/
def prints : HeapDesc → List (Trace × PageMap × Word × Word) → Option HeapDesc
  | heap, [] => some heap
  | heap, (t, pages, userMessage, buf) :: calls =>
      (copyStringOnHeap heap t pages userMessage buf 1024).bind fun result => prints result.2.1 calls

theorem prints_refused (refused : heap.Refuses (blocksFor (BitVec.ofInt 32 1024)))
    (calls : List (Trace × PageMap × Word × Word)) : prints heap calls = some heap := by
  induction calls with
  | nil => rfl
  | cons call calls ih => rw [prints, copyStringOnHeap_refused refused (by decide), Option.bind_some, ih]

/-- Every print takes a block for good, until there is none left. -/
theorem prints_leak (table : KernelTable heap) (calls : List (Trace × PageMap × Word × Word))
    (run : prints heap calls = some later) :
    heap.ends.card + calls.length ≤ later.ends.card ∨ later.Refuses 1 := by
  induction calls generalizing heap with
  | nil =>
      cases run
      exact .inl le_rfl
  | cons call calls ih =>
      obtain ⟨t, pages, userMessage, buf⟩ := call
      have one : blocksFor (BitVec.ofInt 32 1024) = 1 := by decide
      by_cases refused : heap.Refuses (blocksFor (BitVec.ofInt 32 1024))
      · rw [prints_refused refused] at run
        cases run
        exact .inr (one ▸ refused)
      · obtain ⟨result, copied, rest⟩ := Option.bind_eq_some_iff.mp run
        rw [copyStringOnHeap_served table refused (by decide)] at copied
        obtain ⟨⟨tmp, next⟩, served, rfl⟩ := Option.map_eq_some_iff.mp copied
        obtain ⟨-, -, rfl⟩ := kzalloc_eq_some served
        rw [← heapGetStartBlockIndex_neg_iff_refuses, not_lt] at refused
        have marked := ends_heapMalloc (by rw [one]; decide) refused
        rcases ih (table.malloc _) rest with counted | full
        · left
          rw [List.length_cons]
          omega
        · exact .inr full

/-! ## What is read and written -/

/-- The bytes of the user's string as the copy sees them: the page of the block is lent to
    the kernel, and the block has been cleared. -/
def seenByte (m : Mem) (pages : PageMap) (tmp u : Word) (n : Nat) : Nat → Byte :=
  seen (sharePage pages tmp).translate (m.fill tmp n 0) tmp u

/-- The bytes that the task reads at `u`. -/
def userByte (m : Mem) (pages : PageMap) (u : Word) (i : Nat) : Byte :=
  m (pages.translate (u + BitVec.ofNat 32 i))

theorem ReadableBeside.lent (aligned : tmp.toNat % 4096 = 0) {va : Word}
    (beside : ReadableBeside pages tmp va) :
    (sharePage pages tmp).translate va = pages.translate va ∧
      4096 ≤ (pages.translate va - tmp).toNat := by
  rw [sharePage_translate aligned, if_neg beside.page]
  refine ⟨rfl, not_lt.mp fun near => ?_⟩
  exact beside.frame (Page.number_eq_of_sub_lt aligned near)

/-- A byte that is neither on the lent page nor in the block is seen as it is. -/
theorem seenByte_beside {m : Mem} {n i : Nat} (aligned : tmp.toNat % 4096 = 0) (small : n < 4096)
    (inside : i < n) (beside : ReadableBeside pages tmp (u + BitVec.ofNat 32 i)) :
    seenByte m pages tmp u n i = userByte m pages u i := by
  obtain ⟨view, far⟩ := beside.lent aligned
  rw [seenByte, seen_of_apart, view, Mem.fill_apply_of_le (by omega)]
  · rfl
  · intro j before
    rw [view]
    bv_omega

/-- No block of the heap that holds the address is free. -/
def InUse (heap : HeapDesc) (a : Word) : Prop :=
  ∀ i : Int, 0 ≤ i → i < heap.total → heap.table.FreeAt i →
    Page.number a ≠ Page.number (heapBlockToAddress heap i)

theorem InUse.ne_temporary {a : Word} (used : InUse heap a)
    (found : ¬ heap.Refuses (blocksFor (BitVec.ofInt 32 max))) :
    Page.number a ≠ Page.number (temporary heap max) := by
  rw [← heapGetStartBlockIndex_neg_iff_refuses, not_lt] at found
  exact used _ found (heapGetStartBlockIndex_spec heap _ found).1 (heapGetStartBlockIndex_free found)

/-- What two copies through a block do, when the buffer is not on the block's page. -/
structure CopiedString (t t' : Trace) (pages : PageMap) (tmp u k : Word) (n length : Nat) : Prop where
  stops : Stops (seenByte t.mem pages tmp u n) n length
  text : StringAt t'.mem id k ((List.range length).map (seenByte t.mem pages tmp u n))
  written : ∀ x, x ∈ t'.written ↔ x ∈ t.written ∨ (∃ i < n, x = tmp + BitVec.ofNat 32 i) ∨
    (∃ j ≤ length, x = tmp + BitVec.ofNat 32 j) ∨ ∃ j ≤ length, x = k + BitVec.ofNat 32 j

theorem copiedString {n : Nat} (small : n < 4096) (aligned : tmp.toNat % 4096 = 0)
    (apart : ∀ j < n, Page.number (k + BitVec.ofNat 32 j) ≠ Page.number tmp) (t : Trace)
    (pages : PageMap) (u : Word) :
    ∃ length, CopiedString t (strncpyTrace id (strncpyTrace (sharePage pages tmp).translate
      (t.fill tmp n 0) tmp u n) k tmp n) pages tmp u k n length := by
  obtain ⟨length, first⟩ := strncpyTrace_spec (direct_sharePage aligned small) (by omega)
    (t.fill tmp n 0) u
  generalize strncpyTrace (sharePage pages tmp).translate (t.fill tmp n 0) tmp u n = t₁ at first
  have direct : Direct id k n := fun _ _ => rfl
  obtain ⟨length', second⟩ := strncpyTrace_spec direct (by omega) t₁ tmp
  have le := first.stops.le
  -- The second copy reads what the first one wrote.
  have read : ∀ i ≤ length, i < n → seen id t₁.mem k tmp i = t₁.mem (tmp + BitVec.ofNat 32 i) := by
    intro i _ inside
    refine seen_of_apart fun j before same => apart j (by omega) ?_
    rw [← same]
    exact Page.number_add aligned (by omega)
  have again : ∀ i ≤ length, i < n →
      seen id t₁.mem k tmp i = seenByte t.mem pages tmp u n i := by
    intro i upTo inside
    rw [read i upTo inside]
    rcases Nat.lt_or_eq_of_le upTo with before | rfl
    · exact first.byte (by omega) before
    · rw [first.terminated]
      exact (first.stops.zero inside).symm
  have stops : Stops (seenByte t.mem pages tmp u n) n length := first.stops
  obtain rfl : length' = length := second.stops.unique (stops.congr again)
  refine ⟨length', stops, ?_, ?_⟩
  · have text := second.stringAt (by omega)
    rwa [List.map_congr_left fun i member =>
      again i (List.mem_range.mp member).le (by have := List.mem_range.mp member; omega)] at text
  · intro x
    rw [second.written, first.written, Trace.mem_written_fill]
    simp only [or_assoc, or_left_comm]

/-- A call with a sensible size that gets its block. -/
theorem copyStringOnHeap_copied (table : KernelTable heap) {n : Nat} (small : n < 4096)
    (found : ¬ heap.Refuses (blocksFor (BitVec.ofInt 32 n)))
    (buffer : ∀ j < n, InUse heap (k + BitVec.ofNat 32 j)) (t : Trace) (pages : PageMap) (u : Word) :
    ∃ t' length, copyStringOnHeap heap t pages u k n =
        some (0, (heapMalloc heap (BitVec.ofInt 32 n)).2, t', pages) ∧
      CopiedString t t' pages (temporary heap n) u k n length := by
  have size : (BitVec.ofInt 32 (n : Int)).toNat = n := by
    rw [BitVec.ofInt_natCast, BitVec.toNat_ofNat]
    omega
  have room : HasRoom heap (BitVec.ofInt 32 n) := hasRoom_block table (by omega)
  rw [copyStringOnHeap_served table found (by omega), table.kzalloc_eq room, size]
  obtain ⟨length, copied⟩ := copiedString small (temporary_toNat table found).1
    (fun j inside => (buffer j inside).ne_temporary found) t pages u
  exact ⟨_, length, rfl, copied⟩

/-! ## A fresh heap

The kernel has just been booted, and its first block is the one every copy gets. The
buffer is below the heap.
-/

theorem temporary_freshHeap (max : Int) : temporary freshHeap max = 0x1000000 := by
  rw [temporary, freshHeap_start, heapBlockToAddress, freshHeap_table.start]
  rfl

theorem inUse_below (table : KernelTable heap) {a : Word} (below : a.toNat < 0x1000000) :
    InUse heap a := by
  intro i lower upper _ same
  have pages := congrArg BitVec.toNat same
  rw [table.total] at upper
  rw [Page.toNat_number, Page.toNat_number, heapBlockToAddress_kernel table.start lower upper] at pages
  omega

theorem copyStringOnHeap_fresh {n : Nat} (small : n < 4096) (m : Mem) (pages : PageMap) (u : Word) :
    ∃ t' length, copyStringOnHeap freshHeap ⟨m, []⟩ pages u 0x500000 n =
        some (0, (heapMalloc freshHeap (BitVec.ofInt 32 n)).2, t', pages) ∧
      CopiedString ⟨m, []⟩ t' pages (temporary freshHeap n) u 0x500000 n length := by
  refine copyStringOnHeap_copied freshHeap_table small (freshHeap_found _) (fun j inside => ?_) _ pages u
  exact inUse_below freshHeap_table (by bv_omega)

/-- One print on a fresh heap. -/
theorem print_leaks :
    ∃ later t', copyStringOnHeap freshHeap ⟨fun _ => 0, []⟩ (PageMap.linear 5) 0x400000 0x500000 1024 =
        some (0, later, t', PageMap.linear 5) ∧ ¬ SameTable freshHeap later := by
  obtain ⟨t', length, run, -⟩ := copyStringOnHeap_fresh (n := 1024) (by decide) (fun _ => 0)
    (PageMap.linear 5) 0x400000
  have found : 0 ≤ heapGetStartBlockIndex freshHeap (blocksFor (BitVec.ofInt 32 (1024 : Nat))) := by
    rw [freshHeap_start]
  have marked := ends_heapMalloc (by decide) found
  have total := (HeapState.heapMalloc_frame freshHeap (BitVec.ofInt 32 (1024 : Nat))).1
  exact ⟨_, t', run, not_sameTable_of_ends total (by omega)⟩

/-- A copy of no bytes gets a block and does not mark it. -/
theorem copy_leaves_no_trace_iff_empty :
    ∃ later t' pages', copyStringOnHeap freshHeap ⟨fun _ => 0, []⟩ (PageMap.linear 5) 0x400000 0x500000
        (0 : Nat) = some (0, later, t', pages') ∧ pages' = PageMap.linear 5 ∧ SameTable freshHeap later := by
  obtain ⟨t', length, run, -⟩ := copyStringOnHeap_fresh (n := 0) (by decide) (fun _ => 0)
    (PageMap.linear 5) 0x400000
  exact ⟨_, t', _, run, (copy_leaves_no_trace_iff freshHeap_table (by decide) run).mpr (.inr (.inl rfl))⟩

/-! ## Overruns -/

/-- The call returns, and writes to its block and the first `max` bytes of the buffer. -/
def WritesInside (heap : HeapDesc) (m : Mem) (pages : PageMap) (u k : Word) (max : Int) : Prop :=
  ∃ rc later t' pages', copyStringOnHeap heap ⟨m, []⟩ pages u k max = some (rc, later, t', pages') ∧
    ∀ x ∈ t'.written, Page.number x = Page.number (temporary heap max) ∨
      ∃ j : Nat, j < max ∧ x = k + BitVec.ofNat 32 j

/-- As a size, a negative `max` is far more than a block: what is cleared goes past it. -/
theorem not_writesInside_of_neg (table : KernelTable heap)
    (found : ¬ heap.Refuses (blocksFor (BitVec.ofInt 32 max))) (lower : -2 ^ 31 ≤ max)
    (negative : max < 0) (m : Mem) (pages : PageMap) (u k : Word) :
    ¬ WritesInside heap m pages u k max := by
  rintro ⟨rc, later, t', pages', run, inside⟩
  rw [copyStringOnHeap_served table found (by omega)] at run
  obtain ⟨⟨tmp, next⟩, served, result⟩ := Option.map_eq_some_iff.mp run
  cases result
  obtain ⟨aligned, -, upper⟩ := temporary_toNat table found
  have large : 4096 < (BitVec.ofInt 32 max).toNat := by
    rw [BitVec.toNat_ofInt]
    omega
  have cleared : temporary heap max + BitVec.ofNat 32 4096 ∈
      ((⟨m, []⟩ : Trace).fill (temporary heap max) (BitVec.ofInt 32 max).toNat 0).written :=
    Trace.mem_written_fill.mpr (.inl ⟨4096, large, rfl⟩)
  rcases inside _ (strncpyTrace_written _ _ _ _ _ (strncpyTrace_written _ _ _ _ _ cleared)) with
    page | ⟨j, below, -⟩
  · have numbers := congrArg BitVec.toNat page
    rw [Page.toNat_number, Page.toNat_number] at numbers
    bv_omega
  · omega

/-- The only write that can be outside is the terminator of a copy that fills the buffer. -/
theorem CopiedString.writesInside_iff {m : Mem} {n length : Nat} (small : n < 4096)
    (aligned : (temporary heap n).toNat % 4096 = 0)
    (run : copyStringOnHeap heap ⟨m, []⟩ pages u k n = some (rc, later, t', pages'))
    (copied : CopiedString ⟨m, []⟩ t' pages (temporary heap n) u k n length) :
    WritesInside heap m pages u k n ↔
      length < n ∨ Page.number (k + BitVec.ofNat 32 n) = Page.number (temporary heap n) := by
  have le := copied.stops.le
  constructor
  · rintro ⟨rc', later', t'', pages'', run', inside⟩
    rw [run] at run'
    cases run'
    rcases Nat.lt_or_eq_of_le le with short | rfl
    · exact .inl short
    · have last := inside (k + BitVec.ofNat 32 length)
        ((copied.written _).mpr (.inr (.inr (.inr ⟨length, le_rfl, rfl⟩))))
      refine .inr (last.resolve_right ?_)
      rintro ⟨j, before, same⟩
      bv_omega
  · intro fits
    refine ⟨rc, later, t', pages', run, fun x member => ?_⟩
    rcases (copied.written x).mp member with old | ⟨i, cleared, rfl⟩ | ⟨j, upTo, rfl⟩ | ⟨j, upTo, rfl⟩
    · cases old
    · exact .inl (Page.number_add aligned (by omega))
    · exact .inl (Page.number_add aligned (by omega))
    · rcases Nat.lt_or_eq_of_le (upTo.trans le) with before | rfl
      · exact .inr ⟨j, Int.ofNat_lt.mpr before, rfl⟩
      · exact .inl (fits.resolve_left (by omega))

/-- The terminator stays in the buffer when the string ends before it. -/
theorem writes_inside_iff (table : KernelTable heap) (lower : -2 ^ 31 ≤ max)
    (buffer : ∀ j : Nat, j < max → InUse heap (k + BitVec.ofNat 32 j)) (m : Mem) (pages : PageMap)
    (u : Word) :
    WritesInside heap m pages u k max ↔
      4096 ≤ max ∨ heap.Refuses (blocksFor (BitVec.ofInt 32 max)) ∨
        (∃ i : Nat, i < max ∧ seenByte m pages (temporary heap max) u max.toNat i = 0) ∨
        0 ≤ max ∧ Page.number (k + BitVec.ofInt 32 max) = Page.number (temporary heap max) := by
  rcases le_or_gt 4096 max with big | small
  · refine iff_of_true ⟨-einvarg, heap, ⟨m, []⟩, pages, ?_, nofun⟩ (.inl big)
    rw [copyStringOnHeap, if_pos (show (pagingPageSize : Int) ≤ max from big)]
  · rw [or_iff_right (not_le.mpr small)]
    by_cases refused : heap.Refuses (blocksFor (BitVec.ofInt 32 max))
    · exact iff_of_true ⟨-enomem, heap, ⟨m, []⟩, pages, copyStringOnHeap_refused refused small, nofun⟩
        (.inl refused)
    · rw [or_iff_right refused]
      rcases lt_or_ge max 0 with negative | nonneg
      · refine iff_of_false (not_writesInside_of_neg table refused lower negative m pages u k) ?_
        rintro (⟨i, inside, -⟩ | ⟨nonneg, -⟩) <;> omega
      · obtain ⟨n, rfl⟩ := Int.eq_ofNat_of_zero_le nonneg
        simp only [Int.ofNat_lt] at buffer
        obtain ⟨t', length, run, copied⟩ := copyStringOnHeap_copied table (by omega) refused buffer
          ⟨m, []⟩ pages u
        rw [copied.writesInside_iff (by omega) (temporary_toNat table refused).1 run,
          copied.stops.lt_iff, BitVec.ofInt_natCast]
        simp only [Int.ofNat_lt, Int.toNat_natCast, nonneg, true_and]

/-- The letter at `u`, and letters behind its end. -/
def letterAt (u : Word) : Mem := fun x => if x = u + 1 then 0 else 65

/-- The first page of a program is not the one that is lent. -/
theorem readableBeside_program {i : Nat} (small : i < 32) :
    ReadableBeside (PageMap.linear 5) 0x1000000 (0x400000 + BitVec.ofNat 32 i) := by
  have page : Page.number (0x400000 + BitVec.ofNat 32 i) ≠ Page.number 0x1000000 := by
    intro same
    have numbers := congrArg BitVec.toNat same
    rw [Page.toNat_number, Page.toNat_number] at numbers
    bv_omega
  exact ⟨page, by rwa [PageMap.translate_linear]⟩

theorem seenByte_program (m : Mem) {i : Nat} (small : i < 32) :
    seenByte m (PageMap.linear 5) 0x1000000 0x400000 32 i = m (0x400000 + BitVec.ofNat 32 i) := by
  rw [seenByte_beside (by decide) (by decide) small (readableBeside_program small), userByte,
    PageMap.translate_linear]

/-- An argument of `MAX_CMMD_ARG_LEN` letters or more. -/
theorem long_string_overruns :
    ¬ WritesInside freshHeap (fun _ => 65) (PageMap.linear 5) 0x400000 0x500000 (32 : Nat) := by
  obtain ⟨t', length, run, copied⟩ := copyStringOnHeap_fresh (n := 32) (by decide) (fun _ => 65)
    (PageMap.linear 5) 0x400000
  rw [copied.writesInside_iff (by decide) (temporary_toNat freshHeap_table (freshHeap_found _)).1 run,
    copied.stops.lt_iff, temporary_freshHeap]
  rintro (⟨i, inside, zero⟩ | page)
  · rw [seenByte_program _ inside] at zero
    exact absurd zero (show (65 : Byte) ≠ 0 by decide)
  · exact absurd page (by decide)

/-- A short string. -/
theorem writes_inside_iff_letter :
    WritesInside freshHeap (letterAt 0x400000) (PageMap.linear 5) 0x400000 0x500000 (32 : Nat) := by
  refine (writes_inside_iff freshHeap_table (by decide) (fun j inside => ?_) _ _ _).mpr
    (.inr (.inr (.inl ⟨1, by decide, ?_⟩)))
  · exact inUse_below freshHeap_table (by bv_omega)
  · rw [temporary_freshHeap]
    exact seenByte_program _ (by decide)

/-! ## What the copy shows -/

/-- The buffer holds the task's string, or as much of it as fits. -/
structure ShowsString (m m' : Mem) (pages : PageMap) (u k : Word) (max : Nat) (text : List Byte) :
    Prop where
  copy : StringAt m' id k text
  whole : ∀ s, StringAt m pages.translate u s → s.length < max → text = s
  cut : (∀ i < max, userByte m pages u i ≠ 0) →
    max ≤ text.length + 1 ∧ ∀ i, ∀ inside : i < text.length, text[i] = userByte m pages u i

/-- Byte `i` as it is read with the page lent: where it lies in the block, it is a byte
    copied before, or zero, or what was there. -/
def lentByte (m : Mem) (pages : PageMap) (tmp u : Word) (max i : Nat) : Byte :=
  let a := (sharePage pages tmp).translate (u + BitVec.ofNat 32 i)
  if (a - tmp).toNat < i then userByte m pages u (a - tmp).toNat else m.fill tmp max 0 a

/-- Lending the page changes no byte of the string. The last byte that fits may be read as
    zero. -/
def Undisturbed (m : Mem) (pages : PageMap) (tmp u : Word) (max : Nat) : Prop :=
  ∀ i < max, (∀ j < i, userByte m pages u j ≠ 0) →
    lentByte m pages tmp u max i = userByte m pages u i ∨ i + 1 = max ∧ lentByte m pages tmp u max i = 0

section Shown

variable {m m' : Mem} {n : Nat}

theorem seenByte_eq_lentByte {i : Nat}
    (same : ∀ j < i, seenByte m pages tmp u n j = userByte m pages u j) :
    seenByte m pages tmp u n i = lentByte m pages tmp u n i := by
  rw [seenByte, seen, lentByte]
  split
  case isTrue before => exact same _ before
  case isFalse => rfl

theorem lentByte_beside {i : Nat} (aligned : tmp.toNat % 4096 = 0) (small : n < 4096) (inside : i < n)
    (beside : ReadableBeside pages tmp (u + BitVec.ofNat 32 i)) :
    lentByte m pages tmp u n i = userByte m pages u i := by
  obtain ⟨view, far⟩ := beside.lent aligned
  rw [lentByte, view, if_neg (by omega), Mem.fill_apply_of_le (by omega)]
  rfl

/-- Up to the last byte that fits, what is seen is the task's string. -/
theorem Undisturbed.seen_eq (undisturbed : Undisturbed m pages tmp u n) {i : Nat} (inside : i + 1 < n)
    (chars : ∀ j < i, userByte m pages u j ≠ 0) :
    seenByte m pages tmp u n i = userByte m pages u i := by
  induction i using Nat.strong_induction_on with
  | _ i ih =>
      rw [seenByte_eq_lentByte fun j before =>
        ih j before (by omega) fun l earlier => chars l (by omega)]
      exact (undisturbed i (by omega) chars).resolve_right (by omega)

theorem Undisturbed.seen_last (undisturbed : Undisturbed m pages tmp u n) {i : Nat} (last : i + 1 = n)
    (chars : ∀ j < i, userByte m pages u j ≠ 0) :
    seenByte m pages tmp u n i = userByte m pages u i ∨ seenByte m pages tmp u n i = 0 := by
  rw [seenByte_eq_lentByte fun j before => undisturbed.seen_eq (by omega)
    fun l earlier => chars l (by omega)]
  exact (undisturbed i (by omega) chars).imp_right And.right

/-- A string that ends before the bound is seen as it is, with its end. -/
theorem Undisturbed.stops (undisturbed : Undisturbed m pages tmp u n) {l : Nat} (short : l < n)
    (chars : ∀ j < l, userByte m pages u j ≠ 0) (zero : userByte m pages u l = 0) :
    Stops (seenByte m pages tmp u n) n l where
  le := short.le
  chars := by
    intro j before
    rw [undisturbed.seen_eq (by omega) fun i earlier => chars i (by omega)]
    exact chars j before
  zero := by
    intro _
    rcases Nat.lt_or_eq_of_le (Nat.succ_le_of_lt short) with more | last
    · rw [undisturbed.seen_eq more chars]
      exact zero
    · rcases undisturbed.seen_last last chars with same | clear
      · rw [same]
        exact zero
      · exact clear

/-- What a copy that shows the string has seen of one that ends before the bound. -/
theorem ShowsString.seen_eq {length l : Nat}
    (shows : ShowsString m m' pages u k n ((List.range length).map (seenByte m pages tmp u n)))
    (short : l < n) (chars : ∀ j < l, userByte m pages u j ≠ 0) (zero : userByte m pages u l = 0) :
    length = l ∧ ∀ j < l, seenByte m pages tmp u n j = userByte m pages u j := by
  have text : StringAt m pages.translate u ((List.range l).map (userByte m pages u)) :=
    .of_bytes (fun _ _ => rfl) chars zero
  have same := shows.whole _ text (by simpa using short)
  have lengths := congrArg List.length same
  simp only [List.length_map, List.length_range] at lengths
  subst lengths
  exact ⟨rfl, fun j before => List.map_inj_left.mp same j (List.mem_range.mpr before)⟩

theorem CopiedString.undisturbed {length : Nat} (copied : CopiedString t t' pages tmp u k n length)
    {text : List Byte} (shows : ShowsString t.mem t'.mem pages u k n text) :
    Undisturbed t.mem pages tmp u n := by
  have stops := copied.stops
  obtain rfl := shows.copy.unique copied.text
  intro i inside chars
  by_cases ends : ∃ l, l < n ∧ userByte t.mem pages u l = 0
  · -- The string ends before the bound, and `i` is not past its end.
    obtain ⟨short, zero⟩ := Nat.find_spec ends
    have before : ∀ j < Nat.find ends, userByte t.mem pages u j ≠ 0 :=
      fun j earlier clear => Nat.find_min ends earlier ⟨by omega, clear⟩
    obtain ⟨rfl, same⟩ := shows.seen_eq short before zero
    have upTo : i ≤ Nat.find ends := by
      by_contra past
      exact chars _ (not_le.mp past) zero
    left
    rw [← seenByte_eq_lentByte fun j earlier => same j (by omega)]
    rcases Nat.lt_or_eq_of_le upTo with earlier | rfl
    · exact same i earlier
    · rw [stops.zero short, zero]
  · obtain ⟨long, prefixed⟩ := shows.cut fun j below clear => ends ⟨j, below, clear⟩
    rw [List.length_map, List.length_range] at long
    have same : ∀ j < length, seenByte t.mem pages tmp u n j = userByte t.mem pages u j := by
      intro j before
      have byte := prefixed j (by simpa using before)
      rwa [List.getElem_map, List.getElem_range] at byte
    rcases Nat.lt_or_ge i length with before | past
    · left
      rw [← seenByte_eq_lentByte fun j earlier => same j (by omega)]
      exact same i before
    · obtain rfl : i = length := by omega
      right
      rw [← seenByte_eq_lentByte same]
      exact ⟨by omega, stops.zero inside⟩

theorem CopiedString.shows {length : Nat} (copied : CopiedString t t' pages tmp u k n length)
    (undisturbed : Undisturbed t.mem pages tmp u n) :
    ShowsString t.mem t'.mem pages u k n ((List.range length).map (seenByte t.mem pages tmp u n)) := by
  have stops := copied.stops
  refine ⟨copied.text, fun s text short => ?_, fun chars => ?_⟩
  · have byte : ∀ j, ∀ before : j < s.length, userByte t.mem pages u j = s[j] := text.byte
    have chars : ∀ j < s.length, userByte t.mem pages u j ≠ 0 := by
      intro j before
      rw [byte j before]
      exact text.nonzero _ (List.getElem_mem before)
    obtain rfl := stops.unique (undisturbed.stops short chars text.terminator)
    refine List.ext_getElem (by simp) fun j bound before => ?_
    rw [List.getElem_map, List.getElem_range, ← byte j before]
    exact undisturbed.seen_eq (by omega) fun i earlier => chars i (by omega)
  · have long : n ≤ length + 1 := by
      by_contra short
      have zero := stops.zero (by omega)
      rw [undisturbed.seen_eq (by omega) fun j before => chars j (by omega)] at zero
      exact chars length (by omega) zero
    refine ⟨by simpa using long, fun i bound => ?_⟩
    have inside : i < length := by simpa using bound
    have le := stops.le
    rw [List.getElem_map, List.getElem_range]
    have earlier : ∀ j < i, userByte t.mem pages u j ≠ 0 := fun j before => chars j (by omega)
    rcases Nat.lt_or_eq_of_le (by omega : i + 1 ≤ n) with more | last
    · exact undisturbed.seen_eq more earlier
    · exact (undisturbed.seen_last last earlier).resolve_right (stops.chars i inside)

/-- The copy shows the string to the kernel exactly when lending the page disturbs no byte. -/
theorem CopiedString.shows_iff {length : Nat} (copied : CopiedString t t' pages tmp u k n length) :
    (∃ text, ShowsString t.mem t'.mem pages u k n text) ↔ Undisturbed t.mem pages tmp u n := by
  constructor
  · rintro ⟨text, shows⟩
    exact copied.undisturbed shows
  · exact fun undisturbed => ⟨_, copied.shows undisturbed⟩

end Shown

/-- A call that returns 0 has copied the task's string exactly when the bytes of the string
    that lie in the lent page or in the block are those that the call finds there. -/
theorem copied_string_iff (table : KernelTable heap) {n : Nat} (small : n < 4096)
    (buffer : ∀ j < n, InUse heap (k + BitVec.ofNat 32 j))
    (run : copyStringOnHeap heap t pages u k n = some (0, later, t', pages')) :
    (∃ text, ShowsString t.mem t'.mem pages u k n text) ↔
      Undisturbed t.mem pages (temporary heap n) u n := by
  by_cases refused : heap.Refuses (blocksFor (BitVec.ofInt 32 n))
  · rw [copyStringOnHeap_refused refused (by omega)] at run
    cases run
  · obtain ⟨t'', length, run', copied⟩ := copyStringOnHeap_copied table small refused buffer t pages u
    rw [run] at run'
    cases run'
    exact copied.shows_iff

/-- A letter at the address of the next block: the task reads it, the kernel finds nothing. -/
theorem string_on_lent_page :
    ∃ later t', copyStringOnHeap freshHeap ⟨letterAt 0x1000000, []⟩ (PageMap.linear 5) 0x1000000
        0x500000 (32 : Nat) = some (0, later, t', PageMap.linear 5) ∧
      ¬ ∃ text, ShowsString (letterAt 0x1000000) t'.mem (PageMap.linear 5) 0x1000000 0x500000 32 text := by
  obtain ⟨t', length, run, copied⟩ := copyStringOnHeap_fresh (n := 32) (by decide) (letterAt 0x1000000)
    (PageMap.linear 5) 0x1000000
  refine ⟨_, t', run, fun shows => ?_⟩
  have undisturbed := copied.shows_iff.mp shows 0 (by decide) nofun
  rw [temporary_freshHeap] at undisturbed
  revert undisturbed
  decide

/-- A letter on the first page of a program. -/
theorem copied_string_iff_letter :
    ∃ later t' pages', copyStringOnHeap freshHeap ⟨letterAt 0x400000, []⟩ (PageMap.linear 5) 0x400000
        0x500000 (32 : Nat) = some (0, later, t', pages') ∧
      ∃ text, ShowsString (letterAt 0x400000) t'.mem (PageMap.linear 5) 0x400000 0x500000 32 text := by
  obtain ⟨t', length, run, -⟩ := copyStringOnHeap_fresh (n := 32) (by decide) (letterAt 0x400000)
    (PageMap.linear 5) 0x400000
  refine ⟨_, t', _, run, (copied_string_iff freshHeap_table (by decide) (fun j inside => ?_) run).mpr ?_⟩
  · exact inUse_below freshHeap_table (by bv_omega)
  · intro i inside _
    rw [temporary_freshHeap]
    exact .inl (lentByte_beside (by decide) (by decide) inside (readableBeside_program inside))

end ConiferOS.Process
