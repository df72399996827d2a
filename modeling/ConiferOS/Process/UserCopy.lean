import ConiferOS.Memory.BoundedCopy
import ConiferOS.Memory.PageMap
import ConiferOS.Memory.Paging

/-! # Copying from user memory

The kernel reads the memory of a task by switching to the task's page tables, into which
it has mapped a page that it can write. Which blocks the heap hands out is an argument:
`tmp` is the block of one copy.
-/

namespace ConiferOS.Process

open Lib Paging

/-! ## Access through page tables -/

def loadVia (view : Word → Word) (m : Mem) (a : Word) : Word :=
  m (view (a + 3)) ++ m (view (a + 2)) ++ m (view (a + 1)) ++ m (view a)

def storeVia (view : Word → Word) (m : Mem) (a v : Word) : Mem :=
  (((m.store8 (view a) (v.extractLsb' 0 8)).store8 (view (a + 1)) (v.extractLsb' 8 8)).store8
    (view (a + 2)) (v.extractLsb' 16 8)).store8 (view (a + 3)) (v.extractLsb' 24 8)

/-- `paging_map_range` of the page at `addr` to itself. -/
def sharePage (pages : PageMap) (addr : Word) : PageMap :=
  (PageCall.mapRange addr addr 1
    (pagingReadWrite ||| pagingPresent ||| pagingUserSupervisor)).apply pages

/-- `paging_set` with the entry that was there before. -/
def unsharePage (pages : PageMap) (addr oldEntry : Word) : PageMap :=
  (PageCall.set addr oldEntry).apply pages

/-! ## The copies -/

/-- `copy_string_from_user_task`; `tmp` is what `kzalloc(max)` returned. -/
def copyStringFromUserTask (m : Mem) (pages : PageMap) (tmp taskVirtAddr kernelVirtAddr : Word)
    (max : Nat) : Int × Mem × PageMap :=
  if pagingPageSize ≤ max then (-einvarg, m, pages)
  else if tmp = 0 then (-enomem, m, pages)
  else
    let m := m.fill tmp max 0
    let oldEntry := pages.getPte tmp
    let shared := sharePage pages tmp
    let m := strncpy shared.translate m tmp taskVirtAddr max
    let restored := unsharePage shared tmp oldEntry
    if tmp.toNat % 4096 ≠ 0 then (-eio, m, restored)
    else (0, strncpy id m kernelVirtAddr tmp max, restored)

/-- The loop of `copy_argv_pointers_from_user_task`. -/
def copyPointers (view : Word → Word) (argvUsrAddr kernelArgv : Word) :
    (remaining i : Nat) → Mem → Mem
  | 0, _, m => m
  | remaining + 1, i, m =>
      copyPointers view argvUsrAddr kernelArgv remaining (i + 1)
        (storeVia view m (kernelArgv + BitVec.ofNat 32 (4 * i))
          (loadVia view m (argvUsrAddr + BitVec.ofNat 32 (4 * i))))

def copyArgvPointersFromUserTask (m : Mem) (pages : PageMap) (argvUsrAddr kernelArgv : Word)
    (argc : Int) : Int × Mem × PageMap :=
  if (pagingPageSize : Int) ≤ int32 (argc * maxCmmdArgLen) then (-einvarg, m, pages)
  else
    let oldEntry := pages.getPte kernelArgv
    let shared := sharePage pages kernelArgv
    let m := copyPointers shared.translate argvUsrAddr kernelArgv argc.toNat 0 m
    (if kernelArgv.toNat % 4096 ≠ 0 then -eio else 0, m, unsharePage shared kernelArgv oldEntry)

/-! ## Shared pages -/

variable {pages : PageMap}

theorem sharePage_translate {addr : Word} (aligned : addr.toNat % 4096 = 0) (va : Word) :
    (sharePage pages addr).translate va =
      if Page.number va = Page.number addr then addr + BitVec.ofNat 32 (va.toNat % 4096)
      else pages.translate va := by
  have accepted : (PageCall.mapRange addr addr 1
      (pagingReadWrite ||| pagingPresent ||| pagingUserSupervisor)).Accepted := ⟨aligned, aligned⟩
  simp only [sharePage, PageCall.apply, if_pos accepted, PageCall.effect, Int.toNat_one,
    PageMap.mapRange, PageMap.set, PageMap.translate, Nat.mul_zero, BitVec.add_zero]
  rw [Function.update_apply]
  split
  · rw [Page.or_and_frameMask aligned (by decide)]
  · rfl

/-- The task gets its own page back. -/
theorem unsharePage_sharePage (addr : Word) :
    unsharePage (sharePage pages addr) addr (pages.getPte addr) = pages := by
  by_cases aligned : addr.toNat % 4096 = 0
  · simp only [unsharePage, sharePage, PageCall.apply, PageCall.Accepted, aligned, and_self, if_true,
      PageCall.effect, Int.toNat_one, PageMap.mapRange, PageMap.set, PageMap.getPte,
      BitVec.add_zero, Function.update_idem, Function.update_eq_self]
  · simp only [unsharePage, sharePage, PageCall.apply, PageCall.Accepted, aligned, false_and, if_false]

@[simp] theorem copyStringFromUserTask_pages (m : Mem) (pages : PageMap) (tmp u kva : Word) (max : Nat) :
    (copyStringFromUserTask m pages tmp u kva max).2.2 = pages := by
  simp only [copyStringFromUserTask, unsharePage_sharePage]
  split_ifs <;> rfl

@[simp] theorem copyArgvPointersFromUserTask_pages (m : Mem) (pages : PageMap) (usr kernel : Word)
    (argc : Int) : (copyArgvPointersFromUserTask m pages usr kernel argc).2.2 = pages := by
  simp only [copyArgvPointersFromUserTask, unsharePage_sharePage]
  split_ifs <;> rfl

theorem direct_sharePage {tmp : Word} (aligned : tmp.toNat % 4096 = 0) {n : Nat} (small : n < 4096) :
    Direct (sharePage pages tmp).translate tmp n := by
  intro i bound
  rw [sharePage_translate aligned, if_pos (Page.number_add aligned (by omega))]
  bv_omega

/-! ## One string -/

/-- A byte of user memory that a copy through `tmp` reads and does not disturb. -/
structure ReadableBeside (pages : PageMap) (tmp va : Word) : Prop where
  page : Page.number va ≠ Page.number tmp
  frame : Page.number (pages.translate va) ≠ Page.number tmp

/-- One copy delivers the string, cut after `max` bytes, and changes only `tmp` and the
    destination. -/
theorem copyStringFromUserTask_text {m : Mem} {tmp u kva : Word} {max : Nat} {text : List Byte}
    (aligned : tmp.toNat % 4096 = 0) (nonnull : tmp ≠ 0) (small : max < 4096)
    (source : StringAt m pages.translate u text)
    (readable : ∀ k ≤ text.length, ReadableBeside pages tmp (u + BitVec.ofNat 32 k))
    (apart : ∀ j ≤ max, Page.number (kva + BitVec.ofNat 32 j) ≠ Page.number tmp) :
    ∃ m', copyStringFromUserTask m pages tmp u kva max = (0, m', pages) ∧
      StringAt m' id kva (text.take max) ∧
      ∀ x, Page.number x ≠ Page.number tmp →
        (∀ j ≤ (text.take max).length, x ≠ kva + BitVec.ofNat 32 j) → m' x = m x := by
  have onTmp : ∀ j ≤ max, Page.number (tmp + BitVec.ofNat 32 j) = Page.number tmp :=
    fun j bound => Page.number_add aligned (by omega)
  have cleared : ∀ x, Page.number x ≠ Page.number tmp → m.fill tmp max 0 x = m x := by
    intro x other
    refine Mem.fill_apply_of_le (not_lt.mp fun near => other ?_)
    rw [← onTmp (x - tmp).toNat (by omega)]
    congr 1
    bv_omega
  have view : ∀ k ≤ text.length, (sharePage pages tmp).translate (u + BitVec.ofNat 32 k) =
      pages.translate (u + BitVec.ofNat 32 k) := by
    intro k inside
    rw [sharePage_translate aligned, if_neg (readable k inside).page]
  have shared : StringAt (m.fill tmp max 0) (sharePage pages tmp).translate u text := by
    refine source.congr fun k inside => ?_
    rw [view k inside, cleared _ (readable k inside).frame]
  obtain ⟨first, firstFrame⟩ := strncpy_text (direct_sharePage aligned small) (by omega) shared
    (by
      intro k inside j bound same
      rw [view k inside] at same
      exact (readable k inside).frame (by rw [same, onTmp j bound]))
  have length : (text.take max).length ≤ max := List.length_take_le _ _
  have direct : Direct id kva max := fun _ _ => rfl
  obtain ⟨second, secondFrame⟩ := strncpy_text direct (by omega) first
    (by
      intro k inside j bound same
      refine apart j bound ?_
      rw [← same, id, onTmp k (by omega)])
  rw [List.take_take, min_self] at second secondFrame
  refine ⟨_, ?_, second, ?_⟩
  · have fits : ¬ pagingPageSize ≤ max := not_le.mpr small
    simp only [copyStringFromUserTask, if_neg fits, if_neg nonnull, unsharePage_sharePage, aligned,
      ne_eq, not_true, if_false]
  · intro x other outside
    rw [secondFrame x outside, firstFrame x, cleared x other]
    intro j bound same
    exact other (by rw [same, onTmp j (by omega)])

/-! ## The argument pointers -/

/-- Four bytes that a view moves as a whole. -/
theorem view_bytes {view : Word → Word} {a b : Word}
    (shift : ∀ i ≤ 3, view (a + BitVec.ofNat 32 i) = b + BitVec.ofNat 32 i) :
    view a = b ∧ view (a + 1) = b + 1 ∧ view (a + 2) = b + 2 ∧ view (a + 3) = b + 3 :=
  ⟨by simpa using shift 0 (by decide), shift 1 (by decide), shift 2 (by decide), shift 3 (by decide)⟩

theorem storeVia_eq {view : Word → Word} {a b : Word}
    (shift : ∀ i ≤ 3, view (a + BitVec.ofNat 32 i) = b + BitVec.ofNat 32 i) (m : Mem) (v : Word) :
    storeVia view m a v = m.store32 b v := by
  obtain ⟨h0, h1, h2, h3⟩ := view_bytes shift
  funext x
  simp only [storeVia, Mem.store8, Mem.store32, h0, h1, h2, h3]
  by_cases near : (x - b).toNat < 4
  · obtain rfl | rfl | rfl | rfl : x = b ∨ x = b + 1 ∨ x = b + 2 ∨ x = b + 3 := by bv_omega
    all_goals simp
  · rw [if_neg near, if_neg (by bv_omega), if_neg (by bv_omega), if_neg (by bv_omega),
      if_neg (by bv_omega)]

theorem loadVia_eq {view : Word → Word} {a b : Word}
    (shift : ∀ i ≤ 3, view (a + BitVec.ofNat 32 i) = b + BitVec.ofNat 32 i) (m : Mem) :
    loadVia view m a = m.load32 b := by
  obtain ⟨h0, h1, h2, h3⟩ := view_bytes shift
  rw [loadVia, h0, h1, h2, h3, Mem.load32]

theorem loadVia_congr {view view' : Word → Word} {m m' : Mem} {a : Word}
    (same : ∀ i < 4, m' (view' (a + BitVec.ofNat 32 i)) = m (view (a + BitVec.ofNat 32 i))) :
    loadVia view' m' a = loadVia view m a := by
  have h0 : m' (view' a) = m (view a) := by simpa using same 0 (by decide)
  have h1 : m' (view' (a + 1)) = m (view (a + 1)) := same 1 (by decide)
  have h2 : m' (view' (a + 2)) = m (view (a + 2)) := same 2 (by decide)
  have h3 : m' (view' (a + 3)) = m (view (a + 3)) := same 3 (by decide)
  rw [loadVia, loadVia, h0, h1, h2, h3]

/-- Pointer by pointer; what was copied is not touched again. -/
theorem copyPointers_spec {view : Word → Word} {usr kernel : Word} {argc : Nat}
    (small : 4 * argc < 2 ^ 31)
    (direct : ∀ i < 4 * argc, view (kernel + BitVec.ofNat 32 i) = kernel + BitVec.ofNat 32 i)
    (apart : ∀ i < 4 * argc, ∀ j < 4 * argc,
      view (usr + BitVec.ofNat 32 i) ≠ kernel + BitVec.ofNat 32 j) :
    ∀ (remaining i : Nat) (m : Mem), i + remaining = argc →
      (∀ j, i ≤ j → j < argc →
        (copyPointers view usr kernel remaining i m).load32 (kernel + BitVec.ofNat 32 (4 * j)) =
          loadVia view m (usr + BitVec.ofNat 32 (4 * j))) ∧
      ∀ x : Word, ((x - kernel).toNat < 4 * i ∨ 4 * argc ≤ (x - kernel).toNat) →
        copyPointers view usr kernel remaining i m x = m x := by
  intro remaining
  induction remaining with
  | zero =>
      intro i m count
      exact ⟨fun j lower upper => by omega, fun x _ => rfl⟩
  | succ remaining ih =>
      intro i m count
      have here : Direct view (kernel + BitVec.ofNat 32 (4 * i)) 3 := by
        intro k bound
        have address : kernel + BitVec.ofNat 32 (4 * i) + BitVec.ofNat 32 k =
            kernel + BitVec.ofNat 32 (4 * i + k) := by bv_omega
        rw [address]
        exact direct (4 * i + k) (by omega)
      rw [copyPointers, storeVia_eq here]
      obtain ⟨copied, frame⟩ := ih (i + 1) (m.store32 (kernel + BitVec.ofNat 32 (4 * i))
        (loadVia view m (usr + BitVec.ofNat 32 (4 * i)))) (by omega)
      constructor
      · intro j lower upper
        rcases Nat.lt_or_eq_of_le lower with later | rfl
        · rw [copied j later upper]
          refine loadVia_congr fun k bound => Mem.store32_apply_of_le ?_
          have address : usr + BitVec.ofNat 32 (4 * j) + BitVec.ofNat 32 k =
              usr + BitVec.ofNat 32 (4 * j + k) := by bv_omega
          rw [address]
          by_contra near
          refine apart (4 * j + k) (by omega)
            (4 * i + (view (usr + BitVec.ofNat 32 (4 * j + k)) -
              (kernel + BitVec.ofNat 32 (4 * i))).toNat) (by omega) ?_
          bv_omega
        · rw [← Mem.load32_store32_self m (kernel + BitVec.ofNat 32 (4 * i))
            (loadVia view m (usr + BitVec.ofNat 32 (4 * i)))]
          refine Mem.load32_congr fun x near => ?_
          rw [Mem.load32_store32_self]
          exact frame x (.inl (by bv_omega))
      · intro x outside
        rw [frame x (by omega)]
        exact Mem.store32_apply_of_le (by bv_omega)

end ConiferOS.Process
