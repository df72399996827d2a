import ConiferOS.Kernel.LoadClaims

/-! # Write isolation

What a process can write are blocks of its own. Each process claims the allocations that
it records, and every writable page is backed by one of them: the stack, the argument
block and the image as they were mapped, and the allocations of `malloc` page by page at
their own addresses, where `free` finds them again.
-/

namespace ConiferOS.Kernel

open Heap Lib Lib.Run Paging Process
open Claim (bares)

/-- The addresses of a process's own memory: its stack, its argument block, its executable
    and what is recorded in `mem_allocs`. -/
def Proc.Records (proc : Proc) (ptr : Word) : Prop :=
  ptr = proc.stackAddr ∨ ptr = proc.argBlock ∨ ptr = proc.image.buffer ∨
    ∃ i < processMaxAllocations, ptr = (proc.mem.memAllocs i).ptr

/-- Block `b` of the heap is owned by the process. -/
def Proc.Owns (heap : HeapDesc) (proc : Proc) (b : Int) : Prop :=
  ∃ ptr, proc.Records ptr ∧ InAllocation heap ptr b

/-- What a process can write is in blocks of its own, which are no other process's, and
    none of which the kernel keeps a process, a task or page tables in. -/
def State.Isolated (s : State) : Prop :=
  ∀ p : Nat, ∀ proc : Proc, s.procs[p]? = some proc → ∀ v, Writable (proc.mem.pages v) →
    ∃ b : Int, 0 ≤ b ∧ b < s.res.heap.total ∧
      proc.mem.pages v &&& Page.frameMask = heapBlockToAddress s.res.heap b ∧
      proc.Owns s.res.heap b ∧
      ∀ q : Nat, ∀ other : Proc, s.procs[q]? = some other → (other.Owns s.res.heap b → q = p) ∧
        ∀ ptr ∈ other.kernelBlocks, ¬ InAllocation s.res.heap ptr b

/-! ## Claims of processes -/

def slotClaims (allocation : MemAllocation) : Multiset Claim :=
  if allocation.ptr = 0 then 0 else {.sized allocation.ptr (blocksFor allocation.size)}

-- Irreducible, or comparing claims means to add up 1024 slots.

/-- The claims of the first `n` slots. -/
@[irreducible] def allocClaims (n : Nat) (memAllocs : Nat → MemAllocation) : Multiset Claim :=
  ∑ i ∈ Finset.range n, slotClaims (memAllocs i)

/-- The claims of a process on memory of its own. -/
@[irreducible] def Proc.userClaims (proc : Proc) : Multiset Claim :=
  (proc.memory.map fun region => Claim.sized region.1 (blocksFor region.2) : List Claim) +
    allocClaims processMaxAllocations proc.mem.memAllocs

@[irreducible] def Proc.claims (proc : Proc) : Multiset Claim :=
  proc.userClaims + bares proc.kernelBlocks

theorem Proc.claims_eq_base (proc : Proc) :
    proc.claims = proc.baseClaims + allocClaims processMaxAllocations proc.mem.memAllocs := by
  rw [claims, baseClaims, userClaims, add_right_comm]

def State.claims (s : State) : Multiset Claim := (s.procs : Multiset Proc).bind Proc.claims

theorem mem_allocClaims {n : Nat} {memAllocs : Nat → MemAllocation} {claim : Claim} :
    claim ∈ allocClaims n memAllocs ↔ ∃ i < n,
      (memAllocs i).ptr ≠ 0 ∧ claim = .sized (memAllocs i).ptr (blocksFor (memAllocs i).size) := by
  simp only [allocClaims, Multiset.mem_sum, Finset.mem_range, slotClaims]
  constructor
  · rintro ⟨i, bound, member⟩
    split at member
    case isTrue => exact absurd member (Multiset.notMem_zero claim)
    case isFalse used => exact ⟨i, bound, used, Multiset.mem_singleton.mp member⟩
  · rintro ⟨i, bound, used, rfl⟩
    exact ⟨i, bound, by rw [if_neg used]; exact Multiset.mem_singleton_self _⟩

theorem Proc.mem_userClaims {proc : Proc} {claim : Claim} :
    claim ∈ proc.userClaims ↔
      (∃ region ∈ proc.memory, .sized region.1 (blocksFor region.2) = claim) ∨
        claim ∈ allocClaims processMaxAllocations proc.mem.memAllocs := by
  rw [userClaims, Multiset.mem_add, Multiset.mem_coe, List.mem_map]

theorem Proc.mem_claims {proc : Proc} {claim : Claim} :
    claim ∈ proc.claims ↔
      claim ∈ proc.userClaims ∨ ∃ ptr ∈ proc.kernelBlocks, .bare ptr = claim := by
  rw [claims, Multiset.mem_add, bares, Multiset.mem_coe, List.mem_map]

/-- A slot that changes gives up its claim and gets a new one. -/
theorem allocClaims_update {n : Nat} {memAllocs : Nat → MemAllocation} {index : Nat}
    (bound : index < n) (allocation : MemAllocation) :
    slotClaims (memAllocs index) + allocClaims n (Function.update memAllocs index allocation) =
      slotClaims allocation + allocClaims n memAllocs := by
  have member : index ∈ Finset.range n := Finset.mem_range.mpr bound
  have others : ∑ i ∈ (Finset.range n).erase index,
      slotClaims (Function.update memAllocs index allocation i) =
        ∑ i ∈ (Finset.range n).erase index, slotClaims (memAllocs i) := by
    refine Finset.sum_congr rfl fun i other => ?_
    rw [Function.update_of_ne (Finset.ne_of_mem_erase other)]
  rw [allocClaims, allocClaims, ← Finset.add_sum_erase _ _ member, ← Finset.add_sum_erase _ _ member,
    others, Function.update_self, add_left_comm]

namespace State

variable {s : State} {p : Nat} {proc : Proc}

/-- What the other processes claim. -/
def othersClaims (s : State) (p : Nat) : Multiset Claim :=
  (s.procs.eraseIdx p : Multiset Proc).bind Proc.claims

theorem claims_eq (there : s.procs[p]? = some proc) : s.claims = proc.claims + s.othersClaims p := by
  obtain ⟨inside, here⟩ := List.getElem?_eq_some_iff.mp there
  have split : (s.procs : Multiset Proc) = proc ::ₘ (s.procs.eraseIdx p : Multiset Proc) :=
    Multiset.coe_eq_coe.mpr (here ▸ (List.getElem_cons_eraseIdx_perm inside).symm)
  rw [claims, split, Multiset.cons_bind, othersClaims]

theorem claims_setProc (there : s.procs[p]? = some proc) (other : Proc) :
    (s.setProc p other).claims = other.claims + s.othersClaims p := by
  obtain ⟨inside, -⟩ := List.getElem?_eq_some_iff.mp there
  have split : (s.procs.set p other : Multiset Proc) =
      other ::ₘ (s.procs.eraseIdx p : Multiset Proc) :=
    Multiset.coe_eq_coe.mpr (List.set_perm_cons_eraseIdx inside other)
  rw [claims, setProc, split, Multiset.cons_bind, othersClaims]

end State

/-! ## Writable pages -/

/-- The number of pages that `malloc` maps and `free` remaps. -/
def pagesOf (allocation : MemAllocation) : Nat :=
  ((pagingAlignAddress (allocation.ptr + allocation.size)).toNat - allocation.ptr.toNat) / 4096

/-- What a writable page `v` with its frame is a page of. -/
inductive Proc.Backs (proc : Proc) (v : BitVec 20) (frame : Word) : Prop where
  | memory (region : Word × Word) (j : Nat) (member : region ∈ proc.memory)
      (bound : j < blocksFor region.2) (same : frame = region.1 + BitVec.ofNat 32 (4096 * j))
  | alloc (i : Nat) (index : i < processMaxAllocations) (used : (proc.mem.memAllocs i).ptr ≠ 0)
      (mapped : (v - Page.number (proc.mem.memAllocs i).ptr).toNat < pagesOf (proc.mem.memAllocs i))
      (same : frame = (proc.mem.memAllocs i).ptr +
        BitVec.ofNat 32 (4096 * (v - Page.number (proc.mem.memAllocs i).ptr).toNat))

/-- What the calls of a process keep. -/
structure Proc.Kept (proc : Proc) : Prop where
  memory : ∀ region ∈ proc.memory, Inside region.1 region.2
  allocs : ∀ i < processMaxAllocations, (proc.mem.memAllocs i).ptr ≠ 0 →
    Inside (proc.mem.memAllocs i).ptr (proc.mem.memAllocs i).size
  backed : ∀ v, Writable (proc.mem.pages v) → proc.Backs v (proc.mem.pages v &&& Page.frameMask)

structure State.Inv (s : State) : Prop where
  owned : Owned s.claims s.res.heap
  kept : ∀ proc ∈ s.procs, proc.Kept

/-- What a process claims for itself it records. -/
theorem Proc.records_of_mem {proc : Proc} {claim : Claim} (member : claim ∈ proc.userClaims) :
    proc.Records claim.ptr := by
  rcases mem_userClaims.mp member with ⟨region, there, rfl⟩ | slot
  · simp only [memory, List.mem_cons, List.not_mem_nil, or_false] at there
    rcases there with rfl | rfl | rfl
    · exact .inl rfl
    · exact .inr (.inl rfl)
    · exact .inr (.inr (.inl rfl))
  · obtain ⟨i, bound, -, rfl⟩ := mem_allocClaims.mp slot
    exact .inr (.inr (.inr ⟨i, bound, rfl⟩))

/-- As many pages are mapped as there are blocks. -/
theorem pages_eq_blocks {ptr size : Word} (aligned : ptr.toNat % 4096 = 0) (inside : Inside ptr size) :
    ((pagingAlignAddress (ptr + size)).toNat - ptr.toNat) / 4096 = blocksFor size := by
  have bound : ptr.toNat + size.toNat ≤ 0x1000000 + 104857600 := inside
  have sum : (ptr + size).toNat = ptr.toNat + size.toNat := by bv_omega
  rw [pagingAlignAddress_eq _ (by omega), sum, blocksFor_eq size (by omega)]
  omega

/-- The claim behind a writable page. -/
theorem Proc.Kept.claim {proc : Proc} (kept : proc.Kept) {v : BitVec 20}
    (writable : Writable (proc.mem.pages v))
    (aligned : ∀ claim ∈ proc.userClaims, claim.ptr.toNat % 4096 = 0) :
    ∃ ptr size, ∃ j < blocksFor size, proc.Records ptr ∧ Inside ptr size ∧
      proc.mem.pages v &&& Page.frameMask = ptr + BitVec.ofNat 32 (4096 * j) ∧
      Claim.sized ptr (blocksFor size) ∈ proc.userClaims := by
  cases kept.backed v writable with
  | memory region j member bound same =>
      have claimed : Claim.sized region.1 (blocksFor region.2) ∈ proc.userClaims :=
        mem_userClaims.mpr (.inl ⟨region, member, rfl⟩)
      exact ⟨region.1, region.2, j, bound, records_of_mem claimed, kept.memory region member, same, claimed⟩
  | alloc i index used mapped same =>
      have claimed : Claim.sized (proc.mem.memAllocs i).ptr (blocksFor (proc.mem.memAllocs i).size) ∈
          proc.userClaims := mem_userClaims.mpr (.inr (mem_allocClaims.mpr ⟨i, index, used, rfl⟩))
      have inside := kept.allocs i index used
      have start := aligned _ claimed
      refine ⟨_, (proc.mem.memAllocs i).size, _, ?_, records_of_mem claimed, inside, same, claimed⟩
      rw [← pages_eq_blocks start inside]
      exact mapped

/-- What a process records is claimed. -/
theorem Proc.Records.claim {proc : Proc} {ptr : Word} (records : proc.Records ptr) (nonnull : ptr ≠ 0) :
    ∃ claim ∈ proc.userClaims, claim.ptr = ptr := by
  have fixed : ∀ region ∈ proc.memory, ∃ claim ∈ proc.userClaims, claim.ptr = region.1 :=
    fun region member => ⟨_, mem_userClaims.mpr (.inl ⟨region, member, rfl⟩), rfl⟩
  rcases records with rfl | rfl | rfl | ⟨i, bound, rfl⟩
  · exact fixed (proc.stackAddr, _) List.mem_cons_self
  · exact fixed (proc.argBlock, _) (List.mem_cons_of_mem _ List.mem_cons_self)
  · exact fixed (proc.image.buffer, _) (List.mem_cons_of_mem _ (List.mem_cons_of_mem _ List.mem_cons_self))
  · exact ⟨_, mem_userClaims.mpr (.inr (mem_allocClaims.mpr ⟨i, bound, nonnull, rfl⟩)), rfl⟩

namespace State

variable {s : State} {p q : Nat} {proc other : Proc} {live : List Allocation}

/-- Claims of different processes are of different allocations. -/
theorem claims_apart (claimed : Claimed s.claims s.res.heap live) (mine : s.procs[p]? = some proc)
    (yours : s.procs[q]? = some other) {claim also : Claim} (member : claim ∈ proc.claims)
    (there : also ∈ other.claims) (same : also.ptr = claim.ptr) : q = p := by
  by_contra distinct
  have far : also ∈ s.othersClaims p :=
    Multiset.mem_bind.mpr ⟨other,
      Multiset.mem_coe.mpr (List.mem_eraseIdx_iff_getElem?.mpr ⟨q, distinct, yours⟩), there⟩
  have nodup := claimed.distinct
  rw [claims_eq mine, Multiset.map_add, Multiset.nodup_add] at nodup
  exact Multiset.disjoint_left.mp nodup.2.2 (Multiset.mem_map_of_mem Claim.ptr member)
    (same ▸ Multiset.mem_map_of_mem Claim.ptr far)

/-- The kernel's blocks are not those that a process may write. -/
theorem kernel_apart (claimed : Claimed s.claims s.res.heap live) (mine : s.procs[p]? = some proc)
    {claim : Claim} (member : claim ∈ proc.userClaims) {ptr : Word} (kernel : ptr ∈ proc.kernelBlocks) :
    ptr ≠ claim.ptr := by
  rintro rfl
  have nodup := claimed.distinct
  rw [claims_eq mine, Proc.claims, Multiset.map_add, Multiset.map_add, Multiset.nodup_add,
    Multiset.nodup_add] at nodup
  have again : claim.ptr ∈ (bares proc.kernelBlocks).map Claim.ptr :=
    Multiset.mem_map.mpr ⟨.bare claim.ptr, Multiset.mem_coe.mpr (List.mem_map_of_mem kernel), rfl⟩
  exact Multiset.disjoint_left.mp nodup.1.2.2 (Multiset.mem_map_of_mem Claim.ptr member) again

theorem Inv.isolated (inv : s.Inv) : s.Isolated := by
  intro p proc there v writable
  have kept := inv.kept proc (List.mem_of_getElem? there)
  have mine : ∀ claim ∈ proc.userClaims, claim ∈ s.claims := by
    intro claim member
    rw [claims_eq there]
    exact Multiset.mem_add.mpr (.inl (Proc.mem_claims.mpr (.inl member)))
  obtain ⟨ptr, size, j, bound, records, inside, frame, member⟩ := kept.claim writable
    fun claim member => inv.owned.aligned (mine claim member)
  obtain ⟨live, claimed⟩ := inv.owned
  obtain ⟨a, alive, address, blocks⟩ := claimed.there _ (mine _ member)
  rw [Claim.sized_ptr] at address
  have count : a.blocks = blocksFor size := blocks _ rfl
  have start := claimed.kernel.ptr_toNat alive
  obtain ⟨lower, -, -, block⟩ := claimed.kernel.table.bounds a alive
  have total : s.res.heap.total = 25600 := claimed.kernel.total
  have fits : a.start + j < 25600 := by
    have bytes : ptr.toNat + size.toNat ≤ 0x1000000 + 104857600 := inside
    have rounded := blocksFor_eq size (by omega)
    rw [address] at start
    omega
  have owns : a.Owns s.res.heap (a.start + j) := ⟨by omega, by omega, by omega⟩
  have only : ∀ other, InAllocation s.res.heap other (a.start + j) → other = ptr := by
    intro other inAllocation
    rw [claimed.same_block alive owns inAllocation]
    exact address
  refine ⟨a.start + j, by omega, by omega, ?_, ⟨ptr, records, ?_⟩, ?_⟩
  · rw [frame, heapBlockToAddress_add, ← address]
    exact congrArg (· + _) block
  · exact claimed.kernel.inAllocation_iff.mpr ⟨a, alive, address, owns⟩
  · intro q other at_q
    refine ⟨?_, ?_⟩
    · rintro ⟨theirs, recorded, inAllocation⟩
      obtain rfl := only theirs inAllocation
      have nonnull : theirs ≠ 0 := address ▸ claimed.kernel.ptr_ne_zero alive
      obtain ⟨also, user, same⟩ := recorded.claim nonnull
      exact claims_apart claimed there at_q (Proc.mem_claims.mpr (.inl member))
        (Proc.mem_claims.mpr (.inl user)) same
    · intro theirs kernel inAllocation
      obtain rfl := only theirs inAllocation
      obtain rfl := claims_apart claimed there at_q (Proc.mem_claims.mpr (.inl member))
        (Proc.mem_claims.mpr (.inr ⟨theirs, kernel, rfl⟩)) rfl
      obtain rfl : proc = other := Option.some.inj (there.symm.trans at_q)
      exact kernel_apart claimed there member kernel rfl

end State

/-! ## New processes -/

/-- What `free` leaves, and what a new task sees where nothing is mapped. -/
theorem and_readWrite {frame : Word} (aligned : frame.toNat % 4096 = 0) :
    (frame ||| (pagingUserSupervisor ||| pagingPresent)) &&& pagingReadWrite = 0 := by
  have low : frame.getLsbD 1 = false := by
    rw [BitVec.getLsbD, Nat.testBit_eq_decide_div_mod_eq, decide_eq_false_iff_not]
    omega
  have bit : pagingReadWrite = BitVec.twoPow 32 1 := by decide
  have none : frame &&& pagingReadWrite = 0 := by
    rw [bit, BitVec.and_twoPow, low]
    rfl
  rw [BitVec.and_comm, BitVec.and_or_distrib_left, BitVec.and_comm, none]
  decide

theorem not_writable {frame : Word} (aligned : frame.toNat % 4096 = 0) :
    ¬ Writable (frame ||| (pagingUserSupervisor ||| pagingPresent)) :=
  fun writable => writable.2 (and_readWrite aligned)

theorem taskPages_eq (v : BitVec 20) :
    taskPages v = Page.base v ||| (pagingUserSupervisor ||| pagingPresent) := rfl

theorem not_writable_taskPages (v : BitVec 20) : ¬ Writable (taskPages v) := by
  rw [taskPages_eq]
  exact not_writable (by rw [Page.toNat_base]; omega)

/-- A page of a mapped range. -/
theorem range_frame {ptr size : Word} (aligned : ptr.toNat % 4096 = 0) (inside : Inside ptr size)
    {k : Nat} (bound : k < ((pagingAlignAddress (ptr + size)).toNat - ptr.toNat) / 4096) :
    k < blocksFor size ∧
      ((ptr + BitVec.ofNat 32 (4096 * k)) ||| userWritable) &&& Page.frameMask =
        ptr + BitVec.ofNat 32 (4096 * k) := by
  rw [pages_eq_blocks aligned inside] at bound
  refine ⟨bound, Page.or_and_frameMask ?_ (by decide)⟩
  rw [BitVec.toNat_add, BitVec.toNat_ofNat]
  omega

theorem Proc.Started.kept {proc : Proc} (started : proc.Started)
    (aligned : ∀ region ∈ proc.memory, region.1.toNat % 4096 = 0) : proc.Kept where
  memory := started.inside
  allocs := fun i _ used => absurd (by rw [started.allocs]) used
  backed := by
    intro v writable
    have stack : (proc.stackAddr, BitVec.ofNat 32 taskStackSize) ∈ proc.memory := List.mem_cons_self
    have args : (proc.argBlock, BitVec.ofNat 32 lenArgBlock) ∈ proc.memory :=
      List.mem_cons_of_mem _ List.mem_cons_self
    have image : (proc.image.buffer, proc.image.size) ∈ proc.memory :=
      List.mem_cons_of_mem _ (List.mem_cons_of_mem _ List.mem_cons_self)
    rw [started.pages, processMapTaskMemory_page started.mapped v] at writable ⊢
    cases entry : proc.image.executable.entry v with
    | some value =>
        rw [entry, Option.getD_some] at writable
        rw [Option.getD_some]
        have confined := started.confined
        have start := aligned _ image
        have inside := started.inside _ image
        generalize proc.image = loaded at *
        cases loaded with
        | elf elfFile buffer size phdrs =>
            obtain ⟨j, bound, frame⟩ := confined.2 v value entry writable
            exact .memory _ j image bound frame
        | binary buffer size =>
            simp only [Image.executable, Executable.entry] at entry
            split at entry
            case isFalse => cases entry
            case isTrue bound =>
              cases entry
              obtain ⟨within, frame⟩ := range_frame start inside bound
              exact .memory _ _ image within frame
    | none =>
        rw [entry, Option.getD_none] at writable
        rw [Option.getD_none]
        split at writable
        case isTrue bound =>
          obtain ⟨within, frame⟩ := range_frame (aligned _ args) (started.inside _ args) bound
          rw [if_pos bound]
          exact .memory _ _ args within frame
        case isFalse beyond =>
          rw [if_neg beyond]
          split at writable
          case isTrue bound =>
            obtain ⟨within, frame⟩ := range_frame (aligned _ stack) (started.inside _ stack) bound
            rw [if_pos bound]
            exact .memory _ _ stack within frame
          case isFalse => exact absurd writable (not_writable_taskPages v)

theorem allocClaims_blank (n : Nat) : allocClaims n (fun _ => ⟨0, 0⟩) = 0 := by
  simp [allocClaims, slotClaims]

end ConiferOS.Kernel
