import ConiferOS.Memory.Ends
import Mathlib.Data.Multiset.Bind

/-! # Who owns the blocks of the kernel heap

The table of the heap says which blocks make up an allocation, but not whose it is. Here
its users claim allocations: each claim is of a live one, and no two are of the same. The
rules say how the claims change when the heap is used.
-/

namespace ConiferOS.Heap

/-- Block `b` belongs to the allocation at `ptr`, as the table has it. -/
def InAllocation (heap : HeapDesc) (ptr : Word) (b : Int) : Prop :=
  ∃ start, 0 ≤ start ∧ start ≤ b ∧ b < heap.total ∧ ptr = heapBlockToAddress heap start ∧
    heap.entry start &&& blockIsFirst ≠ 0 ∧ heapGetEntryType (heap.entry b) = entryTaken ∧
    ∀ c, start ≤ c → c < b → heap.entry c &&& blockHasNext ≠ 0

namespace KernelHeap

variable {heap : HeapDesc} {live : List Allocation}

/-- A block has one owner. -/
theorem owner_unique (kernel : KernelHeap heap live) {a b : Allocation} (ha : a ∈ live)
    (hb : b ∈ live) {i : Int} (mine : a.Owns heap i) (yours : b.Owns heap i) : a = b := by
  by_contra distinct
  have : Std.Symm fun a b : Allocation => ∀ i, ¬ (a.Owns heap i ∧ b.Owns heap i) :=
    ⟨fun x y disjoint i both => disjoint i both.symm⟩
  exact kernel.table.disjoint.forall ha hb distinct i ⟨mine, yours⟩

theorem inAllocation_iff (kernel : KernelHeap heap live) {ptr : Word} {b : Int} :
    InAllocation heap ptr b ↔ ∃ a ∈ live, a.ptr = ptr ∧ a.Owns heap b := by
  constructor
  · rintro ⟨start, lower, below, upper, address, first, -, chain⟩
    obtain ⟨a, member, rfl⟩ := (kernel.table.described.first start lower
      (lt_of_le_of_lt below upper)).mp first
    refine ⟨a, member, (kernel.table.bounds a member).2.2.2.trans address.symm, ?_⟩
    -- Along the chain no block is the last one.
    have reached : ∀ n : Nat, a.start + n ≤ b → a.Owns heap (a.start + n) := by
      intro n
      induction n with
      | zero =>
          intro _
          simpa using kernel.table.owns_start member
      | succ n ih =>
          intro bound
          have owns := ih (by push_cast at bound; omega)
          have goesOn := (kernel.table.described.next a member _ owns).mp
            (chain _ (by omega) (by push_cast at bound; omega))
          obtain ⟨_, inside, _⟩ := owns
          exact ⟨by omega, by push_cast; omega, by omega⟩
    have last := reached (b - a.start).toNat (by omega)
    rwa [Int.toNat_of_nonneg (by omega), add_sub_cancel] at last
  · rintro ⟨a, member, rfl, owns⟩
    obtain ⟨lower, inTable, pos, address⟩ := kernel.table.bounds a member
    obtain ⟨above, inside, upper⟩ := owns
    refine ⟨a.start, lower, above, upper, address, ?_, ?_, ?_⟩
    · exact (kernel.table.described.first a.start lower inTable).mpr ⟨a, member, rfl⟩
    · exact (kernel.table.described.taken b (by omega) upper).mpr ⟨a, member, above, inside, upper⟩
    · intro c from_start before
      have here : a.Owns heap c := ⟨from_start, by omega, by omega⟩
      exact (kernel.table.described.next a member c here).mpr (by omega)

end KernelHeap

/-- What the search finds for a request lies in the heap. -/
def HasRoom (heap : HeapDesc) (size : Word) : Prop :=
  0 ≤ heapGetStartBlockIndex heap (blocksFor size) →
    4096 * heapGetStartBlockIndex heap (blocksFor size) + size.toNat ≤ (kernelHeapSize : Int)

/-- A single block is never cut off. -/
theorem hasRoom_block {heap : HeapDesc} (table : KernelTable heap) {size : Word}
    (small : size.toNat ≤ 4096) : HasRoom heap size := by
  intro found
  have upper := (heapGetStartBlockIndex_spec heap (blocksFor size) found).1
  have heapSize : (kernelHeapSize : Int) = 104857600 := rfl
  rw [table.total] at upper
  omega

theorem KernelTable.kzalloc_eq {heap : HeapDesc} {size : Word} (table : KernelTable heap)
    (room : HasRoom heap size) : kzalloc heap size = some (heapMalloc heap size) := by
  refine if_pos fun found => ?_
  have upper := (heapGetStartBlockIndex_spec heap (blocksFor size) found).1
  have bound := room found
  have tableAddr : kernelHeapTableAddr.toNat = 0x7E00 := rfl
  have heapSize : (kernelHeapSize : Int) = 104857600 := rfl
  rw [table.total] at upper
  have blocks := blocksFor_eq size (by omega)
  rw [heapBlockToAddress_kernel table.start found upper, tableAddr, kernelImageAddr]
  omega

/-! ## Claims -/

/-- A claim of the allocation at `ptr`, and of its number of blocks if that matters. -/
structure Claim where
  ptr : Word
  blocks : Option Nat

namespace Claim

def Of (claim : Claim) (a : Allocation) : Prop := a.ptr = claim.ptr ∧ ∀ n ∈ claim.blocks, a.blocks = n

def sized (ptr : Word) (n : Nat) : Claim := ⟨ptr, some n⟩

def bare (ptr : Word) : Claim := ⟨ptr, none⟩

@[simp] theorem sized_ptr (ptr : Word) (n : Nat) : (sized ptr n).ptr = ptr := rfl

@[simp] theorem bare_ptr (ptr : Word) : (bare ptr).ptr = ptr := rfl

def bares (ptrs : List Word) : Multiset Claim := (ptrs.map bare : List Claim)

@[simp] theorem bares_nil : bares [] = 0 := rfl

@[simp] theorem bares_cons (ptr : Word) (ptrs : List Word) :
    bares (ptr :: ptrs) = bare ptr ::ₘ bares ptrs := rfl

@[simp] theorem bares_append (ptrs more : List Word) :
    bares (ptrs ++ more) = bares ptrs + bares more := by
  simp [bares]

end Claim

/-- Each claim is of a live allocation, and no two are of the same. -/
structure Claimed (claims : Multiset Claim) (heap : HeapDesc) (live : List Allocation) : Prop where
  kernel : KernelHeap heap live
  there : ∀ claim ∈ claims, ∃ a ∈ live, claim.Of a
  distinct : (claims.map Claim.ptr).Nodup

/-- Allocations that nobody claims may be there as well. -/
def Owned (claims : Multiset Claim) (heap : HeapDesc) : Prop := ∃ live, Claimed claims heap live

namespace Owned

variable {claims fewer : Multiset Claim} {heap later : HeapDesc} {claim : Claim} {size : Word}

theorem mono (owned : Owned claims heap) (le : fewer ≤ claims) : Owned fewer heap := by
  obtain ⟨live, claimed⟩ := owned
  refine ⟨live, claimed.kernel, fun claim member => ?_, ?_⟩
  · exact claimed.there claim (Multiset.mem_of_le le member)
  · exact Multiset.nodup_of_le (Multiset.map_le_map le) claimed.distinct

/-- A claim on what has been allocated. -/
theorem malloc (owned : Owned claims heap) (pos : 0 < blocksFor size)
    (found : 0 ≤ heapGetStartBlockIndex heap (blocksFor size))
    (mine : claim.ptr = (heapMalloc heap size).1) (sizes : ∀ n ∈ claim.blocks, n = blocksFor size) :
    Owned (claim ::ₘ claims) (heapMalloc heap size).2 := by
  obtain ⟨live, claimed⟩ := owned
  have made := claimed.kernel.malloc pos found
  refine ⟨_, made, ?_, ?_⟩
  · intro other member
    rcases Multiset.mem_cons.mp member with rfl | old
    · exact ⟨_, List.mem_cons_self, mine.symm, fun n known => (sizes n known).symm⟩
    · obtain ⟨a, there, isOf⟩ := claimed.there other old
      exact ⟨a, List.mem_cons_of_mem _ there, isOf⟩
  · rw [Multiset.map_cons, Multiset.nodup_cons]
    refine ⟨fun taken => ?_, claimed.distinct⟩
    obtain ⟨other, member, same⟩ := Multiset.mem_map.mp taken
    obtain ⟨a, there, isOf⟩ := claimed.there other member
    exact made.ptr_fresh there (isOf.1.trans (same.trans mine))

/-- Freeing what is claimed. -/
theorem free (owned : Owned (claim ::ₘ claims) heap) : Owned claims (kfree heap claim.ptr) := by
  obtain ⟨live, claimed⟩ := owned
  obtain ⟨a, mine, isOf⟩ := claimed.there claim (Multiset.mem_cons_self claim claims)
  have distinct := claimed.distinct
  rw [Multiset.map_cons, Multiset.nodup_cons] at distinct
  refine ⟨_, claimed.kernel.free ⟨a, mine, isOf.1⟩, fun other member => ?_, distinct.2⟩
  obtain ⟨b, there, others⟩ := claimed.there other (Multiset.mem_cons_of_mem member)
  refine ⟨b, (List.mem_eraseP_of_neg ?_).mpr there, others⟩
  simp only [decide_eq_true_eq]
  intro same
  exact distinct.1 (Multiset.mem_map.mpr ⟨other, member, others.1.symm.trans same⟩)

/-- Calls that change no entry of the table. -/
theorem of_sameTable (owned : Owned claims heap) (table : KernelTable later)
    (same : SameTable heap later) : Owned claims later := by
  obtain ⟨live, claimed⟩ := owned
  have total : later.total = heap.total := table.total.trans claimed.kernel.total.symm
  have start : later.startAddr = heap.startAddr := table.start.trans claimed.kernel.start.symm
  exact ⟨live, ⟨claimed.kernel.table.congr total start same, table.start, table.total, table.signature⟩,
    claimed.there, claimed.distinct⟩

theorem kernelTable (owned : Owned claims heap) : KernelTable heap := by
  obtain ⟨live, claimed⟩ := owned
  exact claimed.kernel.kernelTable

theorem aligned (owned : Owned claims heap) (member : claim ∈ claims) : claim.ptr.toNat % 4096 = 0 := by
  obtain ⟨live, claimed⟩ := owned
  obtain ⟨a, there, isOf⟩ := claimed.there claim member
  rw [← isOf.1, claimed.kernel.ptr_toNat there]
  omega

theorem free_null (owned : Owned claims heap) : Owned claims (kfree heap 0) := by
  obtain ⟨live, claimed⟩ := owned
  exact ⟨live, claimed.kernel.free_null, claimed.there, claimed.distinct⟩

/-- Freeing what nobody claims. -/
theorem free_unclaimed (owned : Owned claims heap) {ptr : Word} (live : ∃ b, InAllocation heap ptr b)
    (unclaimed : ∀ claim ∈ claims, claim.ptr ≠ ptr) : Owned claims (kfree heap ptr) := by
  obtain ⟨allocations, claimed⟩ := owned
  obtain ⟨b, inside⟩ := live
  obtain ⟨a, member, rfl, -⟩ := claimed.kernel.inAllocation_iff.mp inside
  have more : Owned (.bare a.ptr ::ₘ claims) heap := by
    refine ⟨allocations, claimed.kernel, fun claim among => ?_, ?_⟩
    · rcases Multiset.mem_cons.mp among with rfl | old
      · exact ⟨a, member, rfl, nofun⟩
      · exact claimed.there claim old
    · rw [Multiset.map_cons, Multiset.nodup_cons]
      refine ⟨fun taken => ?_, claimed.distinct⟩
      obtain ⟨claim, old, same⟩ := Multiset.mem_map.mp taken
      exact unclaimed claim old same
  exact more.free

/-- An allocation that nobody claims. -/
theorem leak (owned : Owned claims heap) (size : Word) : Owned claims (heapMalloc heap size).2 := by
  by_cases found : 0 ≤ heapGetStartBlockIndex heap (blocksFor size)
  · rcases Nat.eq_zero_or_pos (blocksFor size) with empty | pos
    · rw [(KernelHeap.heapMalloc_empty empty found).1]
      exact owned
    · have made : Owned (.bare (heapMalloc heap size).1 ::ₘ claims) (heapMalloc heap size).2 :=
        owned.malloc pos found rfl nofun
      exact made.mono (Multiset.le_cons_self _ _)
  · rw [KernelHeap.heapMalloc_failed (not_le.mp found)]
    exact owned

/-- Taking an allocation back at once. -/
theorem malloc_free (owned : Owned claims heap) (size : Word) :
    Owned claims (kfree (heapMalloc heap size).2 (heapMalloc heap size).1) := by
  by_cases found : 0 ≤ heapGetStartBlockIndex heap (blocksFor size)
  · rcases Nat.eq_zero_or_pos (blocksFor size) with empty | pos
    · obtain ⟨live, claimed⟩ := owned
      exact ⟨live, claimed.kernel.malloc_free_empty empty found, claimed.there, claimed.distinct⟩
    · have made : Owned (.bare (heapMalloc heap size).1 ::ₘ claims) (heapMalloc heap size).2 :=
        owned.malloc pos found rfl nofun
      exact made.free
  · rw [KernelHeap.heapMalloc_failed (not_le.mp found)]
    exact owned.free_null

end Owned

/-- Claims with the same allocation. -/
theorem Claimed.same_block {claims : Multiset Claim} {heap : HeapDesc} {live : List Allocation}
    (claimed : Claimed claims heap live) {a : Allocation} (member : a ∈ live) {b : Int}
    (owns : a.Owns heap b) {ptr : Word} (inside : InAllocation heap ptr b) : ptr = a.ptr := by
  obtain ⟨other, there, rfl, also⟩ := claimed.kernel.inAllocation_iff.mp inside
  rw [claimed.kernel.owner_unique there member also owns]

end ConiferOS.Heap
