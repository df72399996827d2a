import ConiferOS.Kernel.Isolation

/-! # Runs that keep processes apart

Every operation of the kernel keeps the invariant of write isolation as long as its
requests are given blocks of the heap, its pages are its own, and nobody exits.
-/

namespace ConiferOS.Kernel

open Heap Lib Lib.Run Loader Paging Process

/-! ## Slots of `mem_allocs` -/

namespace Proc

/-- A process with new pages and another allocation in a slot. -/
def remap (proc : Proc) (pages : PageMap) (index : Nat) (allocation : MemAllocation) : Proc :=
  { proc with mem := ({ proc.mem with pages := pages } : ProcessMem).setAllocation index allocation }

variable {proc : Proc} {pages : PageMap} {index : Nat} {allocation : MemAllocation}

theorem remap_memAllocs : (proc.remap pages index allocation).mem.memAllocs =
    Function.update proc.mem.memAllocs index allocation := rfl

theorem claims_remap (bound : index < processMaxAllocations) (pages : PageMap)
    (allocation : MemAllocation) :
    slotClaims (proc.mem.memAllocs index) + (proc.remap pages index allocation).claims =
      slotClaims allocation + proc.claims := by
  have base : (proc.remap pages index allocation).baseClaims = proc.baseClaims := rfl
  rw [claims_eq_base, claims_eq_base, base, remap_memAllocs, add_left_comm, allocClaims_update bound,
    add_left_comm]

/-- A page of something else than the slot that changes. -/
theorem Backs.remap {v : BitVec 20} {frame : Word} (backs : proc.Backs v frame)
    (other : (proc.mem.memAllocs index).ptr ≠ 0 →
      ¬ (v - Page.number (proc.mem.memAllocs index).ptr).toNat < pagesOf (proc.mem.memAllocs index)) :
    (proc.remap pages index allocation).Backs v frame := by
  cases backs with
  | memory region j member bound same => exact .memory region j member bound same
  | alloc i bound used mapped same =>
      have apart : i ≠ index := by
        rintro rfl
        exact other used mapped
      have slot : (proc.remap pages index allocation).mem.memAllocs i = proc.mem.memAllocs i := by
        rw [remap_memAllocs, Function.update_of_ne apart]
      exact .alloc i bound (slot ▸ used) (slot ▸ mapped) (slot ▸ same)

theorem Kept.remap (kept : proc.Kept) (inside : allocation.ptr ≠ 0 → Inside allocation.ptr allocation.size)
    (backed : ∀ v, Writable (pages v) →
      (proc.remap pages index allocation).Backs v (pages v &&& Page.frameMask)) :
    (proc.remap pages index allocation).Kept where
  memory := kept.memory
  allocs := by
    intro i bound used
    rw [remap_memAllocs] at used ⊢
    by_cases same : i = index
    · subst same
      rw [Function.update_self] at used ⊢
      exact inside used
    · rw [Function.update_of_ne same] at used ⊢
      exact kept.allocs i bound used
  backed := backed

end Proc

/-! ## Operations -/

namespace State

variable {s : State} {p : Nat} {proc : Proc} {file : LoadFile}

/-- A load that has a slot does not make the kernel write over its own memory, and harms
    nobody. -/
def LoadOk (s : State) (file : LoadFile) : Prop :=
  ∀ pid, s.processGetFreeSlot = some pid →
    processLoadForSlot s.res.fresh pid file ≠ none ∧ LoadFits s.res.fresh file

theorem Inv.owns (inv : s.Inv) : s.res.fresh.Owns s.claims := by
  rw [Resources.Owns]
  simpa [Resources.fresh] using inv.owned

theorem Inv.load (inv : s.Inv) (ok : s.LoadOk file) :
    ∃ later result, s.processLoad file = some (later, result) ∧ later.Inv := by
  rw [processLoad]
  cases slot : s.processGetFreeSlot with
  | none => exact ⟨s, none, rfl, inv⟩
  | some pid =>
      obtain ⟨runs, fits⟩ := ok pid slot
      obtain ⟨⟨r, result⟩, run⟩ := Option.ne_none_iff_exists'.mp runs
      obtain ⟨owns, started⟩ := processLoadForSlot_owns inv.owns fits run
      have owned : Owned (result.elim 0 Proc.baseClaims + s.claims) r.heap :=
        Owned.mono owns (Multiset.le_add_right _ _)
      simp only [run, Option.bind_eq_bind, Option.bind_some]
      cases result with
      | none =>
          rw [Option.elim, zero_add] at owned
          exact ⟨_, _, rfl, owned, inv.kept⟩
      | some proc =>
          have fresh := started proc rfl
          have mine : proc.claims = proc.baseClaims := by
            rw [proc.claims_eq_base, fresh.allocs, allocClaims_blank, add_zero]
          refine ⟨_, _, rfl, ?_, ?_⟩
          · rw [claims, ← Multiset.coe_add, Multiset.add_bind, Multiset.coe_singleton,
              Multiset.singleton_bind, mine, add_comm]
            exact owned
          · intro other member
            rcases List.mem_append.mp member with old | new
            · exact inv.kept other old
            · obtain rfl := List.mem_singleton.mp new
              refine fresh.kept fun region there => ?_
              have claim : Claim.sized region.1 (blocksFor region.2) ∈ other.baseClaims :=
                Multiset.mem_add.mpr (.inl (Multiset.mem_coe.mpr (List.mem_map_of_mem there)))
              exact owned.aligned (Multiset.mem_add.mpr (.inl claim))

/-- A call of one process that keeps what the others claim. -/
theorem Inv.update (inv : s.Inv) (there : s.procs[p]? = some proc) {after : Proc} {heap : HeapDesc}
    (owned : Owned (after.claims + s.othersClaims p) heap) (kept : after.Kept) :
    ((s.setHeap heap).setProc p after).Inv where
  owned := by
    rw [claims_setProc (s := s.setHeap heap) there]
    exact owned
  kept := by
    intro other member
    rcases List.mem_or_eq_of_mem_set member with old | rfl
    · exact inv.kept other old
    · exact kept

/-- A call that only leaves other blocks in the heap. -/
theorem Inv.idle (inv : s.Inv) (there : s.procs[p]? = some proc) {heap : HeapDesc}
    (owned : Owned s.claims heap) : ((s.setHeap heap).setProc p proc).Inv := by
  rw [claims_eq there] at owned
  exact inv.update there owned (inv.kept proc (List.mem_of_getElem? there))

/-- An allocation in a slot that was free. -/
theorem Inv.allocated (inv : s.Inv) (there : s.procs[p]? = some proc) {heap : HeapDesc} {ptr size : Word}
    {index : Nat} (bound : index < processMaxAllocations) (free : (proc.mem.memAllocs index).ptr = 0)
    (nonnull : ptr ≠ 0) (owned : Owned (.sized ptr (blocksFor size) ::ₘ s.claims) heap)
    (inside : Inside ptr size) {pages : PageMap}
    (mapped : ∀ v, pages v =
      if (v - Page.number ptr).toNat < ((pagingAlignAddress (ptr + size)).toNat - ptr.toNat) / 4096 then
        (ptr + BitVec.ofNat 32 (4096 * (v - Page.number ptr).toNat)) ||| userWritable
      else proc.mem.pages v) :
    ((s.setHeap heap).setProc p (proc.remap pages index ⟨ptr, size⟩)).Inv := by
  have kept := inv.kept proc (List.mem_of_getElem? there)
  have aligned : ptr.toNat % 4096 = 0 := owned.aligned (Multiset.mem_cons_self _ s.claims)
  refine inv.update there ?_ (kept.remap (fun _ => inside) ?_)
  · have more := proc.claims_remap bound pages ⟨ptr, size⟩
    rw [slotClaims, if_pos free, zero_add, slotClaims, if_neg nonnull] at more
    rw [more, add_assoc, ← claims_eq there]
    exact owned
  · intro v writable
    rw [mapped v] at writable ⊢
    split at writable
    case isTrue within =>
      rw [if_pos within]
      have slot : (proc.remap pages index ⟨ptr, size⟩).mem.memAllocs index = ⟨ptr, size⟩ := by
        rw [Proc.remap_memAllocs, Function.update_self]
      obtain ⟨-, frame⟩ := range_frame aligned inside within
      refine .alloc index bound ?_ ?_ ?_
      · rw [slot]
        exact nonnull
      · rw [slot]
        exact within
      · rw [slot]
        exact frame
    case isFalse beyond =>
      rw [if_neg beyond]
      exact (kept.backed v writable).remap fun used => absurd free used

/-- The slot of a new allocation is found free, so that what it maps is a page of nothing
    else. -/
theorem Inv.malloc (inv : s.Inv) (there : s.procs[p]? = some proc) {size : Word}
    (contained : KzallocContained s.res.heap size)
    (fits : processGetFreeMemoryAllocationSlot proc.mem = none ∨ HasRoom s.res.heap size ∧
      (size = 0 → heapGetStartBlockIndex s.res.heap (blocksFor size) < 0)) :
    ∃ ptr heap mem, processMallocSyscallHandler s.res.heap proc.mem size = some (ptr, heap, mem) ∧
      ((s.setHeap heap).setProc p { proc with mem := mem }).Inv := by
  rcases processMallocSyscallHandler_cases proc.mem contained with back | ⟨index, slot, nonnull, mapped, made⟩
  · exact ⟨_, _, _, back, inv.idle there (inv.owned.malloc_free size)⟩
  · obtain ⟨bound, free⟩ := processGetFreeMemoryAllocationSlot_eq_some slot
    obtain ⟨room, nonempty⟩ : HasRoom s.res.heap size ∧
        (size = 0 → heapGetStartBlockIndex s.res.heap (blocksFor size) < 0) := by
      rcases fits with none | both
      · cases slot.symm.trans none
      · exact both
    have served : kzalloc s.res.heap size = some (heapMalloc s.res.heap size) := if_pos contained
    have asked : size ≠ 0 := fun zero =>
      nonnull ((inv.owned.kernelTable.heapMalloc_null_iff size).mpr (nonempty zero))
    obtain ⟨owned, inside⟩ := owned_kzalloc inv.owned served nonnull asked room
    have pages := fun v => PageMap.createMapping_apply mapped v
    exact ⟨_, _, _, made, inv.allocated there bound free nonnull owned inside pages⟩

/-- What a slot held is read-only from now on. -/
theorem Inv.freed (inv : s.Inv) (there : s.procs[p]? = some proc) {index : Nat} {allocation : MemAllocation}
    (bound : index < processMaxAllocations) (here : proc.mem.memAllocs index = allocation) {pages : PageMap}
    (mapped : ∀ v, pages v =
      if (v - Page.number allocation.ptr).toNat < pagesOf allocation then
        (allocation.ptr + BitVec.ofNat 32 (4096 * (v - Page.number allocation.ptr).toNat)) |||
          (pagingUserSupervisor ||| pagingPresent)
      else proc.mem.pages v) :
    ((s.setHeap (kfree s.res.heap allocation.ptr)).setProc p (proc.remap pages index ⟨0, 0⟩)).Inv := by
  have kept := inv.kept proc (List.mem_of_getElem? there)
  have aligned : allocation.ptr.toNat % 4096 = 0 := by
    by_cases unused : allocation.ptr = 0
    · rw [unused]
      rfl
    · obtain ⟨claim, member, same⟩ := Proc.Records.claim (.inr (.inr (.inr ⟨index, bound, rfl⟩))) (here ▸ unused)
      rw [← here, ← same]
      refine inv.owned.aligned ?_
      rw [claims_eq there]
      exact Multiset.mem_add.mpr (.inl (Proc.mem_claims.mpr (.inl member)))
  refine inv.update there ?_ (kept.remap (absurd rfl) ?_)
  · have fewer := proc.claims_remap bound pages ⟨0, 0⟩
    have none : slotClaims ⟨0, 0⟩ = 0 := if_pos rfl
    rw [none, zero_add, here, slotClaims] at fewer
    have before := inv.owned
    rw [claims_eq there, ← fewer] at before
    by_cases unused : allocation.ptr = 0
    · rw [if_pos unused, zero_add] at before
      rw [unused]
      exact before.free_null
    · rw [if_neg unused, Multiset.singleton_add, Multiset.cons_add] at before
      exact before.free
  · intro v writable
    rw [mapped v] at writable ⊢
    split at writable
    case isTrue within =>
      refine absurd writable (not_writable ?_)
      rw [BitVec.toNat_add, BitVec.toNat_ofNat]
      omega
    case isFalse beyond =>
      rw [if_neg beyond]
      exact (kept.backed v writable).remap fun used => by rwa [here]

theorem Inv.free (inv : s.Inv) (there : s.procs[p]? = some proc) (ptr : Word) :
    ((s.setHeap (processFreeSyscallHandler s.res.heap proc.mem ptr).1).setProc p
      { proc with mem := (processFreeSyscallHandler s.res.heap proc.mem ptr).2 }).Inv := by
  rcases processFreeSyscallHandler_cases s.res.heap proc.mem ptr with
    same | ⟨index, bound, rfl, mapped, freed⟩
  · rw [same]
    exact inv.idle there inv.owned
  · rw [freed]
    exact inv.freed there bound rfl fun v => PageMap.createMapping_apply mapped v

theorem Inv.kernelFree (inv : s.Inv) {ptr : Word} (live : ∃ b, InAllocation s.res.heap ptr b)
    (foreign : ∀ proc ∈ s.procs, ¬ proc.Records ptr ∧ ptr ∉ proc.kernelBlocks) :
    (s.setHeap (kfree s.res.heap ptr)).Inv := by
  refine ⟨inv.owned.free_unclaimed live ?_, inv.kept⟩
  rintro claim member rfl
  obtain ⟨proc, there, mine⟩ := Multiset.mem_bind.mp member
  obtain ⟨unrecorded, notKernel⟩ := foreign proc (Multiset.mem_coe.mp there)
  rcases Proc.mem_claims.mp mine with user | ⟨ptr, kernel, rfl⟩
  · exact unrecorded (Proc.records_of_mem user)
  · exact notKernel kernel

end State

/-! ## The blocks of `execve` -/

section Execve

variable {claims : Multiset Claim} {heap later : HeapDesc}

theorem owned_kzallocUsed (owned : Owned claims heap) {size ptr : Word}
    (run : kzallocUsed heap size = some (ptr, later)) : Owned claims later := by
  obtain ⟨served, -⟩ := kzallocUsed_eq_some run
  obtain ⟨-, -, rfl⟩ := kzalloc_eq_some served
  exact owned.leak size

theorem owned_kzallocAll {sizes ptrs : List Word} (owned : Owned claims heap)
    (run : kzallocAll heap sizes = some (ptrs, later)) : Owned claims later := by
  induction sizes generalizing heap ptrs with
  | nil =>
      cases run
      exact owned
  | cons size sizes ih =>
      obtain ⟨ptr, rest, next, first, others, rfl⟩ := kzallocAll_cons_eq_some run
      exact ih (owned_kzallocUsed owned first) others

theorem owned_execveBlocks (owned : Owned claims heap) {call : ExecveCall} {frame : ExecveFrame}
    (run : execveBlocks heap call = some (frame, later)) : Owned claims later := by
  obtain ⟨⟨path, heap₁⟩, first, rest⟩ := Option.bind_eq_some_iff.mp run
  have one := (owned_kzallocUsed owned first).leak (BitVec.ofInt 32 (4 * call.argc))
  simp only at rest
  split at rest
  case isTrue => cases rest
  case isFalse =>
    obtain ⟨⟨args, heap₂⟩, second, rest⟩ := Option.bind_eq_some_iff.mp rest
    obtain ⟨⟨copies, heap₃⟩, third, rest⟩ := Option.bind_eq_some_iff.mp rest
    cases rest
    exact owned_kzallocAll (owned_kzallocAll one second) third

end Execve

/-! ## Runs -/

namespace State

variable (kernelPage : BitVec 20 → Bool) {s : State}

/-- What an operation needs to keep processes apart. A process calls the kernel with the
    pages of the kernel in place. An allocation for a process is of at least one block and
    is not cut off at the end of the heap. No process exits, as its page tables stay. The
    kernel frees nothing of a process. -/
def Fits (s : State) : Op → Prop
  | .load file => s.LoadOk file
  | .execve p call file => ∀ proc, s.procs[p]? = some proc →
      proc.Serviced kernelPage ∧ 0 ≤ call.argc ∧ call.argc < 128 ∧
        ∃ frame heap, execveBlocks s.res.heap call = some (frame, heap) ∧ (s.setHeap heap).LoadOk file
  | .malloc p size => ∀ proc, s.procs[p]? = some proc →
      proc.Serviced kernelPage ∧ KzallocContained s.res.heap size ∧
        (processGetFreeMemoryAllocationSlot proc.mem = none ∨ HasRoom s.res.heap size ∧
          (size = 0 → heapGetStartBlockIndex s.res.heap (blocksFor size) < 0))
  | .free p _ => ∀ proc, s.procs[p]? = some proc → proc.Serviced kernelPage
  | .print p _ _ _ => ∀ proc, s.procs[p]? = some proc → proc.Serviced kernelPage
  | .exit p => s.procs[p]? = none
  | .kernel (.malloc _) => True
  | .kernel (.free ptr) => (∃ b, InAllocation s.res.heap ptr b) ∧
      ∀ proc ∈ s.procs, ¬ proc.Records ptr ∧ ptr ∉ proc.kernelBlocks

/-- A call of a process that is there, or of nobody. -/
theorem Inv.serve (inv : s.Inv) {p : Nat} {body : Proc → Option State}
    (served : ∀ proc, s.procs[p]? = some proc →
      proc.Serviced kernelPage ∧ ∃ later, body proc = some later ∧ later.Inv) :
    ∃ later, s.serve kernelPage p body = some later ∧ later.Inv := by
  rw [State.serve]
  cases there : s.procs[p]? with
  | none => exact ⟨s, rfl, inv⟩
  | some proc =>
      obtain ⟨serviced, later, run, kept⟩ := served proc there
      exact ⟨later, by simp only [if_pos serviced, run], kept⟩

theorem Inv.run (inv : s.Inv) {op : Op} (fits : s.Fits kernelPage op) :
    ∃ later, s.run kernelPage op = some later ∧ later.Inv := by
  cases op with
  | load file =>
      obtain ⟨later, result, run, kept⟩ := inv.load fits
      exact ⟨later, by simp only [State.run, run, Option.bind_eq_bind, Option.bind_some], kept⟩
  | execve p call file =>
      refine inv.serve kernelPage fun proc there => ?_
      obtain ⟨serviced, lower, upper, frame, heap, blocks, ok⟩ := fits proc there
      have idle := inv.idle there (owned_execveBlocks inv.owned blocks)
      have loads : ((s.setHeap heap).setProc p proc).LoadOk file := ok
      obtain ⟨later, result, run, kept⟩ := idle.load loads
      refine ⟨serviced, later, ?_, kept⟩
      have copied : proc.setPages (execveCopy frame call.argc call.argvUsrAddr call.filenameUsrAddr
          call.mem proc.mem.pages).2 = proc := by
        rw [execveCopy_pages]
        rfl
      rw [if_neg (by omega)]
      simp only [blocks, copied, run, Option.bind_eq_bind, Option.bind_some]
  | malloc p size =>
      refine inv.serve kernelPage fun proc there => ?_
      obtain ⟨serviced, contained, room⟩ := fits proc there
      obtain ⟨ptr, heap, mem, run, kept⟩ := inv.malloc there contained room
      exact ⟨serviced, _, by simp only [run, Option.bind_eq_bind, Option.bind_some], kept⟩
  | free p ptr =>
      refine inv.serve kernelPage fun proc there => ⟨fits proc there, ?_⟩
      have kept := inv.free there ptr
      simp only
      generalize processFreeSyscallHandler s.res.heap proc.mem ptr = freed at kept ⊢
      exact ⟨_, rfl, kept⟩
  | print p mem userMessage buf =>
      refine inv.serve kernelPage fun proc there => ⟨fits proc there, ?_⟩
      have served : kzalloc s.res.heap 1024 = some (heapMalloc s.res.heap 1024) :=
        inv.owned.kernelTable.kzalloc_eq (hasRoom_block inv.owned.kernelTable (by decide))
      have kept := inv.idle there (inv.owned.leak 1024)
      refine ⟨_, ?_, kept⟩
      simp only [Resources.alloc, served, copyStringFromUserTask_pages, Option.bind_eq_bind,
        Option.bind_some]
      rfl
  | exit p =>
      refine inv.serve kernelPage fun proc there => ?_
      cases there.symm.trans fits
  | kernel op =>
      cases op with
      | malloc size => exact ⟨_, rfl, inv.owned.leak size, inv.kept⟩
      | free ptr => exact ⟨_, rfl, inv.kernelFree fits.1 fits.2⟩

theorem booted_inv {memory : Int → Entry} (signature : memory (-2) = 0x55) : (booted memory).Inv :=
  ⟨⟨[], KernelHeap.init signature, nofun, Multiset.nodup_zero⟩, nofun⟩

end State

/-- Whatever user programs can write is their own, after every run from boot that frees
    nothing in use and maps nothing of others. -/
theorem writes_isolated (kernelPage : BitVec 20 → Bool) {memory : Int → Entry}
    (signature : memory (-2) = 0x55) {events : List (Op × State)}
    (fits : Always (State.step kernelPage) (fun s event => s.Fits kernelPage event.1) (booted memory)
      events) :
    (final (State.step kernelPage) (booted memory) events).Isolated := by
  refine State.Inv.isolated (Always.invariant State.Inv ?_ (State.booted_inv signature) fits)
  intro s event inv ok
  obtain ⟨later, run, kept⟩ := inv.run kernelPage ok
  rw [State.step, run]
  exact kept

/-! ## A program on a fresh heap -/

def blockAt (k : Nat) : Word := kernelHeapAddress + BitVec.ofNat 32 (4096 * k)

theorem blockAt_toNat {k : Nat} (bound : k < 25600) : (blockAt k).toNat = 0x1000000 + 4096 * k := by
  rw [blockAt, kernelHeapAddress]
  bv_omega

theorem blockAt_ne_zero {k : Nat} (bound : k < 25600) : blockAt k ≠ 0 := by
  intro null
  have address := blockAt_toNat bound
  rw [null] at address
  exact absurd address (by simp; omega)

/-- The first `k` blocks of the kernel heap are in use. -/
structure Stacked (heap : HeapDesc) (k : Nat) : Prop where
  kernel : ∃ live, KernelHeap heap live
  compact : heap.Compact k

namespace Stacked

variable {heap later : HeapDesc} {k n : Nat}

theorem kernelTable (stacked : Stacked heap k) : KernelTable heap := by
  obtain ⟨live, kernel⟩ := stacked.kernel
  exact kernel.kernelTable

theorem start (stacked : Stacked heap k) (begins : k < 25600) (blocks : Nat) :
    heapGetStartBlockIndex heap blocks = k :=
  stacked.compact.start (by rw [stacked.kernelTable.total]; exact begins) blocks

theorem kzalloc (stacked : Stacked heap k) (size : Word) (small : 1 ≤ size.toNat ∧ size.toNat ≤ 16384)
    (begins : k < 25000) (next : k + blocksFor size = n) :
    ∃ later, Heap.kzalloc heap size = some (blockAt k, later) ∧ Stacked later n := by
  obtain ⟨live, kernel⟩ := stacked.kernel
  have blocks := blocksFor_eq size (by omega)
  obtain ⟨ptr, later, live', served, -, still, compact⟩ :=
    kernel.kzalloc_of_compact stacked.compact size small.1 (by omega) (by omega) (by omega)
  obtain ⟨-, address, -⟩ := kzalloc_eq_some served
  obtain ⟨marks, -⟩ := stacked.compact.malloc (by rw [kernel.total]; omega) size
  have here : ptr = blockAt k := by
    rw [← address, marks]
    apply BitVec.eq_of_toNat_eq
    rw [kernel.heapBlockToAddress_toNat (by omega) (by omega), blockAt_toNat (by omega)]
    omega
  exact ⟨later, here ▸ served, ⟨live', still⟩, next ▸ compact⟩

theorem kzallocUsed (stacked : Stacked heap k) (size : Word)
    (small : 1 ≤ size.toNat ∧ size.toNat ≤ 16384) (begins : k < 25000) (next : k + blocksFor size = n) :
    ∃ later, Kernel.kzallocUsed heap size = some (blockAt k, later) ∧ Stacked later n := by
  obtain ⟨later, served, still⟩ := stacked.kzalloc size small begins next
  refine ⟨later, ?_, still⟩
  simp only [Kernel.kzallocUsed, served, Option.bind_eq_bind, Option.bind_some,
    if_neg (blockAt_ne_zero (by omega : k < 25600))]

theorem kzallocAll (stacked : Stacked heap k) (ends : k + n ≤ 25000) :
    ∃ ptrs later, Kernel.kzallocAll heap (List.replicate n 4096) = some (ptrs, later) ∧
      Stacked later (k + n) := by
  induction n generalizing heap k with
  | zero => exact ⟨[], heap, rfl, stacked⟩
  | succ n ih =>
      have one : blocksFor 4096 = 1 := by decide
      obtain ⟨next, served, still⟩ := stacked.kzallocUsed 4096 (by decide) (by omega) (congrArg (k + ·) one)
      obtain ⟨ptrs, later, others, last⟩ := ih still (by omega)
      refine ⟨blockAt k :: ptrs, later, ?_, by rwa [add_assoc, add_comm 1 n] at last⟩
      simp only [List.replicate_succ, Kernel.kzallocAll, served, others, Option.bind_eq_bind,
        Option.bind_some]

end Stacked

/-- An ELF file of one page. -/
def program (phdrs : List Phdr) : LoadFile :=
  { directory := false, size := 4096, phdrs := some phdrs, atNull := []
    asElf := ⟨true, true, [], [], []⟩, asBinary := ⟨false, false, [], [], []⟩ }

section Program

variable {r : Resources} {phdrs : List Phdr}

theorem fopen_program (unused : r.openFiles 0 = false) :
    r.fopen (program phdrs).asElf =
      (some 0, { r with openFiles := Function.update r.openFiles 0 true }) := by
  have found : (List.range maxOpenFiles).find? (fun i => r.openFiles i = false) = some 0 :=
    List.find?_range_eq_some.mpr ⟨decide_eq_true unused, List.mem_range.mpr (by decide), by simp⟩
  have unchanged : r.fileOps (program phdrs).asElf.opening = r := rfl
  have opens : (program phdrs).asElf.opens ≠ false := nofun
  simp only [Resources.fopen, unchanged, if_neg opens, found]

theorem processLoadData_program (stacked : Stacked r.heap 3) (unused : r.openFiles 0 = false)
    (phdrs : List Phdr) :
    ∃ later, processLoadData r (program phdrs) =
        some (later, some (.elf (blockAt 3) (blockAt 4) 4096 phdrs)) ∧ Stacked later.heap 5 := by
  obtain ⟨heap₁, first, stacked₁⟩ := stacked.kzalloc (n := 4) sizeofElfFile (by decide) (by decide) (by decide)
  obtain ⟨heap₂, second, stacked₂⟩ := stacked₁.kzallocUsed (n := 5) 4096 (by decide) (by decide) (by decide)
  have opened : Resources.fopen { r with heap := heap₁ } (program phdrs).asElf =
      (some 0, { r with heap := heap₁, openFiles := Function.update r.openFiles 0 true }) :=
    fopen_program unused
  have asked : (4096 : Word) ≠ 0 := by decide
  simp only [processLoadData, elfFileInit, Resources.alloc, first, Option.bind_eq_bind, Option.bind_some,
    if_neg (blockAt_ne_zero (by decide : 3 < 25600)), opened]
  simp only [program, second, if_neg asked, Option.bind_some, Bool.false_eq_true, Bool.true_eq_false,
    if_false]
  exact ⟨_, rfl, stacked₂⟩

theorem initPageTables_stacked (stacked : Stacked r.heap 11) :
    ∃ tables later, r.initPageTables = some (tables, later) ∧ Stacked later.heap 1037 := by
  have entries : BitVec.ofNat 32 (4 * pagingTableEntries) = 4096 := by decide
  obtain ⟨heap₁, first, stacked₁⟩ := stacked.kzallocUsed (n := 12) (BitVec.ofNat 32 (4 * pagingDirEntries))
    (by decide) (by decide) (by decide)
  obtain ⟨ptes, heap₂, second, stacked₂⟩ := stacked₁.kzallocAll (by decide : 12 + pagingDirEntries ≤ 25000)
  obtain ⟨heap₃, third, stacked₃⟩ := stacked₂.kzallocUsed (n := 1037) sizeofPagingDesc (by decide)
    (by decide) (by decide)
  simp only [Resources.initPageTables, Resources.alloc, first, entries, second, third,
    Option.bind_eq_bind, Option.bind_some]
  exact ⟨_, _, rfl, stacked₃⟩

/-- Where a program with mappable segments comes to stand on a fresh heap. -/
theorem processLoadForSlot_program (stacked : Stacked r.heap 0) (unused : r.openFiles 0 = false)
    (mapped : 0 ≤ (processMapTaskMemory (blockAt 5) (blockAt 9) (.elf (blockAt 4) phdrs) taskPages).1)
    (pid : Nat) :
    ∃ later proc, processLoadForSlot r pid (program phdrs) = some (later, some proc) ∧
      Stacked later.heap 1037 ∧ proc.mem.pages =
        (processMapTaskMemory (blockAt 5) (blockAt 9) (.elf (blockAt 4) phdrs) taskPages).2 := by
  obtain ⟨heap₁, first, stacked₁⟩ := stacked.kzalloc (n := 3) sizeofProcess (by decide) (by decide) (by decide)
  obtain ⟨r₂, data, stacked₂⟩ := processLoadData_program (r := { r with heap := heap₁ }) stacked₁
    unused phdrs
  obtain ⟨heap₃, third, stacked₃⟩ := stacked₂.kzalloc (n := 9) (BitVec.ofNat 32 taskStackSize) (by decide)
    (by decide) (by decide)
  obtain ⟨heap₄, fourth, stacked₄⟩ := stacked₃.kzalloc (n := 10) (BitVec.ofNat 32 lenArgBlock) (by decide)
    (by decide) (by decide)
  obtain ⟨heap₅, fifth, stacked₅⟩ := stacked₄.kzallocUsed (n := 11) sizeofTask (by decide) (by decide)
    (by decide)
  obtain ⟨tables, r₆, sixth, stacked₆⟩ := initPageTables_stacked (r := { r₂ with heap := heap₅ }) stacked₅
  have accepted : ¬ (processMapTaskMemory (blockAt 5) (blockAt 9)
      (Image.elf (blockAt 3) (blockAt 4) 4096 phdrs).executable taskPages).1 < 0 := not_lt.mpr mapped
  simp only [processLoadForSlot, Resources.alloc, first, data, third, fourth, fifth, sixth,
    Option.bind_eq_bind, Option.bind_some, if_neg (blockAt_ne_zero (by decide : 0 < 25600)),
    if_neg (blockAt_ne_zero (by decide : 5 < 25600)), if_neg (blockAt_ne_zero (by decide : 9 < 25600)),
    if_neg accepted]
  exact ⟨_, _, rfl, stacked₆, rfl⟩

theorem program_mapped (segments : (Executable.elf (blockAt 4) phdrs).Mappable) :
    0 ≤ (processMapTaskMemory (blockAt 5) (blockAt 9) (.elf (blockAt 4) phdrs) taskPages).1 :=
  processMapTaskMemory_rc taskPages (by decide) (by decide) (by decide) (by decide) segments

/-- Segments that stay in the buffer do no harm on a fresh heap. -/
theorem program_loadFits {claims : Multiset Claim} (owns : r.Owns claims) (stacked : Stacked r.heap 0)
    (unused : r.openFiles 0 = false) (confined : (Image.elf (blockAt 3) (blockAt 4) 4096 phdrs).Confined) :
    LoadFits r (program phdrs) := by
  have asElf : (program phdrs).asElf.Sized := ⟨nofun, nofun, nofun⟩
  have asBinary : (program phdrs).asBinary.Sized := ⟨nofun, nofun, nofun⟩
  have onePage : (program phdrs).size.toNat ≤ 4096 := le_refl 4096
  refine ⟨asElf, asBinary, fun _ => trivial, ?_, ?_⟩
  · intro process next served nonnull
    have struct := owns.alloc served nonnull (by decide)
    have elf : ElfRoom next (program phdrs) := by
      intro elfFile later second
      obtain ⟨-, rfl⟩ := Resources.alloc_kzalloc second
      have still : Resources.Owns { next with heap := (heapMalloc next.heap sizeofElfFile).2 }
          (.bare process ::ₘ claims) := Owned.leak struct sizeofElfFile
      exact hasRoom_block (still.fopen asElf).kernelTable onePage
    refine ⟨elf, fun later bad => ?_⟩
    obtain ⟨still, -⟩ := elfFileInit_owns struct asElf elf bad
    exact hasRoom_block (still.fopen asBinary).kernelTable onePage
  · intro process next later image served nonnull data
    obtain ⟨heap₁, first, stacked₁⟩ := stacked.kzalloc (n := 3) sizeofProcess (by decide) (by decide) (by decide)
    simp only [Resources.alloc, first, Option.bind_eq_bind, Option.bind_some, Option.some.injEq,
      Prod.mk.injEq] at served
    obtain ⟨-, rfl⟩ := served
    obtain ⟨r₂, known, stacked₂⟩ := processLoadData_program (r := { r with heap := heap₁ }) stacked₁
      unused phdrs
    rw [known] at data
    cases data
    refine ⟨?_, confined⟩
    rw [HasRoom, stacked₂.start (by decide)]
    decide

end Program

/-- A writable segment of one page. -/
def dataSegment (pOffset : Word) : Phdr :=
  { pType := 1, pOffset := pOffset, pVaddr := taskLoadVirtualAddress, pFilesz := 4096, pMemsz := 4096
    pFlags := pfW }

theorem dataSegment_confined (elfFile : Word) :
    (Image.elf elfFile (blockAt 4) 4096 [dataSegment 0]).Confined := by
  refine ⟨?_, ?_⟩
  · intro phdr member
    obtain rfl := List.mem_singleton.mp member
    decide
  · intro page entry found _
    obtain ⟨phdr, last, rfl⟩ := Option.map_eq_some_iff.mp found
    obtain rfl := List.mem_singleton.mp (List.mem_of_find?_eq_some last)
    have maps := List.find?_some last
    have one : pageCount (blockAt 4) (dataSegment 0) = 1 := by decide
    rw [decide_eq_true_eq, Maps, one] at maps
    refine ⟨0, by decide, ?_⟩
    rw [Page.or_and_frameMask (frame_aligned _ _ page) (pflags_lt _), frame]
    rw [Nat.lt_one_iff.mp maps]
    decide

theorem booted_stacked : Stacked (booted fun _ => 0x55).res.heap 0 :=
  ⟨⟨[], KernelHeap.init rfl⟩, KernelHeap.compact_init _⟩

/-- The first program that is loaded. -/
theorem booted_processLoad {phdrs : List Phdr} (segments : (Executable.elf (blockAt 4) phdrs).Mappable) :
    ∃ r proc, (booted fun _ => 0x55).processLoad (program phdrs) =
        some (⟨r, Function.update (fun _ => none) 0 (some 0), [proc]⟩, some 0) ∧
      Stacked r.heap 1037 ∧ proc.mem.pages =
        (processMapTaskMemory (blockAt 5) (blockAt 9) (.elf (blockAt 4) phdrs) taskPages).2 := by
  obtain ⟨r, proc, run, stacked, pages⟩ :=
    processLoadForSlot_program (r := (booted fun _ => 0x55).res.fresh) booted_stacked rfl
      (program_mapped segments) 0
  have slot : (booted fun _ => 0x55).processGetFreeSlot = some 0 := rfl
  refine ⟨r, proc, ?_, stacked, pages⟩
  simp only [State.processLoad, slot, run, Option.bind_eq_bind, Option.bind_some]
  rfl

theorem writes_isolated_program :
    (final (State.step fun _ => true) (booted fun _ => 0x55)
      [(.load (program [dataSegment 0]), booted fun _ => 0x55)]).Isolated := by
  have confined := dataSegment_confined (blockAt 3)
  refine writes_isolated (fun _ => true) rfl ⟨fun pid _ => ⟨?_, ?_⟩, trivial⟩
  · obtain ⟨r, proc, run, -⟩ := processLoadForSlot_program (r := (booted fun _ => 0x55).res.fresh)
      booted_stacked rfl (program_mapped confined.1) pid
    rw [run]
    exact nofun
  · exact program_loadFits (State.booted_inv rfl).owns booted_stacked rfl confined

/-- The image of the kernel seen from the buffer of the first program. -/
def kernelImage : Word := BitVec.ofNat 32 kernelImageAddr - blockAt 4

theorem stray_segment_writes_kernel :
    ∃ later, (booted fun _ => 0x55).run (fun _ => true) (.load (program [dataSegment kernelImage])) =
        some later ∧ ¬ later.Isolated := by
  have segments : (Executable.elf (blockAt 4) [dataSegment kernelImage]).Mappable := by
    intro phdr member
    obtain rfl := List.mem_singleton.mp member
    decide
  obtain ⟨r, proc, load, stacked, pages⟩ := booted_processLoad segments
  have table := stacked.kernelTable
  refine ⟨⟨r, Function.update (fun _ => none) 0 (some 0), [proc]⟩, ?_, fun isolated => ?_⟩
  · simp only [State.run, load, Option.bind_eq_bind, Option.bind_some]
  · have entry : proc.mem.pages (Page.number taskLoadVirtualAddress) =
        BitVec.ofNat 32 kernelImageAddr ||| userWritable := by
      rw [pages, processMapTaskMemory_page (program_mapped segments)]
      decide
    obtain ⟨b, lower, upper, frame, -⟩ := isolated 0 proc rfl (Page.number taskLoadVirtualAddress)
      (by rw [entry]; decide)
    have image : (BitVec.ofNat 32 kernelImageAddr ||| userWritable) &&& Page.frameMask =
        BitVec.ofNat 32 kernelImageAddr := by decide
    have below : (BitVec.ofNat 32 kernelImageAddr).toNat = 0x100000 := by decide
    rw [table.total] at upper
    have block := heapBlockToAddress_kernel table.start lower upper
    rw [← frame, entry, image, below] at block
    omega

end ConiferOS.Kernel
