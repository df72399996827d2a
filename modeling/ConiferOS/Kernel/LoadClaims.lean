import ConiferOS.Kernel.FailedLoad

/-! # Whose blocks a load takes and leaves

What the functions of a load do to the claims on the heap. A load that fails leaves the
claims of others, a load that succeeds adds those of the new process.
-/

namespace ConiferOS.Kernel

open Heap Paging Process
open Claim (bares)

/-- The `size` bytes at `ptr` are bytes of the heap. -/
def Inside (ptr size : Word) : Prop :=
  ptr.toNat + size.toNat ≤ kernelHeapAddress.toNat + kernelHeapSize

/-- Claims beside those of the file layer. -/
def Resources.Owns (r : Resources) (claims : Multiset Claim) : Prop :=
  Owned (claims + bares r.held) r.heap

def Image.claims (image : Image) : Multiset Claim :=
  .sized image.buffer (blocksFor image.size) ::ₘ bares image.structs

/-- A request that lies in the heap. -/
theorem owned_kzalloc {claims : Multiset Claim} {heap later : HeapDesc} {size ptr : Word}
    (owned : Owned claims heap) (served : kzalloc heap size = some (ptr, later)) (nonnull : ptr ≠ 0)
    (nonempty : size ≠ 0) (room : HasRoom heap size) :
    Owned (.sized ptr (blocksFor size) ::ₘ claims) later ∧ Inside ptr size := by
  have table := owned.kernelTable
  have pos := table.blocksFor_pos served nonnull nonempty
  obtain ⟨-, rfl, rfl⟩ := kzalloc_eq_some served
  have found := not_lt.mp (mt (table.heapMalloc_null_iff size).mpr nonnull)
  refine ⟨owned.malloc pos found rfl (by rintro n ⟨⟩; rfl), ?_⟩
  have bound := room found
  have upper := (heapGetStartBlockIndex_spec heap (blocksFor size) found).1
  rw [table.total] at upper
  have address := heapBlockToAddress_kernel table.start found (by exact_mod_cast upper)
  have base : kernelHeapAddress.toNat = 0x1000000 := rfl
  rw [heapMalloc, heapMallocBlocks_found found, Inside]
  simp only [address]
  omega

/-! ## Rules for the steps of a load -/

namespace Resources.Owns

variable {claims fewer : Multiset Claim} {claim : Claim} {r later : Resources} {size ptr : Word}

theorem mono (owns : r.Owns claims) (le : fewer ≤ claims) : r.Owns fewer :=
  Owned.mono owns (add_le_add_left le _)

theorem aligned (owns : r.Owns claims) (claim : Claim) (member : claim ∈ claims) :
    claim.ptr.toNat % 4096 = 0 :=
  Owned.aligned owns (Multiset.mem_add.mpr (.inl member))

/-- A claim that is of no use any more. -/
theorem drop (owns : r.Owns (claim ::ₘ claims)) : r.Owns claims :=
  owns.mono (Multiset.le_cons_self claims claim)

theorem malloc (owns : r.Owns claims) (pos : 0 < blocksFor size)
    (nonnull : (heapMalloc r.heap size).1 ≠ 0) (mine : claim.ptr = (heapMalloc r.heap size).1)
    (sizes : ∀ n ∈ claim.blocks, n = blocksFor size) :
    Resources.Owns { r with heap := (heapMalloc r.heap size).2 } (claim ::ₘ claims) := by
  have found := not_lt.mp (mt (owns.kernelTable.heapMalloc_null_iff size).mpr nonnull)
  rw [Resources.Owns, Multiset.cons_add]
  exact Owned.malloc owns pos found mine sizes

theorem malloc_failed (owns : r.Owns claims) (null : (heapMalloc r.heap size).1 = 0) :
    Resources.Owns { r with heap := (heapMalloc r.heap size).2 } claims := by
  rw [KernelHeap.heapMalloc_failed ((owns.kernelTable.heapMalloc_null_iff size).mp null)]
  exact owns

theorem free (owns : r.Owns (claim ::ₘ claims)) : (r.free claim.ptr).Owns claims := by
  rw [Resources.Owns, Multiset.cons_add] at owns
  exact Owned.free owns

theorem freeAll {ptrs : List Word} (owns : r.Owns (bares ptrs + claims)) :
    (r.freeAll ptrs).Owns claims := by
  induction ptrs generalizing r with
  | nil => simpa [Resources.freeAll] using owns
  | cons ptr ptrs ih =>
      rw [Claim.bares_cons, Multiset.cons_add] at owns
      exact ih owns.free

theorem freeImage {image : Image} (owns : r.Owns (image.claims + claims)) :
    (r.freeAll image.pointers).Owns claims := by
  rw [Image.claims, Multiset.cons_add] at owns
  exact owns.free.freeAll

theorem fileOp (owns : r.Owns claims) {op : FileOp}
    (sized : ∀ size, op = .alloc size → 0 < blocksFor size) : (r.fileOp op).Owns claims := by
  cases op with
  | alloc size =>
      by_cases null : (heapMalloc r.heap size).1 = 0
      · simp only [Resources.fileOp, null, if_true]
        exact owns.malloc_failed null
      · simp only [Resources.fileOp, null, if_false]
        have more : Resources.Owns { r with heap := (heapMalloc r.heap size).2 }
            (.bare (heapMalloc r.heap size).1 ::ₘ claims) :=
          owns.malloc (sized size rfl) null rfl fun _ known => by cases known
        rw [Resources.Owns, Multiset.cons_add, ← Multiset.add_cons] at more
        exact more
  | release k =>
      simp only [Resources.fileOp]
      split
      case h_1 => exact owns
      case h_2 ptr held =>
        obtain ⟨inside, here⟩ := List.getElem?_eq_some_iff.mp held
        have split : bares r.held = .bare ptr ::ₘ bares (r.held.eraseIdx k) := by
          rw [← Claim.bares_cons, ← here]
          exact Multiset.coe_eq_coe.mpr ((List.getElem_cons_eraseIdx_perm inside).map _).symm
        rw [Resources.Owns, split, Multiset.add_cons] at owns
        have freed := Owned.free owns
        exact freed

theorem fileOps (owns : r.Owns claims) {ops : List FileOp} (sized : Sized ops) :
    (r.fileOps ops).Owns claims := by
  induction ops generalizing r with
  | nil => exact owns
  | cons op ops ih =>
      refine ih (owns.fileOp ?_) fun size member => sized size (List.mem_cons_of_mem op member)
      rintro size rfl
      exact sized size List.mem_cons_self

theorem fopen (owns : r.Owns claims) {access : FileAccess} (sized : access.Sized) :
    (r.fopen access).2.Owns claims := by
  have opened := owns.fileOps sized.opening
  simp only [Resources.fopen]
  split
  case isTrue => exact opened
  case isFalse => split <;> exact opened

theorem fclose (owns : r.Owns claims) {access : FileAccess} (sized : access.Sized) (fd : Nat) :
    (r.fclose access fd).Owns claims :=
  owns.fileOps sized.closing

theorem alloc_failed (owns : r.Owns claims) (run : r.alloc (kzalloc · size) = some (0, later)) :
    later.Owns claims := by
  obtain ⟨null, rfl⟩ := Resources.alloc_kzalloc run
  exact owns.malloc_failed null

theorem alloc (owns : r.Owns claims) (run : r.alloc (kzalloc · size) = some (ptr, later))
    (nonnull : ptr ≠ 0) (pos : 0 < blocksFor size) : later.Owns (.bare ptr ::ₘ claims) := by
  obtain ⟨rfl, rfl⟩ := Resources.alloc_kzalloc run
  exact owns.malloc pos nonnull rfl nofun

theorem allocInside (owns : r.Owns claims) (run : r.alloc (kzalloc · size) = some (ptr, later))
    (nonnull : ptr ≠ 0) (nonempty : size ≠ 0) (room : HasRoom r.heap size) :
    later.Owns (.sized ptr (blocksFor size) ::ₘ claims) ∧ Inside ptr size := by
  obtain ⟨heap, served, rfl⟩ := Resources.alloc_eq_some run
  rw [Resources.Owns, Multiset.cons_add]
  exact owned_kzalloc owns served nonnull nonempty room

theorem allocUsedInside (owns : r.Owns claims) (nonempty : size ≠ 0)
    (run : r.alloc (kzallocUsed · size) = some (ptr, later)) (room : HasRoom r.heap size) :
    later.Owns (.sized ptr (blocksFor size) ::ₘ claims) ∧ Inside ptr size := by
  obtain ⟨served, nonnull⟩ := Resources.alloc_kzallocUsed run
  exact owns.allocInside served nonnull nonempty room

theorem allocUsed (owns : r.Owns claims) (nonempty : size ≠ 0)
    (run : r.alloc (kzallocUsed · size) = some (ptr, later)) : later.Owns (.bare ptr ::ₘ claims) := by
  obtain ⟨heap, used, rfl⟩ := Resources.alloc_eq_some run
  obtain ⟨served, nonnull⟩ := kzallocUsed_eq_some used
  have pos := owns.kernelTable.blocksFor_pos served nonnull nonempty
  obtain ⟨-, rfl, rfl⟩ := kzalloc_eq_some served
  exact owns.malloc pos nonnull rfl nofun

theorem allocAll {sizes ptrs : List Word} (owns : r.Owns claims) (nonempty : 0 ∉ sizes)
    (run : r.alloc (kzallocAll · sizes) = some (ptrs, later)) : later.Owns (bares ptrs + claims) := by
  induction sizes generalizing r ptrs claims with
  | nil =>
      cases run
      simpa using owns
  | cons size sizes ih =>
      obtain ⟨ptr, rest, next, first, others, rfl⟩ := Resources.alloc_kzallocAll_cons run
      have one : next.Owns (.bare ptr ::ₘ claims) :=
        owns.allocUsed (fun zero => nonempty (zero ▸ List.mem_cons_self)) first
      have all := ih one (fun zero => nonempty (List.mem_cons_of_mem size zero)) others
      rwa [Claim.bares_cons, Multiset.cons_add, ← Multiset.add_cons]

/-- A request that is taken back at once. -/
theorem alloc_free (owns : r.Owns claims) (run : r.alloc (kzalloc · size) = some (ptr, later)) :
    (later.free ptr).Owns claims := by
  obtain ⟨rfl, rfl⟩ := Resources.alloc_kzalloc run
  exact Owned.malloc_free owns size

end Resources.Owns

/-! ## The executable -/

/-- The buffer of an ELF file, when it is requested, is given blocks of the heap. -/
def ElfRoom (r : Resources) (file : LoadFile) : Prop :=
  ∀ elfFile next, r.alloc (kzalloc · sizeofElfFile) = some (elfFile, next) →
    HasRoom (next.fopen file.asElf).2.heap file.size

/-- The same for either loader. -/
structure BufferRoom (r : Resources) (file : LoadFile) : Prop where
  elf : ElfRoom r file
  binary : ∀ next, elfFileInit r file = some (next, .badFormat) →
    HasRoom (next.fopen file.asBinary).2.heap file.size

/-- What an ELF loader that succeeds hands over. -/
def ElfResult.claims (size : Word) : ElfResult → Multiset Claim
  | .loaded elfFile buffer _ => .sized buffer (blocksFor size) ::ₘ .bare elfFile ::ₘ 0
  | .badFormat => 0
  | .failed => 0

section Executable

variable {claims : Multiset Claim} {r later : Resources} {file : LoadFile}

theorem ElfOpened.owns {elfFile : Word} {fd : Option Nat} (isOpen : ElfOpened r file elfFile fd later)
    (owns : r.Owns claims) (sized : file.asElf.Sized) (room : ElfRoom r file) :
    later.Owns (.bare elfFile ::ₘ claims) ∧ HasRoom later.heap file.size := by
  obtain ⟨struct, nonnull, opened⟩ := isOpen
  have opening := (owns.alloc struct nonnull (by decide)).fopen sized
  have fits := room _ _ struct
  rw [opened] at opening fits
  exact ⟨opening, fits⟩

theorem ElfBuffered.owns {elfFile buffer : Word} {fd : Nat}
    (asked : ElfBuffered r file elfFile fd buffer later) (owns : r.Owns claims) (sized : file.asElf.Sized)
    (room : ElfRoom r file) :
    later.Owns (.sized buffer (blocksFor file.size) ::ₘ .bare elfFile ::ₘ claims) ∧
      file.size ≠ 0 ∧ Inside buffer file.size := by
  obtain ⟨isOpen, nonempty, buffered⟩ := asked
  obtain ⟨opened, fits⟩ := isOpen.owns owns sized room
  obtain ⟨both, inside⟩ := opened.allocUsedInside nonempty buffered fits
  exact ⟨both.fileOps sized.reading, nonempty, inside⟩

theorem elfFileInit_owns (owns : r.Owns claims) (sized : file.asElf.Sized) (room : ElfRoom r file)
    {result : ElfResult} (run : elfFileInit r file = some (later, result)) :
    later.Owns (result.claims file.size + claims) ∧
      (result ≠ .failed → file.size ≠ 0) ∧
      ∀ elfFile buffer phdrs, result = .loaded elfFile buffer phdrs →
        Inside buffer file.size := by
  cases elfFileInit_cases run with
  | unallocated refused => exact ⟨by simpa [ElfResult.claims] using owns.alloc_failed refused, by simp, nofun⟩
  | unopened isOpen =>
      have opened := (isOpen.owns owns sized room).1
      exact ⟨by simpa [ElfResult.claims] using opened.free, by simp, nofun⟩
  | directory isOpen =>
      have opened := (isOpen.owns owns sized room).1
      exact ⟨by simpa [ElfResult.claims] using opened.free, by simp, nofun⟩
  | empty isOpen _ buffered =>
      have same := (isOpen.owns owns sized room).1.alloc_free buffered
      exact ⟨by simpa [ElfResult.claims] using same.free, by simp, nofun⟩
  | unread asked =>
      have read := (asked.owns owns sized room).1
      exact ⟨by simpa [ElfResult.claims] using read.free.free, by simp, nofun⟩
  | badFormat asked =>
      obtain ⟨read, nonempty, -⟩ := asked.owns owns sized room
      exact ⟨by simpa [ElfResult.claims] using read.free.free.fclose sized _, fun _ => nonempty, nofun⟩
  | loaded asked =>
      obtain ⟨read, nonempty, inside⟩ := asked.owns owns sized room
      refine ⟨by simpa [ElfResult.claims] using read.fclose sized _, fun _ => nonempty, ?_⟩
      rintro _ _ _ ⟨⟩
      exact inside

theorem processLoadBinaryExecutable_owns (owns : r.Owns claims) (sized : file.asBinary.Sized)
    (nonempty : file.size ≠ 0) (room : HasRoom (r.fopen file.asBinary).2.heap file.size)
    {result : Option Image} (run : processLoadBinaryExecutable r file = some (later, result)) :
    later.Owns ((result.elim 0 Image.claims) + claims) ∧
      ∀ image, result = some image →
        image.size = file.size ∧ file.size ≠ 0 ∧ Inside image.buffer image.size := by
  have opening := owns.fopen sized
  cases processLoadBinaryExecutable_cases run with
  | unopened opened =>
      rw [opened] at opening
      exact ⟨by simpa using opening, nofun⟩
  | directory opened =>
      rw [opened] at opening
      exact ⟨by simpa using opening.fclose sized _, nofun⟩
  | unallocated isOpen refused =>
      rw [isOpen] at opening
      exact ⟨by simpa using (opening.alloc_failed refused).fclose sized _, nofun⟩
  | asked isOpen buffered nonnull read =>
      rw [isOpen] at opening room
      obtain ⟨mine, inside⟩ := opening.allocInside buffered nonnull nonempty room
      have closed := (mine.fileOps sized.reading).fclose sized
      rcases read with rfl | rfl
      · exact ⟨by simpa using (closed _).drop, nofun⟩
      · refine ⟨by simpa [Image.claims, Image.buffer, Image.size, Image.structs] using closed _, ?_⟩
        rintro _ ⟨⟩
        exact ⟨rfl, nonempty, inside⟩

theorem processLoadData_owns (owns : r.Owns claims) (asElf : file.asElf.Sized)
    (asBinary : file.asBinary.Sized) (room : BufferRoom r file)
    {result : Option Image} (run : processLoadData r file = some (later, result)) :
    later.Owns ((result.elim 0 Image.claims) + claims) ∧
      ∀ image, result = some image →
        image.size = file.size ∧ file.size ≠ 0 ∧ Inside image.buffer image.size := by
  obtain ⟨⟨next, elf⟩, first, rest⟩ := Option.bind_eq_some_iff.mp run
  obtain ⟨loaded, nonempty, inside⟩ := elfFileInit_owns owns asElf room.elf first
  cases elf with
  | loaded elfFile buffer phdrs =>
      cases rest
      refine ⟨loaded, ?_⟩
      rintro _ ⟨⟩
      exact ⟨rfl, nonempty nofun, inside elfFile buffer phdrs rfl⟩
  | badFormat =>
      have still : next.Owns claims := by simpa [ElfResult.claims] using loaded
      exact processLoadBinaryExecutable_owns still asBinary (nonempty nofun) (room.binary next first) rest
  | failed =>
      cases rest
      exact ⟨loaded, nofun⟩

end Executable

/-! ## The process -/

namespace Proc

/-- The memory that a process is given when it is loaded, with its sizes. -/
def memory (proc : Proc) : List (Word × Word) :=
  [(proc.stackAddr, BitVec.ofNat 32 taskStackSize), (proc.argBlock, BitVec.ofNat 32 lenArgBlock),
    (proc.image.buffer, proc.image.size)]

/-- Its claims before its first call of `malloc`. -/
def baseClaims (proc : Proc) : Multiset Claim :=
  (proc.memory.map fun region => Claim.sized region.1 (blocksFor region.2) : List Claim) + bares proc.kernelBlocks

end Proc

/-- A user program can write through the entry. -/
def Writable (entry : Word) : Prop :=
  entry &&& pagingUserSupervisor ≠ 0 ∧ entry &&& pagingReadWrite ≠ 0

instance (entry : Word) : Decidable (Writable entry) := inferInstanceAs (Decidable (_ ∧ _))

/-- No mapped range of an ELF file wraps around, and what it leaves writable is in its
    buffer. A plain binary is always so. -/
def Image.Confined : Image → Prop
  | .elf _ buffer size phdrs =>
      (Executable.elf buffer phdrs).Mappable ∧
        ∀ page entry, (Executable.elf buffer phdrs).entry page = some entry → Writable entry →
          ∃ j < blocksFor size, entry &&& Lib.Page.frameMask = buffer + BitVec.ofNat 32 (4096 * j)
  | .binary _ _ => True

/-- Loads that harm nobody: requests are given blocks of the heap, the executable maps what
    it may, and `process_free(NULL)` finds nothing. -/
structure LoadFits (r : Resources) (file : LoadFile) : Prop where
  asElf : file.asElf.Sized
  asBinary : file.asBinary.Sized
  unallocated : (heapMalloc r.heap sizeofProcess).1 = 0 → FreesNothing r.heap file.atNull
  buffer : ∀ process next, r.alloc (kzalloc · sizeofProcess) = some (process, next) → process ≠ 0 →
    BufferRoom next file
  mapped : ∀ process next later image, r.alloc (kzalloc · sizeofProcess) = some (process, next) →
    process ≠ 0 → processLoadData next file = some (later, some image) →
      HasRoom later.heap (BitVec.ofNat 32 taskStackSize) ∧ image.Confined

/-- A process that has just been loaded. -/
structure Proc.Started (proc : Proc) : Prop where
  allocs : proc.mem.memAllocs = fun _ => ⟨0, 0⟩
  inside : ∀ region ∈ proc.memory, Inside region.1 region.2
  confined : proc.image.Confined
  mapped : 0 ≤ (processMapTaskMemory proc.stackAddr proc.argBlock proc.image.executable taskPages).1
  pages : proc.mem.pages =
    (processMapTaskMemory proc.stackAddr proc.argBlock proc.image.executable taskPages).2

section Process

variable {claims : Multiset Claim} {r later : Resources} {file : LoadFile}

theorem initPageTables_owns {tables : PageTables} (owns : r.Owns claims)
    (run : r.initPageTables = some (tables, later)) : later.Owns (bares tables.blocks + claims) := by
  obtain ⟨r₁, r₂, first, second, third⟩ := initPageTables_cases run
  have directory := owns.allocUsed (by decide) first
  have full := directory.allocAll (by simp [pagingTableEntries]) second
  have all := full.allocUsed (by decide) third
  simp only [PageTables.blocks, Claim.bares_append, Claim.bares_cons, Claim.bares_nil,
    ← Multiset.singleton_add] at all ⊢
  convert all using 1
  abel

theorem mappable {image : Image} (confined : image.Confined)
    (aligned : image.buffer.toNat % 4096 = 0) (inside : Inside image.buffer image.size) :
    image.executable.Mappable := by
  cases image with
  | elf elfFile buffer size phdrs => exact confined.1
  | binary buffer size =>
      have bound : buffer.toNat + size.toNat ≤ 0x1000000 + 104857600 := inside
      have sum : (buffer + size).toNat = buffer.toNat + size.toNat := by bv_omega
      refine ⟨aligned, ?_⟩
      rw [pagingAlignAddress_eq _ (by omega), sum]
      omega

/-- The claims of a process in the order of its allocations. -/
theorem Proc.baseClaims_add {proc : Proc} {process task : Word} {blocks : List Word}
    (kernel : proc.kernelBlocks = process :: proc.image.structs ++ task :: blocks) :
    proc.baseClaims + claims = bares blocks + .bare task ::ₘ
      .sized proc.argBlock (blocksFor (BitVec.ofNat 32 lenArgBlock)) ::ₘ
      .sized proc.stackAddr (blocksFor (BitVec.ofNat 32 taskStackSize)) ::ₘ
      (proc.image.claims + .bare process ::ₘ claims) := by
  simp only [baseClaims, memory, kernel, List.map_cons, List.map_nil, ← Multiset.cons_coe,
    Multiset.coe_nil, Image.claims, Claim.bares_append, Claim.bares_cons, ← Multiset.singleton_add,
    List.cons_append]
  abel

theorem mapping_succeeds {stackAddr argBlock : Word} {image : Image}
    (owns : r.Owns (.sized argBlock (blocksFor (BitVec.ofNat 32 lenArgBlock)) ::ₘ
      .sized stackAddr (blocksFor (BitVec.ofNat 32 taskStackSize)) ::ₘ (image.claims + claims)))
    (stack : Inside stackAddr (BitVec.ofNat 32 taskStackSize))
    (args : Inside argBlock (BitVec.ofNat 32 lenArgBlock))
    (inside : Inside image.buffer image.size) (confined : image.Confined) :
    0 ≤ (processMapTaskMemory stackAddr argBlock image.executable taskPages).1 := by
  have stackAligned : stackAddr.toNat % 4096 = 0 :=
    owns.aligned (Claim.sized stackAddr (blocksFor (BitVec.ofNat 32 taskStackSize))) (by simp)
  have argAligned : argBlock.toNat % 4096 = 0 :=
    owns.aligned (Claim.sized argBlock (blocksFor (BitVec.ofNat 32 lenArgBlock))) (by simp)
  have bufferAligned : image.buffer.toNat % 4096 = 0 :=
    owns.aligned (Claim.sized image.buffer (blocksFor image.size)) (by simp [Image.claims])
  have heapEnd : kernelHeapAddress.toNat + kernelHeapSize = 0x1000000 + 104857600 := rfl
  rw [Inside, heapEnd] at stack args
  refine processMapTaskMemory_rc taskPages stackAligned argAligned ?_ ?_
    (mappable confined bufferAligned inside)
  · have size : (BitVec.ofNat 32 taskStackSize).toNat = taskStackSize := rfl
    omega
  · have size : (BitVec.ofNat 32 lenArgBlock).toNat = lenArgBlock := rfl
    omega

theorem WithImage.owns {process : Word} {image : Option Image} (made : WithImage r file process image later)
    (owns : r.Owns claims) (fits : LoadFits r file) :
    later.Owns (image.elim 0 Image.claims + .bare process ::ₘ claims) ∧
      ∀ loaded, image = some loaded → Inside loaded.buffer loaded.size ∧ loaded.Confined ∧
        HasRoom later.heap (BitVec.ofNat 32 taskStackSize) := by
  obtain ⟨struct, nonnull, data⟩ := made
  obtain ⟨loaded, known⟩ := processLoadData_owns (owns.alloc struct nonnull (by decide)) fits.asElf
    fits.asBinary (fits.buffer _ _ struct nonnull) data
  refine ⟨loaded, ?_⟩
  rintro image rfl
  obtain ⟨room, confined⟩ := fits.mapped _ _ _ image struct nonnull data
  exact ⟨(known image rfl).2.2, confined, room⟩

theorem WithStack.owns {process stackAddr : Word} {image : Image}
    (made : WithStack r file process image stackAddr later) (stackAddr_ne : stackAddr ≠ 0)
    (owns : r.Owns claims) (fits : LoadFits r file) :
    later.Owns (.sized stackAddr (blocksFor (BitVec.ofNat 32 taskStackSize)) ::ₘ
        (image.claims + .bare process ::ₘ claims)) ∧
      Inside stackAddr (BitVec.ofNat 32 taskStackSize) ∧ Inside image.buffer image.size ∧
      image.Confined := by
  obtain ⟨executable, stack⟩ := made
  obtain ⟨loaded, known⟩ := executable.owns owns fits
  obtain ⟨inside, confined, room⟩ := known image rfl
  obtain ⟨withStack, stackInside⟩ := loaded.allocInside stack stackAddr_ne (by decide) room
  exact ⟨withStack, stackInside, inside, confined⟩

/-- What a process has when its memory is about to be mapped, which then succeeds. -/
theorem WithTask.owns {process stackAddr argBlock task : Word} {image : Image} {tables : PageTables}
    (made : WithTask r file process image stackAddr argBlock task tables later) (owns : r.Owns claims)
    (fits : LoadFits r file) :
    later.Owns (bares tables.blocks + .bare task ::ₘ
        .sized argBlock (blocksFor (BitVec.ofNat 32 lenArgBlock)) ::ₘ
        .sized stackAddr (blocksFor (BitVec.ofNat 32 taskStackSize)) ::ₘ
        (image.claims + .bare process ::ₘ claims)) ∧
      Inside stackAddr (BitVec.ofNat 32 taskStackSize) ∧ Inside argBlock (BitVec.ofNat 32 lenArgBlock) ∧
      Inside image.buffer image.size ∧ image.Confined ∧
      0 ≤ (processMapTaskMemory stackAddr argBlock image.executable taskPages).1 := by
  obtain ⟨stack, stackAddr_ne, args, argBlock_ne, struct, pages⟩ := made
  obtain ⟨withStack, stackInside, inside, confined⟩ := stack.owns stackAddr_ne owns fits
  obtain ⟨withArgs, argInside⟩ := withStack.allocInside args argBlock_ne (by decide)
    (hasRoom_block withStack.kernelTable (by decide))
  have full := initPageTables_owns (withArgs.allocUsed (by decide) struct) pages
  exact ⟨full, stackInside, argInside, inside, confined,
    mapping_succeeds withArgs stackInside argInside inside confined⟩

/-- A load leaves what others claim, and a new process with claims of its own. -/
theorem processLoadForSlot_owns {pid : Nat} (owns : r.Owns claims) (fits : LoadFits r file)
    {result : Option Proc} (run : processLoadForSlot r pid file = some (later, result)) :
    later.Owns (result.elim 0 Proc.baseClaims + claims) ∧
      ∀ proc, result = some proc → proc.Started := by
  cases processLoadForSlot_cases run with
  | unallocated refused =>
      obtain ⟨null, -⟩ := Resources.alloc_kzalloc refused
      rw [processLoadForSlot_null null owns.kernelTable run, Resources.freeAll_eq, Option.elim, zero_add]
      have same := (sameTable_iff_freesNothing _ _).mpr (fits.unallocated null)
      exact ⟨Owned.of_sameTable owns (owns.kernelTable.kfree_all _) same, nofun⟩
  | unloaded struct =>
      have kept := (struct.owns owns fits).1
      rw [Option.elim, zero_add] at kept
      exact ⟨by simpa using kept.drop, nofun⟩
  | noStack refused =>
      obtain ⟨executable, stack⟩ := refused
      have failed := (executable.owns owns fits).1.alloc_failed stack
      exact ⟨by simpa using failed.freeImage.drop, nofun⟩
  | noArgs stack stackAddr_ne refused =>
      have failed := (stack.owns stackAddr_ne owns fits).1.alloc_failed refused
      rw [← Multiset.add_cons] at failed
      exact ⟨by simpa using failed.freeImage.free.drop, nofun⟩
  | unmapped made failed => exact absurd failed (not_lt.mpr (made.owns owns fits).2.2.2.2.2)
  | loaded made mapped =>
      obtain ⟨full, stackInside, argInside, inside, confined, -⟩ := made.owns owns fits
      refine ⟨?_, ?_⟩
      · rw [Option.elim, Proc.baseClaims_add rfl]
        exact full
      · rintro _ ⟨⟩
        refine ⟨rfl, ?_, confined, mapped, rfl⟩
        intro region member
        simp only [Proc.memory, List.mem_cons, List.not_mem_nil, or_false] at member
        rcases member with rfl | rfl | rfl
        · exact stackInside
        · exact argInside
        · exact inside

end Process

end ConiferOS.Kernel
