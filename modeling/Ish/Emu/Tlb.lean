import Ish.Memory.World

/-!
# The TLB

`emu/tlb.c` and `emu/tlb.h`, with the inlined lookups of the gadgets: a direct-mapped cache of
translations with one tag for reads and one for writes, and a copy of the change counter of the
address space it was filled from. The caches of translated code that share the structure are not
part of this model.
-/

namespace Ish

open Lib

/-- `TLB_SIZE` -/
def tlbSize : Nat := 8192

/-- The number of values of an `unsigned`, the type of `tlb->mem_changes`. -/
def unsignedMod : Nat := 2 ^ 32

/-- `TLB_PAGE` -/
def tlbPage (addr : Nat) : Nat := addr - addr % pageSize

/-- `TLB_PAGE_EMPTY`, which is no page -/
def tlbPageEmpty : Nat := 1

/-- `TLB_INDEX` -/
def tlbIndex (addr : Nat) : Nat := ((addr / 2 ^ 12) ^^^ (addr / 2 ^ 25)) % tlbSize

/-- `struct tlb_entry`. `data_minus_addr` only ever occurs in a sum with an address of the page;
`data` is that sum for the first address. -/
structure TlbEntry where
  page : Nat
  pageIfWritable : Nat
  data : HostPtr

/-- `struct tlb`; an address space is named by the address of its `struct mm`. -/
structure Tlb (ι : Type) where
  mmu : Option ι
  dirtyPage : Nat
  memChanges : Nat
  segfaultAddr : Nat
  entries : Nat → TlbEntry

/-- The TLB as `calloc` returns it. -/
def tlbInit (ι : Type) : Tlb ι := ⟨none, 0, 0, 0, fun _ => ⟨0, 0, ⟨0, 0⟩⟩⟩

/-- A pointer `n` bytes on. -/
def HostPtr.add (ptr : HostPtr) (n : Nat) : HostPtr := ⟨ptr.region, ptr.offset + n⟩

namespace Tlb

variable {ι : Type} [DecidableEq ι]

/-- `tlb_flush` when the change counter of the address space is `changes` -/
def flush (tlb : Tlb ι) (changes : Nat) : Tlb ι :=
  { tlb with
    memChanges := changes % unsignedMod
    entries := fun _ => ⟨tlbPageEmpty, tlbPageEmpty, ⟨0, 0⟩⟩ }

/-- `tlb_refresh` -/
def refresh (tlb : Tlb ι) (mmu : ι) (changes : Nat) : Tlb ι :=
  if tlb.mmu = some mmu ∧ tlb.memChanges = changes then tlb
  else flush { tlb with mmu := some mmu, dirtyPage := tlbPageEmpty } changes

/-- The lookup of a gadget for a read. -/
def readHit (tlb : Tlb ι) (addr : Nat) : Option HostPtr :=
  let entry := tlb.entries (tlbIndex addr)
  if entry.page = tlbPage addr then some (entry.data.add (pgOffset addr)) else none

/-- The lookup of a gadget for a write. -/
def writeHit (tlb : Tlb ι) (addr : Nat) : Option HostPtr :=
  let entry := tlb.entries (tlbIndex addr)
  if entry.pageIfWritable = tlbPage addr then some (entry.data.add (pgOffset addr)) else none

/-- What a miss finds out about the write tag. -/
def writeTag (s : Kernel × Mem) (addr : Nat) (type : AccessType) : Nat :=
  if type = .write ∨ (memPtrNofault s (tlbPage addr) .write).isSome then tlbPage addr
  else tlbPageEmpty

/-- The entry that a miss fills, from the pointer `ptr`. -/
def fill (tlb : Tlb ι) (s : Kernel × Mem) (addr : Nat) (type : AccessType) (ptr : HostPtr) :
    Tlb ι :=
  { tlb with
    memChanges := s.2.changes % unsignedMod
    dirtyPage := tlbPage addr
    entries := Function.update tlb.entries (tlbIndex addr)
      ⟨tlbPage addr, writeTag s addr type, ptr⟩ }

/-- What the host, the locks and the other threads do during one `mmu_translate`. -/
structure Translation where
  fe : FaultEnv
  gap : Nat → Kernel × Mem → Kernel × Mem

/-- `mmu_translate` -/
def mmuTranslate (x : Translation) (s : Kernel × Mem) (addr : Nat) (type : AccessType) :
    Option (Option HostPtr × Kernel × Mem) :=
  memPtrWith x.fe x.gap s addr type

/-- The end of `tlb_handle_miss`. -/
def finishMiss (tlb : Tlb ι) (s : Kernel × Mem) (addr : Nat) (type : AccessType) :
    Option HostPtr → Option HostPtr × (Kernel × Mem) × Tlb ι
  | none => (none, s, { tlb with segfaultAddr := addr })
  | some ptr => (some (ptr.add (pgOffset addr)), s, tlb.fill s addr type ptr)

/-- `tlb_handle_miss`; `x` and `y` are its two translations. -/
def handleMiss (tlb : Tlb ι) (x y : Translation) (s : Kernel × Mem) (addr : Nat)
    (type : AccessType) : Option (Option HostPtr × (Kernel × Mem) × Tlb ι) :=
  match mmuTranslate x s (tlbPage addr) type with
  | none => none
  | some (ptr, s) =>
    if s.2.changes ≠ tlb.memChanges then
      let tlb := tlb.flush s.2.changes
      -- re-translate after flush
      match mmuTranslate y s (tlbPage addr) type with
      | none => none
      | some (ptr, s) => some (finishMiss tlb s addr type ptr)
    else some (finishMiss tlb s addr type ptr)

/-- `__tlb_read_ptr` -/
def readPtr (tlb : Tlb ι) (x y : Translation) (s : Kernel × Mem) (addr : Nat) :
    Option (Option HostPtr × (Kernel × Mem) × Tlb ι) :=
  match tlb.readHit addr with
  | some ptr => some (some ptr, s, tlb)
  | none => tlb.handleMiss x y s addr .read

/-- `__tlb_write_ptr` -/
def writePtr (tlb : Tlb ι) (x y : Translation) (s : Kernel × Mem) (addr : Nat) :
    Option (Option HostPtr × (Kernel × Mem) × Tlb ι) :=
  match tlb.writeHit addr with
  | some ptr => some (some ptr, s, { tlb with dirtyPage := tlbPage addr })
  | none => tlb.handleMiss x y s addr .write

end Tlb

/-! ### A guest thread and its TLB -/

/-- What other threads do while the lock is dropped: functions of `kernel/memory.c` on this address
space (`false`) and on another one (`true`). One that would kill the emulator is left out. -/
def window (realPageSize : Nat) (ops : List (Op Bool)) (s : Kernel × Mem) : Kernel × Mem :=
  (ops.foldl (fun w op => (w.step realPageSize op).getD w)
    (⟨s.1, fun b => if b then memInit else s.2⟩ : World Bool)).at false

/-- One `mmu_translate` of the guest thread: the answers it gets, and the windows of its locks. -/
structure Access where
  fe : FaultEnv
  windows : Nat → List (Op Bool)

/-- The translation of an access, with its windows. -/
def Access.translation (realPageSize : Nat) (x : Access) : Tlb.Translation :=
  ⟨x.fe, fun j => window realPageSize (x.windows j)⟩

/-- The address spaces, and a guest thread with its TLB; `running` is the address space it runs
in. -/
structure Guest (ι : Type) where
  world : World ι
  tlb : Tlb ι
  running : Option ι

/-- The steps. -/
inductive GuestAct (ι : Type) where
  /-- something changes a page table -/
  | change (op : Op ι)
  /-- `exec`: the pages are unmapped, `mm_release` frees the `struct mm`, and `mm_new` gets the same memory -/
  | renew (i : ι)
  /-- a guest run starts -/
  | refresh (i : ι)
  /-- the dispatcher flushes the TLB -/
  | flush
  | read (x y : Access) (addr : Nat)
  | write (x y : Access) (addr : Nat)
  /-- the guest run ends -/
  | stop

/-- The address spaces a function works on. -/
def Op.spaces {ι : Type} : Op ι → List ι
  | .map _ i _ _ _ _ _ => [i]
  | .mapNothing _ i _ _ _ => [i]
  | .mapLazy _ i _ _ _ => [i]
  | .unmap _ i _ _ => [i]
  | .unmapAlways _ i _ _ => [i]
  | .setFlags _ i _ _ _ => [i]
  | .copyOnWrite _ i j _ _ => [i, j]
  | .fault _ i _ _ => [i]
  | .findHole i _ => [i]
  | .setFile i _ _ _ => [i]

namespace Guest

variable {ι : Type} [DecidableEq ι]

/-- The end of an access of the guest to the address space `i`. -/
def put (s : Guest ι) (i : ι) (r : Option HostPtr × (Kernel × Mem) × Tlb ι) : Guest ι :=
  { s with world := s.world.put i r.2.1, tlb := r.2.2 }

/-- One step. While the guest runs it holds the lock of its address space for reading, except in
the windows of its own accesses. -/
def step (realPageSize : Nat) (s : Guest ι) : GuestAct ι → Option (Guest ι)
  | .change op =>
    if s.running.any fun i => i ∈ op.spaces then none
    else (s.world.step realPageSize op).map fun w => { s with world := w }
  | .renew i =>
    if s.running = some i then none
    else some { s with world := s.world.put i (s.world.kernel, memInit) }
  | .refresh i =>
    match s.running with
    | some _ => none
    | none =>
      some { s with tlb := s.tlb.refresh i (s.world.mems i).changes, running := some i }
  | .flush => s.running.map fun i => { s with tlb := s.tlb.flush (s.world.mems i).changes }
  | .read x y addr =>
    match s.running with
    | none => none
    | some i =>
      (s.tlb.readPtr (x.translation realPageSize) (y.translation realPageSize) (s.world.at i)
        addr).map (s.put i)
  | .write x y addr =>
    match s.running with
    | none => none
    | some i =>
      (s.tlb.writePtr (x.translation realPageSize) (y.translation realPageSize) (s.world.at i)
        addr).map (s.put i)
  | .stop => s.running.map fun _ => { s with running := none }

end Guest

end Ish
