import Ish.Lib.Flags
import Mathlib.Logic.Function.Basic

/-!
# The state of the guest memory subsystem

The constants and records of `emu/mmu.h`, `kernel/memory.h` and `kernel/mm.h`.

A page number (`page_t`) is a natural number; sums and differences that the source forms in
64 bits are reduced modulo `2^64` where they are formed. Flag words are 32 bit vectors, as the
source's `unsigned`.

`struct mem` is `Mem`; what all address spaces share (the `struct data` objects, the host
mappings behind them and `anon_page_count`) is `Kernel`. A host mapping is a `Region`, named by
a number that is never used twice; a host pointer is a region and an offset into it. In the same
way a `struct data` is named by a number that is never used twice, and keeps its record after it
was freed (`live = false`), so that a stale reference can be told from a good one.
-/

namespace Ish

open Lib

/-! ### Constants -/

def pageSize : Nat := 4096
/-- `MEM_PAGES`: the page table has 36-bit page numbers. -/
def memPages : Nat := 0x1000000000
def badPage : Nat := memPages
/-- `2^64`, the modulus of `page_t`, `pages_t`, `addr_t` and `size_t`. -/
def wordMod : Nat := 0x10000000000000000
/-- `2^32`, the modulus of `data->refcount`. -/
def refMod : Nat := 0x100000000
def stackTopPage : Nat := 0xffffe
def mmapHoleStart : Nat := 0xefffd
def mmapHoleEnd : Nat := 0x100
def userAddrMaxPage : Nat := 0xFFFFFFFFF
/-- The first page `pt_find_hole_high` looks at (4 GB). -/
def highBase : Nat := 0x100000
def anonMmapLimitPages : Int := 1048576
def rlimInfinity : Nat := wordMod - 1

/-! ### Page flags -/

/-- `unsigned flags` of an entry or a reservation. -/
abbrev Flags := BitVec 32

def pRead : Flags := 0x01#32
def pWrite : Flags := 0x02#32
def pExec : Flags := 0x04#32
def pRwx : Flags := pRead ||| pWrite ||| pExec
def pGrowsdown : Flags := 0x08#32
def pCow : Flags := 0x10#32
/-- Mapping was created with `pt_map_nothing`. -/
def pAnonymous : Flags := 0x40#32
/-- Mapping was created with `MAP_SHARED`, should not CoW. -/
def pShared : Flags := 0x80#32
/-- `P_META_FLAGS`: what `pt_set_flags` keeps of the old flags. -/
def pMetaFlags : Flags := pAnonymous ||| pGrowsdown ||| pCow ||| pShared

def pWritable (flags : Flags) : Bool := hasAny flags pWrite && !hasAny flags pCow

/-! ### Error numbers -/

/-- The negative results of the functions below (`kernel/errno.h`); `host` is `errno_map()`. -/
inductive Errno where
  | enomem
  | einval
  | ebadf
  | enodev
  | efault
  | host
  deriving DecidableEq, Repr

/-! ### Host mappings -/

/-- Names a host mapping. -/
abbrev RegionId := Nat

/-- The rights of one host page. -/
structure Prot where
  read : Bool
  write : Bool
  deriving DecidableEq, Repr

def Prot.none : Prot := ⟨false, false⟩
/-- `PROT_READ` -/
def Prot.r : Prot := ⟨true, false⟩
/-- `PROT_READ | PROT_WRITE` -/
def Prot.rw : Prot := ⟨true, true⟩

/-- A host mapping: its length, the rights of each of its host pages, its bytes. -/
structure Region where
  size : Nat
  prot : Nat → Prot
  bytes : Nat → UInt8

/-- The host mappings made so far; `regions r = none` once `r` has been munmapped. -/
structure Host where
  regions : RegionId → Option Region
  next : RegionId

/-- The static image `vdso_data`, which was not allocated with `mmap`. -/
def vdsoData : RegionId := 0

def vdsoPages : Nat := 2

/-- An address of the host. -/
structure HostPtr where
  region : RegionId
  offset : Nat
  deriving DecidableEq, Repr

/-! ### `struct data`, `struct pt_entry`, `struct mem_reservation` -/

/-- Names a `struct data`. -/
abbrev DataId := Nat

/-- `struct data`. `refcount` is an `atomic_uint`, so it stays below `2^32`. -/
structure Data where
  data : RegionId
  size : Nat
  refcount : Nat
  fd : Option Nat
  fileOffset : Nat
  live : Bool

/-- `struct pt_entry` with a non-null `data`. -/
structure PtEntry where
  data : DataId
  offset : Nat
  flags : Flags
  deriving DecidableEq, Repr

/-- `struct mem_reservation`; `id` stands for its address. -/
structure MemReservation where
  id : Nat
  start : Nat
  pages : Nat
  flags : Flags
  deriving DecidableEq, Repr

/-! ### The page table -/

/-- An index into one level of the table. -/
abbrev PtIdx := Fin 512

/-- An array of 512 `pt_entry`s; `none` is an entry whose `data` is null. -/
abbrev PtL3 := PtIdx → Option PtEntry

/-- `struct pt_node`: 512 children, each possibly null. -/
structure PtNode (α : Type) where
  children : PtIdx → Option α

/-- `calloc(1, sizeof(struct pt_node))` -/
def PtNode.empty {α : Type} : PtNode α := ⟨fun _ => none⟩

/-- The type of `mem->pgdir`: three levels of nodes over the arrays of entries. -/
abbrev Pgdir := PtNode (PtNode (PtNode PtL3))

/-! ### The two halves of the state -/

/-- `struct mem`, with `mmu.changes` as `changes`. `nextReservation` is the name the next
`malloc` of a `mem_reservation` gets; `invalidations` lists the pages handed to
`asbestos_invalidate_page`, newest first. -/
structure Mem where
  pgdir : Pgdir
  mmapHint : Nat
  reservations : List MemReservation
  changes : Nat
  nextReservation : Nat
  invalidations : List Nat

/-- No pages. -/
def memInit : Mem where
  pgdir := PtNode.empty
  mmapHint := 0
  reservations := []
  changes := 0
  nextReservation := 0
  invalidations := []

/-- What the address spaces share; `closedFds` lists the arguments of `fd_close`, newest first. -/
structure Kernel where
  host : Host
  datas : DataId → Data
  nextData : DataId
  anonPageCount : Int
  closedFds : List Nat

/-- The kernel before the first process: nothing is mapped but the vdso image. -/
def kernelInit : Kernel where
  host := {
    regions := fun r => if r = vdsoData then some ⟨vdsoPages * pageSize, fun _ => Prot.r, fun _ => 0⟩
      else none
    next := vdsoData + 1 }
  datas := fun _ => ⟨vdsoData, 0, 0, none, 0, false⟩
  nextData := 0
  anonPageCount := 0
  closedFds := []

/-- `mem_changed` -/
def memChanged (m : Mem) : Mem := { m with changes := m.changes + 1 }

/-- How the host answers the calls made on behalf of one kernel function. `mallocRes page r` is
the allocation made when the unmapping of `page` splits the reservation `r`, or when the
protection of the range from `page` on does; `mallocCopy r` is the one for the copy of `r` made by
a fork; `mprotect page` is the call made for the guest page `page`. -/
structure HostEnv where
  mmap : Bool
  mallocData : Bool
  mallocRes : Nat → MemReservation → Bool
  mallocCopy : MemReservation → Bool
  mprotect : Nat → Bool

/-- The host refuses nothing. -/
def HostEnv.good : HostEnv :=
  ⟨true, true, fun _ _ => true, fun _ => true, fun _ => true⟩

/-! ### Host calls -/

/-- A successful `mmap(NULL, size, prot, ...)` whose bytes are `bytes`. -/
def Host.mmap (h : Host) (size : Nat) (prot : Prot) (bytes : Nat → UInt8) : RegionId × Host :=
  (h.next,
    { regions := Function.update h.regions h.next (some ⟨size, fun _ => prot, bytes⟩),
      next := h.next + 1 })

/-- `munmap` of a whole mapping. -/
def Host.munmap (h : Host) (r : RegionId) : Host :=
  { h with regions := Function.update h.regions r none }

/-- A successful `mprotect` of the host page `hostPage` of `r`. -/
def Host.mprotect (h : Host) (r : RegionId) (hostPage : Nat) (prot : Prot) : Host :=
  { h with
    regions := Function.update h.regions r
      ((h.regions r).map fun R => { R with prot := Function.update R.prot hostPage prot }) }

/-- The byte behind a host pointer, if it lies in a mapping. -/
def Host.byteAt (h : Host) (p : HostPtr) : Option UInt8 :=
  (h.regions p.region).map fun R => R.bytes p.offset

/-- A store of one byte through a host pointer. -/
def Host.store (h : Host) (p : HostPtr) (v : UInt8) : Host :=
  { h with
    regions := Function.update h.regions p.region
      ((h.regions p.region).map fun R => { R with bytes := Function.update R.bytes p.offset v }) }

end Ish
