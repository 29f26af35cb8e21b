import Ish.Lib.Loop
import Ish.Memory.PageTable
import Ish.Memory.Reservation

/-!
# Mapping, unmapping, protecting and copying pages

`pt_map`, `pt_map_nothing`, `pt_unmap`, `pt_unmap_always`, `pt_set_flags`, `pt_copy_on_write` and
`mem_destroy` of `kernel/memory.c`, and `mm_copy` of `kernel/mmap.c`.

Each function takes the kernel state and the address space and returns the new pair, after its
result where it has one. `env` says how the host answers.
-/

namespace Ish

open Lib

/-! ### Reference counts -/

/-- `++` on an `atomic_uint` -/
def incRef (n : Nat) : Nat := if n = refMod - 1 then 0 else n + 1

/-- `--` on an `atomic_uint` -/
def decRef (n : Nat) : Nat := if n = 0 then refMod - 1 else n - 1

/-- `data->refcount++` -/
def dataRetain (k : Kernel) (d : DataId) : Kernel :=
  let data := { k.datas d with refcount := incRef (k.datas d).refcount }
  { k with datas := Function.update k.datas d data }

/-- `if (--data->refcount == 0) { ... }` of `pt_unmap_always`: the last reference unmaps the host
region (the vdso wasn't allocated with `mmap`), closes the file and frees the object. -/
def dataRelease (k : Kernel) (d : DataId) : Kernel :=
  let data := k.datas d
  let freed := decRef data.refcount == 0
  { k with
    host := if freed && data.data != vdsoData then k.host.munmap data.data else k.host
    closedFds := if freed then data.fd.toList ++ k.closedFds else k.closedFds
    datas := Function.update k.datas d
      ⟨data.data, data.size, decRef data.refcount, data.fd, data.fileOffset, data.live && !freed⟩ }

/-! ### Unmapping -/

/-- The bound `start + pages` of the page loops. -/
def loopStop (start pages : Nat) : Nat := (start + pages) % wordMod

/-- The number of turns of `for (page = start; page < start + pages; page++)`. -/
def loopCount (start pages : Nat) : Nat := loopStop start pages - start

def ptUnmapAlways.body (page : Nat) (s : Kernel × Mem) : Kernel × Mem :=
  match memPt s.2 page with
  | none => s
  | some pt =>
    let k := if hasAny pt.flags pAnonymous then
        { s.1 with anonPageCount := s.1.anonPageCount - 1 } else s.1
    (dataRelease k pt.data, memPtDel { s.2 with invalidations := page :: s.2.invalidations } page)

def ptUnmapAlways.enter (env : HostEnv) (m : Mem) (start pages : Nat) : Mem :=
  let last := (start + pages + (wordMod - 1)) % wordMod
  memRemoveReservations (env.mallocRes start) { m with mmapHint := max m.mmapHint last } start pages

/-- `pt_unmap_always`; it always returns 0. -/
def ptUnmapAlways (env : HostEnv) (s : Kernel × Mem) (start pages : Nat) : Kernel × Mem :=
  let s := skipRange (fun s page => memNextPage s.2 page) ptUnmapAlways.body
    (loopStop start pages) (loopCount start pages) start
    (s.1, ptUnmapAlways.enter env s.2 start pages)
  (s.1, memChanged s.2)

/-- `pt_unmap`; the first component is `false` for the result `-1`. -/
def ptUnmap (env : HostEnv) (s : Kernel × Mem) (start pages : Nat) : Bool × Kernel × Mem :=
  if (List.range' start (loopCount start pages)).all fun page => (memPt s.2 page).isSome then
    (true, ptUnmapAlways env s start pages)
  else (false, s)

/-- The effect of `mem_destroy` on the pages and reservations. -/
def memDestroy (env : HostEnv) (s : Kernel × Mem) : Kernel × Mem :=
  let s := ptUnmapAlways env s 0 memPages
  (s.1, { s.2 with reservations := [], pgdir := PtNode.empty })

/-! ### Mapping -/

/-- The body of the loop of `pt_map`: `data` is mapped at `page`. -/
def ptMap.body (env : HostEnv) (data : DataId) (start offset : Nat) (flags : Flags) (page : Nat)
    (s : Kernel × Mem) : Kernel × Mem :=
  let s := if (memPt s.2 page).isSome then (ptUnmap env s page 1).2 else s
  (dataRetain s.1 data,
    memPtNew s.2 page ⟨data, ((page - start) * pageSize + offset) % wordMod, flags⟩)

def ptMap.newData (k : Kernel) (pages : Nat) (memory : RegionId) (offset : Nat) : Kernel :=
  { k with
    datas := Function.update k.datas k.nextData
      ⟨memory, (pages * pageSize + offset) % wordMod, 0, none, 0, true⟩
    nextData := k.nextData + 1 }

/-- `pt_map`; `memory = none` is `MAP_FAILED`. -/
def ptMap (env : HostEnv) (s : Kernel × Mem) (start pages : Nat) (memory : Option RegionId)
    (offset : Nat) (flags : Flags) : Except Errno Unit × Kernel × Mem :=
  match memory with
  | none => (.error .host, s)
  | some memory =>
    if env.mallocData then
      let s := forRange (ptMap.body env s.1.nextData start offset flags) (loopCount start pages)
        start (ptMap.newData s.1 pages memory offset, s.2)
      (.ok (), s.1, memChanged s.2)
    else (.error .enomem, s)

/-- The rights of the host mapping that `pt_map_nothing` makes for `flags`: guest `PROT_NONE`
mappings get host `PROT_NONE`. -/
def ptMapNothing.hostProt (flags : Flags) : Prot :=
  if !hasAny flags pRead && !hasAny flags pWrite && !hasAny flags pExec then Prot.none else Prot.rw

/-- `pt_map_nothing` -/
def ptMapNothing (env : HostEnv) (s : Kernel × Mem) (start pages : Nat) (flags : Flags) :
    Except Errno Unit × Kernel × Mem :=
  if pages = 0 then (.ok (), s)
  else if env.mmap then
    let r := s.1.host.mmap (pages * pageSize % wordMod) (ptMapNothing.hostProt flags) fun _ => 0
    ptMap env ({ s.1 with host := r.2 }, s.2) start pages (some r.1) 0 (flags ||| pAnonymous)
  else (.error .enomem, s)

/-! ### Protecting -/

/-- The new flags that `pt_set_flags` stores over `old`. -/
def ptSetFlags.newFlags (flags old : Flags) : Flags := flags ||| (old &&& pMetaFlags)

/-- Whether `pt_set_flags` finds that the protection is increasing. -/
def ptSetFlags.increases (flags old : Flags) : Bool := hasAny (flags &&& ~~~old) (pRead ||| pWrite)

/-- The rights `pt_set_flags` asks the host for. -/
def ptSetFlags.hostProt (flags : Flags) : Prot := if hasAny flags pWrite then Prot.rw else Prot.r

/-- The body of the second loop of `pt_set_flags`. Host mappings start at a multiple of
`realPageSize`, so rounding the pointer down selects the host page `offset / realPageSize`. -/
def ptSetFlags.body (realPageSize : Nat) (env : HostEnv) (flags : Flags) (page : Nat)
    (s : Kernel × Mem) : Option Errno × Kernel × Mem :=
  match memPt s.2 page with
  | none => (none, s)
  | some entry =>
    let m := memPtSetFlags s.2 page (newFlags flags entry.flags)
    if increases flags entry.flags then
      if env.mprotect page then
        let host := s.1.host.mprotect (s.1.datas entry.data).data (entry.offset / realPageSize)
          (hostProt flags)
        (none, { s.1 with host := host }, m)
      else (some .host, s.1, m)
    else (none, s.1, m)

/-- The check of the first loop of `pt_set_flags`: every page is mapped or reserved. -/
def ptSetFlags.covered (m : Mem) (start pages : Nat) : Bool :=
  (List.range' start (loopCount start pages)).all fun page =>
    (memPt m page).isSome || (memFindReservation m page).isSome

/-- `pt_set_flags` -/
def ptSetFlags (realPageSize : Nat) (env : HostEnv) (s : Kernel × Mem) (start pages : Nat)
    (flags : Flags) : Except Errno Unit × Kernel × Mem :=
  if ptSetFlags.covered s.2 start pages then
    match forUntil (ptSetFlags.body realPageSize env flags) (loopCount start pages) start s with
    | (some err, s) => (.error err, s)
    | (none, s) =>
      match memSetReservationFlags (env.mallocRes start) s.2 start pages flags with
      | (false, m) => (.error .enomem, s.1, m)
      | (true, m) => (.ok (), s.1, memChanged m)
  else (.error .enomem, s)

/-! ### Copying -/

/-- The state of the copy. -/
structure CopyState where
  kernel : Kernel
  src : Mem
  dst : Mem
  anonCopied : Int

/-- The flags that source and copy have after `pt_copy_on_write`. -/
def ptCopyOnWrite.newFlags (flags : Flags) : Flags :=
  if hasAny flags pShared then flags else flags ||| pCow

def ptCopyOnWrite.body (env : HostEnv) (page : Nat) (s : CopyState) : CopyState :=
  match memPt s.src page with
  | none => s
  | some entry =>
    let kd := ptUnmapAlways env (s.kernel, s.dst) page 1
    let flags := newFlags entry.flags
    { kernel := dataRetain kd.1 entry.data
      src := memPtSetFlags s.src page flags
      dst := memPtNew kd.2 page { entry with flags := flags }
      anonCopied := if hasAny flags pAnonymous then s.anonCopied + 1 else s.anonCopied }

/-- The copy of the reservations: each copy is put in front. -/
def ptCopyOnWrite.copyReservations (env : HostEnv) (dst : Mem) : List MemReservation → Mem
  | [] => dst
  | r :: rs =>
    copyReservations env
      (if env.mallocCopy r then
        { dst with
          reservations := { r with id := dst.nextReservation } :: dst.reservations,
          nextReservation := dst.nextReservation + 1 }
      else dst) rs

/-- `pt_copy_on_write`; it always returns 0. -/
def ptCopyOnWrite (env : HostEnv) (k : Kernel) (src dst : Mem) (start pages : Nat) :
    Kernel × Mem × Mem :=
  let s := skipRange (fun s page => memNextPage s.src page) (ptCopyOnWrite.body env)
    (loopStop start pages) (loopCount start pages) start ⟨k, src, dst, 0⟩
  ({ s.kernel with anonPageCount := s.kernel.anonPageCount + s.anonCopied },
    memChanged s.src,
    memChanged (ptCopyOnWrite.copyReservations env s.dst s.src.reservations))

/-- The memory part of `mm_copy`: the source and the new address space. -/
def mmCopy (env : HostEnv) (k : Kernel) (src : Mem) : Kernel × Mem × Mem :=
  ptCopyOnWrite env k src memInit 0 memPages

end Ish
