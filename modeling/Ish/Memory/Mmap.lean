import Ish.Memory.Hole
import Ish.Memory.Map

/-!
# The memory system calls

`do_mmap`, `sys_mmap64`, `sys_munmap` and `sys_mprotect` of `kernel/mmap.c`, and the one
implementation of `fd->ops->mmap`, `realfs_mmap` of `fs/real.c`.

Addresses and lengths are 64-bit words. The calls run with `mem->lock` held for writing from
beginning to end, so each is one step here.
-/

namespace Ish

open Lib

def mmapShared : BitVec 32 := 0x1#32
def mmapPrivate : BitVec 32 := 0x2#32
def mmapFixed : BitVec 32 := 0x10#32
def mmapAnonymous : BitVec 32 := 0x20#32
def mmapNoreserve : BitVec 32 := 0x4000#32

/-- `PAGE(addr)` -/
def pageOfAddr (addr : BitVec 64) : Nat := addr.toNat / pageSize

/-- `PGOFFSET(addr) != 0` -/
def misaligned (addr : BitVec 64) : Bool := addr.toNat % pageSize ≠ 0

/-- `PAGE_ROUND_UP(len)`, where the sum overflows in 64 bits. -/
def pageRoundUp (len : BitVec 64) : Nat := (len + 4095#64).toNat / pageSize

/-! ### `munmap` and `mprotect` -/

/-- `sys_munmap` -/
def sysMunmap (env : HostEnv) (s : Kernel × Mem) (addr len : BitVec 64) :
    Except Errno Unit × Kernel × Mem :=
  if misaligned addr then (.error .einval, s)
  else if len = 0#64 then (.error .einval, s)
  else (.ok (), ptUnmapAlways env s (pageOfAddr addr) (pageRoundUp len))

/-- `sys_mprotect` -/
def sysMprotect (realPageSize : Nat) (env : HostEnv) (s : Kernel × Mem) (addr len : BitVec 64)
    (prot : Flags) : Except Errno Unit × Kernel × Mem :=
  if misaligned addr then (.error .einval, s)
  else if prot &&& ~~~pRwx ≠ 0#32 then (.error .einval, s)
  else ptSetFlags realPageSize env s (pageOfAddr addr) (pageRoundUp len) prot

/-! ### File mappings -/

/-- What `f_get` finds: nothing, a file that cannot be mapped, or a file of a real filesystem.
For the last, `bytes` are those of the host mapping that `realfs_mmap` sets up, `none` if the host
refuses it. -/
inductive FdLookup where
  | null
  | noMmap
  | file (bytes : Option (Nat → UInt8))

/-- `realfs_mmap`: one host mapping from the host page boundary below `offset` on, handed to
`pt_map`. -/
def realfsMmap (realPageSize : Nat) (env : HostEnv) (bytes : Option (Nat → UInt8))
    (s : Kernel × Mem) (start pages offset : Nat) (prot : Flags) :
    Except Errno Unit × Kernel × Mem :=
  let correction := offset % realPageSize
  let mapSize := (pages * pageSize + correction) % wordMod
  match bytes with
  | none => (.error .enomem, s)
  | some bytes =>
    let r := s.1.host.mmap mapSize (if hasAny prot pWrite then Prot.rw else Prot.r) bytes
    ptMap env ({ s.1 with host := r.2 }, s.2) start pages (some r.1) correction prot

/-- `mem_pt(mem, page)->data->fd = fd; ...->file_offset = offset;` -/
def setFile (s : Kernel × Mem) (page fd offset : Nat) : Kernel × Mem :=
  match memPt s.2 page with
  | none => s
  | some entry =>
    let data := { s.1.datas entry.data with fd := some fd, fileOffset := offset }
    ({ s.1 with datas := Function.update s.1.datas entry.data data }, s.2)

/-! ### `mmap` -/

/-- The first part of `do_mmap`: `some page` if the address the caller gave is used. -/
def doMmap.hint (m : Mem) (addr : BitVec 64) (pages : Nat) (flags : BitVec 32) :
    Except Errno (Option Nat) :=
  if addr = 0#64 then .ok none
  else if misaligned addr then .error .einval
  else
    let page := pageOfAddr addr
    -- outside the 48-bit user address space, or in the low stack gap
    if page > userAddrMaxPage ∨ pages > userAddrMaxPage - page ∨
        page < highBase ∧ page + pages > stackTopPage then
      if hasAny flags mmapFixed then .error .enomem else .ok none
    else if hasAny flags mmapFixed then .ok (some page)
    else if ptIsHole m page pages ∧ ¬ memRangeHasReservation m page pages then .ok (some page)
    else .ok none

/-- Large no-reserve arenas are placed high and reserved lazily. -/
def doMmap.lazyArena (pages : Nat) (flags : BitVec 32) : Bool :=
  hasAny flags mmapNoreserve && decide (pages ≥ 0x10000)

/-- The search for a range when no address is used. -/
def doMmap.search (m : Mem) (pages : Nat) (flags : BitVec 32) : Nat × Mem :=
  if lazyArena pages flags then (ptFindHoleHigh m pages, m) else ptFindHole m pages

/-- The placement: the page, and whether it is the caller's. -/
def doMmap.place (m : Mem) (addr : BitVec 64) (pages : Nat) (flags : BitVec 32) :
    Except Errno (Nat × Bool) × Mem :=
  match hint m addr pages flags with
  | .error err => (.error err, m)
  | .ok (some page) => (.ok (page, true), m)
  | .ok none =>
    let found := search m pages flags
    if found.1 = badPage then (.error .enomem, found.2) else (.ok (found.1, false), found.2)

/-- The page a lazy arena goes to: aligned down, if that range is free too. -/
def doMmap.align (m : Mem) (page pages : Nat) (hintUsed : Bool) : Nat :=
  let alignPages := min pages 0x40000
  let aligned := page / alignPages * alignPages
  if ¬ hintUsed ∧ aligned ≥ mmapHoleEnd ∧ ptIsHole m aligned pages ∧
      ¬ memRangeHasReservation m aligned pages then aligned
  else page

def doMmap.finish (page : Nat) : Except Errno Unit × Kernel × Mem → Except Errno Nat × Kernel × Mem
  | (.error err, s) => (.error err, s)
  | (.ok _, s) => (.ok (page * pageSize), s)

def doMmap.anonymous (env : HostEnv) (s : Kernel × Mem) (page pages : Nat) (hintUsed : Bool)
    (prot : Flags) (flags : BitVec 32) : Except Errno Nat × Kernel × Mem :=
  if lazyArena pages flags then
    let page := align s.2 page pages hintUsed
    if ¬ ptIsHole s.2 page pages ∨ memRangeHasReservation s.2 page pages then (.error .enomem, s)
    else
      let r := ptMapLazy (env.mallocRes page ⟨0, page, pages, prot⟩) s.2 page pages prot
      finish page (r.1, s.1, r.2)
  else if hasAny prot pRwx then
    if s.1.anonPageCount + pages > anonMmapLimitPages then (.error .enomem, s)
    else
      let k := { s.1 with anonPageCount := s.1.anonPageCount + pages }
      match ptMapNothing env (k, s.2) page pages prot with
      | (.error err, k, m) =>
        (.error err, { k with anonPageCount := k.anonPageCount - pages }, m)
      | (.ok _, s) => (.ok (page * pageSize), s)
  else
    -- PROT_NONE mappings don't count against the limit
    finish page (ptMapNothing env s page pages prot)

/-- A mapping of a file. -/
def doMmap.file (realPageSize : Nat) (env : HostEnv) (fd : FdLookup) (s : Kernel × Mem)
    (page pages : Nat) (prot : Flags) (fdNo offset : Nat) : Except Errno Nat × Kernel × Mem :=
  match fd with
  | .null => (.error .ebadf, s)
  | .noMmap => (.error .enodev, s)
  | .file bytes =>
    match realfsMmap realPageSize env bytes s page pages offset prot with
    | (.error err, s) => (.error err, s)
    | (.ok _, s) => (.ok (page * pageSize), setFile s page fdNo offset)

/-- `do_mmap` -/
def doMmap (realPageSize : Nat) (env : HostEnv) (fds : Nat → FdLookup) (s : Kernel × Mem)
    (addr len : BitVec 64) (prot : Flags) (flags : BitVec 32) (fdNo : Nat) (offset : BitVec 32) :
    Except Errno Nat × Kernel × Mem :=
  let pages := pageRoundUp len
  if pages = 0 then (.error .einval, s)
  else
    match doMmap.place s.2 addr pages flags with
    | (.error err, m) => (.error err, s.1, m)
    | (.ok (page, hintUsed), m) =>
      let prot := if hasAny flags mmapShared then prot ||| pShared else prot
      if hasAny flags mmapAnonymous then
        doMmap.anonymous env (s.1, m) page pages hintUsed prot flags
      else doMmap.file realPageSize env (fds fdNo) (s.1, m) page pages prot fdNo offset.toNat

def sysMmap64 (realPageSize : Nat) (env : HostEnv) (fds : Nat → FdLookup) (s : Kernel × Mem)
    (addr len : BitVec 64) (prot : Flags) (flags : BitVec 32) (fdNo : Nat) (offset : BitVec 64) :
    Except Errno Nat × Kernel × Mem :=
  if len = 0#64 then (.error .einval, s)
  else if prot &&& ~~~pRwx ≠ 0#32 then (.error .einval, s)
  else if hasAny flags mmapPrivate ∧ hasAny flags mmapShared then (.error .einval, s)
  else doMmap realPageSize env fds s addr len prot flags fdNo (offset.setWidth 32)

end Ish
