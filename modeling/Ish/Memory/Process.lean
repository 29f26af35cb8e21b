import Ish.Memory.Fault
import Ish.Memory.Mmap

/-!
# Growing mappings and the heap

`sys_mremap` and `sys_brk` of `kernel/mmap.c`.
-/

namespace Ish

open Lib

/-! ### Counted mappings -/

/-- The cast `(long) pages`. -/
def asLong (pages : Nat) : Int := (BitVec.ofNat 64 pages).toInt

/-- `atomic_fetch_add(&anon_page_count, n)` -/
def Kernel.count (k : Kernel) (n : Int) : Kernel := { k with anonPageCount := k.anonPageCount + n }

/-- `pt_map_nothing` between the test of the limit and, if it fails, the correction of
`anon_page_count`. Nothing is counted unless `counted`. -/
def mapCounted (env : HostEnv) (s : Kernel × Mem) (start pages : Nat) (flags : Flags)
    (counted : Bool) : Except Errno Unit × Kernel × Mem :=
  if counted then
    if s.1.anonPageCount + asLong pages > anonMmapLimitPages then (.error .enomem, s)
    else
      match ptMapNothing env (s.1.count (asLong pages), s.2) start pages flags with
      | (.error err, k, m) => (.error err, k.count (-asLong pages), m)
      | (.ok _, s) => (.ok (), s)
  else ptMapNothing env s start pages flags

/-! ### `mremap` -/

def mremapMaymove : BitVec 32 := 1#32
def mremapFixed : BitVec 32 := 2#32

/-- `PAGE_ROUND_UP(len)` of a `dword_t`, where the sum overflows in 32 bits. -/
def pageRoundUp32 (len : BitVec 32) : Nat := (len + 4095#32).toNat / pageSize

/-- The check that the whole old range is mapped with the flags of its first page. -/
def sysMremap.uniform (m : Mem) (start oldPages : Nat) (ptFlags : Flags) : Bool :=
  (List.range' start (loopCount start oldPages)).all fun page =>
    (memPt m page).any fun entry => entry.flags == ptFlags

def sysMremap.copyPage (start newStart i : Nat) (s : Kernel × Mem) : Kernel × Mem :=
  match memPt s.2 (start + i), memPt s.2 (newStart + i) with
  | some src, some dst =>
    let bytes := memPtr.pageBytes s.1 src
    let r := (s.1.datas dst.data).data
    let regions := Function.update s.1.host.regions r
      ((s.1.host.regions r).map fun R => { R with
        bytes := fun j => if dst.offset ≤ j ∧ j < dst.offset + pageSize then bytes (j - dst.offset)
          else R.bytes j })
    ({ s.1 with host := { s.1.host with regions := regions } }, s.2)
  | _, _ => s

/-- The end of `sys_mremap`, when the range has to move. -/
def sysMremap.move (env : HostEnv) (s : Kernel × Mem) (start oldPages newPages : Nat)
    (ptFlags : Flags) : Except Errno Nat × Kernel × Mem :=
  let hole := ptFindHole s.2 newPages
  if hole.1 = badPage then (.error .enomem, s.1, hole.2)
  else
    match mapCounted env (s.1, hole.2) hole.1 newPages ptFlags (hasAny ptFlags pRwx) with
    | (.error err, s) => (.error err, s)
    | (.ok _, s) =>
      let s := if hasAny ptFlags pRwx then forRange (copyPage start hole.1) oldPages 0 s else s
      (.ok (hole.1 * pageSize), ptUnmapAlways env s start oldPages)

/-- `sys_mremap` of a range that grows. -/
def sysMremap.grow (env : HostEnv) (s : Kernel × Mem) (start oldPages newPages : Nat)
    (flags : BitVec 32) : Except Errno Nat × Kernel × Mem :=
  match memPt s.2 start with
  | none => (.error .efault, s)
  | some entry =>
    if ¬ uniform s.2 start oldPages entry.flags then (.error .efault, s)
    else if ¬ hasAny entry.flags pAnonymous then (.error .efault, s)
    else if ptIsHole s.2 (start + oldPages) (newPages - oldPages) then
      doMmap.finish start (mapCounted env s (start + oldPages) (newPages - oldPages) entry.flags
        (hasAny entry.flags pRwx))
    else if ¬ hasAny flags mremapMaymove then (.error .enomem, s)
    else move env s start oldPages newPages entry.flags

/-- `sys_mremap` -/
def sysMremap (env : HostEnv) (s : Kernel × Mem) (addr : BitVec 64) (oldLen newLen : BitVec 32)
    (flags : BitVec 32) : Except Errno Nat × Kernel × Mem :=
  if misaligned addr then (.error .einval, s)
  else if oldLen = 0#32 ∨ newLen = 0#32 then (.error .einval, s)
  else if flags &&& ~~~(mremapMaymove ||| mremapFixed) ≠ 0#32 then (.error .einval, s)
  else if hasAny flags mremapFixed then (.error .einval, s)
  else
    let start := pageOfAddr addr
    let oldPages := pageRoundUp32 oldLen
    let newPages := pageRoundUp32 newLen
    if newPages ≤ oldPages then
      match ptUnmap env s (start + newPages) (oldPages - newPages) with
      | (true, s) => (.ok (start * pageSize), s)
      | (false, s) => (.error .efault, s)
    else sysMremap.grow env s start oldPages newPages flags

/-! ### `brk` -/

/-- `struct mm`: the address space and its heap. -/
structure Mm where
  mem : Mem
  startBrk : BitVec 64
  brk : BitVec 64

/-- The number of pages `sys_brk` maps, a difference in 64 bits. -/
def sysBrk.size (brk newBrk : BitVec 64) : Nat :=
  (pageRoundUp newBrk + (wordMod - pageRoundUp brk)) % wordMod

/-- `sys_brk`; its result is the break of the new state. -/
def sysBrk (env : HostEnv) (k : Kernel) (mm : Mm) (newBrk : BitVec 64) : Kernel × Mm :=
  if newBrk < mm.startBrk then (k, mm)
  else if newBrk > mm.brk then
    let start := pageRoundUp mm.brk
    let size := sysBrk.size mm.brk newBrk
    if ¬ ptIsHole mm.mem start size then (k, mm)
    else
      match mapCounted env (k, mm.mem) start size pWrite true with
      | (.error _, k, m) => (k, { mm with mem := m })
      | (.ok _, k, m) => (k, { mm with mem := m, brk := newBrk })
  else
    let first := pageRoundUp newBrk
    let last := pageRoundUp mm.brk
    let s := if first < last then ptUnmapAlways env (k, mm.mem) first (last - first)
      else (k, mm.mem)
    (s.1, { mm with mem := s.2, brk := newBrk })

end Ish
