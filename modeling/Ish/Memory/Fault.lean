import Ish.Memory.Map

/-!
# Page faults

`mem_ptr_nofault` and `mem_ptr` of `kernel/memory.c`.

`mem_ptr` runs with `mem->lock` held for reading and drops it up to twice, each time to take it
for writing and back. It is cut at these points into the parts that run under one lock; `gap i`
is what other threads do to the state while the lock is dropped for the `i`-th time (0 and 2 before
the write lock, 1 and 3 after it). Without other threads `gap` does nothing.

The outer `Option` of a result is `none` when the host kills the emulator: the copy of a page is
then written to `MAP_FAILED`.
-/

namespace Ish

open Lib

/-- `MEM_READ`, `MEM_WRITE`, `MEM_WRITE_PTRACE` -/
inductive AccessType where
  | read
  | write
  | writePtrace
  deriving DecidableEq, Repr

/-- `PAGE(addr)` -/
def pageOf (addr : Nat) : Nat := addr / pageSize

def pgOffset (addr : Nat) : Nat := addr % pageSize

/-- `mem_ptr_nofault` -/
def memPtrNofault (s : Kernel × Mem) (addr : Nat) (type : AccessType) : Option HostPtr :=
  match memPt s.2 (pageOf addr) with
  | none => none
  | some entry =>
    if type = .write ∧ ¬ pWritable entry.flags then none
    else some ⟨(s.1.datas entry.data).data, entry.offset + pgOffset addr⟩

/-! ### The lookup under the read lock -/

/-- What `mem_ptr` decides under the read lock for the page it is asked for. -/
inductive FaultPlan where
  | present
  | refuse
  | grow
  | reserve (res : MemReservation)
  deriving DecidableEq, Repr

/-- `while (p < MEM_PAGES && mem_pt(mem, p) == NULL) mem_next_page(mem, &p);` -/
def memPtr.nextMapped.go (m : Mem) : Nat → Nat → Nat
  | 0, p => p
  | fuel + 1, p =>
    if p < memPages ∧ (memPt m p).isNone then go m fuel (memNextPage m p) else p

/-- The next mapped page above `page`; at least `MEM_PAGES` if there is none. -/
def memPtr.nextMapped (m : Mem) (page : Nat) : Nat :=
  nextMapped.go m memPages (memNextPage m page)

/-- The next VM region above `page` is willing to grow down. -/
def memPtr.growsDown (m : Mem) (page : Nat) : Bool :=
  match memPt m (nextMapped m page) with
  | none => false
  | some entry => nextMapped m page < memPages && hasAny entry.flags pGrowsdown

/-- `RLIMIT_STACK` forbids the stack to grow to `page`. -/
def memPtr.overStackLimit (stackLimit page : Nat) : Bool :=
  stackLimit ≠ rlimInfinity ∧
    (stackTopPage + (wordMod - page)) % wordMod * pageSize % wordMod > stackLimit

/-- The lookup of `mem_ptr` under the read lock. -/
def memPtr.plan (stackLimit : Nat) (m : Mem) (page : Nat) : FaultPlan :=
  if (memPt m page).isSome then .present
  else if growsDown m page then
    if overStackLimit stackLimit page then .refuse else .grow
  else
    match memFindReservation m page with
    | none => .refuse
    | some res => .reserve res

/-! ### The parts under the write lock -/

/-- The creation of a missing page, shared by the two kinds of fault. -/
def memPtr.materialise (env : HostEnv) (s : Kernel × Mem) (page : Nat) (flags : Flags) :
    Kernel × Mem :=
  if (memPt s.2 page).isSome then s
  else
    match ptMapNothing env ({ s.1 with anonPageCount := s.1.anonPageCount + 1 }, s.2) page 1 flags with
    | (.ok _, k, m) => (k, memChanged m)
    | (.error _, s) => s

/-- `res->flags` after the lock was dropped. A reservation freed in the meantime is read all the
same; `stale` is what is found there. -/
def memPtr.resFlags (stale : Flags) (m : Mem) (res : MemReservation) : Flags :=
  match m.reservations.find? fun r => r.id = res.id with
  | some r => r.flags
  | none => stale

/-- What the host and the locks answer during one `mem_ptr`. `cow` answers the calls made for the
copy of a page. -/
structure FaultEnv where
  host : HostEnv
  cow : HostEnv
  stackLimit : Nat
  inJit : Bool
  trywrlock : Bool
  stale : Flags

def FaultEnv.good : FaultEnv := ⟨HostEnv.good, HostEnv.good, rlimInfinity, false, true, 0#32⟩

/-- The lock upgrade around the creation of a page: inside the JIT the write lock is only tried.
The first component is `false` for a return of `NULL`. -/
def memPtr.upgrade (fe : FaultEnv) (gap : Nat → Kernel × Mem → Kernel × Mem) (s : Kernel × Mem)
    (page : Nat) (flags : Mem → Flags) : Bool × Kernel × Mem :=
  let s := gap 0 s
  if fe.inJit && !fe.trywrlock then (false, s)
  else (true, gap 1 (materialise fe.host s page (flags s.2)))

/-- The first half of `mem_ptr`: make a missing page, if the plan says so.

After the write lock was given back the source goes on with the entry it found under it, if there
was one; the slot is read again here, which differs only for a page unmapped in `gap 1`, and then
the source returns `NULL` as well. -/
def memPtr.fault (fe : FaultEnv) (gap : Nat → Kernel × Mem → Kernel × Mem) (s : Kernel × Mem)
    (page : Nat) : Bool × Kernel × Mem :=
  match plan fe.stackLimit s.2 page with
  | .present => (true, s)
  | .refuse => (false, s)
  | .grow => upgrade fe gap s page fun _ => pWrite ||| pGrowsdown
  | .reserve res => upgrade fe gap s page fun m => resFlags fe.stale m res &&& ~~~pGrowsdown

/-! ### The copy of a page -/

/-- The bytes that `memcpy` takes from the page of `entry`. -/
def memPtr.pageBytes (k : Kernel) (entry : PtEntry) : Nat → UInt8 :=
  match k.host.regions (k.datas entry.data).data with
  | none => fun _ => 0
  | some R => fun i => R.bytes (entry.offset + i)

/-- `memcpy(copy, data, PAGE_SIZE)` -/
def memPtr.fill (k : Kernel) (copy : RegionId) (bytes : Nat → UInt8) : Kernel :=
  let regions := Function.update k.host.regions copy
    ((k.host.regions copy).map fun R => { R with bytes := bytes })
  { k with host := { k.host with regions := regions } }

/-- The part of a copy on write under the write lock; `copy = none` is `MAP_FAILED`. -/
def memPtr.resolveCow (env : HostEnv) (s : Kernel × Mem) (page : Nat) (copy : Option RegionId) :
    Option (Kernel × Mem) :=
  -- another thread may have already resolved this CoW
  match (memPt s.2 page).filter fun entry => hasAny entry.flags pCow, copy with
  | some entry, some copy =>
    let k := fill s.1 copy (pageBytes s.1 entry)
    let k := if hasAny entry.flags pAnonymous then
        { k with anonPageCount := k.anonPageCount + 1 } else k
    let s := (ptMap env (k, s.2) page 1 (some copy) 0 (entry.flags &&& ~~~pCow)).2
    some (s.1, memChanged s.2)
  | some _, none => none
  | none, some copy => some ({ s.1 with host := s.1.host.munmap copy }, s.2)
  | none, none => some s

def memPtr.cow (fe : FaultEnv) (gap : Nat → Kernel × Mem → Kernel × Mem) (s : Kernel × Mem)
    (page : Nat) : Option (Kernel × Mem) :=
  if fe.cow.mmap then
    let r := s.1.host.mmap pageSize Prot.rw fun _ => 0
    (resolveCow fe.cow (gap 2 ({ s.1 with host := r.2 }, s.2)) page (some r.1)).map (gap 3)
  else (resolveCow fe.cow (gap 2 s) page none).map (gap 3)

/-- The flags of a page about to be written: a tracer may write where the process may not. -/
def memPtr.writeFlags (type : AccessType) (flags : Flags) : Flags :=
  if type = .writePtrace then flags ||| (pWrite ||| pCow) else flags

/-- What a write to a present page does first: the flags for a tracer, and getting rid of any
compiled blocks in the page. -/
def memPtr.touch (s : Kernel × Mem) (page : Nat) (type : AccessType) (entry : PtEntry) :
    Kernel × Mem :=
  let m := if type = .writePtrace then memPtSetFlags s.2 page (writeFlags type entry.flags) else s.2
  (s.1, { m with invalidations := page :: m.invalidations })

/-- The second half of `mem_ptr` for a write to the present page `entry`: the first component is
`false` for a return of `NULL`. -/
def memPtr.prepareWrite (fe : FaultEnv) (gap : Nat → Kernel × Mem → Kernel × Mem)
    (s : Kernel × Mem) (page : Nat) (type : AccessType) (entry : PtEntry) :
    Option (Bool × Kernel × Mem) :=
  -- if page is unwritable, well tough luck
  if type = .write ∧ ¬ hasAny entry.flags pWrite then some (false, s)
  else
    let s := touch s page type entry
    -- if page is cow, copy it
    if hasAny (writeFlags type entry.flags) pCow then (cow fe gap s page).map fun s => (true, s)
    else some (true, s)

/-- `mem_ptr` with what other threads do in between. -/
def memPtrWith (fe : FaultEnv) (gap : Nat → Kernel × Mem → Kernel × Mem) (s : Kernel × Mem)
    (addr : Nat) (type : AccessType) : Option (Option HostPtr × Kernel × Mem) :=
  match memPtr.fault fe gap s (pageOf addr) with
  | (false, s) => some (none, s)
  | (true, s) =>
    match type, memPt s.2 (pageOf addr) with
    | .read, _ | _, none => some (memPtrNofault s addr type, s)
    | _, some entry =>
      match memPtr.prepareWrite fe gap s (pageOf addr) type entry with
      | none => none
      | some (false, s) => some (none, s)
      | some (true, s) => some (memPtrNofault s addr type, s)

/-- `mem_ptr` when no other thread of the address space runs. -/
def memPtr (fe : FaultEnv) (s : Kernel × Mem) (addr : Nat) (type : AccessType) :
    Option (Option HostPtr × Kernel × Mem) :=
  memPtrWith fe (fun _ s => s) s addr type

end Ish
