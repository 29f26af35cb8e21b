import Ish.Memory.World

/-!
# `mem_ptr` among other threads

The threads of one address space, stopped at each acquire and release of `mem->lock`. Guest code
and the accesses of the kernel to guest memory run with the lock held for reading; a system call
that changes the mappings holds it for writing from its first primitive to its last. `mem_ptr` is
entered with the read lock and upgrades it for the creation of a page and for a copy on write.
-/

namespace Ish

open Lib

/-- How `mem->lock` is held. -/
inductive Hold where
  | free
  | read
  | write
  deriving DecidableEq, Repr

/-- Where a thread is. -/
inductive Pc where
  /-- outside of guest code -/
  | idle
  /-- guest code runs -/
  | running
  /-- a system call on the mappings -/
  | calling
  /-- `mem_ptr` has found the page missing, and how it can be made -/
  | looked (addr : Nat) (type : AccessType) (plan : FaultPlan)
  /-- the same, after `read_wrunlock` -/
  | dropped (addr : Nat) (type : AccessType) (plan : FaultPlan)
  /-- the same, after `write_wrlock` -/
  | upgraded (addr : Nat) (type : AccessType) (plan : FaultPlan)
  /-- the page has been made, or was there -/
  | made (addr : Nat) (type : AccessType)
  /-- the same, after `write_wrunlock` -/
  | relocking (addr : Nat) (type : AccessType)
  /-- at `have_entry` -/
  | haveEntry (addr : Nat) (type : AccessType)
  /-- memory for a copy on write of the page has been asked for -/
  | copied (page : Nat) (copy : Option RegionId)
  /-- the same, after `read_wrunlock` -/
  | copying (page : Nat) (copy : Option RegionId)
  /-- the same, after `write_wrlock` -/
  | resolving (page : Nat) (copy : Option RegionId)
  /-- the copy on write is done -/
  | resolved
  /-- `mem_ptr` takes the read lock once more and returns -/
  | returning
  deriving DecidableEq, Repr

/-- The lock a thread holds. -/
def Pc.hold : Pc → Hold
  | idle | dropped .. | relocking .. | copying .. | returning => .free
  | running | looked .. | haveEntry .. | copied .. => .read
  | calling | upgraded .. | made .. | resolving .. | resolved => .write

/-- Where `read_wrlock` leads. -/
def Pc.readLocked : Pc → Option Pc
  | idle | returning => some running
  | relocking addr type => some (haveEntry addr type)
  | _ => none

/-- Where `write_wrlock` leads. -/
def Pc.writeLocked : Pc → Option Pc
  | idle => some calling
  | dropped addr type plan => some (upgraded addr type plan)
  | copying page copy => some (resolving page copy)
  | _ => none

/-- Where `read_wrunlock` or `write_wrunlock` leads. -/
def Pc.unlocked : Pc → Option Pc
  | running | calling => some idle
  | looked addr type plan => some (dropped addr type plan)
  | made addr type => some (relocking addr type)
  | copied page copy => some (copying page copy)
  | resolved => some returning
  | _ => none

/-- The memory and its threads. -/
structure Threads (τ : Type) where
  world : World Unit
  pc : τ → Pc

/-- A step of a thread. -/
inductive Act (τ : Type) where
  | readLock (i : τ)
  | writeLock (i : τ)
  | unlock (i : τ)
  /-- `write_wrtrylock` fails inside the JIT -/
  | giveUp (i : τ)
  /-- one of the functions a system call is made of -/
  | call (i : τ) (op : Op Unit)
  /-- `mem_ptr` begins: the lookup under the read lock -/
  | fault (i : τ) (addr : Nat) (type : AccessType) (stackLimit : Nat)
  /-- the creation of the page under the write lock -/
  | make (i : τ) (env : HostEnv) (stale : Flags)
  /-- the part of `mem_ptr` from `have_entry` to the next release of the lock -/
  | access (i : τ) (env : HostEnv)
  /-- the copy on write under the write lock -/
  | resolve (i : τ) (env : HostEnv)

/-- The functions a system call makes of one address space under its lock. -/
def Op.isCall {ι : Type} : Op ι → Bool
  | .fault .. | .copyOnWrite .. => false
  | _ => true

/-- The flags a page is made with; `res->flags` is read after the lock was dropped. -/
def FaultPlan.flags (stale : Flags) (m : Mem) : FaultPlan → Flags
  | reserve res => memPtr.resFlags stale m res &&& ~~~pGrowsdown
  | _ => pWrite ||| pGrowsdown

namespace Threads

variable {τ : Type} [DecidableEq τ]

def mem (s : Threads τ) : Kernel × Mem := s.world.at ()

def goto (s : Threads τ) (i : τ) (pc : Pc) : Threads τ :=
  { s with pc := Function.update s.pc i pc }

def putMem (s : Threads τ) (mem : Kernel × Mem) : Threads τ :=
  { s with world := s.world.put () mem }

variable [Fintype τ]

def canRead (s : Threads τ) (i : τ) : Prop := ∀ j, j ≠ i → (s.pc j).hold ≠ .write

def canWrite (s : Threads τ) (i : τ) : Prop := ∀ j, j ≠ i → (s.pc j).hold = .free

instance (s : Threads τ) (i : τ) : Decidable (s.canRead i) :=
  inferInstanceAs (Decidable (∀ j, j ≠ i → (s.pc j).hold ≠ .write))

instance (s : Threads τ) (i : τ) : Decidable (s.canWrite i) :=
  inferInstanceAs (Decidable (∀ j, j ≠ i → (s.pc j).hold = .free))

/-- One step. -/
def step (realPageSize : Nat) (s : Threads τ) : Act τ → Option (Threads τ)
  | .readLock i => if s.canRead i then (s.pc i).readLocked.map (s.goto i) else none
  | .writeLock i => if s.canWrite i then (s.pc i).writeLocked.map (s.goto i) else none
  | .unlock i => (s.pc i).unlocked.map (s.goto i)
  | .giveUp i =>
    match s.pc i with
    | .dropped .. => some (s.goto i .returning)
    | _ => none
  | .call i op =>
    match s.pc i with
    | .calling =>
      if op.isCall then (s.world.step realPageSize op).map fun w => { s with world := w } else none
    | _ => none
  | .fault i addr type stackLimit =>
    match s.pc i with
    | .running =>
      match memPtr.plan stackLimit s.mem.2 (pageOf addr) with
      | .present => some (s.goto i (.haveEntry addr type))
      | .refuse => some s
      | plan => some (s.goto i (.looked addr type plan))
    | _ => none
  | .make i env stale =>
    match s.pc i with
    | .upgraded addr type plan =>
      let mem := memPtr.materialise env s.mem (pageOf addr) (plan.flags stale s.mem.2)
      some ((s.putMem mem).goto i (.made addr type))
    | _ => none
  | .access i env =>
    match s.pc i with
    | .haveEntry addr type =>
      match type, memPt s.mem.2 (pageOf addr) with
      | .read, _ | _, none => some (s.goto i .running)
      | _, some entry =>
        if type = .write ∧ ¬ hasAny entry.flags pWrite then some (s.goto i .running)
        else
          let mem := memPtr.touch s.mem (pageOf addr) type entry
          if hasAny (memPtr.writeFlags type entry.flags) pCow then
            if env.mmap then
              let r := mem.1.host.mmap pageSize Prot.rw fun _ => 0
              some ((s.putMem ({ mem.1 with host := r.2 }, mem.2)).goto i
                (.copied (pageOf addr) (some r.1)))
            else some ((s.putMem mem).goto i (.copied (pageOf addr) none))
          else some ((s.putMem mem).goto i .running)
    | _ => none
  | .resolve i env =>
    match s.pc i with
    | .resolving page copy =>
      (memPtr.resolveCow env s.mem page copy).map fun mem => (s.putMem mem).goto i .resolved
    | _ => none

end Threads

end Ish
