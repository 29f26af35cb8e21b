import Ish.Memory.Fault

/-!
# `madvise`

`sys_madvise` of `kernel/mmap.c`. The length is a `dword_t`, so only its low 32 bits arrive; the end of the range and
the address of each round are 64 bits wide. `zeroed` lists the pointers that `memset` has been called with, newest
first.
-/

namespace Ish

open Lib

/-- `memset(ptr, 0, n)` -/
def Host.zero (h : Host) (ptr : HostPtr) (n : Nat) : Host :=
  { h with
    regions := Function.update h.regions ptr.region ((h.regions ptr.region).map fun R => { R with
      bytes := fun j => if ptr.offset ≤ j ∧ j < ptr.offset + n then 0 else R.bytes j }) }

/-- The state of `sys_madvise` between two rounds of its loop. -/
structure Advising where
  s : Kernel × Mem
  zeroed : List HostPtr

/-- A round of the loop, at the address `p`. -/
def sysMadvise.round (fe : FaultEnv) (a : Advising) (p : Nat) : Option Advising :=
  match memPt a.s.2 (pageOf p) with
  | none => some a
  | some _ =>
    match memPtr fe a.s p .write with
    | none => none
    | some (none, s) => some { a with s := s }
    | some (some ptr, s) =>
      some ⟨({ s.1 with host := s.1.host.zero ptr pageSize }, s.2), ptr :: a.zeroed⟩

/-- `for (p = addr; p < end; p += PAGE_SIZE)`; the host answers for as many rounds as there are answers. -/
def sysMadvise.go (stop : Nat) : List FaultEnv → Nat → Advising → Option Advising
  | [], _, a => some a
  | fe :: fes, p, a =>
    if p < stop then
      match sysMadvise.round fe a p with
      | none => none
      | some a => go stop fes ((p + pageSize) % wordMod) a
    else some a

/-- `MADV_DONTNEED` or `MADV_FREE` -/
def discards (advice : BitVec 32) : Prop := advice = 4#32 ∨ advice = 8#32

instance : DecidablePred discards := fun _ => inferInstanceAs (Decidable (_ ∨ _))

/-- `end` of `sys_madvise` -/
def sysMadvise.stop (addr len : BitVec 64) : Nat := (addr + (len.setWidth 32).setWidth 64).toNat

/-- `sys_madvise`; it always returns 0. -/
def sysMadvise (fes : List FaultEnv) (s : Kernel × Mem) (addr len : BitVec 64) (advice : BitVec 32) :
    Option Advising :=
  if discards advice then sysMadvise.go (sysMadvise.stop addr len) fes addr.toNat ⟨s, []⟩ else some ⟨s, []⟩

end Ish
