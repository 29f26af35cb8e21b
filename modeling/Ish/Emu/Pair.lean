import Ish.Emu.Tlb
import Ish.Lib.Bytes

/-!
# Pair accesses

`c_ldp64`, `c_ldp32`, `c_stp64` and `c_stp32` of `emu/tlb.c`, for a guest thread that no other thread of its address
space disturbs. The host answers the calls made for the first element as in `fe₁` and those for the second as in `fe₂`.

The two elements are given by their bytes, the lowest first; `touched` lists the host bytes that are read or written, in
this order.
-/

namespace Ish

open Lib

/-- `mmu_translate` without other threads. -/
def Tlb.alone (fe : FaultEnv) : Tlb.Translation := ⟨fe, fun _ s => s⟩

/-- `__tlb_read_ptr` or `__tlb_write_ptr` -/
def Tlb.pointer {ι : Type} (type : AccessType) (fe : FaultEnv) (tlb : Tlb ι) (s : Kernel × Mem) (addr : Nat) :
    Option (Option HostPtr × (Kernel × Mem) × Tlb ι) :=
  match type with
  | .read => tlb.readPtr (alone fe) (alone fe) s addr
  | .write | .writePtrace => tlb.writePtr (alone fe) (alone fe) s addr

/-- The `n` host bytes from `ptr` on. -/
def HostPtr.range (ptr : HostPtr) (n : Nat) : List HostPtr := (List.range n).map ptr.add

/-- How a pair access ends: `ok` for the result 0. -/
structure PairOutcome (ι : Type) where
  ok : Bool
  touched : List HostPtr
  s : Kernel × Mem
  tlb : Tlb ι

/-- The two pointers of a pair access with elements of `n` bytes. -/
def pairTouch {ι : Type} (type : AccessType) (n : Nat) (fe₁ fe₂ : FaultEnv) (tlb : Tlb ι) (s : Kernel × Mem)
    (addr : BitVec 64) : Option (PairOutcome ι) :=
  match tlb.pointer type fe₁ s addr.toNat with
  | none => none
  | some (none, s, tlb) => some ⟨false, [], s, tlb⟩
  | some (some ptr1, s, tlb) =>
    match tlb.pointer type fe₂ s (addr + BitVec.ofNat 64 n).toNat with
    | none => none
    | some (none, s, tlb) => some ⟨false, [], s, tlb⟩
    | some (some ptr2, s, tlb) => some ⟨true, ptr1.range n ++ ptr2.range n, s, tlb⟩

/-- The loads; the second component are the bytes of `*val1` and `*val2`. -/
def cLdp {ι : Type} (n : Nat) (fe₁ fe₂ : FaultEnv) (tlb : Tlb ι) (s : Kernel × Mem) (addr : BitVec 64) :
    Option (PairOutcome ι × List (Option UInt8)) :=
  (pairTouch .read n fe₁ fe₂ tlb s addr).map fun o => (o, o.touched.map o.s.1.host.byteAt)

/-- Stores of single bytes, one after the other. -/
def Host.storeAll (h : Host) (stores : List (HostPtr × UInt8)) : Host :=
  stores.foldl (fun h p => h.store p.1 p.2) h

def Kernel.storeAll (k : Kernel) (stores : List (HostPtr × UInt8)) : Kernel :=
  { k with host := k.host.storeAll stores }

/-- The stores; `val` are the bytes of `val1` and `val2`. -/
def cStp {ι : Type} (n : Nat) (fe₁ fe₂ : FaultEnv) (tlb : Tlb ι) (s : Kernel × Mem) (addr : BitVec 64)
    (val : List UInt8) : Option (PairOutcome ι) :=
  (pairTouch .write n fe₁ fe₂ tlb s addr).map fun o =>
    { o with s := (o.s.1.storeAll (o.touched.zip val), o.s.2) }

section

variable {ι : Type} (fe₁ fe₂ : FaultEnv) (tlb : Tlb ι) (s : Kernel × Mem) (addr : BitVec 64)

def cLdp64 := cLdp 8 fe₁ fe₂ tlb s addr

def cLdp32 := cLdp 4 fe₁ fe₂ tlb s addr

def cStp64 (val1 val2 : BitVec 64) := cStp 8 fe₁ fe₂ tlb s addr (leBytes 8 val1.toNat ++ leBytes 8 val2.toNat)

def cStp32 (val1 val2 : BitVec 32) := cStp 4 fe₁ fe₂ tlb s addr (leBytes 4 val1.toNat ++ leBytes 4 val2.toNat)

end

end Ish
