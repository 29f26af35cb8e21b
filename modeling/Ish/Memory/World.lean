import Ish.Memory.Fault
import Ish.Memory.Mmap

/-!
# Several address spaces

The kernel with its address spaces, and the functions of `kernel/memory.c` as the steps of one
machine. The system calls are made of these steps. Each step holds the lock of its address space
throughout; a fault is the whole of `mem_ptr`.
-/

namespace Ish

/-- The kernel and the address spaces, one for each `i : ι`. -/
structure World (ι : Type) where
  kernel : Kernel
  mems : ι → Mem

/-- No pages anywhere. -/
def worldInit (ι : Type) : World ι := ⟨kernelInit, fun _ => memInit⟩

/-- Where the `memory` of a `pt_map` comes from. -/
inductive MapSource where
  | failed
  | vdso
  | fresh (size : Nat) (prot : Prot) (bytes : Nat → UInt8)

/-- The memory to map, and the kernel that has it. -/
def MapSource.memory (k : Kernel) : MapSource → Option RegionId × Kernel
  | failed => (none, k)
  | vdso => (some vdsoData, k)
  | fresh size prot bytes =>
    let r := k.host.mmap size prot bytes
    (some r.1, { k with host := r.2 })

/-- A call of one of the functions, on the address space `i`. -/
inductive Op (ι : Type) where
  | map (env : HostEnv) (i : ι) (start pages : Nat) (memory : MapSource) (offset : Nat)
      (flags : Flags)
  | mapNothing (env : HostEnv) (i : ι) (start pages : Nat) (flags : Flags)
  | mapLazy (ok : Bool) (i : ι) (start pages : Nat) (flags : Flags)
  | unmap (env : HostEnv) (i : ι) (start pages : Nat)
  | unmapAlways (env : HostEnv) (i : ι) (start pages : Nat)
  | setFlags (env : HostEnv) (i : ι) (start pages : Nat) (flags : Flags)
  | copyOnWrite (env : HostEnv) (i j : ι) (start pages : Nat)
  | fault (fe : FaultEnv) (i : ι) (addr : Nat) (type : AccessType)
  | findHole (i : ι) (size : Nat)
  | setFile (i : ι) (page fd offset : Nat)

variable {ι : Type} [DecidableEq ι]

def World.at (w : World ι) (i : ι) : Kernel × Mem := (w.kernel, w.mems i)

def World.put (w : World ι) (i : ι) (s : Kernel × Mem) : World ι :=
  ⟨s.1, Function.update w.mems i s.2⟩

/-- One step. A fault whose copy cannot be allocated kills the emulator; `pt_copy_on_write` has
two different address spaces. -/
def World.step (realPageSize : Nat) (w : World ι) : Op ι → Option (World ι)
  | .map env i start pages memory offset flags =>
    let mem := memory.memory w.kernel
    some (w.put i (ptMap env (mem.2, w.mems i) start pages mem.1 offset flags).2)
  | .mapNothing env i start pages flags =>
    some (w.put i (ptMapNothing env (w.at i) start pages flags).2)
  | .mapLazy ok i start pages flags =>
    some (w.put i (w.kernel, (ptMapLazy ok (w.mems i) start pages flags).2))
  | .unmap env i start pages => some (w.put i (ptUnmap env (w.at i) start pages).2)
  | .unmapAlways env i start pages => some (w.put i (ptUnmapAlways env (w.at i) start pages))
  | .setFlags env i start pages flags =>
    some (w.put i (ptSetFlags realPageSize env (w.at i) start pages flags).2)
  | .copyOnWrite env i j start pages =>
    if i = j then none
    else
      let r := ptCopyOnWrite env w.kernel (w.mems i) (w.mems j) start pages
      some ((w.put i (r.1, r.2.1)).put j (r.1, r.2.2))
  | .fault fe i addr type => (memPtr fe (w.at i) addr type).map fun r => w.put i r.2
  | .findHole i size => some (w.put i (w.kernel, (ptFindHole (w.mems i) size).2))
  | .setFile i page fd offset => some (w.put i (setFile (w.at i) page fd offset))

/-! ### Fork -/

/-- The two address spaces after `mm_copy` of address space `i`: the source is `false`, the copy is
`true`. -/
def World.fork (w : World ι) (env : HostEnv) (i : ι) : World Bool :=
  let r := mmCopy env w.kernel (w.mems i)
  ⟨r.1, fun b => if b then r.2.2 else r.2.1⟩

/-- A write access, `pt_map_nothing`, `pt_unmap_always` or `pt_set_flags`. -/
def Op.isMemoryCall {ι : Type} : Op ι → Prop
  | .fault _ _ _ .write => True
  | .mapNothing .. => True
  | .unmapAlways .. => True
  | .setFlags .. => True
  | _ => False

end Ish
