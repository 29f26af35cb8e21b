import Ish.Memory.Fault

/-!
# Copies from and to an address space

`user_read_task`, `user_write_task` and their kin of `kernel/user.c` over the address space itself:
every chunk is translated by `mem_ptr`, in the state that the chunks before have left.

All sums and differences are 64 bits wide. `done` lists the `memcpy`s made so far, newest first.
-/

namespace Ish

open Lib

/-- `chunk_end`: the end of the page of `p`, or of the range. -/
def chunkEnd (stop p : Nat) : Nat :=
  let stop' := (pageOf p + 1) * pageSize % wordMod
  if stop' > stop then stop else stop'

/-- A buffer of the kernel, from its first byte on. -/
abbrev Buffer := Nat → UInt8

/-- A `memcpy` of `len` bytes between the page at the guest address `p`, found at `ptr`, and `&cbuf[index]`; `data` are
the bytes. -/
structure Chunk where
  p : Nat
  ptr : HostPtr
  index : Nat
  len : Nat
  data : Nat → UInt8

/-- `memcpy(&cbuf[index], ptr, len)` -/
def Chunk.toBuffer (c : Chunk) (buf : Buffer) : Buffer := fun j =>
  if c.index ≤ j ∧ j < c.index + c.len then c.data (j - c.index) else buf j

/-- `memcpy(ptr, &cbuf[index], len)` -/
def Chunk.toPage (c : Chunk) (k : Kernel) : Kernel :=
  let regions := Function.update k.host.regions c.ptr.region
    ((k.host.regions c.ptr.region).map fun R => { R with
      bytes := fun j => if c.ptr.offset ≤ j ∧ j < c.ptr.offset + c.len then c.data (j - c.ptr.offset) else R.bytes j })
  { k with host := { k.host with regions := regions } }

/-- The two copy loops; `ptrace` is the argument of `__user_write_task`. -/
inductive Transfer where
  | read
  | write (ptrace : Bool)
  deriving DecidableEq, Repr

/-- The access asked of `mem_ptr`. -/
def Transfer.type : Transfer → AccessType
  | read => .read
  | write ptrace => if ptrace then .writePtrace else .write

/-- The bytes that the `memcpy` of a chunk moves. -/
def Transfer.data (t : Transfer) (k : Kernel) (buf : Buffer) (ptr : HostPtr) (index : Nat) : Nat → UInt8 :=
  match t with
  | read => fun j => (k.host.byteAt ⟨ptr.region, ptr.offset + j⟩).getD 0
  | write _ => fun j => buf (index + j)

/-- The `memcpy` of a chunk, in the direction of the copy. -/
def Transfer.memcpy (t : Transfer) (c : Chunk) (k : Kernel) (buf : Buffer) : Kernel × Buffer :=
  match t with
  | read => (k, c.toBuffer buf)
  | write _ => (c.toPage k, buf)

/-- What a copy has come to: it goes on, the host has killed the emulator, or it has returned 1 or 0. -/
inductive CopyResult where
  | running
  | killed
  | failed
  | done
  deriving DecidableEq, Repr

/-- The state of a copy between two chunks. -/
structure Copying where
  s : Kernel × Mem
  buf : Buffer
  done : List Chunk

/-- `a - b` in 64 bits -/
def subWord (a b : Nat) : Nat := (a + (wordMod - b)) % wordMod

/-- The chunk at `p`, once `mem_ptr` has given `ptr`. -/
def Transfer.chunk (t : Transfer) (addr stop p : Nat) (k : Kernel) (buf : Buffer) (ptr : HostPtr) : Chunk :=
  ⟨p, ptr, subWord p addr, subWord (chunkEnd stop p) p, t.data k buf ptr (subWord p addr)⟩

/-- The loop of `__user_read_task` and `__user_write_task`; `fe i` is how the host answers for the `i`-th chunk. -/
def userTask.go (t : Transfer) (fe : Nat → FaultEnv) (addr stop : Nat) : Nat → Nat → Copying → CopyResult × Copying
  | 0, _, c => (.running, c)
  | fuel + 1, p, c =>
    if p < stop then
      match memPtr (fe c.done.length) c.s p t.type with
      | none => (.killed, c)
      | some (none, s) => (.failed, { c with s := s })
      | some (some ptr, s) =>
        let chunk := t.chunk addr stop p s.1 c.buf ptr
        let r := t.memcpy chunk s.1 c.buf
        go t fe addr stop fuel (chunkEnd stop p) ⟨(r.1, s.2), r.2, chunk :: c.done⟩
    else (.done, c)

/-- A copy of `count` bytes, after at most `fuel` rounds of its loop. -/
def userTask (t : Transfer) (fe : Nat → FaultEnv) (s : Kernel × Mem) (addr count : BitVec 64) (buf : Buffer)
    (fuel : Nat) : CopyResult × Copying :=
  userTask.go t fe addr.toNat ((addr + count).toNat) fuel addr.toNat ⟨s, buf, []⟩

/-- `user_read_task`, and `user_read` for the current task. -/
def userRead := userTask .read

end Ish
