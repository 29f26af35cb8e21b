import Mathlib.Data.BitVec

/-!
# The return of a system call

The part of `handle_interrupt` of `kernel/calls.c` that calls the handler and puts its result into `x0`, and
`sys_lseek64` of `kernel/fs.c`. A handler that returns a `dword_t` sets `w0` only, and the rest of the
`int64_t` that is read is zero.
-/

namespace Ish.Syscall

/-- The bits are those of `-1` to `-4095`. -/
def IsErrno (v : BitVec 32) : Prop := -4095 ≤ v.toInt ∧ v.toInt < 0

instance (v : BitVec 32) : Decidable (IsErrno v) := inferInstanceAs (Decidable (_ ∧ _))

/-- What the slow path writes to `x0`. -/
def writeback (result : BitVec 64) : BitVec 64 :=
  let low32 := result.setWidth 32
  if result.sshiftRight 32 = 0#64 ∧ IsErrno low32 then low32.signExtend 64 else result

/-- What the fast path writes to `x0`. -/
def writebackFast (result : BitVec 32) : BitVec 64 :=
  if IsErrno result then result.signExtend 64 else result.setWidth 64

/-- `x0` after the call with the number `num`: `fast` is the answer of the fast path of `fstat`, `read` or `write`,
`handler` that of the entry of the table, if there is one, and `x0` the register as the handler leaves it. -/
def handle (num : Nat) (fast : BitVec 32) (handler : Option (BitVec 64)) (x0 : BitVec 64) : BitVec 64 :=
  if (num = 80 ∨ num = 63 ∨ num = 64) ∧ fast ≠ -1#32 then writebackFast fast
  else
    match handler with
    | none => (-38#32).signExtend 64
    | some result => if num = 139 then x0 else writeback result

/-- `sys_lseek64`; `fd` is what `f_get` finds, with the operation `lseek` if it has one. -/
def sysLseek64 (fd : Option (Option (BitVec 64 → BitVec 32 → BitVec 64))) (off : BitVec 64) (whence : BitVec 32) :
    BitVec 64 :=
  match fd with
  | none => -9#64
  | some none => -29#64
  | some (some lseek) => lseek off whence

end Ish.Syscall
