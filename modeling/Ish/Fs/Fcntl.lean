import Ish.Fs.Lock

/-!
# The lock commands of `fcntl`

`sys_fcntl` of `fs/fd.c`, for the four commands that set a lock. The older two read a `struct flock32_`
from the guest, whose fields are unsigned. Whether `fcntl_setlk` may sleep is decided here.
-/

namespace Ish.Fs

/-- `F_SETLK_`, `F_SETLKW_`, `F_SETLK64_` and `F_SETLKW64_` -/
inductive SetlkCmd where
  | setlk
  | setlkw
  | setlk64
  | setlkw64
  deriving DecidableEq, Repr

def efault : Errno := .fs 14

structure Flock32 where
  type : Option LockType
  whence : Option Whence
  start : BitVec 32
  len : BitVec 32
  pid : Int
  deriving DecidableEq, Repr

/-- The assignments that fill a `struct flock_`. -/
def Flock32.widen (flock32 : Flock32) : Flock :=
  ⟨flock32.type, flock32.whence, flock32.start.toNat, flock32.len.toNat, flock32.pid⟩

/-- What `user_read` finds at the argument, read as the one and as the other structure. -/
structure UserFlock where
  flock32 : Option Flock32
  flock : Option Flock

/-- The two branches of the `switch`: the lock, and whether to block. -/
def SetlkCmd.args (cmd : SetlkCmd) (arg : UserFlock) : Except Errno (Flock × Bool) :=
  match cmd with
  | .setlk | .setlkw =>
    match arg.flock32 with
    | none => .error efault
    | some flock32 => .ok (flock32.widen, cmd = .setlkw64)
  | .setlk64 | .setlkw64 =>
    match arg.flock with
    | none => .error efault
    | some flock => .ok (flock, cmd = .setlkw)

/-- How far a call gets before it releases `inode->lock`. -/
inductive SetlkOutcome where
  | returns (err : Option Errno)
  | sleeps
  deriving DecidableEq, Repr

variable {ω : Type} [DecidableEq ω]

/-- `fcntl_setlk`, up to its end or to the first `wait_for` -/
def fcntlSetlk (locks : List (FileLock ω)) (fd : LockFd) (files : ω) (pid : Int) (flock : Flock)
    (blocking : Bool) : SetlkOutcome :=
  match setlkRequest fd files pid flock with
  | .error e => .returns (some e)
  | .ok request =>
    let r := fileLockAcquire locks request
    if r.err = some .eagain ∧ blocking then .sleeps else .returns r.err

/-- `sys_fcntl` for a command that sets a lock; `fd` is what `f_get` finds. -/
def sysFcntl (locks : List (FileLock ω)) (fd : Option LockFd) (files : ω) (pid : Int) (cmd : SetlkCmd)
    (arg : UserFlock) : SetlkOutcome :=
  match fd with
  | none => .returns (some .ebadf)
  | some fd =>
    match cmd.args arg with
    | .error e => .returns (some e)
    | .ok (flock, blocking) => fcntlSetlk locks fd files pid flock blocking

end Ish.Fs
