import Mathlib
import Ish.Fs.Path

/-!
# POSIX record locks

`fs/lock.c`: the list of locks of an inode, `file_lock_acquire`, `fcntl_getlk`, `fcntl_setlk` and
`file_lock_remove_owned_by`, which `fdtable_close` of `fs/fd.c` calls.

Offsets are integers in the range of `off_t_`. Every call holds `inode->lock`, except while it
sleeps in `wait_for`, so a step of the system at the end goes from one release of the lock to the
next.
-/

namespace Ish.Fs

/-- `F_RDLCK_`, `F_WRLCK_` and `F_UNLCK_` -/
inductive LockType where
  | rdlck
  | wrlck
  | unlck
  deriving DecidableEq, Repr

def offTMax : Int := 2 ^ 63 - 1

/-- `struct file_lock`; `last` is its `end`, which belongs to the range. An owner is a
`struct fdtable`. -/
structure FileLock (ω : Type) where
  start : Int
  last : Int
  type : LockType
  pid : Int
  owner : ω
  deriving DecidableEq, Repr

variable {ω : Type} [DecidableEq ω]

/-- `file_locks_overlap` -/
def fileLocksOverlap (a b : FileLock ω) : Bool := a.last ≥ b.start && b.last ≥ a.start

/-- `file_locks_conflict` -/
def fileLocksConflict (a b : FileLock ω) : Bool :=
  if a.owner = b.owner then false
  else if !fileLocksOverlap a b then false
  -- write locks are incompatible with other types of locks
  else if a.type = .wrlck ∨ b.type = .wrlck then true
  else false

/-- `file_locks_adjacent` -/
def fileLocksAdjacent (a b : FileLock ω) : Bool := a.last = b.start - 1 || b.last = a.start - 1

/-- `file_lock_test` -/
def fileLockTest (locks : List (FileLock ω)) (request : FileLock ω) : Option (FileLock ω) :=
  locks.find? fun lock => fileLocksConflict lock request

/-! ### `file_lock_acquire` -/

/-- What the loop over the locks leaves: the list before and after the place where it stopped, the
request, and whether `posix_unlock` was notified. -/
structure Passed (ω : Type) where
  before : List (FileLock ω)
  request : FileLock ω
  notified : Bool
  after : List (FileLock ω)

/-- The parts of `lock` that stick out of `request`. -/
def subtract (request lock : FileLock ω) : List (FileLock ω) :=
  if request.start > lock.start ∧ request.last < lock.last then
    [{ lock with last := request.start - 1 }, { lock with start := request.last + 1 }]
  else if request.start ≤ lock.start ∧ request.last ≥ lock.last then []
  else if lock.start < request.start then [{ lock with last := request.start - 1 }]
  else if lock.last > request.last then [{ lock with start := request.last + 1 }]
  else [lock]

/-- The request, extended until it covers the lock. -/
def extend (request lock : FileLock ω) : FileLock ω :=
  { request with
    start := if lock.start < request.start then lock.start else request.start
    last := if lock.last > request.last then lock.last else request.last }

/-- The loop body for a lock of the same owner: what stays of the lock, and the new request. -/
def placeLock (request lock : FileLock ω) : Passed ω :=
  if request.type = lock.type then
    if !fileLocksOverlap lock request && !fileLocksAdjacent request lock then
      ⟨[lock], request, false, []⟩
    else ⟨[], extend request lock, false, []⟩
  else if !fileLocksOverlap lock request then ⟨[lock], request, false, []⟩
  else ⟨subtract request lock, request, true, []⟩

/-- The loop; the locks are grouped by owner. -/
def placeLocks (foundOurLocks : Bool) (request : FileLock ω) : List (FileLock ω) → Passed ω
  | [] => ⟨[], request, false, []⟩
  | lock :: locks =>
    if lock.owner ≠ request.owner then
      if foundOurLocks then ⟨[], request, false, lock :: locks⟩
      else
        let p := placeLocks false request locks
        ⟨lock :: p.before, p.request, p.notified, p.after⟩
    else
      let b := placeLock request lock
      let p := placeLocks true b.request locks
      ⟨b.before ++ p.before, p.request, b.notified || p.notified, p.after⟩

/-- What a call of `file_lock_acquire` leaves: its error, the list, the request, and whether
`posix_unlock` was notified. -/
structure Acquired (ω : Type) where
  err : Option Errno
  locks : List (FileLock ω)
  request : FileLock ω
  notified : Bool

/-- `file_lock_acquire` -/
def fileLockAcquire (locks : List (FileLock ω)) (request : FileLock ω) : Acquired ω :=
  if request.type ≠ .unlck ∧ locks.any fun lock => fileLocksConflict lock request then
    ⟨some .eagain, locks, request, false⟩
  else
    let p := placeLocks false request locks
    let new := if request.type ≠ .unlck then [p.request] else []
    ⟨none, p.before ++ new ++ p.after, p.request, p.notified⟩

/-! ### The calls -/

/-- `LSEEK_SET`, `LSEEK_CUR` and `LSEEK_END` -/
inductive Whence where
  | set
  | cur
  | fileEnd
  deriving DecidableEq, Repr

/-- `struct flock_`; `none` stands for all other values of `type` and `whence`. -/
structure Flock where
  type : Option LockType
  whence : Option Whence
  start : Int
  len : Int
  pid : Int
  deriving DecidableEq, Repr

/-- `flags & O_ACCMODE_` -/
inductive AccMode where
  | rdonly
  | wronly
  | rdwr
  deriving DecidableEq, Repr

/-- What the calls read of a file: the answer of `lseek(fd, 0, LSEEK_CUR)` if it has one, that of
`fstat`, and its mode. -/
structure LockFd where
  lseek : Option (Except Errno Int)
  size : Except Errno Int
  mode : AccMode

/-- Arithmetic on `off_t_`. -/
def toOff (x : Int) : Int := x.bmod (2 ^ 64)

/-- The offset that `flock->whence` names. -/
def lockOffset (fd : LockFd) : Option Whence → Except Errno Int
  | some .set => .ok 0
  | some .cur => fd.lseek.getD (.ok 0)
  | some .fileEnd => fd.size
  | none => .error .einval

/-- `file_lock_from_flock`, for a process with the descriptors `files` and the number `pid`; its
callers have checked the type. -/
def fileLockFromFlock (fd : LockFd) (files : ω) (pid : Int) (flock : Flock) (type : LockType) :
    Except Errno (FileLock ω) := do
  let offset ← lockOffset fd flock.whence
  let start := toOff (flock.start + offset)
  if flock.len > 0 then .ok ⟨start, toOff (start + flock.len - 1), type, pid, files⟩
  else if flock.len < 0 then
    let last := toOff (start - 1)
    .ok ⟨toOff (last + flock.len + 1), last, type, pid, files⟩
  else .ok ⟨start, offTMax, type, pid, files⟩

def flockFromFileLock (lock : FileLock ω) : Flock :=
  ⟨some lock.type, some .set, lock.start,
    if lock.last ≠ offTMax then toOff (lock.last - lock.start + 1) else 0, lock.pid⟩

/-- `fcntl_getlk` -/
def fcntlGetlk (locks : List (FileLock ω)) (fd : LockFd) (files : ω) (pid : Int) (flock : Flock) :
    Except Errno Flock :=
  match flock.type with
  | none | some .unlck => .error .einval
  | some type => do
    let request ← fileLockFromFlock fd files pid flock type
    match fileLockTest locks request with
    | some lock => .ok (flockFromFileLock lock)
    | none => .ok { flock with type := some .unlck }

/-- What `fcntl_setlk` does before it takes `inode->lock` for the loop. -/
def setlkRequest (fd : LockFd) (files : ω) (pid : Int) (flock : Flock) :
    Except Errno (FileLock ω) :=
  match flock.type with
  | none => .error .einval
  | some type =>
    if type = .rdlck ∧ fd.mode = .wronly then .error .ebadf
    else if type = .wrlck ∧ fd.mode = .rdonly then .error .ebadf
    else fileLockFromFlock fd files pid flock type

def fileLockRemoveOwnedBy (locks : List (FileLock ω)) (owner : ω) : List (FileLock ω) :=
  locks.filter fun lock => lock.owner ≠ owner

/-! ### Threads on one inode -/

/-- Where a thread stands: not in the loop of `fcntl_setlk`, asleep in `wait_for`, or on the way
out of it. -/
inductive Sleeper (ω : Type) where
  | away
  | asleep (request : FileLock ω)
  | woken (request : FileLock ω)
  deriving DecidableEq, Repr

/-- An inode with its list of locks and the threads that wait on `posix_unlock`. -/
structure LockInode (τ ω : Type) where
  locks : List (FileLock ω)
  threads : τ → Sleeper ω

/-- An inode on which nothing is locked. -/
def lockInodeInit (τ ω : Type) : LockInode τ ω := ⟨[], fun _ => .away⟩

/-- What happens from one release of `inode->lock` to the next. -/
inductive LockAct (τ ω : Type) where
  /-- `fcntl_setlk` up to its end or to the first `wait_for` -/
  | setlk (t : τ) (fd : LockFd) (files : ω) (pid : Int) (flock : Flock) (blocking : Bool)
  /-- a woken thread goes once more through the loop -/
  | retry (t : τ)
  /-- `pthread_cond_wait` may return for no reason -/
  | spurious (t : τ)
  /-- `wait_for` ends with `EINTR` -/
  | interrupt (t : τ)
  /-- `fdtable_close` of a descriptor of the inode, by a call or at the exit of the process -/
  | close (files : ω)

/-- `notify` wakes all sleepers. -/
def Sleeper.notify : Sleeper ω → Sleeper ω
  | .asleep request => .woken request
  | s => s

variable {τ : Type} [DecidableEq τ]

/-- One turn of the loop of `fcntl_setlk`: `posix_unlock` may be notified, and the thread leaves or
goes to sleep. -/
def LockInode.turn (s : LockInode τ ω) (t : τ) (request : FileLock ω) (blocking : Bool) :
    LockInode τ ω × Bool :=
  let r := fileLockAcquire s.locks request
  let threads := if r.notified then fun t' => (s.threads t').notify else s.threads
  let next := if r.err = some .eagain ∧ blocking then .asleep request else .away
  (⟨r.locks, Function.update threads t next⟩, r.notified)

def LockInode.goto (s : LockInode τ ω) (t : τ) (next : Sleeper ω) : LockInode τ ω :=
  { s with threads := Function.update s.threads t next }

/-- One step, with whether it notifies `posix_unlock`. -/
def LockInode.act (s : LockInode τ ω) : LockAct τ ω → Option (LockInode τ ω × Bool)
  | .setlk t fd files pid flock blocking =>
    if s.threads t = .away then
      match setlkRequest fd files pid flock with
      | .error _ => some (s, false)
      | .ok request => some (s.turn t request blocking)
    else none
  | .retry t =>
    match s.threads t with
    | .woken request => some (s.turn t request true)
    | _ => none
  | .spurious t => some (s.goto t (s.threads t).notify, false)
  | .interrupt t => if s.threads t = .away then none else some (s.goto t .away, false)
  | .close files => some ({ s with locks := fileLockRemoveOwnedBy s.locks files }, false)

/-- One step of a thread. -/
def LockInode.step (s : LockInode τ ω) (a : LockAct τ ω) : Option (LockInode τ ω) :=
  (s.act a).map Prod.fst

end Ish.Fs
