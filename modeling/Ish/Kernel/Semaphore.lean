import Mathlib

/-!
# System V semaphores

`sem_try_apply` and `sys_semtimedop` of `kernel/ipc.c`.

Every pass of the loop of `sys_semtimedop` is made under `shm_lock`; what other processes do while it waits shows in
the set that the next pass finds. The passes are listed with the set they found, what they said and the set they left.
-/

namespace Ish.Semaphores

inductive Errno where
  | eagain
  | efault
  | efbig
  | eintr
  | einval
  | enomem
  | etimedout
  deriving DecidableEq, Repr

/-- `struct sem_set` -/
structure SemSet where
  nsems : Nat
  values : Nat → BitVec 16
  pids : Nat → Int

/-- `struct semop_`; of the flags there is `IPC_NOWAIT`. -/
structure Semop where
  num : BitVec 16
  op : BitVec 16
  nowait : Bool

/-- The first loop of `sem_try_apply`: every operation is compared with the value before the call. -/
def semTryApply.check (set : SemSet) : List Semop → Option Errno
  | [] => none
  | o :: rest =>
    if o.num.toNat ≥ set.nsems then some .efbig
    else
      let val : Int := (set.values o.num.toNat).toNat
      if o.op.toInt < 0 ∧ val < -o.op.toInt then some .eagain
      else if o.op.toInt = 0 ∧ val ≠ 0 then some .eagain
      else check set rest

/-- A round of its second loop. -/
def semTryApply.applyOne (pid : Int) (set : SemSet) (o : Semop) : SemSet :=
  { set with
    values := Function.update set.values o.num.toNat (set.values o.num.toNat + o.op)
    pids := Function.update set.pids o.num.toNat pid }

/-- `sem_try_apply` with `apply` -/
def semTryApply (pid : Int) (set : SemSet) (ops : List Semop) : Option Errno × SemSet :=
  match semTryApply.check set ops with
  | some err => (some err, set)
  | none => (none, ops.foldl (semTryApply.applyOne pid) set)

/-- What a pass of the loop meets: the set of `sem_find_id`, and the error of `wait_for` if it gets there. -/
structure Turn where
  set : Option SemSet
  wait : Option Errno

/-- A pass of the loop: the set it found, what `sem_try_apply` said and the set it left. -/
structure Pass where
  set : SemSet
  err : Option Errno
  set' : SemSet

/-- What a pass returns, unless the loop goes round again. -/
def sysSemtimedop.returns (nowait : Bool) (wait : Option Errno) : Option Errno → Option (Except Errno Unit)
  | none => some (.ok ())
  | some err =>
    if err ≠ .eagain ∨ nowait then some (.error err)
    else wait.map fun err => .error (if err = .etimedout then .eagain else err)

/-- The loop of `sys_semtimedop`, with what it returns if it does. -/
def sysSemtimedop.loop (pid : Int) (ops : List Semop) : List Turn → Option (Except Errno Unit) × List Pass
  | [] => (none, [])
  | t :: rest =>
    match t.set with
    | none => (some (.error .einval), [])
    | some set =>
      let (err, set') := semTryApply pid set ops
      match sysSemtimedop.returns (ops.any (·.nowait)) t.wait err with
      | some ret => (some ret, [⟨set, err, set'⟩])
      | none =>
        let r := loop pid ops rest
        (r.1, ⟨set, err, set'⟩ :: r.2)

/-- `sys_semtimedop`; `mem`, `read` and `timeout` say whether there is memory for the operations, and whether they and
the timeout can be read. -/
def sysSemtimedop (pid : Int) (ops : List Semop) (mem read timeout : Bool) (turns : List Turn) :
    Option (Except Errno Unit) × List Pass :=
  if ops.length = 0 ∨ ops.length > 1024 then (some (.error .einval), [])
  else if !mem then (some (.error .enomem), [])
  else if !read || !timeout then (some (.error .efault), [])
  else sysSemtimedop.loop pid ops turns

end Ish.Semaphores
