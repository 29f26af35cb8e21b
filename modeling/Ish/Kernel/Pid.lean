import Mathlib

/-!
# The table of pids

`kernel/task.c`: `pid_get` and the search of `task_create_` for a pid. A task is its thread group; a list is
modelled by its members.
-/

namespace Ish.Pids

def maxPid : Nat := 2 ^ 15

/-- `struct pid`, with the `tgid` of its task. -/
structure Pid where
  task : Option Nat
  session : List Nat
  pgroup : List Nat

/-- The array `pids`, the variable `cur_pid` and `pids_lock`. -/
structure Table where
  pids : Nat → Pid
  curPid : Nat
  locked : Bool

/-- `pid_empty` -/
def pidEmpty (pid : Pid) : Bool := pid.task.isNone && pid.session.isEmpty && pid.pgroup.isEmpty

/-- `pid_get`, with the index that it reads. -/
def Table.pidGet (t : Table) (id : BitVec 32) : Option Nat × Option Pid :=
  if id.toNat > maxPid + 1 then (none, none)
  else (some id.toNat, if pidEmpty (t.pids id.toNat) then none else some (t.pids id.toNat))

/-- The body of the loop of `task_create_`. -/
def nextPid (curPid : Nat) : Nat := if curPid + 1 > maxPid then 1 else curPid + 1

/-- The loop of `task_create_`; `none` is a loop that goes on. -/
def Table.search (t : Table) : Nat → Nat → Option Nat
  | 0, _ => none
  | fuel + 1, curPid =>
    if pidEmpty (t.pids (nextPid curPid)) then some (nextPid curPid) else t.search fuel (nextPid curPid)

/-- `task_create_` for a task of the thread group `tgid`, with the pid of the task or `none` for NULL; `alloc` says
that memory can be had. -/
def Table.taskCreate (t : Table) (fuel tgid : Nat) (alloc : Bool) : Option (Option Nat × Table) :=
  match t.search fuel t.curPid with
  | none => none
  | some curPid =>
    let t : Table := ⟨Function.update t.pids curPid ⟨none, [], []⟩, curPid, true⟩
    -- this return leaves the lock taken
    if !alloc then some (none, t)
    else some (some curPid, ⟨Function.update t.pids curPid ⟨some tgid, [], []⟩, curPid, false⟩)

end Ish.Pids
