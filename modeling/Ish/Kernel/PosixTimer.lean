import Mathlib.Logic.Function.Basic

/-!
# POSIX timers

`kernel/time.c`: the calls on the timers of a process, and the callback of a timer; what `tgroup_copy` of
`kernel/fork.c` and the end of a process in `kernel/exit.c` do to them. When a timer expires is not modelled, and a
lock is shown only where a call keeps it. `asked` is read by nothing: it is what the timer was created with.
-/

namespace Ish.PosixTimers

/-- `TIMERS_MAX` -/
def timersMax : Nat := 16

/-- `NUM_SIGS` -/
def numSigs : Nat := 64

/-- `SIGEV_SIGNAL_`, `SIGEV_NONE_`, `SIGEV_THREAD_ID_` and any other number. -/
inductive Method where
  | signal
  | none
  | threadId
  | other
  deriving DecidableEq

/-- `struct sigevent_` -/
structure Sigevent where
  method : Method
  signo : Nat
  tid : Nat

/-- A `struct posix_timer`; `timer` is where its `struct timer` is, and `tgroup` says that the pointer is not NULL. -/
structure PosixTimer where
  timer : Option Nat
  tgroup : Bool
  threadPid : Nat
  signal : Nat
  asked : Sigevent

/-- `struct tgroup`, with what stands in `posix_timers` and behind it. -/
structure Group where
  leader : Nat
  timers : Nat → PosixTimer

/-- The processes, the `struct timer`s, and `pids_lock`. -/
structure System (γ : Type) where
  /-- the groups that are not freed -/
  groups : γ → Option Group
  /-- the `struct timer`s that are not freed, each with the element of `posix_timers` that its callback is given -/
  heap : Nat → Option (γ × Nat)
  next : Nat
  pidsLock : Bool

/-- A use of an element of `posix_timers`; `deref` says that its `timer` is followed. -/
structure Access where
  id : Nat
  deref : Bool

/-- The calls. `sigev` is `none` if there is nothing to read at the address, as at NULL; `exist` are the tasks that
`pid_get_task` finds. -/
inductive Call where
  | create (clockOk : Bool) (sigev : Option Sigevent) (exist : Nat → Bool) (putOk : Bool)
  | settime (id : Nat) (getOk : Bool)
  | gettime (id : Nat)
  | delete (id : Nat)

variable {γ : Type}

/-- No processes. -/
def systemInit (γ : Type) : System γ := ⟨fun _ => none, fun _ => none, 0, false⟩

/-- A group without timers. -/
def Group.new (leader : Nat) : Group := ⟨leader, fun _ => ⟨none, false, 0, 0, ⟨.none, 0, 0⟩⟩⟩

/-- The first element of `posix_timers` without a timer. -/
def Group.slot (G : Group) : Option Nat := (List.range timersMax).find? fun id => (G.timers id).timer.isNone

/-- The elements that the search for it has looked at. -/
def looked (n : Nat) : List Access := (List.range n).map fun id => ⟨id, false⟩

section

variable [DecidableEq γ]

/-- An element of `posix_timers` is written. -/
def System.setTimer (s : System γ) (g : γ) (G : Group) (id : Nat) (timer : PosixTimer) : System γ :=
  { s with groups := Function.update s.groups g (some { G with timers := Function.update G.timers id timer }) }

/-- `timer_new`, and the element of `posix_timers` is filled in. -/
def System.put (s : System γ) (g : γ) (G : Group) (id : Nat) (e : Sigevent) : System γ :=
  { s.setTimer g G id
      ⟨some s.next, e.method ≠ .none, if e.method = .threadId then G.leader else 0, e.signo, e⟩ with
    heap := Function.update s.heap s.next (some (g, id))
    next := s.next + 1 }

/-- `timer_free`, and the pointer is NULL. -/
def System.free (s : System γ) (g : γ) (G : Group) (id t : Nat) : System γ :=
  { s.setTimer g G id { G.timers id with timer := none } with heap := Function.update s.heap t none }

/-- A call of a thread of the group: its accesses and the error number, 0 if there is none. -/
def System.call (s : System γ) (g : γ) (G : Group) : Call → System γ × List Access × Int
  | .create clockOk sigev exist putOk =>
    if !clockOk then (s, [], -22)
    else
      match sigev with
      | none => (s, [], -14)
      | some e =>
        if e.method = .other then (s, [], -22)
        -- this return leaves the lock taken
        else if e.method = .threadId ∧ exist e.tid = false then ({ s with pidsLock := true }, [], -22)
        else
          match G.slot with
          | none => (s, looked timersMax, -12)
          | some id => if !putOk then (s, looked (id + 1), -14) else (s.put g G id e, looked (id + 1), 0)
  | .settime id getOk =>
    if !getOk then (s, [], -14) else if id > timersMax then (s, [], -22) else (s, [⟨id, true⟩], 0)
  | .gettime id =>
    if id ≥ timersMax then (s, [], -22)
    else if (G.timers id).timer.isNone then (s, [⟨id, false⟩], -22) else (s, [⟨id, true⟩], 0)
  | .delete id =>
    match (G.timers id).timer with
    | none => (s, [⟨id, false⟩], -22)
    | some t => (s.free g G id t, [⟨id, true⟩], 0)

/-- The steps. -/
inductive Act (γ : Type) where
  /-- the first process, with the pid of its leader -/
  | init (g : γ) (leader : Nat)
  | call (g : γ) (c : Call)
  /-- `tgroup_copy`: the child has a copy of `posix_timers` -/
  | fork (g child : γ) (leader : Nat)
  /-- the process has exited, which frees only `itimer`, and is reaped: the group is freed -/
  | reap (g : γ)

/-- A step; `none` if there is no such process, or the new one is not new. No task has the pid 0. -/
def System.step (s : System γ) : Act γ → Option (System γ)
  | .init g leader =>
    if s.groups g = none ∧ leader ≠ 0 then some { s with groups := Function.update s.groups g (some (.new leader)) }
    else none
  | .call g c => (s.groups g).map fun G => (s.call g G c).1
  | .fork g child leader =>
    (s.groups g).bind fun G =>
      if s.groups child = none ∧ leader ≠ 0 then
        some { s with groups := Function.update s.groups child (some { G with leader := leader }) }
      else none
  | .reap g => (s.groups g).map fun _ => { s with groups := Function.update s.groups g none }

end

/-- What an expiry does. -/
inductive Outcome where
  | nothing
  | sent (pid sig : Nat)
  /-- freed memory is read, or an assertion of `sig_mask` fails -/
  | fault
  deriving DecidableEq

/-- `send_signal` to a task that is there; signal 0 is only a test. -/
def sendSignal (pid sig : Nat) : Outcome :=
  if sig = 0 then .nothing else if sig < numSigs then .sent pid sig else .fault

/-- `posix_timer_callback` -/
def PosixTimer.callback (timer : PosixTimer) (exist : Nat → Bool) : Outcome :=
  if timer.tgroup && exist timer.threadPid then sendSignal timer.threadPid timer.signal else .nothing

/-- The callback of a `struct timer`, which is given an element of `posix_timers` of its group. -/
def System.expire (s : System γ) (g : γ) (id : Nat) (exist : Nat → Bool) : Outcome :=
  match s.groups g with
  | none => .fault
  | some G => (G.timers id).callback exist

end Ish.PosixTimers
