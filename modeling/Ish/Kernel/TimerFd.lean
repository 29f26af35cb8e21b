import Mathlib.Logic.Function.Basic

/-!
# Timer descriptors

`timerfd_callback`, `sys_timerfd_settime`, `timerfd_read` and `timerfd_poll` of `kernel/time.c` on one
descriptor, with `timer_set` and `timer_thread` of `util/timer.c`.

Taking a lock is a step; so is what is done under it together with the release that follows. Time is
left out: whether there is some left is part of the action. `poll_wakeup`, which the callback calls when
it has given up `fd->lock`, takes neither of the two locks.
-/

namespace Ish.TimerFd

/-- The locks. -/
inductive Lock where
  | fd
  | timer
  deriving DecidableEq, Repr

/-- A thread: one that makes calls, or the thread of the timer. -/
inductive Owner (τ : Type) where
  | caller (t : τ)
  | timer
  deriving DecidableEq, Repr

/-- Where a caller is. `value` and `interval` say whether the times to be set are not zero. -/
inductive CallerPc where
  | idle
  /-- `sys_timerfd_settime`, before `fd->lock` -/
  | settimeFd (value interval : Bool)
  /-- in `timer_set`, before `timer->lock` -/
  | settimeTimer (value interval : Bool)
  /-- with both locks -/
  | settimeBody (value interval : Bool)
  /-- `timer_set` is done -/
  | settimeDone
  /-- `timerfd_read`, before `fd->lock` -/
  | readFd
  | reading
  /-- in `wait_for` -/
  | asleep
  /-- `wait_for` takes `fd->lock` again -/
  | woken (err : Bool)
  /-- `timerfd_poll`, before `fd->lock` -/
  | pollFd
  /-- before the end of a call that has only `fd->lock` to give up -/
  | leaving
  deriving DecidableEq, Repr

/-- Where the thread of the timer is. -/
inductive TimerPc where
  /-- it does not run -/
  | none
  /-- before `timer->lock` -/
  | start
  /-- at the top of its loop -/
  | check
  /-- in `nanosleep` -/
  | asleep
  /-- in `timerfd_callback`, before `fd->lock` -/
  | callback
  /-- with both locks -/
  | notifying
  /-- after the callback -/
  | after
  deriving DecidableEq, Repr

/-- The timer and its threads. -/
structure State (τ : Type) where
  lock : Lock → Option (Owner τ)
  caller : τ → CallerPc
  thread : TimerPc
  /-- `timer->active` -/
  active : Bool
  /-- `timespec_positive(timer->interval)` -/
  interval : Bool
  /-- `timer->thread_running` -/
  running : Bool
  expirations : Nat
  /-- `fd->flags & O_NONBLOCK_` -/
  nonblock : Bool

/-- Who takes a step. -/
inductive Act (τ : Type) where
  | settime (t : τ) (value interval : Bool)
  | read (t : τ)
  | poll (t : τ)
  /-- the next step of a caller -/
  | caller (t : τ)
  /-- `wait_for` ends, with an error or not -/
  | wake (t : τ) (err : Bool)
  /-- the next step of the timer thread, with time left or not -/
  | timer (remaining : Bool)
  deriving DecidableEq, Repr

variable {τ : Type} [DecidableEq τ]

def State.setCaller (s : State τ) (t : τ) (pc : CallerPc) : State τ :=
  { s with caller := Function.update s.caller t pc }

/-- `lock`; `none` if another thread has it. -/
def State.take (s : State τ) (l : Lock) (x : Owner τ) : Option (State τ) :=
  if s.lock l = none then some { s with lock := Function.update s.lock l (some x) } else none

/-- `unlock` -/
def State.free (s : State τ) (l : Lock) : State τ := { s with lock := Function.update s.lock l none }

/-- The body of `timer_set`. -/
def State.timerSet (s : State τ) (value interval : Bool) : State τ :=
  let s := { s with active := value, interval := interval }
  if s.running then s
  else if value then { s with running := true, thread := .start }
  else s

/-- A step of the caller. -/
def State.stepCaller (s : State τ) (t : τ) : Option (State τ) :=
  match s.caller t with
  | .idle => none
  | .settimeFd v i => (s.take .fd (.caller t)).map (·.setCaller t (.settimeTimer v i))
  | .settimeTimer v i => (s.take .timer (.caller t)).map (·.setCaller t (.settimeBody v i))
  | .settimeBody v i => some (((s.timerSet v i).free .timer).setCaller t .settimeDone)
  | .settimeDone => some ((s.free .fd).setCaller t .idle)
  | .readFd => (s.take .fd (.caller t)).map (·.setCaller t .reading)
  | .reading =>
    if s.expirations = 0 then
      some ((s.free .fd).setCaller t (if s.nonblock then .idle else .asleep))
    else some (({ s with expirations := 0 }.free .fd).setCaller t .idle)
  | .asleep => none
  | .woken err =>
    (s.take .fd (.caller t)).map (·.setCaller t (if err then .leaving else .reading))
  | .pollFd => (s.take .fd (.caller t)).map (·.setCaller t .leaving)
  | .leaving => some ((s.free .fd).setCaller t .idle)

/-- The end of `timer_thread`. -/
def State.finish (s : State τ) : State τ := { s with running := false, thread := .none }.free .timer

/-- A step of the timer thread. -/
def State.stepTimer (s : State τ) (remaining : Bool) : Option (State τ) :=
  match s.thread with
  | .none => none
  | .start => (s.take .timer .timer).map fun s => { s with thread := .check }
  | .check =>
    if s.active && remaining then some ({ s with thread := .asleep }.free .timer)
    else if s.active then some { s with thread := .callback }
    else some s.finish
  | .asleep => some { s with thread := .start }
  | .callback => (s.take .fd .timer).map fun s => { s with thread := .notifying }
  | .notifying => some ({ s with expirations := s.expirations + 1, thread := .after }.free .fd)
  | .after => if s.active && s.interval then some { s with thread := .check } else some s.finish

def State.begin (s : State τ) (t : τ) (pc : CallerPc) : Option (State τ) :=
  if s.caller t = .idle then some (s.setCaller t pc) else none

/-- One step. -/
def State.step (s : State τ) : Act τ → Option (State τ)
  | .settime t value interval => s.begin t (.settimeFd value interval)
  | .read t => s.begin t .readFd
  | .poll t => s.begin t .pollFd
  | .caller t => s.stepCaller t
  | .wake t err => if s.caller t = .asleep then some (s.setCaller t (.woken err)) else none
  | .timer remaining => s.stepTimer remaining

/-- After `sys_timerfd_create`. -/
def init (nonblock : Bool) : State τ where
  lock _ := none
  caller _ := .idle
  thread := .none
  active := false
  interval := false
  running := false
  expirations := 0
  nonblock := nonblock

end Ish.TimerFd
