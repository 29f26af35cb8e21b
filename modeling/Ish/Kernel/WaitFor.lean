import Ish.Kernel.Signal

/-!
# `wait_for` and the signals of other tasks

`wait_for` of `util/sync.c` by one task, and `deliver_signal_unlocked` of `kernel/signal.c` by others.
Taking a lock, giving it up, a broadcast and the release-and-sleep of `pthread_cond_wait` are steps; so
are the accesses under a lock together with the release that follows them. A broadcast wakes who
sleeps at that moment and nobody else. `SIGUSR1`, which the sender also sends, interrupts no
`pthread_cond_wait`.

The lock of the wait is `sighand->lock` or another one. `fresh` is read by nothing: it is the set of
the signals that were delivered since the task looked for signals in `wait_for`.
-/

namespace Ish.Signals

open Lib

/-- Who has a lock. -/
inductive Owner (σ : Type) where
  | waiter
  | sender (i : σ)
  | other
  deriving DecidableEq, Repr

/-- Where the task is in `wait_for`. -/
inductive WaiterPc where
  /-- without the lock of the wait -/
  | out
  /-- with the lock, before or after `wait_for` -/
  | held
  /-- at the first `is_signal_pending` -/
  | check
  /-- in it, with `sighand->lock` -/
  | checking
  /-- before it publishes `waiting_cond` -/
  | publish
  /-- with `waiting_cond_lock` -/
  | publishing
  /-- before `pthread_cond_wait` -/
  | presleep
  | asleep
  /-- woken, without the lock -/
  | woken
  /-- before it takes `waiting_cond` back -/
  | unpublish
  deriving DecidableEq, Repr

/-- Where a sender is in `deliver_signal`. -/
inductive SenderPc where
  | idle
  /-- with `sighand->lock` -/
  | locked (sig : Signal)
  /-- the signal is pending -/
  | set
  /-- without `sighand->lock` -/
  | toNotify
  /-- with `waiting_cond_lock` -/
  | notifying
  /-- before it takes `sighand->lock` again -/
  | relocking
  deriving DecidableEq

/-- The task that waits, its senders, and the locks. -/
structure Wait (σ : Type) where
  sighandLock : Option (Owner σ)
  /-- `waiting_cond_lock` -/
  condLock : Option (Owner σ)
  /-- the lock of the wait, if it is not `sighand->lock` -/
  mutex : Option (Owner σ)
  pending : Sigset
  blocked : Sigset
  waiting : Sigset
  /-- `waiting_cond` is not null -/
  waitingCond : Bool
  /-- the lock of the wait is `sighand->lock` -/
  onSighand : Bool
  /-- the condition is `task->pause` -/
  onPause : Bool
  /-- there is a timeout -/
  timed : Bool
  pc : WaiterPc
  sender : σ → SenderPc
  fresh : Sigset

variable {σ : Type}

/-- No lock is held, and nobody waits or sends. -/
def waitInit (σ : Type) : Wait σ where
  sighandLock := none
  condLock := none
  mutex := none
  pending := 0
  blocked := 0
  waiting := 0
  waitingCond := false
  onSighand := false
  onPause := false
  timed := false
  pc := .out
  sender _ := .idle
  fresh := 0

/-- The lock of the wait. -/
def Wait.lock (s : Wait σ) : Option (Owner σ) := if s.onSighand then s.sighandLock else s.mutex

/-- The lock of the wait is taken or given up. -/
def Wait.setLock (s : Wait σ) (owner : Option (Owner σ)) : Wait σ :=
  if s.onSighand then { s with sighandLock := owner } else { s with mutex := owner }

/-- What `is_signal_pending` returns. -/
def Wait.signalPending (s : Wait σ) : Bool := hasAny s.pending (~~~s.blocked)

/-- `pthread_cond_broadcast` for the condition of the wait. -/
def Wait.broadcast (s : Wait σ) : Wait σ := if s.pc = .asleep then { s with pc := .woken } else s

/-- `is_signal_pending` with the lock held, and its release. -/
def Wait.read (s : Wait σ) : Wait σ :=
  { s with
    pc := if s.signalPending then .held else .publish
    sighandLock := if s.onSighand then s.sighandLock else none
    fresh := 0 }

variable [DecidableEq σ]

/-- A sender goes on. -/
def Wait.goto (s : Wait σ) (i : σ) (pc : SenderPc) : Wait σ :=
  { s with sender := Function.update s.sender i pc }

/-- `deliver_signal_unlocked` up to the release of `sighand->lock`. -/
def Wait.sendSet (s : Wait σ) (i : σ) (sig : Signal) : Wait σ :=
  if has s.pending sig then { s.goto i .idle with sighandLock := none }
  else
    let s := { s with pending := add s.pending sig, fresh := add s.fresh sig }
    if has (s.blocked &&& ~~~s.waiting) sig && isBlockable sig then
      let s := if s.onPause then s.broadcast else s
      { s.goto i .idle with sighandLock := none }
    else s.goto i .set

/-- `notify(task->waiting_cond)` and the release of `waiting_cond_lock`. -/
def Wait.sendNotify (s : Wait σ) (i : σ) : Wait σ :=
  let s := if s.waitingCond then s.broadcast else s
  { s.goto i .relocking with condLock := none }

/-- The steps of the task, of the senders and of other tasks. -/
inductive WaitStep (σ : Type) where
  | lock (onSighand : Bool)
  | unlock
  | waitFor (onPause timed : Bool)
  | check
  | read
  | publishLock
  | publish
  | sleep
  /-- the timeout, or no reason -/
  | wake
  | relock
  | unpublish
  /-- the task changes its masks or receives signals -/
  | own (pending blocked waiting : Sigset)
  | sendLock (i : σ) (sig : Signal)
  | sendSet (i : σ)
  | sendUnlock (i : σ)
  | sendCondLock (i : σ)
  | sendNotify (i : σ)
  | sendRelock (i : σ)
  /-- other tasks take the lock of the wait or give it up, and notify the condition -/
  | otherLock
  | otherUnlock
  | otherNotify

/-- One step; `none` if it cannot be taken. -/
def Wait.step (s : Wait σ) : WaitStep σ → Option (Wait σ)
  | .lock onSighand =>
    let s := { s with onSighand := onSighand }
    if s.pc = .out ∧ s.lock = none then some { s.setLock (some .waiter) with pc := .held } else none
  | .unlock => if s.pc = .held then some { s.setLock none with pc := .out } else none
  | .waitFor onPause timed =>
    if s.pc = .held then some { s with pc := .check, onPause := onPause, timed := timed } else none
  | .check =>
    if s.pc = .check then
      if s.onSighand then some { s with pc := .checking }
      else if s.sighandLock = none then
        some { s with pc := .checking, sighandLock := some .waiter }
      else none
    else none
  | .read => if s.pc = .checking then some s.read else none
  | .publishLock =>
    if s.pc = .publish ∧ s.condLock = none then
      some { s with pc := .publishing, condLock := some .waiter }
    else none
  | .publish =>
    if s.pc = .publishing then
      some { s with pc := .presleep, condLock := none, waitingCond := true }
    else none
  | .sleep => if s.pc = .presleep then some { s.setLock none with pc := .asleep } else none
  | .wake => if s.pc = .asleep then some { s with pc := .woken } else none
  | .relock =>
    if s.pc = .woken ∧ s.lock = none then
      some { s.setLock (some .waiter) with pc := .unpublish }
    else none
  | .unpublish =>
    -- the signals that the second `is_signal_pending` sees decide only what is returned
    if s.pc = .unpublish ∧ s.condLock = none then
      some { s with pc := .held, waitingCond := false }
    else none
  | .own pending blocked waiting =>
    if s.pc = .out ∧ s.sighandLock = none then
      some { s with pending := pending, blocked := blocked, waiting := waiting }
    else none
  | .sendLock i sig =>
    if s.sender i = .idle ∧ s.sighandLock = none then
      some { s.goto i (.locked sig) with sighandLock := some (.sender i) }
    else none
  | .sendSet i =>
    match s.sender i with
    | .locked sig => some (s.sendSet i sig)
    | _ => none
  | .sendUnlock i =>
    if s.sender i = .set then some { s.goto i .toNotify with sighandLock := none } else none
  | .sendCondLock i =>
    if s.sender i = .toNotify ∧ s.condLock = none then
      some { s.goto i .notifying with condLock := some (.sender i) }
    else none
  | .sendNotify i => if s.sender i = .notifying then some (s.sendNotify i) else none
  | .sendRelock i =>
    if s.sender i = .relocking ∧ s.sighandLock = none then some (s.goto i .idle) else none
  | .otherLock => if s.mutex = none then some { s with mutex := some .other } else none
  | .otherUnlock => if s.mutex = some .other then some { s with mutex := none } else none
  | .otherNotify => some s.broadcast

end Ish.Signals
