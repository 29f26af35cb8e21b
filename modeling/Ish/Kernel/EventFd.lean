import Mathlib
import Ish.Lib.Run

/-!
# Event counters

`kernel/eventfd.c`. A call holds `fd->lock` except while it sleeps in `wait_for`, so a step goes from one release of the
lock to the next.
-/

namespace Ish.EventFd

open Lib Function

/-- `UINT64_MAX` -/
abbrev max64 : BitVec 64 := 0xffffffffffffffff#64

/-- `eventfd_read`, and `eventfd_write` of an increment. -/
inductive Call where
  | read
  | write (increment : BitVec 64)
  deriving DecidableEq

namespace Call

variable (val : BitVec 64)

/-- The condition of the loop. -/
def blocked : Call → Bool
  | read => val = 0
  | write increment => val ≥ max64 - increment

/-- The value that a call leaves. -/
def apply : Call → BitVec 64
  | read => 0
  | write increment => val + increment

def written : Call → ℕ
  | read => 0
  | write increment => increment.toNat

def returned : Call → ℕ
  | read => val.toNat
  | write _ => 0

end Call

/-- Where a thread stands: in no call, in `wait_for`, or on the way out of it. -/
inductive Pc where
  | away
  | asleep (call : Call)
  | woken (call : Call)
  deriving DecidableEq

/-- `notify` wakes all sleepers. -/
def Pc.notify : Pc → Pc
  | asleep call => woken call
  | pc => pc

/-- `written` and `returned` are the sums over all calls so far. -/
structure State (τ : Type) where
  val : BitVec 64
  threads : τ → Pc
  written : ℕ
  returned : ℕ

/-- The steps of the threads. -/
inductive Act (τ : Type) where
  | call (t : τ) (call : Call) (nonblock : Bool)
  /-- a woken thread looks again -/
  | retry (t : τ) (nonblock : Bool)
  /-- `pthread_cond_wait` may return for no reason -/
  | spurious (t : τ)
  /-- `wait_for` ends with `EINTR` -/
  | interrupt (t : τ)

variable {τ : Type} [DecidableEq τ]

/-- `sys_eventfd2` -/
def init (initval : BitVec 32) : State τ := ⟨initval.setWidth 64, fun _ => .away, 0, 0⟩

namespace State

variable (s : State τ)

def goto (t : τ) (pc : Pc) : State τ := { s with threads := update s.threads t pc }

/-- One turn of the loop: the thread returns `EAGAIN` or goes to sleep, or the call is done. -/
def turn (t : τ) (call : Call) (nonblock : Bool) : State τ :=
  if call.blocked s.val then s.goto t (if nonblock then .away else .asleep call)
  else ⟨call.apply s.val, update (fun t' => (s.threads t').notify) t .away, s.written + call.written,
    s.returned + call.returned s.val⟩

/-- One step. -/
def step : Act τ → Option (State τ)
  | .call t call nonblock =>
    if s.threads t ≠ .away then none
    else if call = .write max64 then some s -- `EINVAL`
    else some (s.turn t call nonblock)
  | .retry t nonblock =>
    match s.threads t with
    | .woken call => some (s.turn t call nonblock)
    | _ => none
  | .spurious t => some (s.goto t (s.threads t).notify)
  | .interrupt t => if s.threads t = .away then none else some (s.goto t .away)

/-- `eventfd_poll`: `POLL_READ` and `POLL_WRITE` -/
def poll : Bool × Bool := (s.val > 0, s.val < max64 - 1)

end State

end Ish.EventFd
