import Ish.Kernel.Futex

/-!
# The poll loop of `futex_wait`

`futex_wait` of `kernel/futex.c` gives up `futex_lock` and polls the pipe of its thread: it looks at
the clock, polls for at most 100 ms, and if the pipe was not readable it looks for an exit of the
group, a signal, and a new value. A wake takes the thread out of its queue and writes to its pipe.

The steps between two accesses to what threads share are steps of their own here. The clock, the
signals and what is in memory are left to the actions. `counted` is read by nothing: it marks the
threads that a wake has counted since their wait began.
-/

namespace Ish.Futexes

/-- The error numbers that end the poll loop. -/
inductive WaitErrno where
  | etimedout
  | eintr
  | efault
  deriving DecidableEq, Repr

/-- Where a waiter is. -/
inductive Pc where
  /-- not in `futex_wait` -/
  | idle
  /-- on a queue, with its timeout in nanoseconds -/
  | start (timeout : Option Int)
  /-- at the head of the loop -/
  | top
  /-- in `poll` -/
  | poll
  /-- `poll` has returned and the pipe was not readable -/
  | checks
  /-- the loop has ended with this `err`, where `none` is 0 -/
  | done (err : Option WaitErrno)
  deriving DecidableEq, Repr

/-- The table, and for every thread its place, `deadline_ns`, `val`, and the bytes in its pipe. -/
structure Waits (τ : Type) where
  table : State τ
  pc : τ → Pc
  deadline : τ → Int
  val : τ → Nat
  bytes : τ → Nat
  now : Int
  counted : τ → Bool

variable {τ : Type}

def waitsInit (τ : Type) (now : Int) : Waits τ where
  table := init τ
  pc _ := .idle
  deadline _ := 0
  val _ := 0
  bytes _ := 0
  now := now
  counted _ := false

variable [DecidableEq τ]

def Waits.goto (s : Waits τ) (t : τ) (pc : Pc) : Waits τ :=
  { s with pc := Function.update s.pc t pc }

/-- `futex_wait` up to the release of the lock; stale bytes are drained from the pipe. -/
def Waits.enter (s : Waits τ) (t : τ) (k : Key) (loaded : Option Nat) (val : Nat) (pipe : Bool)
    (timeout : Option Int) : Option (Waits τ) :=
  match s.table.waitEnter t k loaded val pipe with
  | none => none
  | some o =>
    -- the call has returned if the value is not the expected one
    if o.ret.isSome then some { s with table := o.state }
    else
      some { s with
        table := o.state
        pc := Function.update s.pc t (.start timeout)
        val := Function.update s.val t val
        bytes := Function.update s.bytes t 0
        counted := Function.update s.counted t false }

/-- The deadline, which is 0 for a wait without end. -/
def Waits.arm (s : Waits τ) (t : τ) (timeout : Option Int) : Waits τ :=
  { s with
    deadline := Function.update s.deadline t (timeout.elim 0 fun d => s.now + d)
    pc := Function.update s.pc t .top }

/-- The head of the loop: less than a millisecond before the deadline the wait is over. -/
def Waits.turn (s : Waits τ) (t : τ) : Waits τ :=
  if s.deadline t ≠ 0 ∧ (s.deadline t - s.now).tdiv 1000000 ≤ 0 then
    s.goto t (.done (some .etimedout))
  else s.goto t .poll

/-- `poll` returns: the pipe is readable and is drained, or the time is over, or a host signal came. -/
def Waits.pollReturn (s : Waits τ) (t : τ) : Waits τ :=
  if 0 < s.bytes t then { s.goto t (.done none) with bytes := Function.update s.bytes t 0 }
  else s.goto t .checks

/-- The rest of the loop body, for what it finds. -/
def Waits.check (s : Waits τ) (t : τ) (groupExit sigPending : Bool) (loaded : Option Nat) :
    Waits τ :=
  if groupExit then s.goto t (.done (some .eintr))
  else if sigPending then s.goto t (.done (some .eintr))
  else
    match loaded with
    | none => s.goto t (.done (some .efault))
    | some x => if x ≠ s.val t then s.goto t (.done none) else s.goto t .top

/-- `futex_wait` after its loop, and what it returns. -/
def Waits.leave (s : Waits τ) (t : τ) : Option (Waits τ × Option WaitErrno) :=
  match s.pc t with
  | .done err =>
    match s.table.waitLeave t with
    | none => none
    | some o =>
      some ({ s.goto t .idle with
        table := o.state
        counted := Function.update s.counted t false }, err)
  | _ => none

/-- A call that wakes threads. -/
def Act.wakes : Act τ → Bool
  | .wakelike _ _ _ | .cmpRequeue _ _ _ _ _ _ | .wakeOp _ _ _ _ _ => true
  | _ => false

/-- Such a call writes a byte to the pipe of every thread that it wakes. -/
def Waits.wake (s : Waits τ) (o : Outcome τ) : Waits τ :=
  { s with
    table := o.state
    bytes := fun t => if t ∈ o.woken then s.bytes t + 1 else s.bytes t
    counted := fun t => s.counted t || decide (t ∈ o.woken) }

/-- A step of a thread. -/
inductive WaitAct (τ : Type) where
  | enter (t : τ) (k : Key) (loaded : Option Nat) (val : Nat) (pipe : Bool) (timeout : Option Int)
  | arm (t : τ)
  | turn (t : τ)
  | poll (t : τ)
  | check (t : τ) (groupExit sigPending : Bool) (loaded : Option Nat)
  | leave (t : τ)
  | wake (a : Act τ)
  | tick (ns : Nat)

/-- One step. -/
def Waits.step (s : Waits τ) : WaitAct τ → Option (Waits τ)
  | .enter t k loaded val pipe timeout =>
    if s.pc t = .idle then s.enter t k loaded val pipe timeout else none
  | .arm t =>
    match s.pc t with
    | .start timeout => some (s.arm t timeout)
    | _ => none
  | .turn t => if s.pc t = .top then some (s.turn t) else none
  | .poll t => if s.pc t = .poll then some (s.pollReturn t) else none
  | .check t groupExit sigPending loaded =>
    if s.pc t = .checks then some (s.check t groupExit sigPending loaded) else none
  | .leave t => (s.leave t).map Prod.fst
  | .wake a => if a.wakes then (s.table.perform a).map s.wake else none
  | .tick ns => some { s with now := s.now + ns }

end Ish.Futexes
