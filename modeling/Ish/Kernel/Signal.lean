import Ish.Lib.Flags
import Mathlib.Logic.Function.Basic

/-!
# Signals of a task

The masks, the pending set and the queue of `kernel/signal.c`: `deliver_signal`, `receive_signals`,
`do_sigaction`, the calls that change the mask, `sys_rt_sigtimedwait` and `signalfd`.

`receive_signals` is one step for each entry of the queue, so that signals can arrive in between; they
do while the task is stopped for its tracer, where it gives up `sighand->lock`. What a frame on the
stack looks like is left out: a step is told whether it could be written.
-/

namespace Ish.Signals

open Lib

/-- `sigset_t_` -/
abbrev Sigset := BitVec 64

/-- A signal number for which the assertion in `sig_mask` holds. -/
abbrev Signal := { n : Nat // 1 ≤ n ∧ n < 64 }

def sigMask (sig : Signal) : Sigset := 1#64 <<< (sig.1 - 1)

/-- `sigset_has` -/
def has (set : Sigset) (sig : Signal) : Bool := hasAny set (sigMask sig)

/-- `sigset_add` -/
def add (set : Sigset) (sig : Signal) : Sigset := set ||| sigMask sig

/-- `sigset_del` -/
def del (set : Sigset) (sig : Signal) : Sigset := set &&& ~~~sigMask sig

def sigkill : Signal := ⟨9, by decide⟩
def sigsegv : Signal := ⟨11, by decide⟩
def sigstop : Signal := ⟨19, by decide⟩

def unblockableMask : Sigset := sigMask sigkill ||| sigMask sigstop

/-- `signal_is_blockable` -/
def isBlockable (sig : Signal) : Bool := sig != sigkill && sig != sigstop

/-- `struct siginfo_`; `fields` is its union. -/
structure Siginfo where
  sig : Signal
  sigErrno : Int
  code : Int
  fields : List UInt8
  deriving DecidableEq

/-- `struct sigaction_` -/
structure Sigaction where
  handler : Nat
  flags : BitVec 32
  restorer : Nat
  mask : Sigset
  deriving DecidableEq

def saNodefer : BitVec 32 := 0x40000000#32

def saResethand : BitVec 32 := 0x80000000#32

/-- `(struct sigaction_) {.handler = SIG_DFL_}` -/
def Sigaction.default : Sigaction := ⟨0, 0, 0, 0⟩

/-- `sighand->action` -/
abbrev Sighand := Nat → Sigaction

/-- What a signal does. -/
inductive Disposition where
  | ignore
  | kill
  | callHandler
  | stop
  deriving DecidableEq, Repr

/-- `signal_action` -/
def signalAction (sighand : Sighand) (sig : Signal) : Disposition :=
  if isBlockable sig ∧ (sighand sig.1).handler = 1 then .ignore
  else if isBlockable sig ∧ (sighand sig.1).handler ≠ 0 then .callHandler
  -- `SIGURG_`, `SIGCONT_`, `SIGCHLD_`, `SIGIO_`, `SIGWINCH_`
  else if sig.1 ∈ [23, 18, 17, 29, 28] then .ignore
  -- `SIGSTOP_`, `SIGTSTP_`, `SIGTTIN_`, `SIGTTOU_`
  else if sig.1 ∈ [19, 20, 21, 22] then .stop
  else .kill

inductive Mode where
  | user
  /-- in the loop of `receive_signals`, before the entry with this number -/
  | receiving (blocked : Sigset) (entry : Nat)
  /-- in `signal_delivery_stop`; the loop may go on afterwards -/
  | traceStop (rest : Option (Sigset × Nat))
  /-- in `sys_rt_sigtimedwait` -/
  | sigwait (set : Sigset)
  /-- it has exited, or it waits for a lock that it holds -/
  | gone
  deriving DecidableEq

/-- The part of `struct task` that signals are about. -/
structure Task where
  pending : Sigset
  queue : List Siginfo
  blocked : Sigset
  waiting : Sigset
  savedMask : Sigset
  hasSavedMask : Bool
  traced : Bool
  /-- which `struct sighand` the task has -/
  sighand : Nat
  mode : Mode
  deriving DecidableEq

/-- The task that `task_create_` makes of no parent. -/
def Task.first : Task where
  pending := 0
  queue := []
  blocked := 0
  waiting := 0
  savedMask := 0
  hasSavedMask := false
  traced := false
  sighand := 0
  mode := .user

/-! ### Delivery -/

/-- `deliver_signal_unlocked` -/
def Task.deliver (t : Task) (sig : Signal) (info : Siginfo) : Task :=
  if has t.pending sig then t
  else { t with pending := add t.pending sig, queue := t.queue ++ [{ info with sig := sig }] }

/-- `receive_signals` up to its loop. -/
def Task.receiveBegin (t : Task) : Task :=
  if t.hasSavedMask then
    { t with
      hasSavedMask := false
      blocked := t.savedMask
      mode := .receiving (t.blocked &&& t.savedMask) 0 }
  else { t with mode := .receiving t.blocked 0 }

def Task.dequeue (t : Task) (i : Nat) (sig : Signal) : Task :=
  { t with queue := t.queue.eraseIdx i, pending := del t.pending sig }

/-- The mask while a handler runs. -/
def Task.blockFor (t : Task) (action : Sigaction) (sig : Signal) : Task :=
  { t with
    blocked := (if hasAny action.flags saNodefer then t.blocked else add t.blocked sig) |||
      action.mask }

/-- `receive_signal`: the task and its actions. `written` says that the frame could be written; if
not, `deliver_signal` waits for `sighand->lock`, which the task holds. -/
def Task.receiveSignal (t : Task) (sighand : Sighand) (sig : Signal) (written : Bool) :
    Task × Sighand :=
  match signalAction sighand sig with
  | .ignore => (t, sighand)
  | .stop => (t, sighand)
  | .kill => ({ t with mode := .gone }, sighand)
  | .callHandler =>
    let action := sighand sig.1
    let t := t.blockFor action sig
    if !written then ({ t with mode := .gone }, sighand)
    else if hasAny action.flags saResethand then
      (t, Function.update sighand sig.1 Sigaction.default)
    else (t, sighand)

/-- The signal that the loop of `receive_signals` takes from the queue next. -/
def Task.taken (t : Task) : Option Siginfo :=
  match t.mode with
  | .receiving blocked i => (t.queue[i]?).filter fun info => !has blocked info.sig
  | _ => none

/-- The body of the loop of `receive_signals`. The entry that follows is found before the body runs,
so what arrives during the body for the last entry is left for the next call. -/
def Task.receiveNext (t : Task) (sighand : Sighand) (written : Bool) : Task × Sighand :=
  match t.mode with
  | .receiving blocked i =>
    match t.taken with
    | none =>
      if i < t.queue.length then ({ t with mode := .receiving blocked (i + 1) }, sighand)
      else ({ t with mode := .user }, sighand)
    | some info =>
      let rest := if i + 1 < t.queue.length then some (blocked, i) else none
      let t := t.dequeue i info.sig
      if t.traced && info.sig != sigkill then ({ t with mode := .traceStop rest }, sighand)
      else
        let t := { t with mode := rest.elim .user fun r => .receiving r.1 r.2 }
        t.receiveSignal sighand info.sig written
  | _ => (t, sighand)

/-- The end of `signal_delivery_stop` -/
def Task.resume (t : Task) (rest : Option (Sigset × Nat)) : Task :=
  if has t.pending sigkill then { t with mode := .gone }
  else { t with mode := rest.elim .user fun r => .receiving r.1 r.2 }

/-! ### Calls -/

/-- `sigmask_set` -/
def Task.setMask (t : Task) (set : Sigset) : Task := { t with blocked := set &&& ~~~unblockableMask }

/-- `sigmask_set_temp`, which `rt_sigsuspend`, `ppoll`, `pselect` and `epoll_pwait` call. -/
def Task.setMaskTemp (t : Task) (mask : Sigset) : Task :=
  { t with savedMask := t.blocked, hasSavedMask := true }.setMask mask

/-- `how` of `sigprocmask` -/
inductive How where
  | block
  | unblock
  | setmask
  | invalid
  deriving DecidableEq, Repr

/-- `do_sigprocmask` -/
def Task.sigprocmask (t : Task) (how : How) (set : Sigset) : Task :=
  match how with
  | .block => t.setMask (t.blocked ||| set)
  | .unblock => t.setMask (t.blocked &&& ~~~set)
  | .setmask => t.setMask set
  | .invalid => t

/-- `do_sigaction` for a number that is not negative; a negative one passes the checks of the source, which then
writes outside `sighand->action`. -/
def doSigaction (sighand : Sighand) (sig : Nat) (action : Sigaction) : Sighand :=
  if sig ≥ 64 then sighand
  else if sig = sigkill.1 ∨ sig = sigstop.1 then sighand
  else Function.update sighand sig action

/-- `sys_rt_sigtimedwait` up to its wait. -/
def Task.sigwaitBegin (t : Task) (set : Sigset) : Task :=
  { t with waiting := set, mode := .sigwait set }

/-- `sys_rt_sigtimedwait` after its wait: the first entry of the queue that is in the set goes. -/
def Task.sigwaitEnd (t : Task) (set : Sigset) (timedOut : Bool) : Task :=
  if timedOut then { t with waiting := 0, mode := .user }
  else { t with waiting := 0, mode := .user, queue := t.queue.eraseP fun info => has set info.sig }

/-- `signalfd_dequeue_locked` -/
def Task.signalfdDequeue (t : Task) (mask : Sigset) : Task :=
  match t.queue.find? fun info => has mask info.sig with
  | none => t
  | some info =>
    { t with
      queue := t.queue.eraseP fun info => has mask info.sig
      pending := del t.pending info.sig }

/-- The loop of `exec` over the actions. -/
def Sighand.exec (sighand : Sighand) : Sighand := fun sig =>
  if (sighand sig).handler ≠ 1 then { sighand sig with handler := 0 } else sighand sig

/-- The child that `task_create_` makes. -/
def Task.child (t : Task) (sighand : Nat) : Task :=
  { t with pending := 0, queue := [], sighand := sighand }

/-- What happens to a task. -/
inductive TaskAct where
  | deliver (sig : Signal) (info : Siginfo)
  /-- `send_signal`, which drops what is ignored -/
  | send (sig : Signal) (info : Siginfo)
  | receiveBegin
  | receiveNext (written : Bool)
  | resume
  | sigaction (sig : Nat) (action : Sigaction)
  | sigprocmask (how : How) (set : Sigset)
  | setMaskTemp (mask : Sigset)
  /-- `sys_rt_sigreturn`, with the mask in the frame, if there is a frame -/
  | sigreturn (frame : Option Sigset) (info : Siginfo)
  | sigwaitBegin (set : Sigset)
  | sigwaitEnd (timedOut : Bool)
  | signalfd (mask : Sigset)
  | exec
  | trace (traced : Bool)

/-- A call, which a task makes in user mode. -/
def Task.call (t : Task) (sighand : Sighand) (r : Task) : Option (Task × Sighand) :=
  if t.mode = .user then some (r, sighand) else none

/-- One step of a task. -/
def Task.act (t : Task) (sighand : Sighand) : TaskAct → Option (Task × Sighand)
  | .deliver sig info => some (t.deliver sig info, sighand)
  | .send sig info =>
    if signalAction sighand sig = .ignore then some (t, sighand)
    else some (t.deliver sig info, sighand)
  | .receiveBegin => t.call sighand t.receiveBegin
  | .receiveNext written => some (t.receiveNext sighand written)
  | .resume =>
    match t.mode with
    | .traceStop rest => some (t.resume rest, sighand)
    | _ => none
  | .sigaction sig action => some (t, doSigaction sighand sig action)
  | .sigprocmask how set => t.call sighand (t.sigprocmask how set)
  | .setMaskTemp mask => t.call sighand (t.setMaskTemp mask)
  | .sigreturn (some mask) _ => t.call sighand (t.setMask mask)
  | .sigreturn none info => t.call sighand (t.deliver sigsegv info)
  | .sigwaitBegin set => if t.waiting = 0 then t.call sighand (t.sigwaitBegin set) else none
  | .sigwaitEnd timedOut =>
    match t.mode with
    | .sigwait set =>
      -- `wait_for` returns `_EINTR` only for a signal that is not blocked
      if timedOut ∨ hasAny t.pending (~~~t.blocked) then
        some (t.sigwaitEnd set timedOut, sighand)
      else none
    | _ => none
  | .signalfd mask => t.call sighand (t.signalfdDequeue (mask &&& ~~~unblockableMask))
  | .exec => t.call sighand.exec t
  | .trace traced => some ({ t with traced := traced }, sighand)

/-! ### All tasks -/

/-- The tasks, the actions of every `struct sighand`, and the name of the next one. -/
structure Sys (τ : Type) where
  task : τ → Option Task
  sighand : Nat → Sighand
  next : Nat

variable {τ : Type} [DecidableEq τ]

/-- One task, whose actions are the defaults. -/
def boot (first : τ) : Sys τ where
  task := Function.update (fun _ => none) first (some Task.first)
  sighand _ _ := Sigaction.default
  next := 1

/-- A step of the system. -/
inductive Act (τ : Type) where
  | task (t : τ) (a : TaskAct)
  /-- a child with the actions of its parent, shared (`CLONE_SIGHAND_`) or copied -/
  | fork (t child : τ) (share : Bool)

/-- One step of the system. -/
def Sys.step (s : Sys τ) : Act τ → Option (Sys τ)
  | .task t a =>
    match s.task t with
    | none => none
    | some task =>
      (task.act (s.sighand task.sighand) a).map fun r =>
        { s with
          task := Function.update s.task t (some r.1)
          sighand := Function.update s.sighand task.sighand r.2 }
  | .fork t child share =>
    match s.task t, s.task child with
    | some task, none =>
      if task.mode = .user then
        if share then
          some { s with task := Function.update s.task child (some (task.child task.sighand)) }
        else
          some { s with
            task := Function.update s.task child (some (task.child s.next))
            sighand := Function.update s.sighand s.next (s.sighand task.sighand)
            next := s.next + 1 }
      else none
    | _, _ => none

end Ish.Signals
