import Mathlib.Logic.Function.Basic

/-!
# Pseudoterminals

The way of the bytes from the slave of a pseudoterminal to its master: `tty_write` on the slave, `pty_write` and
`tty_input` on the master, `tty_read` on the master, and what the opening and closing of the slave do to the master
(`tty_get`, `pty_slave_close`, `tty_release`, `pty_is_half_closed_master`) of `fs/tty.c` and `fs/pty.c`.

`pty_master_init` turns all input processing of the master off, and no `ioctl` turns it on again, since those on the
master act on the slave. So `tty_input` is in its raw branch, `tty_read` has `VMIN` 1 and `VTIME` 0, and no byte of the
master's buffer has a flag. The master is not in packet mode.

A call is cut where it does not hold the master's lock.
-/

namespace Ish.Pty

/-- The errors of the calls. -/
inductive Errno where
  | eagain
  | eintr
  | eio
  deriving DecidableEq, Repr

/-- The size of a terminal's buffer. -/
def ttyBufSize : Nat := 4096

/-- The output flags of the slave. -/
structure OFlags where
  opost : Bool
  onlret : Bool
  ocrnl : Bool
  onlcr : Bool
  deriving DecidableEq, Repr

/-- The loop of `tty_write` over its buffer. -/
def postprocess (o : OFlags) : List UInt8 → List UInt8
  | [] => []
  | ch :: rest =>
    if ch = 13 ∧ o.onlret then postprocess o rest
    else if ch = 13 ∧ o.ocrnl then 10 :: postprocess o rest
    else if ch = 10 ∧ o.onlcr then 13 :: ch :: postprocess o rest
    else ch :: postprocess o rest

/-- Where a thread is in a call. -/
inductive Phase where
  | idle
  /-- `tty_write` has released the slave's lock; `post` is what it is going to write for `buf` -/
  | ready (buf post : List UInt8) (blocking : Bool)
  /-- `tty_input` waits for room; `done` bytes are in the master's buffer, `rest` are not -/
  | pushing (buf : List UInt8) (done : Nat) (rest : List UInt8)
  /-- `tty_read` is before its loop -/
  | reading (size : Nat) (nonblock : Bool)
  /-- `tty_read` waits for input -/
  | waiting (size : Nat)
  deriving DecidableEq, Repr

/-- A master with its slave, the calls in progress, and what they have returned so far. -/
structure State (Tid : Type) where
  /-- the first `bufsize` bytes of the master's `buf` -/
  buf : List UInt8
  /-- `hung_up` of the master -/
  hungUp : Bool
  /-- `refcount` of the slave; the master has one of the references -/
  refcount : Nat
  /-- `ever_opened` of the slave -/
  everOpened : Bool
  /-- the slave is the controlling terminal of a session, which then has a reference -/
  session : Bool
  /-- the open descriptors of the slave -/
  fds : Nat
  oflags : OFlags
  threads : Tid → Phase
  /-- what the reads of the master have returned -/
  delivered : List UInt8
  /-- what the writes of the slave have reported as written -/
  reported : List UInt8
  /-- a read of the master has returned end of file or `EIO` -/
  ended : Bool

variable {Tid : Type}

/-- After `pty_master_init`. -/
def State.init (oflags : OFlags) : State Tid :=
  ⟨[], false, 1, false, false, 0, oflags, fun _ => .idle, [], [], false⟩

/-- `pty_is_half_closed_master`; the slave is hung up only when the master is gone. -/
def State.halfClosed (st : State Tid) : Bool := st.everOpened && st.refcount == 1

/-- The raw loop of `tty_input` up to where the buffer is full. -/
def pushAll (buf : List UInt8) : List UInt8 → List UInt8 × List UInt8
  | [] => (buf, [])
  | ch :: rest => if ttyBufSize ≤ buf.length then (buf, ch :: rest) else pushAll (buf ++ [ch]) rest

/-- What `tty_input` returns: the bytes written, or an error if there are none. -/
def ttyInputRet (doneSize : Nat) (err : Except Errno Nat) : Except Errno Nat :=
  if 0 < doneSize then .ok doneSize else err

/-- What `tty_write` returns: its own size whenever the driver's `write` did not fail. -/
def ttyWriteRet (bufsize : Nat) : Except Errno Nat → Except Errno Nat
  | .error e => .error e
  | .ok _ => .ok bufsize

/-- The bytes that a return value says were written. -/
def reportedOf (buf : List UInt8) : Except Errno Nat → List UInt8
  | .error _ => []
  | .ok n => buf.take n

/-- The steps. -/
inductive Act (Tid : Type) where
  /-- the slave is opened; it may be locked, and it may become the controlling terminal of a session -/
  | openSlave (locked ctty : Bool)
  | closeSlave
  /-- `tty_write` up to where it releases the slave's lock -/
  | write (t : Tid) (buf : List UInt8) (blocking : Bool)
  /-- `tty_input` -/
  | input (t : Tid)
  /-- `wait_for` in `tty_input` returns -/
  | wakeWriter (t : Tid) (intr : Bool)
  /-- `tty_read` up to its loop; `background` is the error of `tty_signal_if_background`, `EIO` if `SIGTTIN` is ignored -/
  | read (t : Tid) (size : Nat) (nonblock : Bool) (background : Option Errno)
  /-- the loop of `tty_read` -/
  | readLoop (t : Tid)
  /-- `wait_for` in `tty_read` is interrupted -/
  | interruptReader (t : Tid)
  deriving DecidableEq

/-- `tty_get` and `tty_device_open` of the slave; a slave that is locked is released again. -/
def State.openSlave (st : State Tid) (locked ctty : Bool) : State Tid :=
  if locked then { st with everOpened := true }
  else if ctty && !st.session then
    { st with refcount := st.refcount + 2, everOpened := true, fds := st.fds + 1, session := true }
  else { st with refcount := st.refcount + 1, everOpened := true, fds := st.fds + 1 }

/-- `tty_close` of the slave: `pty_slave_close` hangs the master up if this was the last descriptor. -/
def State.closeSlave (st : State Tid) : State Tid :=
  if st.fds = 0 then st
  else
    { st with
      hungUp := st.hungUp || (st.refcount - 1 == if st.session then 2 else 1)
      refcount := st.refcount - 1
      fds := st.fds - 1 }

variable [DecidableEq Tid]

/-- A thread goes on in its call. -/
def State.setPhase (st : State Tid) (t : Tid) (p : Phase) : State Tid :=
  { st with threads := Function.update st.threads t p }

/-- The first part of `tty_write`. -/
def State.ttyWrite (st : State Tid) (t : Tid) (buf : List UInt8) (blocking : Bool) : State Tid :=
  match st.threads t with
  | .idle =>
    if st.fds = 0 then st
    else st.setPhase t (.ready buf (if st.oflags.opost then postprocess st.oflags buf else buf) blocking)
  | _ => st

/-- `tty_write` returns. -/
def State.finishWrite (st : State Tid) (t : Tid) (buf : List UInt8) (r : Except Errno Nat) : State Tid :=
  { st with
    reported := st.reported ++ reportedOf buf (ttyWriteRet buf.length r)
    threads := Function.update st.threads t .idle }

/-- The loop of `tty_input`, with `done` bytes written and `rest` to be written. -/
def State.inputLoop (st : State Tid) (t : Tid) (buf : List UInt8) (done : Nat) (rest : List UInt8) (blocking : Bool) :
    State Tid :=
  let (buf', rest') := pushAll st.buf rest
  let done' := done + (rest.length - rest'.length)
  let st' := { st with buf := buf' }
  if rest' = [] then st'.finishWrite t buf (ttyInputRet done' (.ok 0))
  else if blocking then st'.setPhase t (.pushing buf done' rest')
  else st'.finishWrite t buf (ttyInputRet done' (.error .eagain))

/-- `tty_input` on the master -/
def State.ttyInput (st : State Tid) (t : Tid) : State Tid :=
  match st.threads t with
  | .ready buf post blocking => st.inputLoop t buf 0 post blocking
  | _ => st

/-- `tty_input` goes on, or is interrupted. -/
def State.wakeWriter (st : State Tid) (t : Tid) (intr : Bool) : State Tid :=
  match st.threads t with
  | .pushing buf done rest =>
    if intr then st.finishWrite t buf (ttyInputRet done (.error .eintr)) else st.inputLoop t buf done rest true
  | _ => st

/-- `tty_read` on the master, up to its loop. The read returns 0 if it is told that the slave is gone, and `EIO` to a
reader in the background that does not take `SIGTTIN`. -/
def State.ttyRead (st : State Tid) (t : Tid) (size : Nat) (nonblock : Bool) (background : Option Errno) : State Tid :=
  match st.threads t with
  | .idle =>
    if size = 0 then st
    else if st.hungUp || st.halfClosed then { st with ended := true }
    else if background = some .eio then { st with ended := true }
    else if background.isSome then st
    else st.setPhase t (.reading size nonblock)
  | _ => st

/-- The loop of `tty_read` and what follows it. -/
def State.readLoop (st : State Tid) (t : Tid) (size : Nat) (nonblock : Bool) : State Tid :=
  match st.buf with
  | [] =>
    if st.halfClosed then { st.setPhase t .idle with ended := true }
    else if nonblock then st.setPhase t .idle
    else st.setPhase t (.waiting size)
  | _ :: _ =>
    { st with
      buf := st.buf.drop size
      delivered := st.delivered ++ st.buf.take size
      threads := Function.update st.threads t .idle }

/-- `tty_read` goes on with its loop. -/
def State.resumeRead (st : State Tid) (t : Tid) : State Tid :=
  match st.threads t with
  | .reading size nonblock => st.readLoop t size nonblock
  | .waiting size => st.readLoop t size false
  | _ => st

/-- `tty_read` returns `EINTR`. -/
def State.interruptReader (st : State Tid) (t : Tid) : State Tid :=
  match st.threads t with
  | .waiting _ => st.setPhase t .idle
  | _ => st

/-- A step of a thread or of the system; what cannot happen changes nothing. -/
def State.step (st : State Tid) : Act Tid → Option (State Tid)
  | .openSlave locked ctty => some (st.openSlave locked ctty)
  | .closeSlave => some st.closeSlave
  | .write t buf blocking => some (st.ttyWrite t buf blocking)
  | .input t => some (st.ttyInput t)
  | .wakeWriter t intr => some (st.wakeWriter t intr)
  | .read t size nonblock background => some (st.ttyRead t size nonblock background)
  | .readLoop t => some (st.resumeRead t)
  | .interruptReader t => some (st.interruptReader t)

end Ish.Pty
