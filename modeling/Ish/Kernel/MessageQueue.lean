import Mathlib

/-!
# POSIX message queues

`sys_mq_open`, `sys_mq_unlink`, `sys_mq_timedsend`, `sys_mq_timedreceive` and the operations of a queue's
descriptor (`mqfd_read`, `mqfd_write`, `mqfd_close`) of `kernel/ipc.c`.

A call is cut where it does not hold `shm_lock`: after `f_get`, which takes no reference to the descriptor, after
`fd->data` is read, before the lock is taken, and in `wait_for`. The memory of a queue is not given out a second time,
so that an access to a queue that was freed is seen: the step is then `none`, as it is if `fd->data` is read from a
descriptor that was freed.
-/

namespace Ish.MessageQueue

/-- The errors of the calls. -/
inductive Errno where
  | eagain
  | ebadf
  | eexist
  | efault
  | einval
  | eintr
  | emfile
  | emsgsize
  | enoent
  | enomem
  deriving DecidableEq, Repr

/-- `struct mq_message` -/
structure MqMessage where
  prio : UInt32
  data : List UInt8
  deriving DecidableEq, Repr

/-- `struct mq_queue`. Of `flags` there is `O_NONBLOCK` only. -/
structure MqQueue where
  name : List UInt8
  unlinked : Bool
  openCount : Nat
  nonblock : Bool
  maxmsg : Int
  msgsize : Int
  curmsgs : Int
  messages : List MqMessage
  /-- the memory has been given back -/
  freed : Bool
  deriving DecidableEq, Repr

/-- A call on an open queue: `sys_mq_timedsend`, `sys_mq_timedreceive`, `mqfd_write` and `mqfd_read`. -/
inductive Call where
  | timedsend (prio : UInt32) (data : List UInt8)
  | timedreceive (len : Nat)
  | write (data : List UInt8)
  | read (len : Nat)
  deriving DecidableEq, Repr

/-- Where a thread is in a call. -/
inductive Phase where
  /-- in no call; the last one returned `ret` -/
  | idle (ret : Except Errno Nat)
  /-- `sys_mq_open` has released the lock to read the attributes -/
  | attr (name : List UInt8) (nonblock : Bool)
  /-- `sys_mq_open` has a reference and makes the descriptor -/
  | opened (nonblock : Bool)
  /-- has the descriptor from `f_get` and, for a send, a copy of the message or an error -/
  | got (files fd : Nat) (c : Except Errno Call)
  /-- the same, but the descriptor was freed since -/
  | stale (c : Except Errno Call)
  /-- has the queue from its descriptor, without the lock -/
  | holds (q : Nat) (c : Call)
  /-- `mqfd_write` has compared the size with `msgsize`, still without the lock -/
  | checked (q : Nat) (c : Call)
  /-- in `wait_for` -/
  | waits (q : Nat) (c : Call)

/-- What `open_count` counts: a descriptor in a table, or an `mq_open` that is about to make one. -/
inductive Ref (Tid : Type) where
  | slot (files fd : Nat)
  | opening (t : Tid)
  deriving DecidableEq

/-- The queues, the references to them, and the calls in progress. -/
structure State (Tid : Type) where
  heap : Nat → Option MqQueue
  /-- where the next `calloc` is -/
  fresh : Nat
  /-- `mq_queues` -/
  mqQueues : List Nat
  /-- the queue a reference is to; that of a descriptor is its `fd->data` -/
  refs : Ref Tid → Option Nat
  threads : Tid → Phase

variable {Tid : Type}

/-- No queue was ever made. -/
def State.init : State Tid := ⟨fun _ => none, 0, [], fun _ => none, fun _ => .idle (.ok 0)⟩

/-- The memory of a queue is read or written. -/
def State.access (st : State Tid) (q : Nat) : Option MqQueue :=
  (st.heap q).filter fun m => !m.freed

/-- The memory of a queue is changed. -/
def State.setQueue (st : State Tid) (q : Nat) (m : MqQueue) : State Tid :=
  { st with heap := Function.update st.heap q (some m) }

/-- `mq_find_name` from an element of the list on. -/
def State.mqFindName (st : State Tid) (name : List UInt8) : List Nat → Option (Option Nat)
  | [] => some none
  | q :: rest =>
    (st.access q).bind fun m =>
      if !m.unlinked && m.name = name then some (some q) else st.mqFindName name rest

/-- `mq_maybe_free_unlocked`; the list is followed up to the queue. -/
def State.mqMaybeFreeUnlocked (st : State Tid) (q : Nat) : Option (State Tid) :=
  (st.access q).bind fun m =>
    if !m.unlinked || m.openCount > 0 then some st
    else
      ((st.mqQueues.takeWhile (· ≠ q)).mapM st.access).map fun _ =>
        { st.setQueue q { m with messages := [], freed := true } with mqQueues := st.mqQueues.erase q }

/-- Where `sys_mq_timedsend` puts a message: behind those of the same or a higher priority. -/
def insertMessage (msg : MqMessage) : List MqMessage → List MqMessage
  | [] => [msg]
  | m :: rest => if m.prio ≥ msg.prio then m :: insertMessage msg rest else msg :: m :: rest

/-- What a turn of a call does with the messages: one is put into the queue, or the first is taken out of it. -/
inductive Moved where
  | nothing
  | sent (msg : MqMessage)
  | received (msg : MqMessage)
  deriving DecidableEq, Repr

/-- The end of a call that finds the queue full or empty; it waits if it may. -/
def MqQueue.wouldBlock (m : MqQueue) : Option (MqQueue × Moved × Except Errno Nat) :=
  if m.nonblock then some (m, .nothing, .error .eagain) else none

/-- The end of a call that takes the first message into a buffer of `len` bytes. -/
def MqQueue.receive (m : MqQueue) (len : Nat) (r : Nat → Except Errno Nat) :
    Option (MqQueue × Moved × Except Errno Nat) :=
  match m.messages with
  | [] => m.wouldBlock
  | msg :: rest =>
    if len < msg.data.length then some (m, .nothing, .error .emsgsize)
    else some ({ m with messages := rest, curmsgs := m.curmsgs - 1 }, .received msg, r msg.data.length)

/-- The loop of a call and what follows it, under the lock; `none` if the call has to wait. `copied` says
whether the guest's memory takes the message. -/
def MqQueue.attempt (m : MqQueue) (copied : Bool) : Call → Option (MqQueue × Moved × Except Errno Nat)
  | .timedsend prio data =>
    if m.curmsgs ≥ m.maxmsg then m.wouldBlock
    else
      some ({ m with messages := insertMessage ⟨prio, data⟩ m.messages, curmsgs := m.curmsgs + 1 },
        .sent ⟨prio, data⟩, .ok 0)
  | .timedreceive len => m.receive len fun size => if copied then .ok size else .error .efault
  | .write data =>
    if m.curmsgs ≥ m.maxmsg then m.wouldBlock
    else
      some ({ m with messages := m.messages ++ [⟨0, data⟩], curmsgs := m.curmsgs + 1 },
        .sent ⟨0, data⟩, .ok data.length)
  | .read len => m.receive len .ok

/-- The size of a message is too large for the queue; `sys_mq_timedsend` looks under the lock. -/
def MqQueue.tooLong (m : MqQueue) : Call → Bool
  | .timedsend _ data | .write data => m.msgsize < data.length
  | .timedreceive _ | .read _ => false

/-- What `adhoc_fd_create` and `f_install` say. -/
inductive Installed where
  | noMemory
  | noSlot
  | slot (files fd : Nat)
  deriving DecidableEq, Repr

/-- The flags of `mq_open` that are looked at. -/
structure OFlag where
  creat : Bool
  excl : Bool
  nonblock : Bool
  deriving DecidableEq, Repr

/-- The steps. -/
inductive Act (Tid : Type) where
  /-- `sys_mq_open` up to where the lock is released; `name` is `none` if it cannot be read, `attr` says whether
  there are attributes to read -/
  | mqOpen (t : Tid) (name : Option (List UInt8)) (oflag : OFlag) (attr mem : Bool)
  /-- `sys_mq_open` with the `maxmsg` and `msgsize` it has read -/
  | readAttr (t : Tid) (attr : Option (Int × Int)) (mem : Bool)
  /-- the end of `sys_mq_open` -/
  | install (t : Tid) (r : Installed)
  | mqUnlink (name : Option (List UInt8))
  | close (files fd : Nat)
  /-- `f_get` of a call, and the message to send is copied, which may fail -/
  | call (t : Tid) (files fd : Nat) (c : Except Errno Call)
  /-- the call reads `fd->data` -/
  | fetch (t : Tid)
  /-- `mqfd_write` compares the size -/
  | check (t : Tid)
  /-- the call takes the lock -/
  | lock (t : Tid) (copied : Bool)
  /-- `wait_for` returns -/
  | wake (t : Tid) (err : Option Errno) (copied : Bool)

variable [DecidableEq Tid]

/-- A thread goes on in its call. -/
def State.setPhase (st : State Tid) (t : Tid) (p : Phase) : State Tid :=
  { st with threads := Function.update st.threads t p }

/-- A reference is set or cleared. -/
def State.setRef (st : State Tid) (x : Ref Tid) (q : Option Nat) : State Tid :=
  { st with refs := Function.update st.refs x q }

/-- A call returns. -/
def State.ret (st : State Tid) (t : Tid) (r : Except Errno Nat) : State Tid := st.setPhase t (.idle r)

/-- `sys_mq_open` makes a queue with one reference. -/
def State.create (st : State Tid) (t : Tid) (name : List UInt8) (nonblock : Bool) (attr : Int × Int) (mem : Bool) :
    State Tid :=
  if attr.1 ≤ 0 ∨ attr.2 ≤ 0 then st.ret t (.error .einval)
  else if !mem then st.ret t (.error .enomem)
  else
    { heap := Function.update st.heap st.fresh
        (some ⟨name, false, 1, nonblock, attr.1, attr.2, 0, [], false⟩)
      fresh := st.fresh + 1
      mqQueues := st.fresh :: st.mqQueues
      refs := Function.update st.refs (.opening t) (some st.fresh)
      threads := Function.update st.threads t (.opened nonblock) }

/-- `sys_mq_open` of a queue that exists. -/
def State.reopen (st : State Tid) (t : Tid) (q : Nat) (nonblock : Bool) : Option (State Tid) :=
  (st.access q).map fun m =>
    ((st.setQueue q { m with openCount := m.openCount + 1, nonblock }).setRef (.opening t) (some q)).setPhase t
      (.opened nonblock)

/-- The locked part of `sys_mq_open`. -/
def State.mqOpen (st : State Tid) (t : Tid) (name : List UInt8) (oflag : OFlag) (attr mem : Bool) :
    Option (State Tid) :=
  (st.mqFindName name st.mqQueues).bind fun
    | some q => if oflag.creat && oflag.excl then some (st.ret t (.error .eexist)) else st.reopen t q oflag.nonblock
    | none =>
      if !oflag.creat then some (st.ret t (.error .enoent))
      else if attr then some (st.setPhase t (.attr name oflag.nonblock))
      else some (st.create t name oflag.nonblock (10, 8192) mem)

/-- `mqfd_close`, and the reference is gone. -/
def State.mqfdClose (st : State Tid) (x : Ref Tid) (q : Nat) : Option (State Tid) :=
  (st.access q).bind fun m =>
    ((st.setQueue q { m with openCount := m.openCount - 1 }).mqMaybeFreeUnlocked q).map (·.setRef x none)

/-- The descriptor of `sys_mq_open` is put into the table; `f_install` sets `O_NONBLOCK` again. -/
def State.install (st : State Tid) (t : Tid) (q : Nat) (nonblock : Bool) : Installed → Option (State Tid)
  | .noMemory => (st.mqfdClose (.opening t) q).map (·.ret t (.error .enomem))
  | .noSlot => (st.mqfdClose (.opening t) q).map (·.ret t (.error .emfile))
  | .slot files fd =>
    if (st.refs (.slot files fd)).isSome then some st
    else
      (st.access q).map fun m =>
        let st := if nonblock then st.setQueue q { m with nonblock := true } else st
        ((st.setRef (.opening t) none).setRef (.slot files fd) (some q)).ret t (.ok fd)

/-- `sys_mq_unlink` -/
def State.mqUnlink (st : State Tid) (name : List UInt8) : Option (State Tid × Except Errno Nat) :=
  (st.mqFindName name st.mqQueues).bind fun
    | none => some (st, .error .enoent)
    | some q =>
      (st.access q).bind fun m =>
        ((st.setQueue q { m with unlinked := true }).mqMaybeFreeUnlocked q).map fun st => (st, .ok 0)

/-- The loop of a call, under the lock. -/
def State.attempt (st : State Tid) (t : Tid) (q : Nat) (m : MqQueue) (c : Call) (copied : Bool) : State Tid :=
  match m.attempt copied c with
  | none => st.setPhase t (.waits q c)
  | some (m', _, r) => (st.setQueue q m').ret t r

/-- `sys_mq_open`, called by a thread that is in no other call. -/
def State.sysMqOpen (st : State Tid) (t : Tid) (name : Option (List UInt8)) (oflag : OFlag) (attr mem : Bool) :
    Option (State Tid) :=
  match st.threads t with
  | .idle _ =>
    match name with
    | none => some (st.ret t (.error .efault))
    | some [] => some (st.ret t (.error .einval))
    | some (c :: name) => st.mqOpen t (c :: name) oflag attr mem
  | _ => some st

/-- `sys_mq_open` goes on with the attributes. -/
def State.sysMqOpenAttr (st : State Tid) (t : Tid) (attr : Option (Int × Int)) (mem : Bool) : State Tid :=
  match st.threads t with
  | .attr name nonblock =>
    match attr with
    | none => st.ret t (.error .efault)
    | some attr => st.create t name nonblock attr mem
  | _ => st

/-- `sys_mq_open` makes its descriptor. -/
def State.sysMqOpenInstall (st : State Tid) (t : Tid) (r : Installed) : Option (State Tid) :=
  match st.threads t with
  | .opened nonblock =>
    match st.refs (.opening t) with
    | none => some st
    | some q => st.install t q nonblock r
  | _ => some st

/-- `sys_mq_unlink` with the name it could read. -/
def State.sysMqUnlink (st : State Tid) : Option (List UInt8) → Option (State Tid × Except Errno Nat)
  | none => some (st, .error .efault)
  | some name => st.mqUnlink name

/-- A descriptor is freed: a call that has it from `f_get` has a pointer to freed memory. -/
def Phase.freeFd (files fd : Nat) : Phase → Phase
  | .got files' fd' c => if files' = files ∧ fd' = fd then .stale c else .got files' fd' c
  | p => p

/-- `close` of a queue's descriptor. -/
def State.sysClose (st : State Tid) (files fd : Nat) : Option (State Tid × Except Errno Nat) :=
  match st.refs (.slot files fd) with
  | none => some (st, .error .ebadf)
  | some q =>
    (st.mqfdClose (.slot files fd) q).map fun st =>
      ({ st with threads := fun t => (st.threads t).freeFd files fd }, .ok 0)

/-- The start of a call: `f_get`, and the message is copied. -/
def State.enter (st : State Tid) (t : Tid) (files fd : Nat) (c : Except Errno Call) : State Tid :=
  match st.threads t with
  | .idle _ =>
    match st.refs (.slot files fd) with
    | none => st.ret t (.error .ebadf)
    | some _ => st.setPhase t (.got files fd c)
  | _ => st

/-- The queue is taken from the descriptor, unless the message could not be copied. -/
def State.fetch (st : State Tid) (t : Tid) : Option (State Tid) :=
  match st.threads t with
  | .got _ _ (.error e) | .stale (.error e) => some (st.ret t (.error e))
  | .got files fd (.ok c) => (st.refs (.slot files fd)).map fun q => st.setPhase t (.holds q c)
  | .stale (.ok _) => none
  | _ => some st

/-- `mqfd_write` compares the size of its message. -/
def State.check (st : State Tid) (t : Tid) : Option (State Tid) :=
  match st.threads t with
  | .holds q (.write data) =>
    (st.access q).map fun m =>
      if m.tooLong (.write data) then st.ret t (.error .emsgsize) else st.setPhase t (.checked q (.write data))
  | _ => some st

/-- `sys_mq_timedsend` compares the size under the lock, before the loop. -/
def State.attemptChecked (st : State Tid) (t : Tid) (q : Nat) (m : MqQueue) (c : Call) (copied : Bool) : State Tid :=
  if m.tooLong c then st.ret t (.error .emsgsize) else st.attempt t q m c copied

/-- The call takes the lock. -/
def State.lock (st : State Tid) (t : Tid) (copied : Bool) : Option (State Tid) :=
  match st.threads t with
  | .holds _ (.write _) => some st
  | .holds q c => (st.access q).map fun m => st.attemptChecked t q m c copied
  | .checked q c => (st.access q).map fun m => st.attempt t q m c copied
  | _ => some st

/-- `wait_for` returns, with an error or not. -/
def State.wake (st : State Tid) (t : Tid) (err : Option Errno) (copied : Bool) : Option (State Tid) :=
  match st.threads t with
  | .waits q c =>
    match err with
    | some e => some (st.ret t (.error e))
    | none => (st.access q).map fun m => st.attempt t q m c copied
  | _ => some st

/-- A step of a thread or of the system. What cannot happen changes nothing; `none` is an access to a queue or a
descriptor that was freed. -/
def State.step (st : State Tid) : Act Tid → Option (State Tid)
  | .mqOpen t name oflag attr mem => st.sysMqOpen t name oflag attr mem
  | .readAttr t attr mem => some (st.sysMqOpenAttr t attr mem)
  | .install t r => st.sysMqOpenInstall t r
  | .mqUnlink name => (st.sysMqUnlink name).map (·.1)
  | .close files fd => (st.sysClose files fd).map (·.1)
  | .call t files fd c => some (st.enter t files fd c)
  | .fetch t => st.fetch t
  | .check t => st.check t
  | .lock t copied => st.lock t copied
  | .wake t err copied => st.wake t err copied

end Ish.MessageQueue
