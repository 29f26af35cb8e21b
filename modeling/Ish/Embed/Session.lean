import Mathlib

/-!
# Sessions of the embedding host

`SessionInner` and `try_collect` of `embed/host/src/session.rs`, and `dispatch`, `reader_loop` and
`drain_to_completion_streaming` of `embed/host/src/instance.rs`, for one session and the thread that runs
`run_oneshot` on it.

The thread of the reader handles one frame in a step. The other thread takes a step at a time between the
points where it can wait or look at the clock; whether a deadline has passed is a part of its step.
`try_collect` is one step: it holds the lock of the buffer while it looks at the state, and the reader writes
both in the order of the frames. A wait ends when it is notified or when its time is over, so that it can end
at any time. `Reading` is `read` with the notifications it waits for. Sequence numbers do not wrap around, but the
`after` of a reader may be any number of 64 bits.
-/

namespace Ish.Embed

/-- Where output comes from. -/
inductive Stream where
  | stdout
  | stderr
  | pty
  deriving DecidableEq, Repr

/-- What the supervisor says. -/
inductive SupervisorToHost where
  | ready (protocolVersion : Nat)
  | opened (reqid : Nat) (pid : Int)
  | output (reqid seq : Nat) (stream : Stream) (bytes : List UInt8)
  | exited (reqid : Nat) (exitCode termSignal : Int)
  | closed (reqid : Nat)
  | err (reqid : Option Nat) (code : Nat) (msg : String)
  deriving DecidableEq, Repr

/-- A piece of output. -/
structure OutputChunk where
  seq : Nat
  stream : Stream
  bytes : List UInt8
  deriving DecidableEq, Repr

/-- The output kept for readers. -/
structure RetainedBuf where
  chunks : List OutputChunk
  bytes : Nat
  /-- the smallest number that is still held -/
  floor : Nat
  /-- the next number that the supervisor will give -/
  next : Nat

/-- Where a session is. -/
structure SessionState where
  pid : Option Int
  opened : Bool
  exited : Bool
  exitCode : Option Int
  termSignal : Option Int
  closed : Bool
  failure : Option String

/-- `SessionInner` -/
structure Session where
  state : SessionState
  retained : RetainedBuf

/-- `DEFAULT_RETAINED_BYTES` -/
def retainedCapacity : Nat := 1024 * 1024

/-- `SessionInner::new` -/
def Session.new : Session where
  state := ⟨none, false, false, none, none, false, none⟩
  retained := ⟨[], 0, 1, 1⟩

def Session.onOpened (s : Session) (pid : Int) : Session :=
  { s with state := { s.state with pid := some pid, opened := true } }

/-- The loop that drops the oldest chunks. -/
def evict : List OutputChunk → Nat → Nat → List OutputChunk × Nat × Nat
  | [], bytes, floor => ([], bytes, floor)
  | c :: cs, bytes, floor =>
    if retainedCapacity < bytes then evict cs (bytes - c.bytes.length) (c.seq + 1) else (c :: cs, bytes, floor)

def Session.onOutput (s : Session) (seq : Nat) (stream : Stream) (bytes : List UInt8) : Session :=
  if seq < s.retained.next then s
  else
    let r := evict (s.retained.chunks ++ [⟨seq, stream, bytes⟩]) (s.retained.bytes + bytes.length) s.retained.floor
    { s with retained := ⟨r.1, r.2.1, r.2.2, seq + 1⟩ }

def Session.onExited (s : Session) (exitCode termSignal : Int) : Session :=
  { s with state := { s.state with exited := true, exitCode := some exitCode, termSignal := some termSignal } }

def Session.onClosed (s : Session) : Session :=
  { s with state := { s.state with closed := true, exited := true } }

def Session.onFailed (s : Session) (message : String) : Session :=
  { s with state := { s.state with failure := some message, exited := true } }

/-! ### Reading -/

/-- What `read` returns. -/
structure ReadOutput where
  chunks : List OutputChunk
  nextSeq : Nat
  exited : Bool
  exitCode : Option Int
  termSignal : Option Int
  closed : Bool
  missedOlderBytes : Bool

/-- The loop of `try_collect`; `any` says whether a chunk was taken already. -/
def takePage (after cap : Nat) : Nat → Bool → List OutputChunk → List OutputChunk
  | _, _, [] => []
  | taken, any, c :: cs =>
    if c.seq ≤ after then takePage after cap taken any cs
    else if cap < taken + c.bytes.length ∧ any = true then []
    else if cap ≤ taken + c.bytes.length then [c]
    else c :: takePage after cap (taken + c.bytes.length) true cs

def Session.tryCollect (s : Session) (after cap : Nat) : ReadOutput where
  chunks := takePage after cap 0 false s.retained.chunks
  nextSeq := s.retained.next
  exited := s.state.exited
  exitCode := s.state.exitCode
  termSignal := s.state.termSignal
  closed := s.state.closed
  missedOlderBytes := (after + 1) % 0x10000000000000000 < s.retained.floor

/-- What records something. -/
inductive Call where
  | output (c : OutputChunk)
  | exited (exitCode termSignal : Int)
  | closed
  | failed (message : String)

def Session.record (s : Session) : Call → Session
  | .output c => s.onOutput c.seq c.stream c.bytes
  | .exited exitCode termSignal => s.onExited exitCode termSignal
  | .closed => s.onClosed
  | .failed message => s.onFailed message

/-- `on_output` returns early if the number is not new. -/
def Session.notifies (s : Session) : Call → Bool
  | .output c => s.retained.next ≤ c.seq
  | _ => true

/-- Output after `after`, or the end, is recorded. -/
def Session.recorded (s : Session) (after : Nat) : Bool :=
  s.retained.chunks.any (fun c => after < c.seq) || s.state.closed

/-- Where a `read` is. -/
inductive ReadPc where
  /-- before `try_collect` -/
  | look
  /-- nothing was there, and `notified()` is not yet called -/
  | idle
  /-- in the wait for the future -/
  | sleep (notified : Bool)
  | returned
  deriving DecidableEq, Repr

/-- `read` and the calls that have recorded something and have yet to notify. -/
structure Reading where
  session : Session
  /-- those that recorded before the last look -/
  older : Nat
  /-- those that recorded after it -/
  newer : Nat
  pc : ReadPc

/-- The steps of `read`, and those of a call: it records and later notifies; `recent` is for one of `newer`. -/
inductive ReadAct where
  | record (c : Call)
  | notify (recent : Bool)
  | look
  | create (expired : Bool)
  | wake
  | timeout

/-- `notify_waiters` wakes the futures that exist. -/
def ReadPc.notify : ReadPc → ReadPc
  | .sleep _ => .sleep true
  | pc => pc

/-- A step of `read(after, cap, wait_ms)` or of a call. -/
def Reading.step (after cap : Nat) (r : Reading) : ReadAct → Option Reading
  | .record c => some { r with session := r.session.record c, newer := r.newer + (r.session.notifies c).toNat }
  | .notify true => if 0 < r.newer then some { r with newer := r.newer - 1, pc := r.pc.notify } else none
  | .notify false => if 0 < r.older then some { r with older := r.older - 1, pc := r.pc.notify } else none
  | .look =>
    if r.pc = .look then
      let out := r.session.tryCollect after cap
      some ⟨r.session, r.older + r.newer, 0, if !out.chunks.isEmpty || out.closed then .returned else .idle⟩
    else none
  | .create expired =>
    if r.pc = .idle then some { r with pc := if expired then .returned else .sleep false } else none
  | .wake => if r.pc = .sleep true then some { r with pc := .look } else none
  | .timeout => if r.pc = .sleep false then some { r with pc := .look } else none

/-! ### The two threads -/

/-- Where the drain is. -/
inductive DrainPc where
  /-- at the top of its loop -/
  | top
  /-- in `read`, before the first look -/
  | first
  /-- in the loop of `read`, before it looks at the clock -/
  | wait
  /-- it waits to be notified -/
  | sleep
  /-- it has returned since the session is closed -/
  | returned (exitCode : Int)
  /-- it has returned since the time is over -/
  | timedOut
  deriving DecidableEq, Repr

/-- The drain of a session. -/
structure Drain where
  pc : DrainPc
  output : List UInt8
  nextSeq : Nat
  /-- there is a `deadline` -/
  deadline : Bool

/-- The page size of `drain_to_completion_streaming`. -/
def pageCap : Nat := 64 * 1024

/-- What the loop does with the result of `read`. -/
def Drain.use (d : Drain) (r : ReadOutput) : Drain :=
  { d with
    output := d.output ++ (r.chunks.map OutputChunk.bytes).flatten
    nextSeq := (r.chunks.getLast?.map OutputChunk.seq).getD d.nextSeq
    pc := if r.closed then .returned (r.exitCode.getD (-1)) else .top }

/-- A step of the thread; `expired` says whether the deadline it looks at has passed. -/
def Drain.step (d : Drain) (s : Session) (expired : Bool) : Drain :=
  match d.pc with
  | .top => if d.deadline && expired then { d with pc := .timedOut } else { d with pc := .first }
  | .first =>
    let r := s.tryCollect d.nextSeq pageCap
    if !r.chunks.isEmpty || r.closed then d.use r
    -- without a whole millisecond left there is no wait
    else if d.deadline && expired then d.use r
    else { d with pc := .wait }
  | .wait => if expired then { d with pc := .top } else { d with pc := .sleep }
  | .sleep =>
    let r := s.tryCollect d.nextSeq pageCap
    if !r.chunks.isEmpty || r.closed then d.use r else { d with pc := .wait }
  | .returned _ => d
  | .timedOut => d

/-- The host, as far as it is about one session. -/
structure Host where
  session : Session
  /-- the session is in the table of the instance -/
  registered : Bool
  poisoned : Bool
  /-- `reader_loop` runs -/
  reading : Bool
  drain : Drain

/-- After `spawn`. -/
def Host.init (deadline : Bool) : Host where
  session := .new
  registered := true
  poisoned := false
  reading := true
  drain := ⟨.top, [], 0, deadline⟩

/-- What a frame for the session does if it is in the table. -/
def Host.update (h : Host) (id reqid : Nat) (f : Session → Session) : Host :=
  if reqid = id ∧ h.registered = true then { h with session := f h.session } else h

/-- `dispatch`, seen from the session `id`. -/
def Host.dispatch (h : Host) (id : Nat) : SupervisorToHost → Host
  | .ready _ => h
  | .opened reqid pid => h.update id reqid (·.onOpened pid)
  | .output reqid seq stream bytes => h.update id reqid (·.onOutput seq stream bytes)
  | .exited reqid exitCode termSignal => h.update id reqid (·.onExited exitCode termSignal)
  | .closed reqid =>
    { h.update id reqid (·.onClosed) with registered := h.registered && decide (reqid ≠ id) }
  | .err (some reqid) _ msg => h.update id reqid (·.onFailed msg)
  | .err none _ msg => { h.update id id (·.onFailed msg) with poisoned := true }

/-- A step of the host. -/
inductive Act where
  | frame (f : SupervisorToHost)
  /-- the stream ends, or what is read is no frame -/
  | disconnect
  | drain (expired : Bool)
  deriving DecidableEq, Repr

/-- One step of either thread. -/
def Host.step (id : Nat) (h : Host) : Act → Option Host
  | .frame f => if h.reading then some (h.dispatch id f) else none
  | .disconnect =>
    if h.reading then
      some { h.update id id (·.onFailed "supervisor disconnected") with poisoned := true, reading := false }
    else none
  | .drain expired => some { h with drain := h.drain.step h.session expired }

end Ish.Embed
