import Mathlib

/-!
# Input for a session

The `Write` frames of `handle_request` in `embed/supervisor/src/main.rs`, with `stdin_target` and the descriptors that
`spawn` gives a session. A frame is written in a loop over the answers of the kernel, and what the loop has not written
when it ends is dropped.
-/

namespace Ish.Embed

/-- Where input goes: the write end of a pipe, or the master of a terminal, which is set not to block. -/
inductive Target where
  | pipe
  | master
  deriving DecidableEq, Repr

/-- `stdin_target`, for the options of `spawn`. -/
def stdinTarget (tty pipeStdin : Bool) : Option Target :=
  if tty then some .master else if pipeStdin then some .pipe else none

/-- What `write` of the kernel says. -/
inductive WriteAnswer where
  | wrote (n : ℕ)
  | eintr
  /-- the child has closed its input -/
  | epipe
  /-- `EAGAIN` or another error -/
  | eagain
  deriving DecidableEq, Repr

/-- The loop over the bytes of a frame: those that are written. -/
def writeLoop {α : Type} : List α → List WriteAnswer → List α
  | [], _ => []
  -- the supervisor is still in `write`
  | _ :: _, [] => []
  | b :: bs, .wrote n :: as => (b :: bs).take n ++ writeLoop ((b :: bs).drop n) as
  | b :: bs, .eintr :: as => writeLoop (b :: bs) as
  | _ :: _, .epipe :: _ => []
  | _ :: _, .eagain :: _ => []

/-- A `Write` frame and what the kernel answers to its bytes. -/
structure WriteFrame (α : Type) where
  bytes : List α
  answers : List WriteAnswer

/-- What the frames of a session write, one after the other. -/
def handleWrites {α : Type} (target : Option Target) (frames : List (WriteFrame α)) : List α :=
  match target with
  | none => []
  | some _ => (frames.map fun f => writeLoop f.bytes f.answers).flatten

end Ish.Embed
