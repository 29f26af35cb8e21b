import Ish.Lib.Bytes
import Ish.Lib.Framing

/-!
# The wire protocol of the embedding

The framing of `embed/protocol/src/lib.rs`: a frame is the length of its payload in four little-endian bytes
and the payload, which `postcard` makes of a value. `postcard` is a parameter.
-/

namespace Ish.Embed

open Lib

def maxFrameBytes : Nat := 8 * 1024 * 1024

/-- Why a frame is refused. -/
inductive FrameError where
  | truncated
  | lengthOverflow
  | decode
  deriving DecidableEq, Repr

/-- `postcard::to_allocvec` and `postcard::from_bytes` for a type. -/
structure Postcard (T : Type) where
  toAllocvec : T → Option (List UInt8)
  fromBytes : List UInt8 → Option T

/-- `usize::checked_add` -/
def checkedAdd (a b : Nat) : Option Nat := if a + b < 2 ^ 64 then some (a + b) else none

variable {T : Type}

/-- `try_decode_frame`: the value and how many bytes it takes; `none` if there are not enough. -/
def tryDecodeFrame (P : Postcard T) (buf : List UInt8) : Except FrameError (Option (T × Nat)) :=
  if buf.length < 4 then .ok none
  else
    let len := leNat (buf.take 4)
    if maxFrameBytes < len then .error .lengthOverflow
    else
      match checkedAdd 4 len with
      | none => .error .lengthOverflow
      | some total =>
        if buf.length < total then .ok none
        else
          match P.fromBytes ((buf.take total).drop 4) with
          | none => .error .decode
          | some value => .ok (some (value, total))

/-- `encode_frame`; the length is cut to 32 bits. -/
def encodeFrame (P : Postcard T) (value : T) : Option (List UInt8) :=
  (P.toAllocvec value).map fun payload => leBytes 4 (payload.length % 2 ^ 32) ++ payload

end Ish.Embed
