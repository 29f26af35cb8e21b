import Mathlib
import Ish.Lib.Bytes

/-!
# Abstract socket names

`str_hash`, `unix_abstract_get` and `unix_abstract_release` of `fs/sock.c`, and what `sys_bind`,
`sys_connect` and `sock_close` do with a name whose first byte is zero.

A name is a byte string without this first zero. What the host says to `bind` is a part of the action; it
refuses a socket that is bound already. Memory for a name is not given out twice, since no socket keeps a
name that was freed.
-/

namespace Ish.AbstractSocket

open Lib

/-- Whether `char` is signed on the host, and for which socket ids the path of the backing socket, made of
`sock_tmp_prefix`, the process id and the socket id, fits into `sun_path`. -/
structure Host where
  signedChar : Bool
  pathFits : BitVec 32 → Bool

/-- A `char` as it is used in an expression with a `uint32_t`. -/
def charVal (h : Host) (c : UInt8) : BitVec 32 :=
  if h.signedChar then c.toBitVec.signExtend 32 else c.toBitVec.zeroExtend 32

def strHash (h : Host) (str : List UInt8) : BitVec 32 :=
  (cstr str).foldl (fun hash c => (33#32 * hash) ^^^ charVal h c) 5381#32

/-- `struct unix_abstract` -/
structure UnixAbstract where
  refcount : BitVec 32
  hash : BitVec 32
  socketId : BitVec 32
  deriving DecidableEq, Repr

/-- What a socket knows of its name. -/
structure Sock where
  unixNameAbstract : Option Nat
  unixName : List UInt8
  /-- the socket of the host is bound -/
  bound : Bool
  deriving DecidableEq, Repr

def abstractHashSize : Nat := 1024

/-- The names and the sockets. -/
structure State where
  names : Nat → Option UnixAbstract
  /-- `abstract_hash` -/
  buckets : Nat → List Nat
  /-- where the next `malloc` is -/
  fresh : Nat
  /-- `next_id` -/
  nextId : BitVec 32
  sockets : Nat → Option Sock

/-- No names. -/
def State.init : State := ⟨fun _ => none, fun _ => [], 0, 0#32, fun _ => none⟩

inductive Errno where
  | eexist
  | enoent
  | enomem
  | enametoolong
  /-- what the host says to `bind` -/
  | host
  deriving DecidableEq, Repr

def State.hasHash (st : State) (hash : BitVec 32) (key : Nat) : Bool :=
  match st.names key with
  | none => false
  | some e => e.hash = hash

/-- The loop over a bucket. -/
def State.lookup (st : State) (hash : BitVec 32) : Option Nat :=
  (st.buckets (hash.toNat % abstractHashSize)).find? (st.hasHash hash)

/-- A name is made and put in front of its bucket. -/
def State.create (st : State) (hash : BitVec 32) : State where
  names := Function.update st.names st.fresh (some ⟨0#32, hash, st.nextId + 1#32⟩)
  buckets := Function.update st.buckets (hash.toNat % abstractHashSize)
    (st.fresh :: st.buckets (hash.toNat % abstractHashSize))
  fresh := st.fresh + 1
  nextId := st.nextId + 1#32
  sockets := st.sockets

/-- `sock->refcount++` -/
def State.retain (st : State) (key : Nat) : State :=
  { st with names := Function.update st.names key ((st.names key).map fun e => { e with refcount := e.refcount + 1#32 }) }

/-- `unix_abstract_get`, which finds a name or makes one; `malloc` says whether there is memory. -/
def State.unixAbstractGet (h : Host) (st : State) (name : List UInt8) (bind malloc : Bool) :
    Except Errno (State × Nat) :=
  match st.lookup (strHash h name) with
  | some key => if bind then .error .eexist else .ok (st.retain key, key)
  | none =>
    if bind then
      if malloc then .ok ((st.create (strHash h name)).retain st.fresh, st.fresh) else .error .enomem
    else .error .enoent

def State.unixAbstractRelease (st : State) (key : Nat) : State :=
  match st.names key with
  | none => st
  | some e =>
    if e.refcount - 1#32 = 0#32 then
      { st with
        names := Function.update st.names key none
        buckets := Function.update st.buckets (e.hash.toNat % abstractHashSize)
          ((st.buckets (e.hash.toNat % abstractHashSize)).erase key) }
    else { st with names := Function.update st.names key (some { e with refcount := e.refcount - 1#32 }) }

def State.setSock (st : State) (s : Nat) (sock : Option Sock) : State :=
  { st with sockets := Function.update st.sockets s sock }

/-- `sys_bind` to an abstract name. A path that is too long leaves the name with the socket; what the host refuses
gives it back. -/
def State.sysBind (h : Host) (st : State) (s : Nat) (sock : Sock) (name : List UInt8) (malloc host : Bool) :
    Except Errno Unit × State :=
  match st.unixAbstractGet h name true malloc with
  | .error e => (.error e, st)
  | .ok (st, key) =>
    if !h.pathFits st.nextId then (.error .enametoolong, st.setSock s (some ⟨some key, 0 :: name, sock.bound⟩))
    else if host && !sock.bound then (.ok (), st.setSock s (some ⟨some key, 0 :: name, true⟩))
    else (.error .host, (st.unixAbstractRelease key).setSock s (some ⟨none, 0 :: name, sock.bound⟩))

/-- `sock_close` -/
def State.sockClose (st : State) (s : Nat) (sock : Sock) : State :=
  match sock.unixNameAbstract with
  | none => st.setSock s none
  | some key => (st.unixAbstractRelease key).setSock s none

/-- The system calls. -/
inductive Act where
  | socket (s : Nat)
  | bind (s : Nat) (name : List UInt8) (malloc host : Bool)
  | connect (s : Nat) (name : List UInt8)
  | close (s : Nat)
  deriving DecidableEq, Repr

/-- A system call. `connect` keeps the reference it has taken. -/
def State.step (h : Host) (st : State) : Act → Option State
  | .socket s =>
    match st.sockets s with
    | some _ => none
    | none => some (st.setSock s (some ⟨none, [], false⟩))
  | .bind s name malloc host =>
    (st.sockets s).map fun sock => (st.sysBind h s sock name malloc host).2
  | .connect s name =>
    (st.sockets s).map fun _ =>
      match st.unixAbstractGet h name false true with
      | .error _ => st
      | .ok (st', _) => st'
  | .close s => (st.sockets s).map fun sock => st.sockClose s sock

end Ish.AbstractSocket
