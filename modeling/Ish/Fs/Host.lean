import Ish.Fs.Path
import Ish.Lib.Rekey

/-!
# The tree of the host

What POSIX says about the calls that `fs/real.c` and `fs/fake.c` make: an object at each path, hard links
as several paths of one object, and symbolic links. The target of a symbolic link is a path without
links. Times other than those that `utimensat` sets are left out.
-/

namespace Ish.Fs.Fakefs

/-- A name in a path. -/
structure Component where
  bytes : Path
  ne : bytes ≠ []
  plain : slash ∉ bytes
  deriving DecidableEq

/-- A path of the host. -/
abbrev HPath := List Component

/-- A path as a string. -/
def pathBytes (p : HPath) : Path := p.flatMap fun c => slash :: c.bytes

/-- What an object is. -/
inductive Kind where
  | dir
  | file
  | fifo
  | link (target : HPath)
  deriving DecidableEq

/-- An object: its type, its contents and its attributes. -/
structure Node where
  kind : Kind
  data : List UInt8
  nlink : Nat
  mtime : Nat
  deriving DecidableEq

/-- The tree of the host and its objects. -/
structure Host where
  tree : AList fun _ : HPath => Nat
  node : Nat → Node
  next : Nat

/-- The errors of the host calls; `other` is one that does not come from the tree. -/
inductive HostErrno where
  | enoent
  | enotdir
  | eexist
  | eisdir
  | enotempty
  | eperm
  | einval
  | eloop
  | other
  deriving DecidableEq, Repr

def Host.entry (h : Host) (p : HPath) : Option Nat := h.tree.lookup p

def Host.kindAt (h : Host) (p : HPath) : Option Kind := (h.entry p).map fun o => (h.node o).kind

/-- Where the symbolic link at a path leads. -/
def Host.linkAt (h : Host) (p : HPath) : Option HPath :=
  match h.kindAt p with
  | some (.link target) => some target
  | _ => none

/-- Follows the names of a path from a directory on; a link at the end is followed only if `follow`. -/
def Host.walk (h : Host) (follow : Bool) : HPath → List Component → HPath
  | cur, [] => cur
  | cur, c :: names =>
    match if names = [] && !follow then none else h.linkAt (cur ++ [c]) with
    | some target => h.walk follow target names
    | none => h.walk follow (cur ++ [c]) names

def Host.setNode (h : Host) (o : Nat) (n : Node) : Host :=
  { h with node := Function.update h.node o n }

/-- An entry can be made only in a directory. -/
def Host.parentErrno (h : Host) (p : HPath) : Option HostErrno :=
  match h.kindAt p.dropLast with
  | none => some .enoent
  | some .dir => none
  | some _ => some .enotdir

def Host.add (h : Host) (p : HPath) (kind : Kind) (data : List UInt8) : Host where
  tree := h.tree.insert p h.next
  node := Function.update h.node h.next ⟨kind, data, 1, 0⟩
  next := h.next + 1

/-- A new object at a path where there is none: `mkdirat`, `mkfifo`, and `openat` with `O_CREAT` and
`O_EXCL`. -/
def Host.make (h : Host) (p : HPath) (kind : Kind) (data : List UInt8) : Except HostErrno Host :=
  if (h.entry p).isSome then .error .eexist
  else
    match h.parentErrno p with
    | some e => .error e
    | none => .ok (h.add p kind data)

/-- The flags of `open`. -/
structure OpenFlags where
  wronly : Bool
  rdwr : Bool
  creat : Bool
  excl : Bool
  trunc : Bool
  append : Bool
  deriving DecidableEq, Repr

def OpenFlags.writable (flags : OpenFlags) : Bool := flags.wronly || flags.rdwr

/-- `openat`, with the object that is opened. -/
def Host.openat (h : Host) (p : HPath) (flags : OpenFlags) : Except HostErrno (Host × Nat) :=
  match h.entry p with
  | none =>
    if flags.creat then (h.make p .file []).map fun h' => (h', h.next) else .error .enoent
  | some o =>
    if flags.creat && flags.excl then .error .eexist
    else
      match (h.node o).kind with
      | .dir => if flags.writable || flags.creat || flags.trunc then .error .eisdir else .ok (h, o)
      | .file => .ok (if flags.trunc then h.setNode o { h.node o with data := [] } else h, o)
      | .fifo => .ok (h, o)
      | .link _ => .error .eloop

def Host.addLinks (h : Host) (o : Nat) (k : Int) : Host :=
  h.setNode o { h.node o with nlink := ((h.node o).nlink + k).toNat }

/-- `linkat` -/
def Host.link (h : Host) (src dst : HPath) : Except HostErrno Host :=
  match h.entry src with
  | none => .error .enoent
  | some o =>
    if (h.node o).kind = .dir then .error .eperm
    else if (h.entry dst).isSome then .error .eexist
    else
      match h.parentErrno dst with
      | some e => .error e
      | none => .ok ({ h with tree := h.tree.insert dst o }.addLinks o 1)

/-- `unlinkat` -/
def Host.unlink (h : Host) (p : HPath) : Except HostErrno Host :=
  match h.entry p with
  | none => .error .enoent
  | some o =>
    if (h.node o).kind = .dir then .error .eisdir
    else .ok ({ h with tree := h.tree.erase p }.addLinks o (-1))

def Host.hasChild (h : Host) (p : HPath) : Bool :=
  h.tree.keys.any fun q => q ≠ [] && q.dropLast = p

/-- `unlinkat` with `AT_REMOVEDIR` -/
def Host.rmdir (h : Host) (p : HPath) : Except HostErrno Host :=
  match h.entry p with
  | none => .error .enoent
  | some o =>
    if (h.node o).kind ≠ .dir then .error .enotdir
    else if h.hasChild p then .error .enotempty
    else .ok { h with tree := h.tree.erase p }

/-- A path of which the beginning changes. -/
def changePrefix (src dst p : HPath) : HPath := dst ++ p.drop src.length

/-- The object at a path, with everything below it, goes to another path. -/
def Host.move (h : Host) (src dst : HPath) : Host :=
  { h with tree := Lib.rekey h.tree (fun p => src.isPrefixOf p) (changePrefix src dst) }

/-- `renameat`; between two links of one object it does nothing. -/
def Host.rename (h : Host) (src dst : HPath) : Except HostErrno Host :=
  match h.entry src with
  | none => .error .enoent
  | some o =>
    match h.parentErrno dst, h.entry dst with
    | some e, _ => .error e
    | none, none =>
      if (h.node o).kind = .dir ∧ src.isPrefixOf dst then .error .einval else .ok (h.move src dst)
    | none, some o' =>
      if o = o' then .ok h
      else if (h.node o).kind = .dir then
        if (h.node o').kind ≠ .dir then .error .enotdir
        else if src.isPrefixOf dst then .error .einval
        else if h.hasChild dst then .error .enotempty
        else .ok (h.move src dst)
      else if (h.node o').kind = .dir then .error .eisdir
      else .ok ((h.move src dst).addLinks o' (-1))

/-- `write` and `ftruncate`: the contents of an object become these. -/
def Host.setData (h : Host) (o : Nat) (data : List UInt8) : Host :=
  h.setNode o { h.node o with data := data }

/-- `utimensat` -/
def Host.utimens (h : Host) (p : HPath) (mtime : Nat) : Except HostErrno Host :=
  match h.entry p with
  | none => .error .enoent
  | some o => .ok (h.setNode o { h.node o with mtime := mtime })

end Ish.Fs.Fakefs
