import Ish.Fs.Path

/-!
# Operations on directory entries

The functions of `fs/generic.c` that make or remove an entry: what they ask of the filesystem, or
how they fail before.
-/

namespace Ish.Fs

/-- The operations of a filesystem that make or remove entries. -/
inductive FsOp where
  | link
  | unlink
  | rename
  | symlink
  | mknod
  | mkdir
  | rmdir
  deriving DecidableEq, Repr

/-- A call of a filesystem. -/
inductive FsCall where
  /-- An operation on one entry. -/
  | entry (op : FsOp) (path : Path)
  /-- `link` or `rename`. -/
  | pair (op : FsOp) (src dst : Path)
  /-- `open`, with `O_CREAT` or not. -/
  | opening (path : Path) (create : Bool)
  deriving DecidableEq, Repr

/-- The entries that a call makes or removes. -/
def FsCall.changed : FsCall → List Path
  | entry _ path => [path]
  | pair .link _ dst => [dst]
  | pair _ src dst => [src, dst]
  | opening path create => if create then [path] else []

/-- The mounts: which one a path is on, whether a path contains a mount point, and whether the
filesystem of a mount has an operation. -/
structure MountView where
  find : Path → Nat
  containsMountPoint : Path → Bool
  has : Nat → FsOp → Bool

/-- A directory and a path from there. -/
structure Name where
  dir : At
  path : Path

/-- A call of one of the functions; the type of a node is its mode. -/
inductive Request where
  | linkat (src dst : Name)
  | unlinkat (name : Name)
  | renameat (src dst : Name)
  | symlinkat (target : Path) (link : Name)
  | mknodat (name : Name) (mode : BitVec 32)
  | mkdirat (name : Name)
  | rmdirat (name : Name)
  | openat (name : Name) (create : Bool)

section

variable (fs : Tree) (mounts : MountView) (task : Task)

/-- `path_normalize` of the name. -/
def Name.normalize (name : Name) (follow parentDirWrite : Bool) : Except Stop Path :=
  pathNormalize fs task name.dir name.path ⟨follow, parentDirWrite⟩

/-- The end of the functions for one entry: `_EPERM` if the filesystem has no such operation. -/
def callEntry (op : FsOp) (path : Path) : Except Stop FsCall :=
  if mounts.has (mounts.find path) op then .ok (.entry op path) else .error (.err .eperm)

/-- The end of the functions for two entries, which must be on one mount. -/
def callPair (op : FsOp) (src dst : Path) : Except Stop FsCall :=
  if mounts.find src ≠ mounts.find dst then .error (.err .exdev)
  else if mounts.has (mounts.find src) op then .ok (.pair op src dst)
  else .error (.err .eperm)

/-- The checks of `generic_mknodat` on the type of the node. -/
def mknodCheck (mode : BitVec 32) : Option Errno :=
  let type := mode &&& 0o170000#32
  if type = 0o040000#32 ∨ type = 0o120000#32 then some .einval
  else if ¬ task.cred.superuser ∧ (type = 0o060000#32 ∨ type = 0o020000#32) then some .eperm
  else none

/-- The functions, with `parentDirWrite` for `N_PARENT_DIR_WRITE` where they pass it. -/
def Request.performWith (parentDirWrite : Bool) : Request → Except Stop FsCall
  | linkat src dst => do
    let src ← src.normalize fs task false false
    let dst ← dst.normalize fs task false parentDirWrite
    callPair mounts .link src dst
  | unlinkat name => do
    let path ← name.normalize fs task false parentDirWrite
    callEntry mounts .unlink path
  | renameat src dst => do
    let src ← src.normalize fs task false parentDirWrite
    let dst ← dst.normalize fs task false parentDirWrite
    if mounts.containsMountPoint src then .error (.err .ebusy) else callPair mounts .rename src dst
  | symlinkat _ link => do
    let path ← link.normalize fs task false parentDirWrite
    callEntry mounts .symlink path
  | mknodat name mode =>
    match mknodCheck task mode with
    | some e => .error (.err e)
    | none => do
      let path ← name.normalize fs task false parentDirWrite
      callEntry mounts .mknod path
  | mkdirat name => do
    let path ← name.normalize fs task true parentDirWrite
    callEntry mounts .mkdir path
  | rmdirat name => do
    let path ← name.normalize fs task true parentDirWrite
    if mounts.containsMountPoint path then .error (.err .ebusy) else callEntry mounts .rmdir path
  | openat name create => do
    let path ← name.normalize fs task true (create && parentDirWrite)
    .ok (.opening path create)

/-- `generic_linkat`, `generic_unlinkat` and so on. -/
def Request.perform (request : Request) : Except Stop FsCall :=
  request.performWith fs mounts task true

end

/-- The directory that contains the last component of a path. -/
def parentDir (path : Path) : Path := ((path.reverse.dropWhile (· ≠ slash)).drop 1).reverse

/-- The task has write permission on a directory, by the mode class that applies to it. -/
def mayWrite (fs : Tree) (cred : Cred) (dir : Path) : Bool :=
  (fs.stat dir).any fun stat => accessCheck cred stat acW

end Ish.Fs
