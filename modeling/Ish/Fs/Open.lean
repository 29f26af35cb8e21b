import Ish.Fs.Fake

/-!
# Opening a file

`generic_openat` and `generic_accessat` of `fs/generic.c`, `sys_faccessat` of `kernel/fs.c`, with the
backends `realfs_open` and `fakefs_open`.

The filesystem opens the file first, with all flags, and what comes after it may still refuse. What is
left to other code is in `OpenEnv`: what the mounts show to `path_normalize`, the mount of a path,
`procfd_openat`, which neither makes nor truncates a file, the status of an object of the host, and the
drivers.
-/

namespace Ish.Fs.Fakefs

def acR : BitVec 32 := 4#32

/-- What `open` is called with. -/
structure OpenArgs where
  dir : At
  path : Path
  flags : OpenFlags
  /-- `O_DIRECTORY_` -/
  directory : Bool
  mode : BitVec 32

/-- The filesystem of a mount. -/
inductive OpenMount where
  | fakefs
  | realfs (root : HPath)

inductive OpenErrno where
  | einval
  | procfd (e : Errno)
  | path (stop : Stop)
  | backend (out : Outcome)
  | noStat
  | eacces
  | eloop
  | dev (e : Errno)
  | enxio
  | eisdir
  | enotdir

/-- What the open meets. -/
structure OpenEnv where
  tree : Tree
  task : Task
  /-- `procfd_openat`, if the path is in `/proc/PID/fd`. -/
  procfd : Option (Except Errno Unit)
  /-- `find_mount_and_trim_path` -/
  mount : Path → OpenMount × HPath
  /-- `realfs_fstat` of an object; `none` is an error. -/
  hostStat : Nat → Option IshStat
  /-- The host cannot open the file for a reason that is not in the tree. -/
  fault : Bool
  /-- `inode_get_unlocked` has no memory, or `fstat` of the host fails. -/
  noInode : Bool
  /-- `dev_open` -/
  devOpen : IshStat → Option Errno

/-- The access that the flags ask for. -/
def OpenFlags.accmode (flags : OpenFlags) : BitVec 32 :=
  if flags.rdwr then acR ||| acW else if flags.wronly then acW else acR

/-- The fields of a status that `access_check` reads. -/
def IshStat.access (stat : IshStat) : Stat := ⟨stat.mode, stat.uid, stat.gid⟩

/-- The checks that `generic_openat` makes on an open file. -/
def OpenEnv.check (env : OpenEnv) (args : OpenArgs) (stat : IshStat) : Option OpenErrno :=
  let type := stat.mode &&& sIfmt
  if accessCheck env.task.cred stat.access args.flags.accmode = false then some .eacces
  else if type = sIflnk then some .eloop
  else
    match if type = sIfblk ∨ type = sIfchr then env.devOpen stat else none with
    | some e => some (.dev e)
    | none =>
      if type = sIfsock then some .enxio
      else if type = sIfdir ∧ args.flags.writable then some .eisdir
      else if type ≠ sIfdir ∧ args.directory then some .enotdir
      else none

/-- The status, if there is an inode. -/
def OpenEnv.seen (env : OpenEnv) (stat : Option IshStat) : Option IshStat :=
  if env.noInode then none else stat

/-- How `generic_openat` ends, with the status of the open file. -/
def OpenEnv.finish (env : OpenEnv) (args : OpenArgs) (stat : Option IshStat) : Except OpenErrno Unit :=
  match stat with
  | none => .error .noStat
  | some stat =>
    match env.check args stat with
    | some e => .error e
    | none => .ok ()

def OpenEnd.of : Except OpenErrno Unit → OpenEnd
  | .ok () => .accepted
  | .error .noStat => .noStat
  | .error _ => .refused

/-- What comes before the filesystem is asked: an end, or the mount and the path to open. -/
def OpenEnv.start (env : OpenEnv) (args : OpenArgs) : Except (Except OpenErrno Unit) (OpenMount × HPath) :=
  if args.flags.rdwr && args.flags.wronly then .error (.error .einval)
  else
    match env.procfd with
    | some r => .error (r.mapError .procfd)
    | none =>
      match pathNormalize env.tree env.task args.dir args.path ⟨true, args.flags.creat⟩ with
      | .error stop => .error (.error (.path stop))
      | .ok path => .ok (env.mount path)

/-- `generic_openat` on a fakefs mount. -/
def Sys.openFake (s : Sys) (env : OpenEnv) (args : OpenArgs) (p : HPath) : Except OpenErrno Unit × Sys :=
  let r := s.openFile p args.flags args.mode env.task.cred env.fault
  match r.2, r.1.fds[s.fds.length]? with
  | .ok, some fd =>
    let res := env.finish args (env.seen (r.1.db.inodeReadStat fd.fakeInode))
    (res, (r.1.openRest s.fds.length fd (.of res)).1)
  | out, _ => (.error (.backend out), r.1)

/-- Where `realfs_open` opens. -/
def Sys.realAt (s : Sys) (root p : HPath) (flags : OpenFlags) : HPath :=
  s.host.walk (!(flags.creat && flags.excl)) root p

/-- `generic_openat` on a realfs mount. -/
def Sys.openReal (s : Sys) (env : OpenEnv) (args : OpenArgs) (root p : HPath) :
    Except OpenErrno Unit × Sys :=
  if env.fault then (.error (.backend (.host .other)), s)
  else
    match s.host.openat (s.realAt root p args.flags) args.flags with
    | .error e => (.error (.backend (.host e)), s)
    | .ok (host, object) => (env.finish args (env.seen (env.hostStat object)), { s with host := host })

/-- `generic_openat` -/
def Sys.genericOpenat (s : Sys) (env : OpenEnv) (args : OpenArgs) : Except OpenErrno Unit × Sys :=
  match env.start args with
  | .error r => (r, s)
  | .ok (.fakefs, p) => s.openFake env args p
  | .ok (.realfs root, p) => s.openReal env args root p

/-! ### `access(2)` -/

structure Ids where
  uid : Nat
  gid : Nat
  euid : Nat
  egid : Nat
  groups : List Nat
  deriving DecidableEq, Repr

def Ids.cred (ids : Ids) : Cred := ⟨ids.euid, ids.egid⟩

/-- `generic_accessat`, after `path_normalize` and `stat`; `none` is their error. -/
def genericAccessat (cred : Cred) (stat : Option IshStat) (mode : BitVec 32) : Bool :=
  match stat with
  | none => false
  | some stat => accessCheck cred stat.access mode

/-- `sys_faccessat`, which puts the real ids in the place of the effective ones; the path is looked up
with the same ids. -/
def sysFaccessat (ids : Ids) (stat : Cred → Option IshStat) (mode : BitVec 32) (eaccess : Bool) : Bool :=
  let cred := if eaccess then ids.cred else ⟨ids.uid, ids.gid⟩
  genericAccessat cred (stat cred) mode

end Ish.Fs.Fakefs
