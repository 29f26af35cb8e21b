import Ish.Fs.Host
import Ish.Fs.FakeDb

/-!
# fakefs

`fs/fake.c` over the host and the database, with the part of `fs/inode.c` and `fs/generic.c` that keeps
inodes in memory. The paths are those that `path_normalize` gives. A host call may fail for a reason
that is not in the tree; that it does is part of the action (`fault`). Opening a file takes two steps:
`fakefs_open`, and the rest of `generic_openat`.
-/

namespace Ish.Fs.Fakefs

/-- An active slot of `g_bind_mounts`; the host path has been through `realpath`. -/
structure Bind where
  path : Path
  hostPath : HPath
  readOnly : Bool
  deriving DecidableEq

/-- The test that all functions on bind mounts make for a slot. -/
def Bind.covers (b : Bind) (path : Path) : Bool :=
  b.path.isPrefixOf path &&
    (path.drop b.path.length = [] || (path.drop b.path.length).head? = some slash)

/-- The path as it is compared; a path without a slash at its beginning gets one. -/
def cmpPath (p : HPath) : Path := if p = [] then [slash] else pathBytes p

def Component.ofBytes (bytes : Path) : Option Component :=
  if h : bytes ≠ [] ∧ slash ∉ bytes then some ⟨bytes, h.1, h.2⟩ else none

/-- The name, if there is one, before other names. -/
def consBytes (bytes : Path) (names : HPath) : HPath :=
  match Component.ofBytes bytes with
  | some c => c :: names
  | none => names

/-- The names of a string; `bytes` are those since the last slash. -/
def components.go (bytes : Path) : Path → HPath
  | [] => consBytes bytes []
  | b :: path => if b = slash then consBytes bytes (go [] path) else go (bytes ++ [b]) path

def components (path : Path) : HPath := components.go [] path

/-- A `struct fd` of this mount. `object` is what `real_fd` stands for; `opened` says that it has its
`inode`. `born` is read by nothing. -/
structure Fd where
  object : Nat
  writable : Bool
  fakeInode : Nat
  opened : Bool
  refcount : Nat
  born : Nat
  deriving DecidableEq

/-- The mount. `inodes` are the counts of the `struct inode_data`; 0 is an inode that is not in the
table. -/
structure Sys where
  host : Host
  root : HPath
  binds : List Bind
  db : Db
  inodes : Nat → Nat
  fds : List Fd

/-- How a call ends. `mknod` goes on after a host call that failed, and still has it as its end. -/
inductive Outcome where
  | ok
  | erofs
  /-- the host call failed -/
  | host (e : HostErrno)
  /-- the call failed, though no host call did -/
  | failed
  deriving DecidableEq

/-! ### Bind mounts -/

/-- `bind_mount_translate_path` -/
def Sys.translate (s : Sys) (p : HPath) : Option HPath :=
  s.binds.findSome? fun b =>
    if b.covers (cmpPath p) then
      some (b.hostPath ++ components ((cmpPath p).drop b.path.length))
    else none

def Sys.isUnderBindMount (s : Sys) (p : HPath) : Bool := s.binds.any (·.covers (cmpPath p))

/-- `is_under_readonly_bind_mount` -/
def Sys.isUnderReadonly (s : Sys) (p : HPath) : Bool :=
  s.binds.any fun b => b.readOnly && b.covers (cmpPath p)

/-- The path that a call relative to `root_fd` gets to. -/
def Sys.at (s : Sys) (follow : Bool) (p : HPath) : HPath := s.host.walk follow s.root p

def sIfmt : BitVec 32 := 0o170000#32
def sIfdir : BitVec 32 := 0o040000#32
def sIfreg : BitVec 32 := 0o100000#32
def sIflnk : BitVec 32 := 0o120000#32
def sIfifo : BitVec 32 := 0o010000#32
def sIfblk : BitVec 32 := 0o060000#32
def sIfchr : BitVec 32 := 0o020000#32
def sIfsock : BitVec 32 := 0o140000#32

/-- The status that `bind_mount_ensure_inode` makes up. -/
def Kind.bindStat : Kind → IshStat
  | .dir => ⟨sIfdir ||| 0o755#32, 0, 0, 0⟩
  | .link _ => ⟨sIflnk ||| 0o777#32, 0, 0, 0⟩
  | _ => ⟨sIfreg ||| 0o644#32, 0, 0, 0⟩

/-- `bind_mount_ensure_inode` -/
def Sys.ensureInode (s : Sys) (p : HPath) : Sys × Nat :=
  if s.db.pathGetInode (pathBytes p) ≠ 0 then (s, s.db.pathGetInode (pathBytes p))
  else
    let kind :=
      match s.translate p with
      | some path => s.host.kindAt (s.host.walk true [] path)
      | none => s.host.kindAt (s.at false p)
    match kind with
    | none => (s, 0)
    | some kind =>
      let r := s.db.pathCreate (pathBytes p) kind.bindStat
      ({ s with db := r.1 }, r.2)

/-- The call that `unlink` and `rmdir` make first. -/
def Sys.ensureBound (s : Sys) (p : HPath) : Sys :=
  if s.isUnderBindMount p then (s.ensureInode p).1 else s

/-! ### Inodes in memory -/

/-- `inode_check_orphaned` -/
def Sys.inodeCheckOrphaned (s : Sys) (inode : Nat) : Sys :=
  if s.inodes inode = 0 then { s with db := s.db.tryCleanupInode inode } else s

/-- `inode_get_unlocked` -/
def Sys.inodeGet (s : Sys) (inode : Nat) : Sys :=
  { s with inodes := Function.update s.inodes inode (s.inodes inode + 1) }

/-- `inode_release` -/
def Sys.inodeRelease (s : Sys) (inode : Nat) : Sys :=
  let s := { s with inodes := Function.update s.inodes inode (s.inodes inode - 1) }
  if s.inodes inode = 0 then { s with db := s.db.tryCleanupInode inode } else s

def Sys.setFd (s : Sys) (i : Nat) (fd : Fd) : Sys := { s with fds := s.fds.set i fd }

/-- `fd_close` -/
def Sys.fdClose (s : Sys) (i : Nat) (fd : Fd) : Sys :=
  let s := s.setFd i { fd with refcount := fd.refcount - 1 }
  if fd.refcount - 1 = 0 ∧ fd.opened then s.inodeRelease fd.fakeInode else s

/-! ### Operations -/

/-- The flags for which `fakefs_open` asks for write access. -/
def OpenFlags.intent (flags : OpenFlags) : Bool :=
  flags.wronly || flags.rdwr || flags.creat || flags.trunc || flags.append

/-- The rest of `fakefs_open`, after the host has opened the object. -/
def Sys.openInode (s : Sys) (p : HPath) (flags : OpenFlags) (stat : IshStat) : Sys × Nat :=
  if s.db.pathGetInode (pathBytes p) ≠ 0 then (s, s.db.pathGetInode (pathBytes p))
  else if flags.creat then
    let r := s.db.pathCreate (pathBytes p) stat
    ({ s with db := r.1 }, r.2)
  else if s.isUnderBindMount p then s.ensureInode p
  else (s, 0)

/-- Where an open leads. -/
def Sys.openAt (s : Sys) (p : HPath) (flags : OpenFlags) : HPath :=
  match s.translate p with
  | some path => s.host.walk (!(flags.creat && flags.excl)) [] path
  | none => s.at (!(flags.creat && flags.excl)) p

/-- The end of `fakefs_open`: `_ENOENT` without an inode, and else an fd at the end of the list. -/
def Sys.addFd (s : Sys) (inode object : Nat) (flags : OpenFlags) : Sys × Outcome :=
  if inode = 0 then (s, .failed)
  else
    ({ s with
      fds := s.fds ++ [{
        object := object
        writable := flags.writable
        fakeInode := inode
        opened := false
        refcount := 1
        born := ((s.db.stats.lookup inode).map Row.born).getD 0 }] }, .ok)

/-- `fakefs_open` -/
def Sys.openFile (s : Sys) (p : HPath) (flags : OpenFlags) (mode : BitVec 32) (cred : Cred)
    (fault : Bool) : Sys × Outcome :=
  if flags.intent && s.isUnderReadonly p then (s, .erofs)
  else if fault then (s, .host .other)
  else
    match s.host.openat (s.openAt p flags) flags with
    | .error e => (s, .host e)
    | .ok (host, object) =>
      let r := { s with host := host }.openInode p flags ⟨mode ||| sIfreg, cred.euid, cred.egid, 0⟩
      r.1.addFd r.2 object flags

/-- How the rest of `generic_openat` goes: `fstat` fails, or the access is refused, or neither. -/
inductive OpenEnd where
  | noStat
  | refused
  | accepted
  deriving DecidableEq

/-- `generic_openat` after `fakefs_open`: `fakefs_fstat`, `inode_get_unlocked` and the checks. -/
def Sys.openRest (s : Sys) (i : Nat) (fd : Fd) (how : OpenEnd) : Sys × Outcome :=
  if how = .noStat ∨ s.db.stats.lookup fd.fakeInode = none then (s.fdClose i fd, .failed)
  else
    let fd := { fd with opened := true }
    let s := (s.inodeGet fd.fakeInode).setFd i fd
    if how = .refused then (s.fdClose i fd, .failed) else (s, .ok)

/-- `fakefs_link`; `none` is `die`. -/
def Sys.link (s : Sys) (src dst : HPath) (fault : Bool) : Option (Sys × Outcome) :=
  if s.isUnderReadonly dst then some (s, .erofs)
  else if fault then some (s, .host .other)
  else
    match s.host.link (s.at false src) (s.at false dst) with
    | .error e => some (s, .host e)
    | .ok host =>
      (s.db.pathLink (pathBytes src) (pathBytes dst)).map fun db =>
        ({ s with host := host, db := db }, .ok)

/-- `fakefs_unlink` and `fakefs_rmdir`, which differ in the host call. -/
def Sys.remove (s : Sys) (p : HPath) (call : Sys → Except HostErrno Host) : Sys × Outcome :=
  if s.isUnderReadonly p then (s, .erofs)
  else
    let s := s.ensureBound p
    match call s with
    | .error e => (s, .host e)
    | .ok host =>
      let r := s.db.pathUnlink (pathBytes p)
      ({ s with host := host, db := r.1 }.inodeCheckOrphaned r.2, .ok)

/-- `fakefs_unlink` -/
def Sys.unlink (s : Sys) (p : HPath) (fault : Bool) : Sys × Outcome :=
  s.remove p fun s => if fault then .error .other else s.host.unlink (s.at false p)

/-- `fakefs_rmdir`; the root of the mount is removed as `.`, which is not possible. -/
def Sys.rmdir (s : Sys) (p : HPath) (fault : Bool) : Sys × Outcome :=
  s.remove p fun s =>
    if fault then .error .other
    else if p = [] then .error .einval
    else s.host.rmdir (s.at false p)

/-- `realfs_rename` -/
def Sys.hostRename (s : Sys) (src dst : HPath) (fault : Bool) : Except HostErrno Host :=
  if fault then .error .other
  else if src = [] ∨ dst = [] then .error .einval
  else s.host.rename (s.at false src) (s.at false dst)

/-- `fakefs_rename`; if the host call fails, the database is rolled back. -/
def Sys.rename (s : Sys) (src dst : HPath) (fault : Bool) : Sys × Outcome :=
  if s.isUnderReadonly src || s.isUnderReadonly dst then (s, .erofs)
  else
    match s.hostRename src dst fault with
    | .error e => (s, .host e)
    | .ok host => ({ s with host := host, db := s.db.pathRename (pathBytes src) (pathBytes dst) }, .ok)

/-- What goes wrong in `fakefs_symlink`: nothing, `openat`, `write`, or `write` and then `unlinkat`. -/
inductive SymlinkFault where
  | none
  | open
  | write
  | unlink
  deriving DecidableEq

/-- `fakefs_symlink`, which makes a file with the target in it. -/
def Sys.symlink (s : Sys) (target : List UInt8) (link : HPath) (cred : Cred) (fault : SymlinkFault) :
    Sys × Outcome :=
  if s.isUnderReadonly link then (s, .erofs)
  else if fault = .open then (s, .host .other)
  else
    match s.host.make (s.at false link) .file target with
    | .error e => (s, .host e)
    | .ok host =>
      match fault with
      | .write => (s, .host .other)
      | .unlink => ({ s with host := host }, .host .other)
      | _ =>
        let stat : IshStat := ⟨sIflnk ||| 0o777#32, cred.euid, cred.egid, 0⟩
        ({ s with host := host, db := (s.db.pathCreate (pathBytes link) stat).1 }, .ok)

/-- The type that `fakefs_mknod` gives to the object of the host, and `realfs_mknod` takes. -/
def mknodKind (mode : BitVec 32) : Option Kind :=
  let type := mode &&& sIfmt
  if type = sIfblk ∨ type = sIfchr ∨ type = sIfsock ∨ type = sIfreg then some .file
  else if type = sIfifo then some .fifo
  else none

/-- `realfs_mknod` -/
def Sys.hostMknod (s : Sys) (p : HPath) (mode : BitVec 32) (fault : Bool) : Except HostErrno Host :=
  match mknodKind mode with
  | none => .error .eperm
  | some kind => if fault then .error .other else s.host.make (s.at false p) kind []

/-- The row of a new node. -/
def mknodStat (mode : BitVec 32) (dev : Nat) (cred : Cred) : IshStat where
  mode := mode
  uid := cred.euid
  gid := cred.egid
  rdev := if mode &&& sIfmt = sIfblk ∨ mode &&& sIfmt = sIfchr then dev else 0

def Db.mknod (db : Db) (path : Path) (stat : IshStat) : Db :=
  if db.pathGetInode path = 0 then (db.pathCreate path stat).1
  else db.inodeWriteStat (db.pathGetInode path) stat

/-- `fakefs_mknod`, which goes on if the path exists. -/
def Sys.mknod (s : Sys) (p : HPath) (mode : BitVec 32) (dev : Nat) (cred : Cred) (fault : Bool) :
    Sys × Outcome :=
  if s.isUnderReadonly p then (s, .erofs)
  else
    match s.hostMknod p mode fault with
    | .ok host =>
      ({ s with host := host, db := s.db.mknod (pathBytes p) (mknodStat mode dev cred) }, .ok)
    | .error .eexist =>
      ({ s with db := s.db.mknod (pathBytes p) (mknodStat mode dev cred) }, .host .eexist)
    | .error e => (s, .host e)

/-- `fakefs_mkdir` -/
def Sys.mkdir (s : Sys) (p : HPath) (mode : BitVec 32) (cred : Cred) (fault : Bool) : Sys × Outcome :=
  if s.isUnderReadonly p then (s, .erofs)
  else if fault then (s, .host .other)
  else
    match s.host.make (s.at false p) .dir [] with
    | .error e => (s, .host e)
    | .ok host =>
      let stat : IshStat := ⟨mode ||| sIfdir, cred.euid, cred.egid, 0⟩
      ({ s with host := host, db := (s.db.pathCreate (pathBytes p) stat).1 }, .ok)

/-- An attribute to set. -/
inductive Attr where
  | uid (uid : Nat)
  | gid (gid : Nat)
  | mode (mode : BitVec 32)
  | size (size : Nat)
  deriving DecidableEq

/-- `fake_stat_setattr` -/
def IshStat.setattr (stat : IshStat) : Attr → IshStat
  | .uid uid => { stat with uid := uid }
  | .gid gid => { stat with gid := gid }
  | .mode mode => { stat with mode := (stat.mode &&& sIfmt) ||| (mode &&& ~~~sIfmt) }
  | .size _ => stat

def truncateTo (data : List UInt8) (size : Nat) : List UInt8 :=
  data.take size ++ List.replicate (size - data.length) 0

/-- `realfs_truncate` -/
def Sys.truncate (s : Sys) (p : HPath) (size : Nat) : Sys × Outcome :=
  match s.host.openat (s.at true p) ⟨false, true, false, false, false, false⟩ with
  | .error e => (s, .host e)
  | .ok (host, o) =>
    if (host.node o).kind = .file then
      ({ s with host := host.setData o (truncateTo (host.node o).data size) }, .ok)
    else (s, .host .einval)

/-- `fakefs_setattr` -/
def Sys.setattr (s : Sys) (p : HPath) (attr : Attr) (fault : Bool) : Sys × Outcome :=
  if s.isUnderReadonly p then (s, .erofs)
  else
    match attr with
    | .size size => if fault then (s, .host .other) else s.truncate p size
    | attr =>
      let s := if (s.db.pathReadStat (pathBytes p)).isNone then s.ensureBound p else s
      match s.db.pathReadStat (pathBytes p) with
      | none => (s, .failed)
      | some (inode, stat) => ({ s with db := s.db.inodeWriteStat inode (stat.setattr attr) }, .ok)

/-- `fakefs_fsetattr`; `none` is `die`. -/
def Sys.fsetattr (s : Sys) (fd : Fd) (attr : Attr) (fault : Bool) : Option (Sys × Outcome) :=
  match attr with
  | .size size =>
    if fault then some (s, .host .other)
    else if fd.writable ∧ (s.host.node fd.object).kind = .file then
      some ({ s with
        host := s.host.setData fd.object (truncateTo (s.host.node fd.object).data size) }, .ok)
    else some (s, .host .einval)
  | attr =>
    (s.db.inodeReadStat fd.fakeInode).map fun stat =>
      ({ s with db := s.db.inodeWriteStat fd.fakeInode (stat.setattr attr) }, .ok)

/-- `realfs_write`: the contents become these, if the fd may write and the host call does not fail. -/
def Sys.write (s : Sys) (fd : Fd) (data : List UInt8) (fault : Bool) : Sys × Outcome :=
  if fault ∨ fd.writable = false ∨ (s.host.node fd.object).kind ≠ .file then (s, .host .other)
  else ({ s with host := s.host.setData fd.object data }, .ok)

/-- `realfs_utime`, which is in the table of operations of fakefs as it is. -/
def Sys.utime (s : Sys) (p : HPath) (mtime : Nat) (fault : Bool) : Sys × Outcome :=
  if fault then (s, .host .other)
  else
    match s.host.utimens (s.at true p) mtime with
    | .error e => (s, .host e)
    | .ok host => ({ s with host := host }, .ok)

/-! ### Steps -/

/-- The operations, with their arguments; an fd is given by its number. -/
inductive Act where
  | openFile (p : HPath) (flags : OpenFlags) (mode : BitVec 32) (cred : Cred) (fault : Bool)
  | openRest (i : Nat) (how : OpenEnd)
  | dup (i : Nat)
  | close (i : Nat)
  | write (i : Nat) (data : List UInt8) (fault : Bool)
  | fsetattr (i : Nat) (attr : Attr) (fault : Bool)
  | link (src dst : HPath) (fault : Bool)
  | unlink (p : HPath) (fault : Bool)
  | rmdir (p : HPath) (fault : Bool)
  | rename (src dst : HPath) (fault : Bool)
  | symlink (target : List UInt8) (link : HPath) (cred : Cred) (fault : SymlinkFault)
  | mknod (p : HPath) (mode : BitVec 32) (dev : Nat) (cred : Cred) (fault : Bool)
  | mkdir (p : HPath) (mode : BitVec 32) (cred : Cred) (fault : Bool)
  | setattr (p : HPath) (attr : Attr) (fault : Bool)
  | utime (p : HPath) (mtime : Nat) (fault : Bool)

/-- An operation on an fd that is open, or that is being opened. -/
def Sys.withFd (s : Sys) (i : Nat) (opened : Bool) (f : Fd → Option (Sys × Outcome)) :
    Option (Sys × Outcome) :=
  match s.fds[i]? with
  | none => none
  | some fd => if fd.refcount ≠ 0 ∧ fd.opened = opened then f fd else none

/-- An operation, with how it ends; `none` if there is no such fd, or on `die`. -/
def Sys.call (s : Sys) : Act → Option (Sys × Outcome)
  | .openFile p flags mode cred fault => some (s.openFile p flags mode cred fault)
  | .openRest i how => s.withFd i false fun fd => some (s.openRest i fd how)
  | .dup i => s.withFd i true fun fd => some (s.setFd i { fd with refcount := fd.refcount + 1 }, .ok)
  | .close i => s.withFd i true fun fd => some (s.fdClose i fd, .ok)
  | .write i data fault => s.withFd i true fun fd => some (s.write fd data fault)
  | .fsetattr i attr fault => s.withFd i true fun fd => s.fsetattr fd attr fault
  | .link src dst fault => s.link src dst fault
  | .unlink p fault => some (s.unlink p fault)
  | .rmdir p fault => some (s.rmdir p fault)
  | .rename src dst fault => some (s.rename src dst fault)
  | .symlink target link cred fault => some (s.symlink target link cred fault)
  | .mknod p mode dev cred fault => some (s.mknod p mode dev cred fault)
  | .mkdir p mode cred fault => some (s.mkdir p mode cred fault)
  | .setattr p attr fault => some (s.setattr p attr fault)
  | .utime p mtime fault => some (s.utime p mtime fault)

/-- One step. -/
def Sys.step (s : Sys) (a : Act) : Option Sys := (s.call a).map Prod.fst

end Ish.Fs.Fakefs
