import Mathlib.Logic.Function.Basic

/-!
# Path normalisation

`__path_normalize`, `path_normalize` and `path_is_normalized` of `fs/path.c`, with `access_check`
of `kernel/fs.c`.

A string is the list of its bytes before the terminating null. The buffer `out` is modelled as far
as it is filled, `out[0 .. o)`; every access outside a buffer ends the call, so that a call that
ends otherwise has made none. What the mounted filesystems answer is a parameter.
-/

namespace Ish.Fs

/-- A C string without its null. -/
abbrev Path := List UInt8

/-- `'/'` -/
def slash : UInt8 := 0x2f
/-- `'.'` -/
def dot : UInt8 := 0x2e
def maxPath : Nat := 4096

/-- The error numbers of `kernel/errno.h` that the functions below return; `fs` is one that comes
from a filesystem. -/
inductive Errno where
  | enoent
  | enametoolong
  | eloop
  | enotdir
  | eacces
  | ebadf
  | ebusy
  | exdev
  | eperm
  | einval
  | eagain
  | fs (code : Nat)
  deriving DecidableEq, Repr

/-- How a call ends without returning 0: with an error number, an access outside a buffer or a
failed assertion. `stuck` is a loop that is still running. -/
inductive Stop where
  | err (e : Errno)
  | outOfBounds
  | abort
  | stuck
  deriving DecidableEq, Repr

/-! ### Permissions -/

/-- The fields of `struct statbuf` that are read here. -/
structure Stat where
  mode : BitVec 32
  uid : Nat
  gid : Nat
  deriving DecidableEq, Repr

/-- `S_ISDIR(mode)` -/
def Stat.isDir (stat : Stat) : Bool := stat.mode &&& 0o170000#32 == 0o040000#32

/-- The ids of a task. -/
structure Cred where
  euid : Nat
  egid : Nat
  deriving DecidableEq, Repr

def Cred.superuser (cred : Cred) : Bool := cred.euid == 0

def acW : BitVec 32 := 2#32
def acX : BitVec 32 := 1#32

/-- `access_check`; `false` is `_EACCES`. -/
def accessCheck (cred : Cred) (stat : Stat) (check : BitVec 32) : Bool :=
  if cred.superuser then true
  else if check = 0#32 then true
  else
    -- align check with the correct bits in mode
    let check :=
      if cred.euid = stat.uid then check <<< 6
      else if cred.egid = stat.gid then check <<< 3
      else check
    stat.mode &&& check != 0#32

/-! ### Filesystems -/

/-- What the mounted filesystems say about a normalised path: the contents of a symbolic link, and
its status. `none` is an error. -/
structure Tree where
  readlink : Path → Option (List UInt8)
  stat : Path → Option Stat

/-- The bytes up to the first null. -/
def cString (bytes : List UInt8) : Path := bytes.takeWhile (· ≠ 0)

/-- Inside a path: no slash is followed by another one. -/
def pathIsNormalized.inName : Path → Bool
  | [] => true
  | [_] => true
  | b :: c :: p => !(b == slash && c == slash) && inName (c :: p)

/-- `path_is_normalized` -/
def pathIsNormalized (path : Path) : Bool :=
  match path with
  | [] => true
  | b :: _ => b == slash && pathIsNormalized.inName path

/-! ### `__path_normalize` -/

/-- The flags: `N_SYMLINK_FOLLOW`, with `N_SYMLINK_NOFOLLOW` as its opposite (the source asserts
that one of the two is given), and `N_PARENT_DIR_WRITE`. -/
structure Flags where
  follow : Bool
  parentDirWrite : Bool
  deriving DecidableEq, Repr

/-- The local variables: `out[0 .. o)` with the last byte first, `n`, the bytes from `p` on, and
`p[-1]` if `p` is not at the beginning. -/
structure Cursor where
  out : List UInt8
  n : Int
  p : Path
  prev : Option UInt8
  deriving DecidableEq, Repr

/-- `while (*p == '/') p++;` -/
def skipSlashes : Path → Option UInt8 → Path × Option UInt8
  | [], prev => ([], prev)
  | b :: p, prev => if b = slash then skipSlashes p (some b) else (b :: p, prev)

def Cursor.skipSlashes (c : Cursor) : Cursor :=
  let r := Fs.skipSlashes c.p c.prev
  { c with p := r.1, prev := r.2 }

/-- `p += k` -/
def Cursor.advance (c : Cursor) (k : Nat) : Cursor :=
  { c with p := c.p.drop k, prev := (c.p.take k).getLast?.or c.prev }

/-- `p[0] == '.' && (p[1] == '\0' || p[1] == '/')` -/
def isDot : Path → Bool
  | [b] => b == dot
  | b :: c :: _ => b == dot && c == slash
  | [] => false

/-- `p[0] == '.' && p[1] == '.' && (p[2] == '\0' || p[2] == '/')` -/
def isDotDot : Path → Bool
  | [b, c] => b == dot && c == dot
  | b :: c :: d :: _ => b == dot && c == dot && d == slash
  | _ => false

/-- `do { o--; n++; } while (*o != '/');`, `none` if it runs out of the buffer. -/
def deleteLast : List UInt8 → Int → Option (List UInt8 × Int)
  | [], _ => none
  | b :: out, n => if b = slash then some (out, n + 1) else deleteLast out (n + 1)

/-- A double dot: delete the last component. -/
def Cursor.parent (c : Cursor) : Except Stop Cursor :=
  if c.out = [] then .ok c
  else
    match deleteLast c.out c.n with
    | none => .error .outOfBounds
    | some (out, n) => .ok { c with out := out, n := n }

/-- `*o++ = b` -/
def Cursor.put (c : Cursor) (b : UInt8) : Except Stop Cursor :=
  if c.out.length < maxPath then .ok { c with out := b :: c.out } else .error .outOfBounds

/-- `while (*p != '/' && *p != '\0' && --n > 0) *o++ = *p++;` -/
def copyName : Path → List UInt8 → Int → Option UInt8 → Except Stop Cursor
  | [], out, n, prev => .ok ⟨out, n, [], prev⟩
  | b :: p, out, n, prev =>
    if b = slash then .ok ⟨out, n, b :: p, prev⟩
    else if n - 1 > 0 then
      if out.length < maxPath then copyName p (b :: out) (n - 1) (some b) else .error .outOfBounds
    else .ok ⟨out, n - 1, b :: p, prev⟩

/-- How a turn of the main loop goes on: with the next component, or from the beginning with the
path that a symbolic link expands to. -/
inductive Turn where
  | next (c : Cursor)
  | expand (path : Path)
  deriving DecidableEq, Repr

/-- The contents `link` of a symbolic link are in `out` from `start` on: the path to go on with.
`mayFollow` is `levels < 5`. -/
def expandLink (mayFollow : Bool) (c : Cursor) (start : Nat) (link : List UInt8) :
    Except Stop Turn :=
  if ¬ mayFollow then .error (.err .eloop)
  -- a full buffer leaves no room for the terminator
  else if link.length ≥ maxPath - start then .error (.err .enametoolong)
  else
    -- if we should restart from the root, copy down
    let target :=
      if link.head? = some slash then cString link
      else c.out.reverse.take start ++ cString link
    let rest := if c.p = [] then [] else slash :: c.p
    if target.length + rest.length ≥ maxPath then .error (.err .enametoolong)
    else .ok (.expand (target ++ rest))

/-- If there's a slash after this component, ensure that if it exists, it's a directory and that we
have execute perms on it. -/
def checkDirectory (fs : Tree) (cred : Cred) (c : Cursor) : Except Stop Turn :=
  match c.prev with
  | none => .error .outOfBounds
  | some b =>
    if b = slash then
      match fs.stat c.out.reverse with
      | none => .ok (.next c)
      | some stat =>
        if ¬ stat.isDir then .error (.err .enotdir)
        else if ¬ accessCheck cred stat acX then .error (.err .eacces)
        else .ok (.next c)
    else .ok (.next c)

/-- The look at the component that ends at `o` and starts at `start`. -/
def lookup (fs : Tree) (cred : Cred) (mayFollow : Bool) (c : Cursor) (start : Nat) :
    Except Stop Turn :=
  -- `*o = '\0'` and the copy to `possible_symlink`
  if c.out.length ≥ maxPath then .error .outOfBounds
  else if ¬ pathIsNormalized c.out.reverse then .error .abort
  else
    match fs.readlink c.out.reverse with
    | some link => expandLink mayFollow c start (link.take (maxPath - start))
    | none => checkDirectory fs cred c

/-- A component that is neither a dot nor a double dot. -/
def component (fs : Tree) (cred : Cred) (flags : Flags) (mayFollow : Bool) (c : Cursor) :
    Except Stop Turn := do
  let c ← c.put slash
  let start := c.out.length
  let c ← copyName c.p c.out (c.n - 1) c.prev
  let c := c.skipSlashes
  if c.n = 0 then .error (.err .enametoolong)
  else if flags.follow ∨ c.p ≠ [] then lookup fs cred mayFollow c start
  else .ok (.next c)

/-- A turn of the main loop. -/
def turn (fs : Tree) (cred : Cred) (flags : Flags) (mayFollow : Bool) (c : Cursor) :
    Except Stop Turn :=
  if isDot c.p then .ok (.next (c.advance 1).skipSlashes)
  else if isDotDot c.p then c.parent.map fun c => .next (c.advance 2).skipSlashes
  else component fs cred flags mayFollow c

/-- The end of the main loop. -/
def finish (c : Cursor) : Except Stop Path :=
  if c.out.length ≥ maxPath then .error .outOfBounds
  else if pathIsNormalized c.out.reverse then .ok c.out.reverse
  else .error .abort

/-- The main loop; `expand` is the recursive call, `none` if `levels >= 5`. -/
def loop (fs : Tree) (cred : Cred) (flags : Flags) (expand : Option (Path → Except Stop Path)) :
    Nat → Cursor → Except Stop Path
  | 0, _ => .error .stuck
  | fuel + 1, c =>
    if c.p = [] then finish c
    else
      match turn fs cred flags expand.isSome c with
      | .error stop => .error stop
      | .ok (.next c) => loop fs cred flags expand fuel c
      | .ok (.expand path) =>
        match expand with
        | some expand => expand path
        | none => .error (.err .eloop)

/-- The bytes that `at_path` puts into `out`. -/
def atBytes : Option Path → Path
  | none => []
  | some at' => if at' = [slash] then [] else at'

/-- `__path_normalize` up to the recursive call. A turn of the main loop passes a byte of the
path, or is followed by at most one more. -/
def normalizeFrom (fs : Tree) (cred : Cred) (flags : Flags)
    (expand : Option (Path → Except Stop Path)) (at' : Option Path) (path : Path) :
    Except Stop Path :=
  if path = [] then .error (.err .enoent)
  else if (atBytes at').length ≥ maxPath then .error (.err .enametoolong)
  else
    let c : Cursor :=
      ⟨(atBytes at').reverse, (maxPath - 1 : Nat) - (atBytes at').length, path, none⟩
    loop fs cred flags expand (path.length + 2) c.skipSlashes

/-- `__path_normalize`, where `links` is `5 - levels`. -/
def normalize (fs : Tree) (cred : Cred) (flags : Flags) :
    Nat → Option Path → Path → Except Stop Path
  | 0 => normalizeFrom fs cred flags none
  | links + 1 => normalizeFrom fs cred flags (some (normalize fs cred flags links none))

/-! ### `path_normalize` -/

/-- The path of an open directory, as `generic_getpath` gives it. -/
abbrev Fd := Except Errno Path

/-- The argument `at`: `AT_PWD`, a null or error pointer, or an open directory. -/
inductive At where
  | pwd
  | null
  | error (e : Errno)
  | dir (fd : Fd)
  deriving Repr

/-- `current`, with `fs->root` and `fs->pwd`; `none` is a null pointer. -/
structure Task where
  cred : Cred
  root : Option Fd
  pwd : Option Fd

/-- The directory that a path starts from: root or cwd, depending on whether it starts with a
slash. -/
def startDir (task : Task) (at' : At) (path : Path) : Except Stop (Option Fd) :=
  if path.head? = some slash then .ok task.root
  else
    match at' with
    | .pwd => if task.pwd.isSome then .ok task.pwd else .error (.err .ebadf)
    | .null => .error (.err .ebadf)
    | .error e => .error (.err e)
    | .dir fd => .ok (some fd)

/-- `path_normalize` -/
def pathNormalize (fs : Tree) (task : Task) (at' : At) (path : Path) (flags : Flags) :
    Except Stop Path :=
  if path = [] then .error (.err .enoent)
  else
    match startDir task at' path with
    | .error stop => .error stop
    | .ok none => normalize fs task.cred flags 5 none path
    | .ok (some (.error e)) => .error (.err e)
    | .ok (some (.ok at')) =>
      if pathIsNormalized at' then normalize fs task.cred flags 5 (some at') path
      else .error .abort

end Ish.Fs
