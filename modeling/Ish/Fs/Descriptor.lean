import Mathlib

/-!
# Descriptor tables

`fs/fd.c`: the reference counts of `struct fd`, the tables of descriptors with their close-on-exec
bits, and the calls that change them.

A `struct fd` is named by a number that is never used twice. Memory can always be had. The calls are
made one after the other; the table is the one of the task that makes the call, and several tasks may
have the same. `elsewhere` is read by nothing: it counts the references that are in no table.
-/

namespace Ish.Fs.Descriptors

/-- `struct fdtable`; its `size` is the length of `files`. -/
structure Table where
  files : List (Option Nat)
  cloexec : Nat → Bool

/-- `fdtable_get` -/
def Table.get (t : Table) (f : Nat) : Option Nat := (t.files[f]?).join

def bitsSize (bits : Nat) : Nat := (bits - 1) / 8 + 1

/-- `fdtable_resize`, which copies the bits by bytes. -/
def Table.resize (t : Table) (size : Nat) : Table where
  files := t.files ++ List.replicate (size - t.files.length) none
  cloexec i := decide (i / 8 < bitsSize t.files.length) && t.cloexec i

/-- `fdtable_expand` -/
def Table.expand (t : Table) (max limit : Nat) : Option Table :=
  if max + 1 > limit then none
  else if t.files.length ≥ max + 1 then some t
  else some (t.resize (max + 1))

/-- A descriptor is set, and its bit is cleared. -/
def Table.put (t : Table) (f fd : Nat) : Table where
  files := t.files.set f (some fd)
  cloexec := Function.update t.cloexec f false

/-- `bit_set` -/
def Table.setBit (t : Table) (i : Nat) : Table :=
  { t with cloexec := Function.update t.cloexec i true }

/-- `bit_clear` -/
def Table.clearBit (t : Table) (i : Nat) : Table :=
  { t with cloexec := Function.update t.cloexec i false }

/-- The loop of `f_install_start`, which looks at no more than so many descriptors. -/
def Table.scan (t : Table) : Nat → Nat → Nat
  | 0, f => f
  | n + 1, f => if t.get f = none then f else t.scan n (f + 1)

/-- Where the loop of `f_install_start` ends; the limit goes into an `unsigned`. -/
def Table.bound (t : Table) (limit : Nat) : Nat := min (limit % 2 ^ 32) t.files.length

/-- The descriptor at which it ends. -/
def Table.stop (t : Table) (start limit : Nat) : Nat := t.scan (t.bound limit - start) start

/-- The `struct fd`s and the tables. -/
structure Fds where
  refcount : Nat → Nat
  closed : Nat → Bool
  elsewhere : Nat → Nat
  next : Nat
  tables : List Table

/-- One table, as in `become_first_process`. -/
def init : Fds where
  refcount _ := 0
  closed _ := false
  elsewhere _ := 0
  next := 0
  tables := [⟨[none, none, none], fun _ => false⟩]

def Fds.setTable (s : Fds) (i : Nat) (t : Table) : Fds := { s with tables := s.tables.set i t }

/-- `fd_retain` -/
def Fds.fdRetain (s : Fds) (fd : Nat) : Fds :=
  { s with refcount := Function.update s.refcount fd (s.refcount fd + 1) }

/-- `fd_close` -/
def Fds.fdClose (s : Fds) (fd : Nat) : Fds :=
  { s with
    refcount := Function.update s.refcount fd (s.refcount fd - 1)
    closed := if s.refcount fd - 1 = 0 then Function.update s.closed fd true else s.closed }

/-- `f_install_start`, with the descriptor or, for `_EMFILE`, none. -/
def Fds.installStart (s : Fds) (i : Nat) (t : Table) (fd start limit : Nat) : Fds × Option Nat :=
  let f := t.stop start limit
  match if f < t.bound limit then some t else t.expand f limit with
  | none => (s.fdClose fd, none)
  | some t =>
    -- from 2³¹ on an `fd_t` is negative
    if f < 2 ^ 31 then (s.setTable i (t.put f fd), some f) else ((s.setTable i t).fdClose fd, none)

/-- `bit_set` in a table. -/
def Fds.setBit (s : Fds) (i f : Nat) : Fds := { s with tables := s.tables.modify i (·.setBit f) }

/-- `f_install` -/
def Fds.install (s : Fds) (i : Nat) (t : Table) (fd : Nat) (cloexec : Bool) (limit : Nat) :
    Fds × Option Nat :=
  match s.installStart i t fd 0 limit with
  | (s, some f) => (if cloexec then s.setBit i f else s, some f)
  | (s, none) => (s, none)

/-- `fdtable_close`, except for the locks of the file. -/
def Fds.tableClose (s : Fds) (i : Nat) (t : Table) (f : Nat) : Fds :=
  match t.get f with
  | none => s
  | some fd => (s.fdClose fd).setTable i { t.clearBit f with files := t.files.set f none }

/-- `fdtable_close` for the table with this number. -/
def Fds.close (s : Fds) (i f : Nat) : Fds :=
  match s.tables[i]? with
  | none => s
  | some t => s.tableClose i t f

/-- `sys_dup3` after `f_get` -/
def Fds.dup3 (s : Fds) (i : Nat) (t : Table) (fd newF : Nat) (cloexec : Bool) (limit : Nat) :
    Fds × Option Nat :=
  match t.expand newF limit with
  | none => (s, none)
  | some t =>
    let s := ((s.setTable i t).fdRetain fd).close i newF
    let s := { s with
      tables := s.tables.modify i fun t => { t with files := t.files.set newF (some fd) } }
    (if cloexec then s.setBit i newF else s, some newF)

/-- `EMFILE` as the `size_t` that `bit_set` takes. -/
def emfile : Nat := 2 ^ 64 - 24

/-- What `f_install_start` returns, as a `size_t`, if it gives no descriptor: its error, or a negative number. -/
def Table.failure (t : Table) (start limit : Nat) : Nat :=
  if (t.expand (t.stop start limit) limit).isSome then 2 ^ 64 - 2 ^ 32 + t.stop start limit else emfile

/-- `F_DUPFD_` and `F_DUPFD_CLOEXEC_`, which sets the bit of whatever `f_install_start` returned. -/
def Fds.dupfd (s : Fds) (i : Nat) (t : Table) (fd start : Nat) (cloexec : Bool) (limit : Nat) :
    Fds × Option Nat :=
  let r := (s.fdRetain fd).installStart i t fd start limit
  (if cloexec then r.1.setBit i (r.2.getD (t.failure start limit)) else r.1, r.2)

/-- The loop of `sys_close_range`. -/
def Fds.closeRange (s : Fds) (i first last : Nat) (cloexec : Bool) : Fds :=
  match s.tables[i]? with
  | none => s
  | some t =>
    if t.files.length = 0 then s
    else
      let last := min last (t.files.length - 1)
      if first ≥ t.files.length ∨ first > last then s
      else
        (List.range' first (last + 1 - first)).foldl (fun s f =>
          if cloexec then
            { s with
              tables := s.tables.modify i fun t => if (t.get f).isSome then t.setBit f else t }
          else s.close i f) s

/-- The body of the loop of `fdtable_do_cloexec`. -/
def Fds.closeOnExec (s : Fds) (i f : Nat) : Fds :=
  if (s.tables[i]?).any (·.cloexec f) then s.close i f else s

/-- `fdtable_do_cloexec` -/
def Fds.doCloexec (s : Fds) (i : Nat) : Fds :=
  (List.range ((s.tables[i]?).elim 0 (·.files.length))).foldl (fun s f => s.closeOnExec i f) s

/-- `fdtable_copy` -/
def Fds.copy (s : Fds) (t : Table) : Fds :=
  { s with
    refcount := fun fd => s.refcount fd + t.files.count (some fd)
    tables := s.tables ++ [t] }

/-- The calls, with the number of the table, and `RLIMIT_NOFILE` where it is asked for. -/
inductive Act where
  /-- `fd_create`: the caller has the reference -/
  | create
  /-- a reference that is kept elsewhere is taken, or given up -/
  | retain (fd : Nat)
  | drop (fd : Nat)
  /-- `f_install` of a reference that the caller has -/
  | install (i fd : Nat) (cloexec : Bool) (limit : Nat)
  | dup (i f limit : Nat)
  | dup3 (i f newF : Nat) (cloexec : Bool) (limit : Nat)
  | dupfd (i f start : Nat) (cloexec : Bool) (limit : Nat)
  | setfd (i f : Nat) (on : Bool)
  | close (i f : Nat)
  | closeRange (i first last : Nat) (cloexec : Bool)
  | exec (i : Nat)
  | fork (i : Nat)

/-- A call on a descriptor, which fails with `_EBADF` if it is not open. -/
def Fds.withFd (s : Fds) (i f : Nat) (call : Table → Nat → Fds × Option Nat) :
    Option (Fds × Option Nat) :=
  match s.tables[i]? with
  | none => none
  | some t =>
    match t.get f with
    | none => some (s, none)
    | some fd => some (call t fd)

/-- The call, and the new descriptor if it gives one. -/
def Fds.call (s : Fds) : Act → Option (Fds × Option Nat)
  | .create =>
    some ({ s with
      refcount := Function.update s.refcount s.next 1
      elsewhere := Function.update s.elsewhere s.next 1
      next := s.next + 1 }, none)
  | .retain fd =>
    if s.refcount fd = 0 then none
    else
      some ({ s.fdRetain fd with
        elsewhere := Function.update s.elsewhere fd (s.elsewhere fd + 1) }, none)
  | .drop fd =>
    if s.elsewhere fd = 0 then none
    else
      some ({ s.fdClose fd with
        elsewhere := Function.update s.elsewhere fd (s.elsewhere fd - 1) }, none)
  | .install i fd cloexec limit =>
    match s.tables[i]? with
    | none => none
    | some t =>
      if s.elsewhere fd = 0 then none
      else
        some ({ s with
          elsewhere := Function.update s.elsewhere fd (s.elsewhere fd - 1) }.install i t fd cloexec
            limit)
  | .dup i f limit => s.withFd i f fun t fd => (s.fdRetain fd).install i t fd false limit
  | .dup3 i f newF cloexec limit => s.withFd i f fun t fd => s.dup3 i t fd newF cloexec limit
  | .dupfd i f start cloexec limit =>
    s.withFd i f fun t fd => s.dupfd i t fd start cloexec limit
  | .setfd i f on =>
    s.withFd i f fun t _ => (s.setTable i (if on then t.setBit f else t.clearBit f), none)
  | .close i f => some (s.close i f, none)
  | .closeRange i first last cloexec => some (s.closeRange i first last cloexec, none)
  | .exec i => some (s.doCloexec i, none)
  | .fork i =>
    match s.tables[i]? with
    | none => none
    | some t => some (s.copy t, none)

def Fds.step (s : Fds) (a : Act) : Option Fds := (s.call a).map Prod.fst

end Ish.Fs.Descriptors
