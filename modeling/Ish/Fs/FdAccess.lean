import Ish.Fs.Descriptor

/-!
# Where descriptor arguments go

The calls of `fs/fd.c` that take a descriptor from the guest, and the look into another task's table of
`fs/generic.c`, with every access to `files` and to the close-on-exec bits that they make. A descriptor is an
`int`, and the sizes of tables are `unsigned`; a negative index is one before the array.
-/

namespace Ish.Fs.Descriptors

/-- An access to `files` or to the bits of a table of this size. -/
structure Access where
  index : Int
  size : Nat
  deriving DecidableEq, Repr

/-- The index is in the table. -/
def Access.InBounds (a : Access) : Prop := 0 ≤ a.index ∧ a.index < a.size

instance (a : Access) : Decidable a.InBounds := inferInstanceAs (Decidable (_ ∧ _))

/-- `table->size` -/
abbrev Table.size (t : Table) : Nat := t.files.length

/-- `fdtable_get`, by a task whose own table has this size -/
def Table.lookup (t : Table) (size : Nat) (f : BitVec 32) : List Access × Option Nat :=
  if f.toInt < 0 ∨ f.toNat ≥ size then ([], none) else ([⟨f.toInt, t.size⟩], t.get f.toNat)

/-- `fdtable_expand`, with its error number; `alloc` says that memory can be had. -/
def Table.expandTo (t : Table) (max : BitVec 32) (limit : Nat) (alloc : Bool) : List Access × Except Int Table :=
  let size := (max + 1).toNat
  if size > limit then ([], .error (-24))
  else if t.size ≥ size then ([], .ok t)
  else if !alloc then ([], .error (-12))
  -- the old contents are copied
  else ((List.range t.size).flatMap fun i : Nat => [⟨i, t.size⟩, ⟨i, size⟩], .ok (t.resize size))

/-- The number as an `int`. -/
def fdIndex (f : Nat) : Int := (BitVec.ofNat 32 f).toInt

/-- The loop of `f_install_start`. -/
def Table.scanFrom (t : Table) : Nat → Nat → List Access × Nat
  | 0, f => ([], f)
  | n + 1, f =>
    if t.get f = none then ([⟨fdIndex f, t.size⟩], f)
    else
      let r := t.scanFrom n (f + 1)
      (⟨fdIndex f, t.size⟩ :: r.1, r.2)

/-- `f_install_start`: what it returns, and the size of the table then; `none` is a failed assertion. -/
def Table.installAt (t : Table) (start : BitVec 32) (limit : Nat) (alloc : Bool) : List Access × Option (Int × Nat) :=
  if start.toInt < 0 then ([], none)
  else
    let r := t.scanFrom (t.bound limit - start.toNat) start.toNat
    let f := r.2
    if f < t.bound limit then (r.1 ++ [⟨fdIndex f, t.size⟩, ⟨fdIndex f, t.size⟩], some (fdIndex f, t.size))
    else
      match t.expandTo (BitVec.ofNat 32 f) limit alloc with
      | (a, .error e) => (r.1 ++ a, some (e, t.size))
      | (a, .ok t) =>
        if fdIndex f ≥ 0 then
          (r.1 ++ a ++ [⟨fdIndex f, t.size⟩, ⟨fdIndex f, t.size⟩], some (fdIndex f, t.size))
        else (r.1 ++ a, some (fdIndex f, t.size))

/-- `fdtable_close` of the task's own table -/
def Table.closeAt (t : Table) (f : BitVec 32) : List Access :=
  match t.lookup t.size f with
  | (a, none) => a
  | (a, some _) => a ++ [⟨f.toInt, t.size⟩, ⟨f.toInt, t.size⟩]

/-- The calls; `lookup` is the one of `procfd_openat` in the table of another task. -/
inductive FdCall where
  | dup3 (f newF : BitVec 32) (cloexec : Bool)
  | dup2 (f newF : BitVec 32)
  | dupfd (f start : BitVec 32)
  | dupfdCloexec (f start : BitVec 32)
  | close (f : BitVec 32)
  | closeRange (first last : BitVec 32) (cloexec : Bool)
  | lookup (other : Table) (f : BitVec 32)

/-- `sys_dup3` -/
def Table.dup3Access (t : Table) (limit : Nat) (alloc : Bool) (f newF : BitVec 32) (cloexec : Bool) : List Access :=
  match t.lookup t.size f with
  | (a, none) => a
  | (a, some _) =>
    match t.expandTo newF limit alloc with
    | (b, .error _) => a ++ b
    | (b, .ok t) =>
      a ++ b ++ t.closeAt newF ++ ⟨newF.toInt, t.size⟩ :: if cloexec then [⟨newF.toInt, t.size⟩] else []

/-- `F_DUPFD_` and `F_DUPFD_CLOEXEC_` -/
def Table.dupfdAccess (t : Table) (limit : Nat) (alloc : Bool) (f start : BitVec 32) (cloexec : Bool) : List Access :=
  match t.lookup t.size f with
  | (a, none) => a
  | (a, some _) =>
    match t.installAt start limit alloc with
    | (b, none) => a ++ b
    | (b, some (newF, size)) => a ++ b ++ if cloexec then [⟨newF, size⟩] else []

/-- The body of the loop of `sys_close_range`. -/
def Table.closeOne (t : Table) (cloexec : Bool) (f : Nat) : List Access :=
  ⟨f, t.size⟩ :: if t.get f = none then [] else if cloexec then [⟨f, t.size⟩] else t.closeAt (BitVec.ofNat 32 f)

/-- `sys_close_range` -/
def Table.closeRangeAccess (t : Table) (first last : Nat) (cloexec : Bool) : List Access :=
  if first > last ∨ t.size = 0 then []
  else
    let cappedLast := if last ≥ t.size then t.size - 1 else last
    if first ≥ t.size ∨ first > cappedLast then []
    else (List.range' first (cappedLast + 1 - first)).flatMap (t.closeOne cloexec)

/-- The accesses of a call by the task that has the table `t`. -/
def Table.accesses (t : Table) (limit : Nat) (alloc : Bool) : FdCall → List Access
  | .dup3 f newF cloexec => t.dup3Access limit alloc f newF cloexec
  | .dup2 f newF => t.dup3Access limit alloc f newF false
  | .dupfd f start => t.dupfdAccess limit alloc f start false
  | .dupfdCloexec f start => t.dupfdAccess limit alloc f start true
  | .close f => t.closeAt f
  | .closeRange first last cloexec => t.closeRangeAccess first.toNat last.toNat cloexec
  | .lookup other f => (other.lookup t.size f).1

end Ish.Fs.Descriptors
