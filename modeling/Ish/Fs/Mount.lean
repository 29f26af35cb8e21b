import Ish.Fs.Path

/-!
# The mount table

`mount_find` with its thread-local cache, `do_mount`, `mount_remove`, `do_umount`, `mount_retain`
and `mount_release` of `fs/mount.c`, and `find_mount_and_trim_path` of `fs/generic.c`.

A mount is named by a number that is never used twice, which stands for its address; a mount that is
not in the list any more has been freed. `mount_find` tests the version and the point of the cached
mount without `mounts_lock`, so that the fast path is taken in three steps. A change of the table is two
steps: the list is changed, and then `global_mount_version` is counted up; `mounts_lock` is held for both.
Of a `struct mount` only what the table itself reads is kept.
-/

namespace Ish.Fs

/-- A `struct mount`: its address and its `point`. -/
structure Mount where
  id : Nat
  point : Path
  deriving DecidableEq, Repr

/-- `strncmp(path, point, n) == 0 && (path[n] == '/' || path[n] == '\0')` for `n = strlen(point)` -/
def underPoint (point path : Path) : Bool :=
  point.isPrefixOf path && (path.drop point.length).head?.all (· == slash)

/-- `last_mount_cache` and `mount_cache_version` of a thread. -/
structure MountCache where
  last : Option Nat
  version : Nat
  deriving DecidableEq, Repr

/-- Where a thread is in `mount_find`. -/
inductive FindPc
  /-- not in a lookup -/
  | idle
  /-- the version of the cache is that of the table; `cached->point` is read next -/
  | tested (path : Path) (id : Nat)
  /-- the path is under the cached mount, which is retained next, under the lock -/
  | hit (path : Path) (id : Nat)
  /-- the cache is not taken; the list is searched next, under the lock -/
  | slow (path : Path)
  deriving DecidableEq, Repr

/-- The list `mounts` with the references to each mount, the name of the next mount,
`global_mount_version`, the caches of the threads and their lookups. -/
structure Mounts (τ : Type) where
  mounts : List Mount
  refcount : Nat → Nat
  nextId : Nat
  version : Nat
  /-- `mounts_lock` is held by a change of the list that is yet to count the version up -/
  changing : Bool
  /-- a freed mount has been accessed -/
  fault : Bool
  cache : τ → MountCache
  pc : τ → FindPc

/-- No mounts, and no thread has looked one up. -/
def mountsInit (τ : Type) : Mounts τ :=
  ⟨[], fun _ => 0, 0, 0, false, false, fun _ => ⟨none, 0⟩, fun _ => .idle⟩

variable {τ : Type}

/-- The mount at an address, unless it has been freed. -/
def Mounts.get (s : Mounts τ) (id : Nat) : Option Mount :=
  s.mounts.find? fun m => m.id = id

/-- The search of `mount_find` in the list. -/
def Mounts.search (s : Mounts τ) (path : Path) : Option Mount :=
  s.mounts.find? fun m => underPoint m.point path

section Find

variable [DecidableEq τ]

/-- A thread goes on in `mount_find`. -/
def Mounts.goto (s : Mounts τ) (t : τ) (pc : FindPc) : Mounts τ :=
  { s with pc := Function.update s.pc t pc }

/-- `mount_find` up to the version test of `mount_cache_check`, without the lock. -/
def Mounts.find (s : Mounts τ) (t : τ) (path : Path) : Mounts τ :=
  match (s.cache t).last with
  | none => s.goto t (.slow path)
  | some id =>
    -- the mount table changed
    if (s.cache t).version ≠ s.version then s.goto t (.slow path) else s.goto t (.tested path id)

/-- The rest of `mount_cache_check`: `cached->point` is read, without the lock. -/
def Mounts.compare (s : Mounts τ) (t : τ) (path : Path) (id : Nat) : Mounts τ :=
  match s.get id with
  | none => { s with fault := true }
  | some m =>
    -- root mount lookups are not cached
    if m.point ≠ [] ∧ underPoint m.point path then s.goto t (.hit path id) else s.goto t (.slow path)

/-- `cached->refcount++`, and the cached mount is returned. -/
def Mounts.takeCached (s : Mounts τ) (t : τ) (path : Path) (id : Nat) : Mounts τ × Option (Path × Mount) :=
  match s.get id with
  | none => ({ s with fault := true }, none)
  | some m =>
    ({ s.goto t .idle with refcount := Function.update s.refcount id (s.refcount id + 1) }, some (path, m))

/-- The slow path; `none` if it runs out of the list. -/
def Mounts.slowPath (s : Mounts τ) (t : τ) (path : Path) : Option (Mounts τ × Option (Path × Mount)) :=
  (s.search path).map fun m =>
    ({ s.goto t .idle with
        refcount := Function.update s.refcount m.id (s.refcount m.id + 1)
        cache := Function.update s.cache t ⟨some m.id, s.version⟩ }, some (path, m))

/-- The step that the lookup of a thread takes next; what needs the lock waits for a change in progress. -/
def Mounts.next (s : Mounts τ) (t : τ) : Option (Mounts τ × Option (Path × Mount)) :=
  match s.pc t with
  | .idle => none
  | .tested path id => some (s.compare t path id, none)
  | .hit path id => if s.changing = false then some (s.takeCached t path id) else none
  | .slow path => if s.changing = false then s.slowPath t path else none

end Find

/-- The place of a new mount: the list must stay in descending order of mount point length. -/
def insertMount (new : Mount) : List Mount → List Mount
  | [] => [new]
  | m :: ms =>
    if m.point.length ≤ new.point.length then new :: m :: ms else m :: insertMount new ms

/-- `do_mount` up to the invalidation of the caches; `ok` says that the filesystem can be mounted. -/
def Mounts.doMount (s : Mounts τ) (ok : Bool) (point : Path) : Mounts τ :=
  if ok then
    { s with
      mounts := insertMount ⟨s.nextId, point⟩ s.mounts
      nextId := s.nextId + 1
      changing := true }
  else s

/-- `do_umount` with `mount_remove` up to the invalidation of the caches: nothing happens if no mount
has this point, or if it is busy. -/
def Mounts.doUmount (s : Mounts τ) (point : Path) : Mounts τ :=
  match s.mounts.find? fun m => m.point = point with
  | none => s
  | some m =>
    if s.refcount m.id ≠ 0 then s
    else { s with mounts := s.mounts.filter fun m' => m'.id ≠ m.id, changing := true }

/-- The steps of the threads. -/
inductive MountAct (τ : Type) where
  | mount (ok : Bool) (point : Path)
  | umount (point : Path)
  /-- `global_mount_version++` at the end of `do_mount` or `mount_remove` -/
  | invalidate
  | find (t : τ) (path : Path)
  /-- the thread's lookup goes on -/
  | next (t : τ)
  | retain (id : Nat)
  | release (id : Nat)

/-- One step, and what a lookup that ends in it returns; `none` if the step cannot be taken. A reference is
retained or released only by who holds one. -/
def Mounts.call [DecidableEq τ] (s : Mounts τ) : MountAct τ → Option (Mounts τ × Option (Path × Mount))
  | .mount ok point => if s.changing = false then some (s.doMount ok point, none) else none
  | .umount point => if s.changing = false then some (s.doUmount point, none) else none
  | .invalidate =>
    if s.changing then some ({ s with version := s.version + 1, changing := false }, none) else none
  | .find t path =>
    if s.pc t = .idle ∧ pathIsNormalized path then some (s.find t path, none) else none
  | .next t => s.next t
  | .retain id =>
    if s.changing = false ∧ s.refcount id ≠ 0 then
      some ({ s with refcount := Function.update s.refcount id (s.refcount id + 1) }, none)
    else none
  | .release id =>
    if s.changing = false ∧ s.refcount id ≠ 0 then
      some ({ s with refcount := Function.update s.refcount id (s.refcount id - 1) }, none)
    else none

/-- The step without its result. -/
def Mounts.step [DecidableEq τ] (s : Mounts τ) (act : MountAct τ) : Option (Mounts τ) :=
  (s.call act).map Prod.fst

end Ish.Fs
