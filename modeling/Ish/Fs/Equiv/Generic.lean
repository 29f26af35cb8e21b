import Ish.Fs.Generic
import Ish.Fs.Equiv.PathFold

/-!
# Permission to change a directory

`path_normalize` never looks at `N_PARENT_DIR_WRITE`, so whether the directory of an entry may be written decides
nothing. Which directory that is, the fold over the names of the path says (`Name.resolve`).
-/

namespace Ish.Fs

open Lib

/-! ### The directory of an entry -/

/-- The path of the directory that a name starts from, `none` for the root. -/
def Name.start (task : Task) (name : Name) : Except Stop (Option Path) :=
  match startDir task name.dir name.path with
  | .error stop => .error stop
  | .ok none => .ok none
  | .ok (some (.error e)) => .error (.err e)
  | .ok (some (.ok dir)) => .ok (some dir)

/-- The names that a name leads to, by the fold. -/
def Name.resolve (fs : Tree) (task : Task) (name : Name) (follow : Bool) : Except Stop (List Path) :=
  if name.path = [] then .error (.err .enoent)
  else
    match name.start task with
    | .error stop => .error stop
    | .ok at' =>
      match Fs.resolve fs task.cred follow 5 (words slash (atBytes at')) name.path with
      | .error e => .error (.err e)
      | .ok names => .ok names

/-- The directory that a name starts from has a normal path, and there is room for the name behind it. -/
def Name.Starts (task : Task) (name : Name) : Prop :=
  ∀ at', name.start task = .ok at' → IsStart at' ∧ (atBytes at').length < maxPath ∧ Fits at' name.path

/-- The names that a call makes or removes an entry for, and whether it follows a link there. -/
def Request.changes : Request → List (Name × Bool)
  | linkat _ dst => [(dst, false)]
  | unlinkat name => [(name, false)]
  | renameat src dst => [(src, false), (dst, false)]
  | symlinkat _ link => [(link, false)]
  | mknodat name _ => [(name, false)]
  | mkdirat name => [(name, true)]
  | rmdirat name => [(name, true)]
  | openat name create => if create then [(name, true)] else []

section

variable {fs : Tree} {mounts : MountView} {task : Task} {name : Name}

theorem pathIsNormalized_of_isStart {at' : Path} (h : IsStart (some at')) : pathIsNormalized at' := by
  rcases h at' rfl with rfl | ⟨names, hnames, rfl⟩
  · rfl
  · exact pathIsNormalized_unwords fun w hw => (hnames w hw).1

/-- What `path_normalize` gives does not depend on `N_PARENT_DIR_WRITE`. -/
theorem name_normalize_eq (hname : name.Starts task) (follow parentDirWrite : Bool) :
    name.normalize fs task follow parentDirWrite = (name.resolve fs task follow).map (unwords slash) := by
  have hfold : ∀ at', name.start task = .ok at' → name.path ≠ [] →
      normalize fs task.cred ⟨follow, parentDirWrite⟩ 5 at' name.path =
        answer (Fs.resolve fs task.cred follow 5 (words slash (atBytes at')) name.path) := by
    intro at' hstart hne
    obtain ⟨hat, hlen, hfits⟩ := hname at' hstart
    exact normalize_eq fs task.cred _ 5 hat hne hlen ((hfits.resolve_left hne).resolve_left (Nat.not_le.2 hlen))
  unfold Name.normalize pathNormalize Name.resolve
  by_cases hne : name.path = []
  · rw [if_pos hne, if_pos hne]
    rfl
  rw [if_neg hne, if_neg hne]
  rcases hdir : startDir task name.dir name.path with stop | _ | _ | dir
  · simp only [Name.start, hdir]
    rfl
  · have hstart : name.start task = .ok none := by rw [Name.start, hdir]
    rw [hstart]
    dsimp only
    rw [hfold none hstart hne]
    rcases Fs.resolve fs task.cred follow 5 (words slash (atBytes none)) name.path with e | names
    · rfl
    · rfl
  · simp only [Name.start, hdir]
    rfl
  · have hstart : name.start task = .ok (some dir) := by rw [Name.start, hdir]
    rw [hstart]
    dsimp only
    rw [if_pos (pathIsNormalized_of_isStart (hname _ hstart).1), hfold _ hstart hne]
    rcases Fs.resolve fs task.cred follow 5 (words slash (atBytes (some dir))) name.path with e | names
    · rfl
    · rfl

theorem exists_of_bind_ok {α β : Type} {x : Except Stop α} {f : α → Except Stop β} {b : β}
    (h : (x >>= f) = .ok b) : ∃ a, x = .ok a ∧ f a = .ok b := by
  cases x with
  | error stop => cases h
  | ok a => exact ⟨a, rfl, h⟩

theorem changed_callEntry {op : FsOp} {path : Path} {call : FsCall} (h : callEntry mounts op path = .ok call) :
    call.changed = [path] := by
  unfold callEntry at h
  split_ifs at h
  cases h
  rfl

theorem callPair_ok {op : FsOp} {src dst : Path} {call : FsCall} (h : callPair mounts op src dst = .ok call) :
    call = .pair op src dst := by
  unfold callPair at h
  split_ifs at h
  cases h
  rfl

/-- A call that reaches the filesystem changes the entries that its names lead to. -/
theorem changed_of_perform {request : Request} {call : FsCall}
    (hnames : ∀ x ∈ request.changes, x.1.Starts task) (h : request.perform fs mounts task = .ok call) :
    List.Forall₂ (fun x entry => (x.1.resolve fs task x.2).map (unwords slash) = .ok entry)
      request.changes call.changed := by
  have hresolve : ∀ {name : Name} {follow b : Bool} {path : Path}, (name, follow) ∈ request.changes →
      name.normalize fs task follow b = .ok path → (name.resolve fs task follow).map (unwords slash) = .ok path := by
    intro name follow b path hmem hpath
    rw [← hpath, name_normalize_eq (hnames _ hmem)]
  -- the functions for one entry end alike
  have hentry : ∀ {name : Name} {follow : Bool} {op : FsOp} {path : Path}, request.changes = [(name, follow)] →
      name.normalize fs task follow true = .ok path → callEntry mounts op path = .ok call →
      List.Forall₂ (fun x entry => (x.1.resolve fs task x.2).map (unwords slash) = .ok entry)
        request.changes call.changed := by
    intro name follow op path hchanges hpath hcall
    rw [changed_callEntry hcall, hchanges]
    exact .cons (hresolve (by simp [hchanges]) hpath) .nil
  unfold Request.perform at h
  cases request with
  | linkat src dst =>
    obtain ⟨from', -, h⟩ := exists_of_bind_ok h
    obtain ⟨to', hdst, h⟩ := exists_of_bind_ok h
    rw [callPair_ok h]
    exact .cons (hresolve (by simp [Request.changes]) hdst) .nil
  | unlinkat name =>
    obtain ⟨path, hpath, h⟩ := exists_of_bind_ok h
    exact hentry rfl hpath h
  | renameat src dst =>
    obtain ⟨from', hsrc, h⟩ := exists_of_bind_ok h
    obtain ⟨to', hdst, h⟩ := exists_of_bind_ok h
    split_ifs at h
    rw [callPair_ok h]
    exact .cons (hresolve (by simp [Request.changes]) hsrc)
      (.cons (hresolve (by simp [Request.changes]) hdst) .nil)
  | symlinkat target link =>
    obtain ⟨path, hpath, h⟩ := exists_of_bind_ok h
    exact hentry rfl hpath h
  | mknodat name mode =>
    rw [Request.performWith] at h
    cases hcheck : mknodCheck task mode with
    | some e =>
      rw [hcheck] at h
      cases h
    | none =>
      rw [hcheck] at h
      obtain ⟨path, hpath, h⟩ := exists_of_bind_ok h
      exact hentry rfl hpath h
  | mkdirat name =>
    obtain ⟨path, hpath, h⟩ := exists_of_bind_ok h
    exact hentry rfl hpath h
  | rmdirat name =>
    obtain ⟨path, hpath, h⟩ := exists_of_bind_ok h
    split_ifs at h
    exact hentry rfl hpath h
  | openat name create =>
    obtain ⟨path, hpath, h⟩ := exists_of_bind_ok h
    cases h
    cases create with
    | false => exact .nil
    | true => exact .cons (hresolve (by simp [Request.changes]) hpath) .nil

/-- Every entry that is changed is in a directory of which `P` holds, exactly if every name leads into one. -/
theorem forall_changed_iff (P : Path → Bool) {changes : List (Name × Bool)} {entries : List Path}
    (h : List.Forall₂ (fun x entry => (x.1.resolve fs task x.2).map (unwords slash) = .ok entry) changes entries) :
    (∀ entry ∈ entries, P (parentDir entry)) ↔ ∀ x ∈ changes, ∀ names, x.1.resolve fs task x.2 = .ok names →
      P (parentDir (unwords slash names)) := by
  induction h with
  | nil => simp
  | @cons x entry changes entries hx _ ih =>
    rw [List.forall_mem_cons, List.forall_mem_cons, ih]
    refine and_congr_left' ⟨fun hentry names hnames => ?_, fun hall => ?_⟩
    · rw [hnames] at hx
      cases hx
      exact hentry
    · cases hnames : x.1.resolve fs task x.2 with
      | error stop =>
        rw [hnames] at hx
        cases hx
      | ok names =>
        rw [hnames] at hx
        cases hx
        exact hall names hnames

end

/-- The directory `/d` belongs to the superuser and is readable and searchable for all. -/
def readOnlyTree : Tree :=
  ⟨fun _ => none, fun path => if path = [0x2f, 0x64] then some ⟨0o040555#32, 0, 0⟩ else none⟩

/-- One mount, whose filesystem has every operation. -/
def oneMount : MountView := ⟨fun _ => 0, fun _ => false, fun _ _ => true⟩

def user : Task := ⟨⟨1000, 1000⟩, some (.ok [slash]), some (.ok [slash])⟩

/-- `"/d/f"` -/
def readOnlyFile : Path := [0x2f, 0x64, 0x2f, 0x66]

end Ish.Fs
