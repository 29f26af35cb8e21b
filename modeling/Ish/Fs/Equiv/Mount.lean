import Ish.Fs.Mount
import Ish.Lib.Run

/-!
# Lookups in the mount table

The table stays in order, so that the search finds the longest mount point. The cache is taken
whenever the path is under the cached mount; a longer mount point below it is then missed. Its version is
tested without the lock, so that a mount or an unmount can come between the test and the return.
-/

namespace Ish.Fs

open Lib List Option

/-- In order of non-increasing mount point length. -/
def Descending (mounts : List Mount) : Prop :=
  mounts.Pairwise fun m m' => m'.point.length ≤ m.point.length

/-- `m` is a mount of the table, and its point is the longest one that is equal to the path or
followed by a slash in it. -/
structure IsLongest (mounts : List Mount) (path : Path) (m : Mount) : Prop where
  mem : m ∈ mounts
  under : underPoint m.point path
  longest : ∀ m' ∈ mounts, underPoint m'.point path → m'.point.length ≤ m.point.length

variable {mounts : List Mount} {path : Path}

theorem Descending.isLongest (h : Descending mounts) {m : Mount}
    (hfind : mounts.find? (fun m => underPoint m.point path) = some m) : IsLongest mounts path m := by
  obtain ⟨hunder, front, back, rfl, hfront⟩ := find?_eq_some_iff_append.1 hfind
  refine ⟨mem_of_find?_eq_some hfind, hunder, fun m' hm' hunder => ?_⟩
  rcases mem_append.1 hm' with hm' | hm'
  · have := hfront m' hm'
    rw [hunder] at this
    cases this
  · rcases mem_cons.1 hm' with rfl | hm'
    · exact Nat.le_refl _
    · exact rel_of_pairwise_cons (pairwise_append.1 h).2.1 hm'

theorem mem_insertMount {new m : Mount} : m ∈ insertMount new mounts ↔ m = new ∨ m ∈ mounts := by
  induction mounts with
  | nil => simp [insertMount]
  | cons m' ms ih =>
    unfold insertMount
    split_ifs
    · simp
    · rw [mem_cons, ih, mem_cons]
      tauto

theorem Descending.insertMount (h : Descending mounts) (new : Mount) : Descending (insertMount new mounts) := by
  induction mounts with
  | nil => exact pairwise_singleton _ _
  | cons m ms ih =>
    obtain ⟨hm, hms⟩ := pairwise_cons.1 h
    unfold Fs.insertMount
    split_ifs with hle
    · refine pairwise_cons.2 ⟨fun m' hm' => ?_, h⟩
      rcases mem_cons.1 hm' with rfl | hm'
      · exact hle
      · exact Nat.le_trans (hm m' hm') hle
    · refine pairwise_cons.2 ⟨fun m' hm' => ?_, ih hms⟩
      rcases mem_insertMount.1 hm' with rfl | hm'
      · exact Nat.le_of_lt (Nat.not_le.1 hle)
      · exact hm m' hm'

variable {τ : Type}

/-- The lookup has passed the version test of its cache and has not retained the mount yet. -/
def FindPc.fast : FindPc → Bool
  | .tested _ _ | .hit _ _ => true
  | .idle | .slow _ => false

/-- What a lookup on the fast path may count on: its mount is there, and it is the one to return if it is taken. -/
def Mounts.Sees (s : Mounts τ) : FindPc → Prop
  | .idle | .slow _ => True
  | .tested path id =>
    ∃ m, s.get id = some m ∧ (m.point ≠ [] ∧ underPoint m.point path → IsLongest s.mounts path m)
  | .hit path id => ∃ m, s.get id = some m ∧ IsLongest s.mounts path m

/-- The table is in order, a cache of the current version names one of its mounts, no freed mount was
accessed, and no lookup on the fast path was overtaken by a change. -/
structure Mounts.Ok (s : Mounts τ) : Prop where
  descending : Descending s.mounts
  version : ∀ t, (s.cache t).version ≤ s.version
  cached : s.changing = false → ∀ t id, (s.cache t).last = some id → (s.cache t).version = s.version →
    ∃ m, s.get id = some m
  fault : s.fault = false
  steady : ∀ t, (s.pc t).fast → s.changing = false
  sees : ∀ t, s.Sees (s.pc t)

theorem ok_mountsInit : (mountsInit τ).Ok where
  descending := List.Pairwise.nil
  version _ := Nat.le_refl _
  cached _ _ _ h := by cases h
  fault := rfl
  steady _ h := by cases h
  sees _ := trivial

variable {s s' : Mounts τ} {t : τ} {act : MountAct τ} {id : Nat}

theorem Mounts.get_isSome {m : Mount} (h : m ∈ s.mounts) : ∃ m', s.get m.id = some m' :=
  isSome_iff_exists.1 (find?_isSome.2 ⟨m, h, by simp⟩)

/-- The list is changed while no lookup is on the fast path. -/
theorem Mounts.Ok.change (h : s.Ok) (hslow : ∀ t, (s.pc t).fast = false) (hmounts : Descending mounts) (nextId : Nat) :
    Mounts.Ok { s with mounts := mounts, nextId := nextId, changing := true } where
  descending := hmounts
  version := h.version
  cached hchange := by cases hchange
  fault := h.fault
  steady t hfast := by
    rw [hslow t] at hfast
    cases hfast
  sees t := by
    have hfast := hslow t
    show Mounts.Sees _ (s.pc t)
    cases hpc : s.pc t with
    | idle | slow => trivial
    | tested | hit =>
      rw [hpc] at hfast
      cases hfast

/-- The version is counted up: no cache is of the new version. -/
theorem Mounts.Ok.invalidate (h : s.Ok) : Mounts.Ok { s with version := s.version + 1, changing := false } where
  descending := h.descending
  version t := Nat.le_succ_of_le (h.version t)
  cached _ t id _ hversion := by
    have hle := h.version t
    dsimp only at hversion
    omega
  fault := h.fault
  steady _ _ := rfl
  sees t := h.sees t

/-- References do not matter for what is found. -/
theorem Mounts.Ok.count (h : s.Ok) (refcount : Nat → Nat) : Mounts.Ok { s with refcount := refcount } :=
  ⟨h.descending, h.version, h.cached, h.fault, h.steady, h.sees⟩

variable [DecidableEq τ]

theorem Mounts.Ok.goto (h : s.Ok) {pc : FindPc} (hsteady : pc.fast → s.changing = false) (hsees : s.Sees pc) :
    (s.goto t pc).Ok := by
  refine ⟨h.descending, h.version, h.cached, h.fault, fun t' => ?_, fun t' => ?_⟩
  all_goals
    by_cases ht : t' = t
    · simp only [Mounts.goto, ht, Function.update_self]
      assumption
    · simp only [Mounts.goto, Function.update_of_ne ht]
      first | exact h.steady t' | exact h.sees t'

theorem Mounts.Ok.remember (h : s.Ok) (hmem : ∃ m, s.get id = some m) :
    Mounts.Ok { s with cache := Function.update s.cache t ⟨some id, s.version⟩ } := by
  refine ⟨h.descending, fun t' => ?_, fun hchange t' id' hlast hversion => ?_, h.fault, h.steady, h.sees⟩
  · by_cases ht : t' = t
    · simp [ht]
    · simp only [Function.update_of_ne ht]
      exact h.version t'
  · by_cases ht : t' = t
    · simp only [ht, Function.update_self, Option.some.injEq] at hlast
      exact hlast ▸ hmem
    · simp only [Function.update_of_ne ht] at hlast hversion
      exact h.cached hchange t' id' hlast hversion

/-- The conditions of the steps. The table is not changed while a lookup is between the version test of its
cache and its return; a test that passes is not made within a change, and no longer mount point is then hidden by
that of the cached mount; and a path that is searched fits some mount. -/
def Mounts.Careful (s : Mounts τ) : MountAct τ → Prop
  | .mount _ _ | .umount _ => ∀ t, (s.pc t).fast = false
  | .find t path => ∀ id ∈ (s.cache t).last, (s.cache t).version = s.version →
      s.changing = false ∧ ∀ c ∈ s.get id, c.point ≠ [] ∧ underPoint c.point path →
        ∀ m ∈ s.mounts, underPoint m.point path → m.point.length ≤ c.point.length
  | .next t =>
    match s.pc t with
    | .slow path => ∃ m ∈ s.mounts, underPoint m.point path
    | .idle | .tested _ _ | .hit _ _ => True
  | .invalidate | .retain _ | .release _ => True

theorem Mounts.Ok.find (h : s.Ok) (hok : s.Careful (.find t path)) : (s.find t path).Ok := by
  unfold Mounts.find
  cases hlast : (s.cache t).last with
  | none => exact h.goto nofun trivial
  | some id =>
    dsimp only
    split_ifs with hversion
    · exact h.goto nofun trivial
    · obtain ⟨hchange, hlong⟩ := hok id hlast (not_not.1 hversion)
      obtain ⟨c, hc⟩ := h.cached hchange t id hlast (not_not.1 hversion)
      refine h.goto (fun _ => hchange) ⟨c, hc, fun hunder => ?_⟩
      exact ⟨mem_of_find?_eq_some hc, hunder.2, hlong c hc hunder⟩

theorem Mounts.Ok.compare (h : s.Ok) (hpc : s.pc t = .tested path id) : (s.compare t path id).Ok := by
  obtain ⟨c, hc, hlong⟩ : s.Sees (.tested path id) := hpc ▸ h.sees t
  unfold Mounts.compare
  rw [hc]
  dsimp only
  split_ifs with hunder
  · exact h.goto (fun _ => h.steady t (hpc ▸ rfl)) ⟨c, hc, hlong hunder⟩
  · exact h.goto nofun trivial

/-- The lookup returns. -/
theorem Mounts.Ok.idle (h : s.Ok) (t : τ) : (s.goto t .idle).Ok :=
  h.goto nofun trivial

/-- The state after a step is in order again, and a lookup that ends in it returns the longest match. -/
theorem Mounts.Ok.call {r : Option (Path × Mount)} (h : s.Ok) (hok : s.Careful act) (hcall : s.call act = some (s', r)) :
    s'.Ok ∧ ∀ path m, r = some (path, m) → IsLongest s.mounts path m := by
  cases act with
  | mount ok point =>
    obtain ⟨-, heq⟩ := ite_none_right_eq_some.1 hcall
    cases heq
    refine ⟨?_, nofun⟩
    unfold Mounts.doMount
    split_ifs
    · exact h.change hok (h.descending.insertMount _) _
    · exact h
  | umount point =>
    obtain ⟨-, heq⟩ := ite_none_right_eq_some.1 hcall
    cases heq
    refine ⟨?_, nofun⟩
    unfold Mounts.doUmount
    split
    · exact h
    · split_ifs
      · exact h
      · exact h.change hok (h.descending.filter _) _
  | invalidate =>
    obtain ⟨-, heq⟩ := ite_none_right_eq_some.1 hcall
    cases heq
    exact ⟨h.invalidate, nofun⟩
  | find t path =>
    obtain ⟨-, heq⟩ := ite_none_right_eq_some.1 hcall
    cases heq
    exact ⟨h.find hok, nofun⟩
  | next t =>
    replace hcall : s.next t = some (s', r) := hcall
    unfold Mounts.next at hcall
    cases hpc : s.pc t with
    | idle =>
      rw [hpc] at hcall
      cases hcall
    | tested path id =>
      rw [hpc] at hcall
      cases hcall
      exact ⟨h.compare hpc, nofun⟩
    | hit path id =>
      rw [hpc] at hcall
      obtain ⟨-, heq⟩ := ite_none_right_eq_some.1 hcall
      obtain ⟨c, hc, hlong⟩ : s.Sees (.hit path id) := hpc ▸ h.sees t
      unfold Mounts.takeCached at heq
      rw [hc] at heq
      cases heq
      refine ⟨(h.idle t).count _, ?_⟩
      rintro _ _ ⟨⟩
      exact hlong
    | slow path =>
      rw [hpc] at hcall
      obtain ⟨-, heq⟩ := ite_none_right_eq_some.1 hcall
      obtain ⟨m, hsearch, heq⟩ := map_eq_some_iff.1 heq
      cases heq
      have hget := Mounts.get_isSome (mem_of_find?_eq_some hsearch)
      refine ⟨((h.idle t).remember hget).count _, ?_⟩
      rintro _ _ ⟨⟩
      exact h.descending.isLongest hsearch
  | retain id | release id =>
    obtain ⟨-, heq⟩ := ite_none_right_eq_some.1 hcall
    cases heq
    exact ⟨h.count _, nofun⟩

/-- A lookup that has not ended can go on whenever no change is in progress. -/
theorem Mounts.call_next (hok : s.Careful (.next t)) (hpc : s.pc t ≠ .idle) (hchange : s.changing = false) :
    (s.call (.next t)).isSome := by
  show (s.next t).isSome
  unfold Mounts.next
  simp only [Mounts.Careful] at hok
  cases h : s.pc t with
  | idle => exact absurd h hpc
  | tested path id => rfl
  | hit path id => simp [hchange]
  | slow path =>
    rw [h] at hok
    simp only [hchange, if_true, Mounts.slowPath, isSome_map]
    exact find?_isSome.2 hok

/-- **Mount lookup.**  In every run whose steps meet the conditions the table is in order, no freed mount is
accessed, and every lookup that ends, by its cache or by a search, returns a mount of the table it ends in with the
longest point that fits; and a lookup waits only for a change in progress. -/
theorem mount_find_longest {s : Mounts τ} (hs : Run Mounts.step Mounts.Careful (mountsInit τ) s) :
    Descending s.mounts ∧ s.fault = false ∧
    (∀ act s' path m, s.Careful act → s.call act = some (s', some (path, m)) → IsLongest s.mounts path m) ∧
    ∀ t, s.Careful (.next t) → s.pc t ≠ .idle → s.changing = false → (s.call (.next t)).isSome := by
  have hok : s.Ok := by
    refine hs.inv Mounts.Ok (fun s act s' h hok hstep => ?_) ok_mountsInit
    obtain ⟨⟨s'', r⟩, hcall, rfl⟩ := map_eq_some_iff.1 hstep
    exact (h.call hok hcall).1
  exact ⟨hok.descending, hok.fault, fun act s' path m hcare hcall => (hok.call hcare hcall).2 path m rfl,
    fun t => Mounts.call_next⟩

/-- The steps that mount a filesystem. -/
def mountSteps {τ : Type} (point : Path) : List (MountAct τ) := [.mount true point, .invalidate]

/-- `/` and `/m` are mounted, `/m/x` is looked up, and a lookup of `/m` passes both tests of its cache. -/
def mntRun : List (MountAct Bool) :=
  mountSteps [] ++ mountSteps [slash, 0x6d] ++
    [.find true [slash, 0x6d, slash, 0x78], .next true, .find true [slash, 0x6d], .next true]

instance (s : Mounts Bool) (act : MountAct Bool) : Decidable (s.Careful act) := by
  cases act <;> unfold Mounts.Careful <;> first | infer_instance | (dsimp only; split <;> infer_instance)

theorem mntRun_isSome : (mntRun.foldlM (fun s a => if Mounts.Careful s a then s.step a else none)
    (mountsInit Bool)).isSome := by
  decide

/-- The state that is reached. -/
def afterMntRun : Mounts Bool := Option.get _ mntRun_isSome

/-- The cached mount is returned, and it is the longest match. -/
theorem mount_find_longest_mnt :
    (afterMntRun.call (.next true)).map Prod.snd = some (some ([slash, 0x6d], ⟨1, [slash, 0x6d]⟩)) ∧
      IsLongest afterMntRun.mounts [slash, 0x6d] ⟨1, [slash, 0x6d]⟩ := by
  have hrun : Run Mounts.step Mounts.Careful (mountsInit Bool) afterMntRun :=
    .of_guarded (some_get mntRun_isSome).symm
  exact ⟨by decide, (mount_find_longest hrun).2.2.1 (.next true) _ [slash, 0x6d] _ (by decide) rfl⟩

/-- `/`, `/m` and `/m/n` are mounted, and `/m/x` and then `/m/n/y` are looked up: that is found in the mount at `/m`.
And with `/m` in the cache of thread 0, which has passed the version test, `/m` is unmounted: its point is read after it
was freed. -/
theorem mount_find_misses_nested :
    (∃ s, (mountSteps [] ++ mountSteps [slash, 0x6d] ++ mountSteps [slash, 0x6d, slash, 0x6e] ++
        [MountAct.find (0 : Fin 2) [slash, 0x6d, slash, 0x78], .next 0,
          .find 0 [slash, 0x6d, slash, 0x6e, slash, 0x79], .next 0]).foldlM Mounts.step (mountsInit (Fin 2)) = some s ∧
      s.mounts.map Mount.point = [[slash, 0x6d, slash, 0x6e], [slash, 0x6d], []] ∧
      (s.call (.next 0)).map Prod.snd =
        some (some ([slash, 0x6d, slash, 0x6e, slash, 0x79], ⟨1, [slash, 0x6d]⟩))) ∧
    ∃ s, (mountSteps [] ++ mountSteps [slash, 0x6d] ++
        [MountAct.find (0 : Fin 2) [slash, 0x6d], .next 0, .release 1, .find 0 [slash, 0x6d],
          .umount [slash, 0x6d], .next 0]).foldlM Mounts.step (mountsInit (Fin 2)) = some s ∧ s.fault = true :=
  ⟨⟨_, rfl, by decide⟩, ⟨_, rfl, by decide⟩⟩

end Ish.Fs
