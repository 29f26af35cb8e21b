import Ish.Fs.Equiv.Fake
import Ish.Lib.Run

/-!
# The database and the host tree

`Sys.Match` says that the database has the paths of the host, and one inode for the links of one object.
An operation keeps it, and changes nothing in the database if its host call fails, except in three cases:
a rename between two links of one object, which the host leaves alone; `mknod` of a path that exists, which
goes on after the failure; and a symbolic link whose file can be neither written nor removed
(`fakefs_matches_host`).
-/

namespace Ish.Fs.Fakefs

open Lib List Option

variable {s s' : Sys} {p q src dst : HPath}

/-- The database has the paths of the host, and links of one object have one inode. -/
structure Sys.Match (s : Sys) : Prop where
  paths : ∀ b, (s.db.paths.lookup b).isSome ↔ ∃ p, b = pathBytes p ∧ (s.entry p).isSome
  inodes : ∀ p q o, s.entry p = some o → s.entry q = some o →
    s.db.paths.lookup (pathBytes p) = s.db.paths.lookup (pathBytes q)

theorem Sys.Match.isSome_lookup (hm : s.Match) (hp : (s.entry p).isSome) : (s.db.paths.lookup (pathBytes p)).isSome :=
  (hm.paths _).2 ⟨p, rfl, hp⟩

theorem Sys.Plain.match_of (hs : s.Plain) (hall : ∀ p, (s.entry p).isSome → (s.db.paths.lookup (pathBytes p)).isSome)
    (hinodes : ∀ p q o, s.entry p = some o → s.entry q = some o →
      s.db.paths.lookup (pathBytes p) = s.db.paths.lookup (pathBytes q)) : s.Match where
  paths b := by
    refine ⟨fun hb => ?_, ?_⟩
    · obtain ⟨i, hi⟩ := isSome_iff_exists.1 hb
      exact (hs.paths b i hi).host
    · rintro ⟨p, rfl, hp⟩
      exact hall p hp
  inodes := hinodes

/-- If every path has, in the host and in the database, what another path had, then they still match. -/
theorem Sys.Match.of_origin (hm : s.Match) (hs' : s'.Plain) (f : HPath → HPath)
    (hf : ∀ q o, s'.entry q = some o → s.entry (f q) = some o ∧
      s'.db.paths.lookup (pathBytes q) = s.db.paths.lookup (pathBytes (f q))) : s'.Match := by
  refine hs'.match_of (fun q hq => ?_) fun q q' o hq hq' => ?_
  · obtain ⟨o, ho⟩ := isSome_iff_exists.1 hq
    obtain ⟨hentry, hlookup⟩ := hf q o ho
    rw [hlookup]
    exact hm.isSome_lookup (by rw [hentry]; rfl)
  · obtain ⟨hentry, hlookup⟩ := hf q o hq
    obtain ⟨hentry', hlookup'⟩ := hf q' o hq'
    rw [hlookup, hlookup']
    exact hm.inodes _ _ o hentry hentry'

theorem Sys.Tidied.match (h : s.Tidied s') (hs' : s'.Plain) (hm : s.Match) : s'.Match := by
  refine hm.of_origin hs' id fun q o hq => ⟨?_, by rw [h.paths]; rfl⟩
  rw [h.entry] at hq
  exact hq

theorem Sys.Match.create (hm : s.Match) (hs : s.Plain) (hs' : s'.Plain)
    (hentry : ∀ q, s'.entry q = if q = p then some s.host.next else s.entry q) {i : Nat}
    (hlookup : ∀ b, s'.db.paths.lookup b = if b = pathBytes p then some i else s.db.paths.lookup b) : s'.Match := by
  have hother : ∀ q, q ≠ p → s'.db.paths.lookup (pathBytes q) = s.db.paths.lookup (pathBytes q) := by
    intro q hq
    rw [hlookup, if_neg fun h => hq (pathBytes_injective h)]
  have hnew : ∀ q, s.entry q ≠ some s.host.next := fun q hq => (hs.wf.fresh _ _ hq).ne rfl
  refine hs'.match_of (fun q hq => ?_) fun q q' o hq hq' => ?_
  · rw [hentry] at hq
    split_ifs at hq with heq
    · rw [heq, hlookup, if_pos rfl]
      rfl
    · rw [hother q heq]
      exact hm.isSome_lookup hq
  · rw [hentry] at hq hq'
    split_ifs at hq hq' with heq heq' heq'
    · rw [heq, heq']
    · cases hq
      exact absurd hq' (hnew q')
    · cases hq'
      exact absurd hq (hnew q)
    · rw [hother q heq, hother q' heq']
      exact hm.inodes q q' o hq hq'

/-! ### Operations -/

structure Db.Same (db db' : Db) : Prop where
  paths : ∀ b, db'.paths.lookup b = db.paths.lookup b
  stats : ∀ i, db'.stats.lookup i = db.stats.lookup i

/-- What is asked of an operation: the trees match after it, and a host call that fails leaves the
database alone. -/
structure Sys.Keeps (s s' : Sys) (out : Outcome) : Prop where
  tree : s'.Match
  unchanged : ∀ e, out = .host e → s.db.Same s'.db

/-- The operations that keep them: a rename is not between two links of one object, the status that
`mknod` writes after a failure is the one that is there, and a file of `symlink` is removed if it cannot
be written. -/
def Sys.TreeSafe (s : Sys) : Act → Prop
  | .rename src dst fault =>
    ∀ host, s.hostRename src dst fault = .ok host → src = dst ∨ s.entry src ≠ s.entry dst
  | .mknod p mode dev cred fault =>
    s.hostMknod p mode fault = .error .eexist →
      s.db.inodeReadStat (s.db.pathGetInode (pathBytes p)) = some (mknodStat mode dev cred)
  | .symlink target link _ fault =>
    fault = .unlink → ∀ host, s.host.make (s.at false link) .file target ≠ .ok host
  | _ => True

theorem Sys.openRest_ne_host (s : Sys) (i : Nat) (fd : Fd) (how : OpenEnd) (e : HostErrno) :
    (s.openRest i fd how).2 ≠ .host e := by
  unfold Sys.openRest
  dsimp only
  split_ifs <;> simp

/-- `path_rename` of a path to itself. -/
theorem Db.lookup_pathRename_self (db : Db) (src q : HPath) :
    (db.pathRename (pathBytes src) (pathBytes src)).paths.lookup (pathBytes q) = db.paths.lookup (pathBytes q) := by
  rw [Db.lookup_pathRename_pathBytes]
  by_cases hq : src <+: q
  · obtain ⟨r, rfl⟩ := hq
    rw [if_pos (prefix_append src r), if_pos (prefix_append src r), drop_left, or_none]
  · rw [if_neg hq, if_neg hq, none_or]

theorem Sys.Match.move (hm : s.Match) {host : Host} (hmoved : s.host.Moved host (s.root ++ src) (s.root ++ dst))
    (hs' : ({ s with host := host, db := s.db.pathRename (pathBytes src) (pathBytes dst) } : Sys).Plain) :
    ({ s with host := host, db := s.db.pathRename (pathBytes src) (pathBytes dst) } : Sys).Match := by
  refine hm.of_origin hs' (fun q => if dst <+: q then src ++ q.drop dst.length else q) fun q o hq => ?_
  have hq : host.entry (s.root ++ q) = some o := hq
  rw [Sys.entry_moved hmoved] at hq
  show _ ∧ (s.db.pathRename (pathBytes src) (pathBytes dst)).paths.lookup (pathBytes q) = _
  rw [Db.lookup_pathRename_pathBytes]
  by_cases hd : dst <+: q
  · have hf : (if dst <+: q then src ++ q.drop dst.length else q) = src ++ q.drop dst.length := if_pos hd
    rw [if_pos hd] at hq
    rw [hf, if_pos hd]
    refine ⟨hq, ?_⟩
    obtain ⟨i, hi⟩ := isSome_iff_exists.1 (hm.isSome_lookup (by rw [hq]; rfl))
    rw [hi, some_or]
  · have hf : (if dst <+: q then src ++ q.drop dst.length else q) = q := if_neg hd
    rw [if_neg hd] at hq
    obtain ⟨hsrc, hq⟩ := ite_none_left_eq_some.1 hq
    rw [hf, if_neg hd, if_neg hsrc, none_or]
    exact ⟨hq, rfl⟩

/-- **A safe operation keeps the trees matched.** -/
theorem Sys.Match.step (hm : s.Match) (hs : s.Plain) {a : Act} {out : Outcome}
    (hcall : s.call a = some (s', out)) (hsafe : s.TreeSafe a) : s.Keeps s' out := by
  have he := hs.effect hcall
  have hs' := he.plain hs
  cases he with
  | quiet hhost =>
    refine ⟨hm.of_origin hs' id fun q o hq => ⟨?_, rfl⟩, fun _ _ => ⟨fun _ => rfl, fun _ => rfl⟩⟩
    have hq : Host.entry _ _ = some o := hq
    rwa [hhost.entry] at hq
  | writeStat hrow =>
    refine ⟨hm.of_origin hs' id fun q o hq => ⟨hq, ?_⟩, fun e he => by cases he⟩
    show (s.db.inodeWriteStat _ _).paths.lookup _ = _
    rw [Db.paths_inodeWriteStat]
    rfl
  | @mknodOver p mode dev cred fault inode hfail hdb =>
    refine ⟨hm.of_origin hs' id fun q o hq => ⟨hq, ?_⟩, fun _ _ => ⟨fun b => ?_, fun i => ?_⟩⟩
    · show (s.db.inodeWriteStat _ _).paths.lookup _ = _
      rw [Db.paths_inodeWriteStat]
      rfl
    · show (s.db.inodeWriteStat _ _).paths.lookup b = _
      rw [Db.paths_inodeWriteStat]
    · -- the status is the one that is there
      have hstat := hsafe hfail
      rw [Db.pathGetInode_of_lookup hdb] at hstat
      obtain ⟨row, hrow, heq⟩ := map_eq_some_iff.1 hstat
      show (s.db.inodeWriteStat _ _).stats.lookup i = _
      rw [Db.lookup_inodeWriteStat hrow]
      split_ifs with hi
      · rw [hi, hrow, ← heq]
      · rfl
  | leftover hmake hhost => exact absurd hmake (hsafe rfl _)
  | create hdb hhost =>
    rcases hhost with ⟨hmakes, rfl⟩ | ⟨-, hexists⟩
    · refine ⟨hm.create hs hs' (fun q => ?_) (s.db.lookup_pathCreate _ _), fun e he => by cases he⟩
      show Host.entry _ _ = _
      rw [hmakes.entry]
      simp only [append_cancel_left_eq]
      rfl
    · have hsome := hm.isSome_lookup hexists
      rw [hdb] at hsome
      cases hsome
  | @link src dst fault inode host hhost hsrc =>
    obtain ⟨o, hentry, -, hnone, -, hhost'⟩ := Host.link_eq_ok hhost
    refine ⟨hm.of_origin hs' (fun q => if q = dst then src else q) fun q o' hq => ?_,
      fun e he => by cases he⟩
    have hq : host.entry (s.root ++ q) = some o' := hq
    show _ ∧ (s.db.paths.insert (pathBytes dst) inode).lookup (pathBytes q) = _
    rw [lookup_insert_apply]
    rw [hhost', Host.entry_insert] at hq
    simp only [append_cancel_left_eq] at hq
    by_cases hqd : q = dst
    · rw [if_pos hqd] at hq ⊢
      cases hq
      exact ⟨hentry, by rw [if_pos (by rw [hqd]), hsrc]⟩
    · rw [if_neg hqd] at hq ⊢
      exact ⟨hq, by rw [if_neg fun h => hqd (pathBytes_injective h)]⟩
  | @remove _ p host hhost =>
    have htidy := Sys.tidied_inodeCheckOrphaned
      { s with host := host, db := (s.db.pathUnlink (pathBytes p)).1 } (s.db.pathUnlink (pathBytes p)).2
    refine ⟨hm.of_origin hs' id fun q o hq => ?_, fun e he => by cases he⟩
    rw [htidy.entry] at hq
    have hq : host.entry (s.root ++ q) = some o := hq
    rw [hhost.entry] at hq
    obtain ⟨hqp, hq⟩ := ite_none_left_eq_some.1 hq
    refine ⟨hq, ?_⟩
    rw [htidy.paths]
    show (s.db.pathUnlink (pathBytes p)).1.paths.lookup (pathBytes q) = _
    rw [hs.lookup_pathUnlink, if_neg]
    · rfl
    · exact fun h => hqp (by rw [pathBytes_injective h])
  | @«alias» src dst fault o hsrc hdst hhost =>
    rcases hsafe _ hhost with rfl | hne
    · refine ⟨hm.of_origin hs' id fun q o hq => ⟨hq, ?_⟩, fun e he => by cases he⟩
      exact s.db.lookup_pathRename_self src q
    · exact absurd (hsrc.trans hdst.symm) hne
  | move hsrc hdst hhost hmoved => exact ⟨hm.move hmoved hs', fun e he => by cases he⟩
  | openRest hfd hopened href =>
    exact ⟨(s.tidied_openRest _ _ _).match hs' hm, fun e he => absurd he (s.openRest_ne_host _ _ _ e)⟩
  | dup hfd hopened href =>
    exact ⟨(s.tidied_setFd _ _).match hs' hm, fun e he => by cases he⟩
  | close hfd hopened href =>
    exact ⟨(s.tidied_fdClose _ _).match hs' hm, fun e he => by cases he⟩

/-! ### What goes wrong -/

theorem Sys.Plain.not_match_alias (hs : s.Plain) {o : Nat} (hsrc : s.entry src = some o)
    (hdst : s.entry dst = some o) (hne : src ≠ dst) :
    ¬({ s with db := s.db.pathRename (pathBytes src) (pathBytes dst) } : Sys).Match := by
  intro hm
  have hsome := hm.isSome_lookup (p := src) (by show (s.entry src).isSome; rw [hsrc]; rfl)
  have hlookup : ((s.db.pathRename (pathBytes src) (pathBytes dst)).paths.lookup (pathBytes src)).isSome := hsome
  rw [Db.lookup_pathRename_pathBytes, if_pos (prefix_refl src), if_neg] at hlookup
  · cases hlookup
  · rintro ⟨r, rfl⟩
    rcases hs.alias_below hdst hsrc (r := r) (by rw [hsrc]; rfl) with rfl | h
    · exact hne (append_nil dst)
    · exact hne h.symm

theorem Sys.Plain.treeSafe_of_keeps (hs : s.Plain) {a : Act} {out : Outcome}
    (hcall : s.call a = some (s', out)) (hkeeps : s.Keeps s' out) : s.TreeSafe a := by
  cases a with
  | rename src dst fault =>
    intro host hok
    by_contra hbad
    obtain ⟨hne, hentry⟩ := not_or.1 hbad
    rw [not_not] at hentry
    have hhost := hok
    unfold Sys.hostRename at hhost
    split_ifs at hhost
    rw [hs.at_eq, hs.at_eq] at hhost
    obtain ⟨o, hsrc, ⟨hdst, rfl⟩ | ⟨hdst, -⟩⟩ := hs.wf.rename hhost
    · have hstate : s.rename src dst fault = _ := Option.some.inj hcall
      unfold Sys.rename at hstate
      rw [hs.isUnderReadonly, hs.isUnderReadonly, Bool.or_false, if_neg Bool.false_ne_true, hok] at hstate
      obtain ⟨rfl, -⟩ := Prod.mk.inj hstate
      exact hs.not_match_alias hsrc hdst hne hkeeps.tree
    · exact hdst (hentry.symm.trans hsrc)
  | mknod p mode dev cred fault =>
    intro hfail
    have hstate : s.mknod p mode dev cred fault = _ := Option.some.inj hcall
    unfold Sys.mknod at hstate
    rw [hs.isUnderReadonly, if_neg Bool.false_ne_true, hfail] at hstate
    obtain ⟨rfl, rfl⟩ := Prod.mk.inj hstate
    have hsame : s.db.Same (s.db.mknod (pathBytes p) (mknodStat mode dev cred)) := hkeeps.unchanged _ rfl
    unfold Db.mknod at hsame
    cases hp : s.db.paths.lookup (pathBytes p) with
    | none =>
      -- a path would be new
      rw [if_pos (hs.pathGetInode_eq_zero.2 hp)] at hsame
      have hnew := hsame.paths (pathBytes p)
      rw [Db.lookup_pathCreate, if_pos rfl, hp] at hnew
      cases hnew
    | some inode =>
      obtain ⟨row, hrow⟩ := isSome_iff_exists.1 (hs.paths _ _ hp).row
      rw [Db.pathGetInode_of_lookup hp, if_neg (hs.paths _ _ hp).pos] at hsame
      have hstat := hsame.stats inode
      rw [Db.lookup_inodeWriteStat hrow, if_pos rfl, hrow] at hstat
      rw [Db.pathGetInode_of_lookup hp]
      unfold Db.inodeReadStat
      rw [hrow, map_some, ← Option.some.inj hstat]
  | symlink target link cred fault =>
    rintro rfl host hmake
    have hstate : s.symlink target link cred .unlink = _ := Option.some.inj hcall
    unfold Sys.symlink at hstate
    rw [hs.isUnderReadonly, if_neg Bool.false_ne_true, if_neg (by simp), hmake] at hstate
    obtain ⟨rfl, -⟩ := Prod.mk.inj hstate
    rw [hs.at_eq] at hmake
    obtain ⟨hnone, -, rfl⟩ := Host.make_eq_ok hmake
    have hsome := hkeeps.tree.isSome_lookup (p := link) (by
      show (Host.entry _ _).isSome
      rw [Host.entry_add, if_pos rfl]
      rfl)
    have hlookup : (s.db.paths.lookup (pathBytes link)).isSome := hsome
    rw [hs.lookup_eq_none hnone] at hlookup
    cases hlookup
  | _ => trivial

theorem Sys.Plain.step (hs : s.Plain) {a : Act} (hstep : s.step a = some s') : s'.Plain := by
  obtain ⟨⟨s₁, out⟩, hcall, rfl⟩ := map_eq_some_iff.1 hstep
  exact (hs.effect hcall).plain hs

theorem Sys.Match.run {s₀ : Sys} (hs : s₀.Plain) (hm : s₀.Match) (hrun : Run Sys.step Sys.TreeSafe s₀ s) :
    s.Plain ∧ s.Match := by
  refine hrun.inv (fun s => s.Plain ∧ s.Match) (fun s a s' h hsafe hstep => ?_) ⟨hs, hm⟩
  obtain ⟨⟨s₁, out⟩, hcall, rfl⟩ := map_eq_some_iff.1 hstep
  exact ⟨h.1.step hstep, (h.2.step h.1 hcall hsafe).tree⟩

/-- **The database matches the host tree** in every run of safe operations; a further operation keeps it
so, and leaves the database alone if its host call fails, if and only if it is safe. -/
theorem fakefs_matches_host {s₀ : Sys} (hs : s₀.Plain) (hm : s₀.Match) :
    (∀ s, Run Sys.step Sys.TreeSafe s₀ s → s.Match) ∧
      ∀ s a s' out, Run Sys.step Sys.TreeSafe s₀ s → s.call a = some (s', out) → (s.Keeps s' out ↔ s.TreeSafe a) := by
  refine ⟨fun s hrun => (Sys.Match.run hs hm hrun).2, fun s a s' out hrun hcall => ?_⟩
  obtain ⟨hs, hm⟩ := Sys.Match.run hs hm hrun
  exact ⟨hs.treeSafe_of_keeps hcall, hm.step hs hcall⟩

theorem emptyMount_match : emptyMount.Match := by
  refine emptyMount_plain.match_of (fun p hp => ?_) fun p q o hp hq => ?_
  · rw [emptyMount_entry] at hp
    split_ifs at hp with hnil
    · rw [hnil, emptyMount_lookup]
      rfl
    · cases hp
  · rw [emptyMount_entry] at hp hq
    split_ifs at hp hq with hnil hnil'
    rw [hnil, hnil']

theorem renameAct_isSome : (afterFiles.call renameAct).isSome := by decide

def afterRename : Sys × Outcome := Option.get _ renameAct_isSome

/-- One file can be renamed to the other. -/
theorem fakefs_matches_host_rename :
    afterFiles.TreeSafe renameAct ∧ afterRename.2 = .ok ∧ afterFiles.Keeps afterRename.1 afterRename.2 := by
  have hrun : Run Sys.step Sys.TreeSafe emptyMount afterFiles := by
    refine Run.of_foldlM (fun a ha s => ?_) (some_get filesRun_isSome).symm
    simp only [filesRun, mem_cons, not_mem_nil, or_false] at ha
    rcases ha with rfl | rfl <;> trivial
  have hsafe : afterFiles.TreeSafe renameAct := fun _ _ => .inr (by decide)
  exact ⟨hsafe, by decide,
    ((fakefs_matches_host emptyMount_plain emptyMount_match).2 afterFiles renameAct afterRename.1
      afterRename.2 hrun (some_get renameAct_isSome).symm).2 hsafe⟩

/-- A file gets a second link, and one link is renamed to the other. -/
def aliasRun : List Act := [createAct nameA, .link [nameA] [nameB] false, renameAct]

theorem aliasRun_isSome : (aliasRun.foldlM Sys.step emptyMount).isSome := by decide

def afterAlias : Sys := Option.get _ aliasRun_isSome

/-- The host still has the first path, and the database has not. -/
theorem fakefs_loses_path_aliasRun : Run Sys.step anyStep emptyMount afterAlias ∧ (afterAlias.entry [nameA]).isSome ∧
      afterAlias.db.paths.lookup (pathBytes [nameA]) = none ∧ ¬afterAlias.Match := by
  have hentry : (afterAlias.entry [nameA]).isSome := by decide
  have hlookup : (afterAlias.db.paths.lookup (pathBytes [nameA])).isNone := by decide
  refine ⟨Run.of_foldlM (fun _ _ _ => trivial) (some_get aliasRun_isSome).symm, hentry,
    isNone_iff_eq_none.1 hlookup, fun hm => ?_⟩
  have hsome := hm.isSome_lookup hentry
  rw [isNone_iff_eq_none.1 hlookup] at hsome
  cases hsome

end Ish.Fs.Fakefs
