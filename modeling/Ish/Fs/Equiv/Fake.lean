import Ish.Fs.Fake
import Ish.Fs.Equiv.Host

/-!
# What an operation of fakefs does

`Sys.Effect` lists what an operation can do to the host tree, the database and the inodes in memory when
there are no bind mounts; `Sys.Plain.effect` says that the list is complete. The results about the tree
(`Fs/Equiv/FakeTree.lean`) and about inodes (`Fs/Equiv/FakeInode.lean`) go through it.
-/

namespace Ish.Fs.Fakefs

open Lib List Option

/-! ### The database -/

variable {db : Db}

def Db.HasPath (db : Db) (inode : Nat) : Prop := ∃ b, db.paths.lookup b = some inode

variable {inode : Nat}

theorem Db.any_iff_hasPath : (db.paths.entries.any fun row => row.2 = inode) = true ↔ db.HasPath inode := by
  rw [List.any_eq_true]
  constructor
  · rintro ⟨⟨b, i⟩, hmem, hi⟩
    rw [decide_eq_true_eq] at hi
    subst hi
    exact ⟨b, AList.mem_lookup_iff.2 hmem⟩
  · rintro ⟨b, hb⟩
    exact ⟨⟨b, inode⟩, AList.mem_lookup_iff.1 hb, decide_eq_true rfl⟩

theorem Db.paths_tryCleanupInode (db : Db) (inode : Nat) : (db.tryCleanupInode inode).paths = db.paths := by
  unfold Db.tryCleanupInode
  split_ifs <;> rfl

theorem Db.lookup_tryCleanupInode (db : Db) (inode i : Nat) [Decidable (db.HasPath inode)] :
    (db.tryCleanupInode inode).stats.lookup i = if i = inode ∧ ¬db.HasPath inode then none else db.stats.lookup i := by
  unfold Db.tryCleanupInode
  by_cases hpath : db.HasPath inode
  · rw [if_pos (Db.any_iff_hasPath.2 hpath), if_neg fun h => h.2 hpath]
  · rw [if_neg fun h => hpath (Db.any_iff_hasPath.1 h)]
    show (db.stats.erase inode).lookup i = _
    rw [lookup_erase_apply]
    simp only [hpath, not_false_eq_true, and_true]

variable {i : Nat}

/-- A row that a path has stays. -/
theorem Db.lookup_tryCleanupInode_of_hasPath (h : db.HasPath i) (inode : Nat) :
    (db.tryCleanupInode inode).stats.lookup i = db.stats.lookup i := by
  classical
  rw [Db.lookup_tryCleanupInode, if_neg]
  rintro ⟨rfl, hno⟩
  exact hno h

theorem le_foldr_max {l : List Nat} {k : Nat} (h : k ∈ l) : k ≤ l.foldr max 0 := by
  induction l with
  | nil => cases h
  | cons a l ih =>
    rw [foldr_cons]
    rcases mem_cons.1 h with rfl | h
    · exact Nat.le_max_left _ _
    · exact (ih h).trans (Nat.le_max_right _ _)

theorem Db.lookup_nextRowid (db : Db) : db.stats.lookup db.nextRowid = none := by
  rw [AList.lookup_eq_none]
  intro hmem
  have hle := le_foldr_max (AList.mem_keys.1 hmem)
  unfold Db.nextRowid at hle
  omega

theorem Db.nextRowid_pos (db : Db) : db.nextRowid ≠ 0 := Nat.succ_ne_zero _

theorem Db.lookup_pathCreate (db : Db) (path : Path) (stat : IshStat) (b : Path) :
    (db.pathCreate path stat).1.paths.lookup b = if b = path then some db.nextRowid else db.paths.lookup b :=
  lookup_insert_apply db.paths path b db.nextRowid

theorem Db.stats_pathCreate (db : Db) (path : Path) (stat : IshStat) (i : Nat) :
    (db.pathCreate path stat).1.stats.lookup i =
      if i = db.nextRowid then some ⟨stat, db.clock⟩ else db.stats.lookup i :=
  lookup_insert_apply db.stats db.nextRowid i _

theorem Db.stats_pathUnlink (db : Db) (path : Path) : (db.pathUnlink path).1.stats = db.stats := by
  unfold Db.pathUnlink
  split_ifs <;> rfl

theorem Db.paths_inodeWriteStat (db : Db) (inode : Nat) (stat : IshStat) :
    (db.inodeWriteStat inode stat).paths = db.paths := by
  unfold Db.inodeWriteStat
  split <;> rfl

theorem Db.lookup_inodeWriteStat {row : Row} (h : db.stats.lookup inode = some row) (stat : IshStat) (i : Nat) :
    (db.inodeWriteStat inode stat).stats.lookup i =
      if i = inode then some { row with stat := stat } else db.stats.lookup i := by
  unfold Db.inodeWriteStat
  rw [h]
  exact lookup_insert_apply db.stats inode i _

/-! ### Mounts without bind mounts -/

variable {s s' : Sys} {p q src dst : HPath}

def Sys.entry (s : Sys) (p : HPath) : Option Nat := s.host.entry (s.root ++ p)

/-- A row of the table `paths`: it has a row of `stats`, and the host has the path. -/
structure Sys.PathRow (s : Sys) (b : Path) (i : Nat) : Prop where
  pos : i ≠ 0
  row : (s.db.stats.lookup i).isSome
  host : ∃ p, b = pathBytes p ∧ (s.entry p).isSome

/-- A mount without bind mounts and without links of the host, whose database has no path that the host
has not. -/
structure Sys.Plain (s : Sys) : Prop where
  binds : s.binds = []
  wf : s.host.Wf
  links : ∀ p t, s.host.kindAt (s.root ++ p) ≠ some (.link t)
  paths : ∀ b i, s.db.paths.lookup b = some i → s.PathRow b i

theorem Host.walk_eq_append {h : Host} {cur : HPath}
    (hl : ∀ p t, h.kindAt (cur ++ p) ≠ some (.link t)) (follow : Bool) (p : HPath) :
    h.walk follow cur p = cur ++ p := by
  induction p generalizing cur with
  | nil => rw [Host.walk, append_nil]
  | cons c p ih =>
    have hnone : h.linkAt (cur ++ [c]) = none := by
      unfold Host.linkAt
      split
      · next t ht => exact absurd ht (hl [c] t)
      · rfl
    rw [Host.walk, hnone, ite_self]
    show h.walk follow (cur ++ [c]) p = _
    rw [ih (fun p t => by rw [← append_cons]; exact hl (c :: p) t), ← append_cons]

namespace Sys.Plain

variable (hs : s.Plain)
include hs

theorem at_eq (follow : Bool) (p : HPath) : s.at follow p = s.root ++ p :=
  Host.walk_eq_append hs.links follow p

theorem isUnderReadonly (p : HPath) : s.isUnderReadonly p = false := by
  unfold Sys.isUnderReadonly
  rw [hs.binds, any_nil]

theorem isUnderBindMount (p : HPath) : s.isUnderBindMount p = false := by
  unfold Sys.isUnderBindMount
  rw [hs.binds, any_nil]

theorem ensureBound (p : HPath) : s.ensureBound p = s := by
  unfold Sys.ensureBound
  rw [hs.isUnderBindMount]
  rfl

theorem openAt (p : HPath) (flags : OpenFlags) : s.openAt p flags = s.root ++ p := by
  have hnone : s.translate p = none := by
    unfold Sys.translate
    rw [hs.binds, findSome?_nil]
  unfold Sys.openAt
  rw [hnone]
  exact hs.at_eq _ p

theorem pathGetInode_eq_zero {b : Path} : s.db.pathGetInode b = 0 ↔ s.db.paths.lookup b = none := by
  unfold Db.pathGetInode
  cases hb : s.db.paths.lookup b with
  | none => simp
  | some i => simpa using (hs.paths b i hb).pos

/-- A path of the database is one of the host. -/
theorem isSome_entry (hp : s.db.paths.lookup (pathBytes p) = some i) : (s.entry p).isSome := by
  obtain ⟨q, hq, hsome⟩ := (hs.paths _ i hp).host
  rwa [← pathBytes_injective hq] at hsome

theorem lookup_eq_none (hp : s.entry p = none) : s.db.paths.lookup (pathBytes p) = none := by
  by_contra hne
  obtain ⟨i, hi⟩ := ne_none_iff_exists'.1 hne
  have hsome := hs.isSome_entry hi
  rw [hp] at hsome
  cases hsome

theorem lookup_pathUnlink (path b : Path) :
    (s.db.pathUnlink path).1.paths.lookup b = if b = path then none else s.db.paths.lookup b := by
  unfold Db.pathUnlink
  by_cases hino : s.db.pathGetInode path = 0
  · rw [if_pos hino]
    split_ifs with heq
    · rw [heq]
      exact hs.pathGetInode_eq_zero.1 hino
    · rfl
  · rw [if_neg hino]
    exact lookup_erase_apply s.db.paths path b

end Sys.Plain

/-! ### Effects -/

/-- The host has made an object that is no link. -/
structure Host.Makes (h h' : Host) (p : HPath) : Prop where
  none : h.entry p = none
  parent : h.kindAt p.dropLast = some .dir
  made : ∃ kind data, (∀ t, kind ≠ .link t) ∧ h' = h.add p kind data

structure Fd.IsNew (fd : Fd) : Prop where
  opened : fd.opened = false
  refcount : fd.refcount = 1

/-- What an operation can do, and how it ends. -/
inductive Sys.Effect (s : Sys) : Act → Sys → Outcome → Prop
  /-- The host may change contents and attributes; an fd may be on its way to being open. -/
  | quiet {a out host new} (hhost : s.host.SameTree host) (hnew : ∀ fd ∈ new, fd.IsNew) :
      Effect s a { s with host := host, fds := s.fds ++ new } out
  /-- The status of an inode is written. -/
  | writeStat {a inode stat row} (hrow : s.db.stats.lookup inode = some row) :
      Effect s a { s with db := s.db.inodeWriteStat inode stat } .ok
  /-- `mknod` of a path that exists. -/
  | mknodOver {p mode dev cred fault inode} (hfail : s.hostMknod p mode fault = .error .eexist)
      (hdb : s.db.paths.lookup (pathBytes p) = some inode) :
      Effect s (.mknod p mode dev cred fault)
        { s with db := s.db.inodeWriteStat inode (mknodStat mode dev cred) } (.host .eexist)
  /-- A file of `symlink` that could not be removed. -/
  | leftover {target link cred host} (hmake : s.host.make (s.at false link) .file target = .ok host)
      (hhost : s.host.Makes host (s.root ++ link)) :
      Effect s (.symlink target link cred .unlink) { s with host := host } (.host .other)
  /-- A path is added to the database; the host has made it, or has it and the database has not. -/
  | create {a out p stat host new} (hdb : s.db.paths.lookup (pathBytes p) = none)
      (hhost : (s.host.Makes host (s.root ++ p) ∧ out = .ok) ∨ (s.host.SameTree host ∧ (s.entry p).isSome))
      (hnew : ∀ fd ∈ new, fd.IsNew) :
      Effect s a { s with
        host := host
        db := (s.db.pathCreate (pathBytes p) stat).1
        fds := s.fds ++ new } out
  | link {src dst fault inode host} (hhost : s.host.link (s.root ++ src) (s.root ++ dst) = .ok host)
      (hsrc : s.db.paths.lookup (pathBytes src) = some inode) :
      Effect s (.link src dst fault) { s with
        host := host
        db := { s.db with paths := s.db.paths.insert (pathBytes dst) inode } } .ok
  | remove {a p host} (hhost : s.host.Removed host (s.root ++ p)) :
      Effect s a ({ s with host := host, db := (s.db.pathUnlink (pathBytes p)).1 }.inodeCheckOrphaned
        (s.db.pathUnlink (pathBytes p)).2) .ok
  /-- `rename` between two links of one object, which the host leaves alone. -/
  | alias {src dst fault o} (hsrc : s.entry src = some o) (hdst : s.entry dst = some o)
      (hhost : s.hostRename src dst fault = .ok s.host) :
      Effect s (.rename src dst fault)
        { s with db := s.db.pathRename (pathBytes src) (pathBytes dst) } .ok
  | move {src dst fault o host} (hsrc : s.entry src = some o) (hdst : s.entry dst ≠ some o)
      (hhost : s.hostRename src dst fault = .ok host)
      (hmoved : s.host.Moved host (s.root ++ src) (s.root ++ dst)) :
      Effect s (.rename src dst fault)
        { s with host := host, db := s.db.pathRename (pathBytes src) (pathBytes dst) } .ok
  /-- The rest of `generic_openat`. -/
  | openRest {i how fd} (hfd : s.fds[i]? = some fd) (hopened : fd.opened = false)
      (href : fd.refcount ≠ 0) :
      Effect s (.openRest i how) (s.openRest i fd how).1 (s.openRest i fd how).2
  | dup {i fd} (hfd : s.fds[i]? = some fd) (hopened : fd.opened = true) (href : fd.refcount ≠ 0) :
      Effect s (.dup i) (s.setFd i { fd with refcount := fd.refcount + 1 }) .ok
  | close {i fd} (hfd : s.fds[i]? = some fd) (hopened : fd.opened = true) (href : fd.refcount ≠ 0) :
      Effect s (.close i) (s.fdClose i fd) .ok

/-- Nothing happens. -/
theorem Sys.Effect.none (s : Sys) (a : Act) (out : Outcome) : s.Effect a s out := by
  have h : s.Effect a { s with host := s.host, fds := s.fds ++ [] } out :=
    .quiet (Host.SameTree.refl _) (by simp)
  rwa [append_nil] at h

theorem Sys.Effect.host {host : Host} (hhost : s.host.SameTree host) (a : Act) (out : Outcome) :
    s.Effect a { s with host := host } out := by
  have h : s.Effect a { s with host := host, fds := s.fds ++ [] } out := .quiet hhost (by simp)
  rwa [append_nil] at h

theorem Sys.Plain.create (hs : s.Plain) {kind : Kind} {data : List UInt8} {host : Host}
    (hkind : ∀ t, kind ≠ .link t) (hmake : s.host.make (s.root ++ p) kind data = .ok host) (a : Act) (stat : IshStat) :
    s.Effect a { s with host := host, db := (s.db.pathCreate (pathBytes p) stat).1 } .ok := by
  obtain ⟨hnone, hparent, hhost⟩ := Host.make_eq_ok hmake
  have h : s.Effect a { s with
      host := host, db := (s.db.pathCreate (pathBytes p) stat).1, fds := s.fds ++ [] } .ok :=
    .create (hs.lookup_eq_none hnone) (.inl ⟨⟨hnone, hparent, kind, data, hkind, hhost⟩, rfl⟩) (by simp)
  rwa [append_nil] at h

theorem Sys.addFd_eq (s : Sys) (hinode : inode ≠ 0) (object : Nat)
    (flags : OpenFlags) : ∃ new : List Fd, (∀ fd ∈ new, fd.IsNew) ∧
      s.addFd inode object flags = ({ s with fds := s.fds ++ new }, .ok) := by
  unfold Sys.addFd
  rw [if_neg hinode]
  refine ⟨_, fun fd hfd => ?_, rfl⟩
  rw [mem_singleton.1 hfd]
  exact ⟨rfl, rfl⟩

theorem Sys.ensureInode_eq (s : Sys) (p : HPath) : ∃ db, (s.ensureInode p).1 = { s with db := db } := by
  unfold Sys.ensureInode
  split_ifs
  · exact ⟨s.db, rfl⟩
  · dsimp only
    split
    · exact ⟨s.db, rfl⟩
    · exact ⟨_, rfl⟩

theorem Sys.ensureBound_eq (s : Sys) (p : HPath) : ∃ db, s.ensureBound p = { s with db := db } := by
  unfold Sys.ensureBound
  split_ifs
  · exact s.ensureInode_eq p
  · exact ⟨s.db, rfl⟩

theorem Sys.openInode_db (s : Sys) (p : HPath) (flags : OpenFlags) (stat : IshStat) :
    ∃ db, (s.openInode p flags stat).1 = { s with db := db } := by
  unfold Sys.openInode
  split_ifs
  · exact ⟨s.db, rfl⟩
  · exact ⟨_, rfl⟩
  · exact s.ensureInode_eq p
  · exact ⟨s.db, rfl⟩

theorem mknodKind_ne_link {mode : BitVec 32} {kind : Kind} (h : mknodKind mode = some kind) (t : HPath) :
    kind ≠ .link t := by
  rintro rfl
  unfold mknodKind at h
  dsimp only at h
  split_ifs at h <;> exact Kind.noConfusion (Option.some.inj h)

namespace Sys.Plain

variable (hs : s.Plain)
include hs

theorem openInode_eq (host : Host) (p : HPath) (flags : OpenFlags) (stat : IshStat) :
    ({ s with host := host } : Sys).openInode p flags stat =
      if s.db.pathGetInode (pathBytes p) ≠ 0 then
        ({ s with host := host }, s.db.pathGetInode (pathBytes p))
      else if flags.creat = true then
        ({ s with host := host, db := (s.db.pathCreate (pathBytes p) stat).1 }, s.db.nextRowid)
      else ({ s with host := host }, 0) := by
  have hunder : ({ s with host := host } : Sys).isUnderBindMount p = false := hs.isUnderBindMount p
  unfold Sys.openInode
  rw [hunder]
  rfl

theorem effect_openFile (p : HPath) (flags : OpenFlags) (mode : BitVec 32) (cred : Cred)
    (fault : Bool) : s.Effect (.openFile p flags mode cred fault)
      (s.openFile p flags mode cred fault).1 (s.openFile p flags mode cred fault).2 := by
  unfold Sys.openFile
  rw [hs.isUnderReadonly, Bool.and_false, if_neg Bool.false_ne_true]
  by_cases hfault : fault = true
  · rw [if_pos hfault]
    exact .none s _ _
  rw [if_neg hfault, hs.openAt]
  cases hopen : s.host.openat (s.root ++ p) flags with
  | error e => exact .none s _ _
  | ok r =>
    obtain ⟨host, object⟩ := r
    dsimp only
    rw [hs.openInode_eq]
    -- what the host does if it does not make a file
    have hsame : ¬(s.entry p = none ∧ flags.creat = true) → s.host.SameTree host := by
      intro hmade
      rcases Host.openat_eq_ok hopen with ⟨-, rfl | ⟨-, rfl⟩⟩ | ⟨hcreat, hentry, -⟩
      · exact Host.SameTree.refl _
      · exact Host.sameTree_setNode _ rfl
      · exact absurd ⟨hentry, hcreat⟩ hmade
    by_cases hino : s.db.pathGetInode (pathBytes p) = 0
    · rw [if_neg (not_not.2 hino)]
      by_cases hcreat : flags.creat = true
      · -- the path is added, whether or not the host had it
        rw [if_pos hcreat]
        obtain ⟨new, hnew, heq⟩ := Sys.addFd_eq
          { s with host := host, db := (s.db.pathCreate (pathBytes p) _).1 } s.db.nextRowid_pos object
          flags
        rw [heq]
        refine .create (hs.pathGetInode_eq_zero.1 hino) ?_ hnew
        cases hentry : s.entry p with
        | some o => exact .inr ⟨hsame (by simp [hentry]), rfl⟩
        | none =>
          rcases Host.openat_eq_ok hopen with ⟨hentry', -⟩ | ⟨-, -, hparent, -, hhost⟩
          · exact absurd (hentry.symm.trans hentry') (by simp)
          · exact .inl ⟨⟨hentry, hparent, .file, [], by simp, hhost⟩, rfl⟩
      · rw [if_neg hcreat]
        exact .host (hsame fun h => hcreat h.2) _ _
    · rw [if_pos hino]
      obtain ⟨new, hnew, heq⟩ := Sys.addFd_eq { s with host := host } hino object flags
      rw [heq]
      refine .quiet (hsame fun h => hino ?_) hnew
      exact hs.pathGetInode_eq_zero.2 (hs.lookup_eq_none h.1)

theorem effect_link {fault : Bool} {out : Outcome} (h : s.link src dst fault = some (s', out)) :
    s.Effect (.link src dst fault) s' out := by
  unfold Sys.link at h
  rw [hs.isUnderReadonly, if_neg Bool.false_ne_true, hs.at_eq, hs.at_eq] at h
  by_cases hfault : fault = true
  · rw [if_pos hfault] at h
    cases h
    exact .none s _ _
  rw [if_neg hfault] at h
  cases hlink : s.host.link (s.root ++ src) (s.root ++ dst) with
  | error e =>
    rw [hlink] at h
    cases h
    exact .none s _ _
  | ok host =>
    rw [hlink] at h
    obtain ⟨db, hdb, heq⟩ := map_eq_some_iff.1 h
    cases heq
    obtain ⟨hne, hdb⟩ := ite_none_left_eq_some.1 hdb
    cases hdb
    cases hsrc : s.db.paths.lookup (pathBytes src) with
    | none => exact absurd (hs.pathGetInode_eq_zero.2 hsrc) hne
    | some inode =>
      rw [Db.pathGetInode_of_lookup hsrc]
      exact .link hlink hsrc

theorem effect_remove (a : Act) {call : Sys → Except HostErrno Host}
    (hcall : ∀ host, call s = .ok host → s.host.Removed host (s.root ++ p)) :
    s.Effect a (s.remove p call).1 (s.remove p call).2 := by
  unfold Sys.remove
  rw [hs.isUnderReadonly, if_neg Bool.false_ne_true]
  simp only [hs.ensureBound]
  cases hc : call s with
  | error e => exact .none s _ _
  | ok host => exact .remove (hcall host hc)

theorem effect_rename (src dst : HPath) (fault : Bool) :
    s.Effect (.rename src dst fault) (s.rename src dst fault).1 (s.rename src dst fault).2 := by
  unfold Sys.rename
  rw [hs.isUnderReadonly, hs.isUnderReadonly, Bool.or_false, if_neg Bool.false_ne_true]
  cases hr : s.hostRename src dst fault with
  | error e => exact .none s _ _
  | ok host =>
    have hhost := hr
    unfold Sys.hostRename at hr
    split_ifs at hr
    rw [hs.at_eq, hs.at_eq] at hr
    obtain ⟨o, hsrc, ⟨hdst, rfl⟩ | ⟨hdst, hmoved⟩⟩ := hs.wf.rename hr
    · exact .alias hsrc hdst hhost
    · exact .move hsrc hdst hhost hmoved

theorem effect_symlink (target : List UInt8) (link : HPath) (cred : Cred) (fault : SymlinkFault) :
    s.Effect (.symlink target link cred fault) (s.symlink target link cred fault).1
      (s.symlink target link cred fault).2 := by
  unfold Sys.symlink
  rw [hs.isUnderReadonly, if_neg Bool.false_ne_true]
  by_cases hopen : fault = .open
  · rw [if_pos hopen]
    exact .none s _ _
  rw [if_neg hopen]
  cases hmake : s.host.make (s.at false link) .file target with
  | error e => exact .none s _ _
  | ok host =>
    have hmake' := hmake
    rw [hs.at_eq] at hmake'
    cases fault with
    | none => exact hs.create (by simp) hmake' _ _
    | «open» => exact absurd rfl hopen
    | write => exact .none s _ _
    | unlink =>
      obtain ⟨hnone, hparent, hhost⟩ := Host.make_eq_ok hmake'
      exact .leftover hmake ⟨hnone, hparent, .file, target, by simp, hhost⟩

theorem effect_mknod (p : HPath) (mode : BitVec 32) (dev : Nat) (cred : Cred) (fault : Bool) :
    s.Effect (.mknod p mode dev cred fault) (s.mknod p mode dev cred fault).1 (s.mknod p mode dev cred fault).2 := by
  unfold Sys.mknod
  rw [hs.isUnderReadonly, if_neg Bool.false_ne_true]
  cases hmake : s.hostMknod p mode fault with
  | ok host =>
    have hnew := hmake
    unfold Sys.hostMknod at hnew
    cases hkind : mknodKind mode with
    | none =>
      rw [hkind] at hnew
      cases hnew
    | some kind =>
      simp only [hkind] at hnew
      split_ifs at hnew
      rw [hs.at_eq] at hnew
      have hino := hs.pathGetInode_eq_zero.2 (hs.lookup_eq_none (Host.make_eq_ok hnew).1)
      unfold Db.mknod
      rw [if_pos hino]
      exact hs.create (mknodKind_ne_link hkind) hnew _ _
  | error e =>
    cases e with
    | eexist =>
      unfold Db.mknod
      have hexists : (s.entry p).isSome := by
        have hfail := hmake
        unfold Sys.hostMknod at hfail
        split at hfail
        · cases hfail
        · split_ifs at hfail with hfault
          · cases hfail
          · rw [hs.at_eq] at hfail
            exact Host.isSome_of_make hfail
      split_ifs with hino
      · have h : s.Effect (.mknod p mode dev cred fault) { s with
            host := s.host
            db := (s.db.pathCreate (pathBytes p) (mknodStat mode dev cred)).1
            fds := s.fds ++ [] } (.host .eexist) :=
          .create (hs.pathGetInode_eq_zero.1 hino) (.inr ⟨Host.SameTree.refl _, hexists⟩) (by simp)
        rwa [append_nil] at h
      · cases hp : s.db.paths.lookup (pathBytes p) with
        | none => exact absurd (hs.pathGetInode_eq_zero.2 hp) hino
        | some inode =>
          rw [Db.pathGetInode_of_lookup hp]
          exact .mknodOver hmake hp
    | _ => exact .none s _ _

theorem effect_setattr (p : HPath) (attr : Attr) (fault : Bool) :
    s.Effect (.setattr p attr fault) (s.setattr p attr fault).1 (s.setattr p attr fault).2 := by
  unfold Sys.setattr
  rw [hs.isUnderReadonly, if_neg Bool.false_ne_true]
  -- all attributes but the size are in the database only
  have hdb : ∀ (attr : Attr) (r : Sys × Outcome),
      (s.db.pathReadStat (pathBytes p) = none → r = (s, .failed)) →
      (∀ inode stat, s.db.pathReadStat (pathBytes p) = some (inode, stat) →
        r = ({ s with db := s.db.inodeWriteStat inode (stat.setattr attr) }, .ok)) →
      s.Effect (.setattr p attr fault) r.1 r.2 := by
    intro attr r hnone hsome
    cases hread : s.db.pathReadStat (pathBytes p) with
    | none =>
      rw [hnone hread]
      exact .none s _ _
    | some r =>
      obtain ⟨inode, stat⟩ := r
      rw [hsome inode stat hread]
      unfold Db.pathReadStat at hread
      split at hread
      · cases hread
      · obtain ⟨stat', hstat, heq⟩ := map_eq_some_iff.1 hread
        cases heq
        obtain ⟨row, hrow, -⟩ := map_eq_some_iff.1 hstat
        exact .writeStat hrow
  cases attr with
  | size size =>
    dsimp only
    split_ifs
    · exact .none s _ _
    · unfold Sys.truncate
      cases hopen : s.host.openat (s.at true p) ⟨false, true, false, false, false, false⟩ with
      | error e => exact .none s _ _
      | ok r =>
        obtain ⟨host, o⟩ := r
        rcases Host.openat_eq_ok hopen with ⟨-, rfl | ⟨htrunc, -⟩⟩ | ⟨hcreat, -⟩
        · dsimp only
          split_ifs
          · exact .host (Host.sameTree_setData _ _ _) _ _
          · exact .none s _ _
        · cases htrunc
        · cases hcreat
  | uid _ | gid _ | mode _ =>
    simp only [hs.ensureBound, ite_self]
    exact hdb _ _ (fun h => by rw [h]) fun inode stat h => by rw [h]

end Sys.Plain

variable {out : Outcome}

theorem Sys.effect_fsetattr {fd : Fd} {attr : Attr} {fault : Bool}
    (h : s.fsetattr fd attr fault = some (s', out)) : s.Effect (.fsetattr i attr fault) s' out := by
  have hdb : ∀ attr : Attr, (s.db.inodeReadStat fd.fakeInode).map (fun stat =>
      (({ s with db := s.db.inodeWriteStat fd.fakeInode (stat.setattr attr) } : Sys), Outcome.ok)) =
      some (s', out) → s.Effect (.fsetattr i attr fault) s' out := by
    intro attr h
    obtain ⟨stat, hstat, heq⟩ := map_eq_some_iff.1 h
    cases heq
    obtain ⟨row, hrow, -⟩ := map_eq_some_iff.1 hstat
    exact .writeStat hrow
  unfold Sys.fsetattr at h
  cases attr with
  | size size =>
    split_ifs at h
    · cases h
      exact .none s _ _
    · cases h
      exact .host (Host.sameTree_setData _ _ _) _ _
    · cases h
      exact .none s _ _
  | uid _ | gid _ | mode _ => exact hdb _ h

theorem Sys.effect_write (s : Sys) (i : Nat) (fd : Fd) (data : List UInt8) (fault : Bool) :
    s.Effect (.write i data fault) (s.write fd data fault).1 (s.write fd data fault).2 := by
  unfold Sys.write
  split_ifs
  · exact .none s _ _
  · exact .host (Host.sameTree_setData _ _ _) _ _

theorem Sys.effect_utime (s : Sys) (p : HPath) (mtime : Nat) (fault : Bool) :
    s.Effect (.utime p mtime fault) (s.utime p mtime fault).1 (s.utime p mtime fault).2 := by
  unfold Sys.utime
  split_ifs
  · exact .none s _ _
  · cases hok : s.host.utimens (s.at true p) mtime with
    | error e => exact .none s _ _
    | ok host =>
      obtain ⟨o, -, hhost⟩ := Host.utimens_eq_ok hok
      exact .host (hhost ▸ Host.sameTree_setNode _ rfl) _ _

theorem Sys.withFd_eq_some {opened : Bool} {f : Fd → Option (Sys × Outcome)}
    {r : Sys × Outcome} (h : s.withFd i opened f = some r) :
    ∃ fd, s.fds[i]? = some fd ∧ fd.refcount ≠ 0 ∧ fd.opened = opened ∧ f fd = some r := by
  unfold Sys.withFd at h
  split at h
  · cases h
  · next fd hfd =>
    obtain ⟨⟨href, hopened⟩, h⟩ := ite_none_right_eq_some.1 h
    exact ⟨fd, hfd, href, hopened, h⟩

theorem Sys.Effect.of_eq {a : Act} {r : Sys × Outcome} (he : s.Effect a r.1 r.2)
    (h : some r = some (s', out)) : s.Effect a s' out := by
  obtain rfl := Option.some.inj h
  exact he

/-- **Every operation has one of the effects.** -/
theorem Sys.Plain.effect (hs : s.Plain) {a : Act} (h : s.call a = some (s', out)) : s.Effect a s' out := by
  cases a with
  | openFile p flags mode cred fault => exact (hs.effect_openFile p flags mode cred fault).of_eq h
  | openRest i how =>
    obtain ⟨fd, hfd, href, hopened, h⟩ := Sys.withFd_eq_some h
    exact (Sys.Effect.openRest hfd hopened href).of_eq h
  | dup i =>
    obtain ⟨fd, hfd, href, hopened, h⟩ := Sys.withFd_eq_some h
    cases h
    exact .dup hfd hopened href
  | close i =>
    obtain ⟨fd, hfd, href, hopened, h⟩ := Sys.withFd_eq_some h
    cases h
    exact .close hfd hopened href
  | write i data fault =>
    obtain ⟨fd, -, -, -, h⟩ := Sys.withFd_eq_some h
    exact (s.effect_write i fd data fault).of_eq h
  | fsetattr i attr fault =>
    obtain ⟨fd, -, -, -, h⟩ := Sys.withFd_eq_some h
    exact Sys.effect_fsetattr h
  | link src dst fault => exact hs.effect_link h
  | unlink p fault =>
    refine (hs.effect_remove _ fun host hok => ?_).of_eq h
    split_ifs at hok
    rw [hs.at_eq] at hok
    exact Host.removed_of_unlink hok
  | rmdir p fault =>
    refine (hs.effect_remove _ fun host hok => ?_).of_eq h
    split_ifs at hok
    rw [hs.at_eq] at hok
    exact Host.removed_of_rmdir hok
  | rename src dst fault => exact (hs.effect_rename src dst fault).of_eq h
  | symlink target link cred fault => exact (hs.effect_symlink target link cred fault).of_eq h
  | mknod p mode dev cred fault => exact (hs.effect_mknod p mode dev cred fault).of_eq h
  | mkdir p mode cred fault =>
    simp only [Sys.call, Sys.mkdir, hs.isUnderReadonly, Bool.false_eq_true, if_false] at h
    split_ifs at h
    · cases h
      exact .none s _ _
    · cases hmake : s.host.make (s.at false p) .dir [] with
      | error e =>
        rw [hmake] at h
        cases h
        exact .none s _ _
      | ok host =>
        rw [hmake] at h
        cases h
        rw [hs.at_eq] at hmake
        exact hs.create (by simp) hmake _ _
  | setattr p attr fault => exact (hs.effect_setattr p attr fault).of_eq h
  | utime p mtime fault =>
    exact (s.effect_utime p mtime fault).of_eq h

/-! ### Mounts stay plain -/

/-- Rows may go that no path has; the host and the paths stay. -/
structure Sys.Tidied (s s' : Sys) : Prop where
  host : s'.host = s.host
  root : s'.root = s.root
  binds : s'.binds = s.binds
  paths : s'.db.paths = s.db.paths
  rows : ∀ i, s.db.HasPath i → s'.db.stats.lookup i = s.db.stats.lookup i

theorem Sys.Tidied.refl (s : Sys) : s.Tidied s := ⟨rfl, rfl, rfl, rfl, fun _ _ => rfl⟩

theorem Sys.Tidied.trans {s₁ s₂ s₃ : Sys} (h : s₁.Tidied s₂) (h' : s₂.Tidied s₃) : s₁.Tidied s₃ where
  host := h'.host.trans h.host
  root := h'.root.trans h.root
  binds := h'.binds.trans h.binds
  paths := h'.paths.trans h.paths
  rows i hi := by
    have hi' : s₂.db.HasPath i := by
      unfold Db.HasPath
      rw [h.paths]
      exact hi
    rw [h'.rows i hi', h.rows i hi]

theorem Sys.tidied_cleanup (s : Sys) (inode : Nat) : s.Tidied { s with db := s.db.tryCleanupInode inode } :=
  ⟨rfl, rfl, rfl, s.db.paths_tryCleanupInode inode, fun _ hi => Db.lookup_tryCleanupInode_of_hasPath hi inode⟩

theorem Sys.tidied_inodeCheckOrphaned (s : Sys) (inode : Nat) : s.Tidied (s.inodeCheckOrphaned inode) := by
  unfold Sys.inodeCheckOrphaned
  split_ifs
  · exact s.tidied_cleanup inode
  · exact .refl s

theorem Sys.tidied_inodeRelease (s : Sys) (inode : Nat) : s.Tidied (s.inodeRelease inode) := by
  have hcount : s.Tidied { s with inodes := Function.update s.inodes inode (s.inodes inode - 1) } :=
    ⟨rfl, rfl, rfl, rfl, fun _ _ => rfl⟩
  unfold Sys.inodeRelease
  dsimp only
  split_ifs
  · exact hcount.trans (Sys.tidied_cleanup _ inode)
  · exact hcount

theorem Sys.tidied_setFd (s : Sys) (i : Nat) (fd : Fd) : s.Tidied (s.setFd i fd) :=
  ⟨rfl, rfl, rfl, rfl, fun _ _ => rfl⟩

theorem Sys.tidied_fdClose (s : Sys) (i : Nat) (fd : Fd) : s.Tidied (s.fdClose i fd) := by
  unfold Sys.fdClose
  split_ifs
  · exact (s.tidied_setFd i _).trans (Sys.tidied_inodeRelease _ _)
  · exact s.tidied_setFd i _

theorem Sys.tidied_openRest (s : Sys) (i : Nat) (fd : Fd) (how : OpenEnd) : s.Tidied (s.openRest i fd how).1 := by
  have hget : s.Tidied ((s.inodeGet fd.fakeInode).setFd i { fd with opened := true }) :=
    ⟨rfl, rfl, rfl, rfl, fun _ _ => rfl⟩
  unfold Sys.openRest
  split_ifs
  · exact s.tidied_fdClose i fd
  · exact hget.trans (Sys.tidied_fdClose _ _ _)
  · exact hget

theorem Sys.Tidied.entry (h : s.Tidied s') (p : HPath) : s'.entry p = s.entry p := by
  unfold Sys.entry
  rw [h.host, h.root]

theorem Sys.Tidied.plain (h : s.Tidied s') (hs : s.Plain) : s'.Plain where
  binds := h.binds.trans hs.binds
  wf := by
    rw [h.host]
    exact hs.wf
  links := by
    rw [h.host, h.root]
    exact hs.links
  paths b i hb := by
    rw [h.paths] at hb
    obtain ⟨hpos, hrow, p, rfl, hp⟩ := hs.paths b i hb
    exact ⟨hpos, by rw [h.rows i ⟨_, hb⟩]; exact hrow, p, rfl, by rw [h.entry]; exact hp⟩

variable {h h' : Host}

theorem Host.Makes.entry (hm : h.Makes h' p) (q : HPath) : h'.entry q = if q = p then some h.next else h.entry q := by
  obtain ⟨kind, data, -, rfl⟩ := hm.made
  exact h.entry_add p kind data q

theorem Host.Makes.wf (hm : h.Makes h' p) (hw : h.Wf) : h'.Wf := by
  obtain ⟨kind, data, -, rfl⟩ := hm.made
  exact hw.add hm.none hm.parent kind data

/-- No link is made. -/
theorem Host.Makes.kindAt_ne (hm : h.Makes h' p) (hw : h.Wf) {t : HPath}
    (hq : h.kindAt q ≠ some (.link t)) : h'.kindAt q ≠ some (.link t) := by
  obtain ⟨kind, data, hkind, rfl⟩ := hm.made
  by_cases hqp : q = p
  · subst hqp
    have hentry : (h.add q kind data).entry q = some h.next := by rw [Host.entry_add, if_pos rfl]
    rw [Host.kindAt_of_entry hentry, Host.node_add, if_pos rfl]
    exact fun heq => hkind t (Option.some.inj heq)
  · rw [hw.kindAt_add kind data hqp]
    exact hq

theorem Host.SameTree.links (hsame : h.SameTree h') {root : HPath}
    (hl : ∀ p t, h.kindAt (root ++ p) ≠ some (.link t)) (p t : HPath) : h'.kindAt (root ++ p) ≠ some (.link t) := by
  rw [hsame.kindAt]
  exact hl p t

theorem Sys.Plain.lookup_pathRename (hs : s.Plain) {b : Path}
    (h : (s.db.pathRename (pathBytes src) (pathBytes dst)).paths.lookup b = some i) :
    ∃ t, s.db.paths.lookup (pathBytes t) = some i ∧
      ((∃ r, t = src ++ r ∧ b = pathBytes (dst ++ r)) ∨ (¬src <+: t ∧ b = pathBytes t)) := by
  rw [Db.lookup_pathRename] at h
  rcases or_eq_some_iff.1 h with h | ⟨-, h⟩
  · obtain ⟨⟨hr, hback⟩, h⟩ := ite_none_right_eq_some.1 h
    obtain ⟨t, ht, -⟩ := (hs.paths _ i h).host
    rw [ht, renames_pathBytes] at hr
    obtain ⟨r, rfl⟩ := hr
    refine ⟨src ++ r, by rw [← ht]; exact h, .inl ⟨r, rfl, ?_⟩⟩
    rw [← hback, ht, pathBytes_append, changePrefixBytes_append, pathBytes_append]
  · obtain ⟨hr, h⟩ := ite_none_left_eq_some.1 h
    obtain ⟨t, rfl, -⟩ := (hs.paths b i h).host
    exact ⟨t, h, .inr ⟨fun hpre => hr (renames_pathBytes.2 hpre), rfl⟩⟩

/-- The database after a rename that the host has made, or left alone between two links. -/
theorem Sys.Plain.pathRename (hs : s.Plain) {host : Host} (hwf : host.Wf)
    (hlinks : ∀ p t, host.kindAt (s.root ++ p) ≠ some (.link t))
    (hmoved : ∀ r, (s.entry (src ++ r)).isSome → (host.entry (s.root ++ (dst ++ r))).isSome)
    (hkept : ∀ t, ¬src <+: t → (s.entry t).isSome → (host.entry (s.root ++ t)).isSome) :
    ({ s with host := host, db := s.db.pathRename (pathBytes src) (pathBytes dst) } : Sys).Plain where
  binds := hs.binds
  wf := hwf
  links := hlinks
  paths b i hb := by
    obtain ⟨t, ht, hcases⟩ := hs.lookup_pathRename hb
    have hsome := hs.isSome_entry ht
    refine ⟨(hs.paths _ i ht).pos, (hs.paths _ i ht).row, ?_⟩
    rcases hcases with ⟨r, rfl, rfl⟩ | ⟨hpre, rfl⟩
    · exact ⟨dst ++ r, rfl, hmoved r hsome⟩
    · exact ⟨t, rfl, hkept t hpre hsome⟩

/-- A file has no entries, so that only its own path is moved. -/
theorem Sys.Plain.alias_below (hs : s.Plain) {o : Nat} (hsrc : s.entry src = some o)
    (hdst : s.entry dst = some o) {r : HPath} (hr : (s.entry (src ++ r)).isSome) : r = [] ∨ src = dst := by
  by_cases hdir : (s.host.node o).kind = .dir
  · exact .inr (append_cancel_left (hs.wf.unique _ _ o hsrc hdst hdir))
  · refine .inl ?_
    by_contra hne
    obtain ⟨o', ho'⟩ := isSome_iff_exists.1 hr
    unfold Sys.entry at ho'
    rw [← append_assoc] at ho'
    have hkind := hs.wf.dir_of_below hne ho'
    rw [Host.kindAt_of_entry hsrc] at hkind
    exact hdir (Option.some.inj hkind)

theorem Sys.entry_moved {host : Host} (hm : s.host.Moved host (s.root ++ src) (s.root ++ dst))
    (q : HPath) : host.entry (s.root ++ q) =
      if dst <+: q then s.entry (src ++ q.drop dst.length) else if src <+: q then none else s.entry q := by
  have hdrop : (s.root ++ q).drop (s.root ++ dst).length = q.drop dst.length := by
    rw [length_append, drop_append, drop_eq_nil_of_le (by omega), nil_append]
    congr 1
    omega
  rw [hm.entry]
  simp only [prefix_append_right_inj, hdrop, append_assoc]
  rfl

theorem Sys.Plain.writeStat (hs : s.Plain) {row : Row} (hrow : s.db.stats.lookup inode = some row) (stat : IshStat) :
    ({ s with db := s.db.inodeWriteStat inode stat } : Sys).Plain where
  binds := hs.binds
  wf := hs.wf
  links := hs.links
  paths b i hb := by
    have hb : (s.db.inodeWriteStat inode stat).paths.lookup b = some i := hb
    rw [Db.paths_inodeWriteStat] at hb
    obtain ⟨hpos, hsome, hhost⟩ := hs.paths b i hb
    refine ⟨hpos, ?_, hhost⟩
    show ((s.db.inodeWriteStat inode stat).stats.lookup i).isSome
    rw [Db.lookup_inodeWriteStat hrow]
    split_ifs
    · rfl
    · exact hsome

theorem Sys.Plain.pathCreate (hs : s.Plain) {host : Host} (hwf : host.Wf)
    (hlinks : ∀ p t, host.kindAt (s.root ++ p) ≠ some (.link t))
    (hhost : ∀ q, q = p ∨ (s.entry q).isSome → (host.entry (s.root ++ q)).isSome) (stat : IshStat) (fds : List Fd) :
    ({ s with host := host, db := (s.db.pathCreate (pathBytes p) stat).1, fds := fds } : Sys).Plain where
  binds := hs.binds
  wf := hwf
  links := hlinks
  paths b i hb := by
    have hb : (s.db.pathCreate (pathBytes p) stat).1.paths.lookup b = some i := hb
    have hrows := s.db.stats_pathCreate (pathBytes p) stat i
    rw [Db.lookup_pathCreate] at hb
    split_ifs at hb with heq
    · cases hb
      rw [if_pos rfl] at hrows
      exact ⟨s.db.nextRowid_pos, by show (AList.lookup _ _).isSome; rw [hrows]; rfl, p, heq, hhost p (.inl rfl)⟩
    · obtain ⟨hpos, hsome, q, rfl, hq⟩ := hs.paths b i hb
      refine ⟨hpos, ?_, q, rfl, hhost q (.inr hq)⟩
      show (AList.lookup _ _).isSome
      rw [hrows]
      split_ifs
      · rfl
      · exact hsome

/-- **A mount without bind mounts stays one.** -/
theorem Sys.Effect.plain {a : Act} (he : s.Effect a s' out) (hs : s.Plain) : s'.Plain := by
  cases he with
  | quiet hhost =>
    refine ⟨hs.binds, hhost.wf hs.wf, hhost.links hs.links, fun b i hb => ?_⟩
    obtain ⟨hpos, hrow, p, rfl, hp⟩ := hs.paths b i hb
    refine ⟨hpos, hrow, p, rfl, ?_⟩
    show (Host.entry _ _).isSome
    rw [hhost.entry]
    exact hp
  | writeStat hrow => exact hs.writeStat hrow _
  | mknodOver _ hdb =>
    obtain ⟨row, hrow⟩ := isSome_iff_exists.1 (hs.paths _ _ hdb).row
    exact hs.writeStat hrow _
  | leftover _ hhost =>
    refine ⟨hs.binds, hhost.wf hs.wf, fun p t => hhost.kindAt_ne hs.wf (hs.links p t), fun b i hb => ?_⟩
    obtain ⟨hpos, hrow, p, rfl, hp⟩ := hs.paths b i hb
    refine ⟨hpos, hrow, p, rfl, ?_⟩
    show (Host.entry _ _).isSome
    rw [hhost.entry]
    split_ifs
    · rfl
    · exact hp
  | create hdb hhost =>
    rcases hhost with ⟨hmakes, -⟩ | ⟨hsame, hexists⟩
    · refine hs.pathCreate (hmakes.wf hs.wf) (fun p t => hmakes.kindAt_ne hs.wf (hs.links p t))
        (fun q hq => ?_) _ _
      rw [hmakes.entry]
      split_ifs with heq
      · rfl
      · exact hq.resolve_left fun hqp => heq (by rw [hqp])
    · refine hs.pathCreate (hsame.wf hs.wf) (hsame.links hs.links) (fun q hq => ?_) _ _
      rw [hsame.entry]
      rcases hq with rfl | hq
      · exact hexists
      · exact hq
  | @link src dst fault inode host hhost hsrc =>
    obtain ⟨o, hentry, -, hnone, -, hhost'⟩ := Host.link_eq_ok hhost
    refine ⟨hs.binds, hs.wf.link hhost, fun p t => ?_, fun b i hb => ?_⟩
    · show host.kindAt _ ≠ _
      rw [Host.kindAt_link hhost]
      split_ifs
      · exact hs.links src t
      · exact hs.links p t
    · have hb : (s.db.paths.insert (pathBytes dst) inode).lookup b = some i := hb
      have hentry' : ∀ q, q = dst ∨ (s.entry q).isSome → (host.entry (s.root ++ q)).isSome := by
        intro q hq
        rw [hhost', Host.entry_insert]
        split_ifs with heq
        · rfl
        · exact hq.resolve_left fun hqp => heq (by rw [hqp])
      rw [lookup_insert_apply] at hb
      split_ifs at hb with heq
      · cases hb
        exact ⟨(hs.paths _ _ hsrc).pos, (hs.paths _ _ hsrc).row, dst, heq, hentry' dst (.inl rfl)⟩
      · obtain ⟨hpos, hrow, p, rfl, hp⟩ := hs.paths b i hb
        exact ⟨hpos, hrow, p, rfl, hentry' p (.inr hp)⟩
  | @remove _ p host hhost =>
    refine Sys.Tidied.plain (Sys.tidied_inodeCheckOrphaned _ _) ?_
    refine ⟨hs.binds, hhost.wf hs.wf, fun q t => ?_, fun b i hb => ?_⟩
    · show host.kindAt _ ≠ _
      rw [hhost.kindAt]
      split_ifs
      · simp
      · exact hs.links q t
    · have hb : (s.db.pathUnlink (pathBytes p)).1.paths.lookup b = some i := hb
      rw [hs.lookup_pathUnlink] at hb
      obtain ⟨hbp, hb⟩ := ite_none_left_eq_some.1 hb
      obtain ⟨hpos, hrow, q, rfl, hq⟩ := hs.paths b i hb
      refine ⟨hpos, ?_, q, rfl, ?_⟩
      · show ((s.db.pathUnlink (pathBytes p)).1.stats.lookup i).isSome
        rw [Db.stats_pathUnlink]
        exact hrow
      · show (host.entry _).isSome
        rw [hhost.entry, if_neg]
        · exact hq
        · rw [append_cancel_left_eq]
          rintro rfl
          exact hbp rfl
  | «alias» hsrc hdst hhost =>
    refine hs.pathRename hs.wf hs.links (fun r hr => ?_) fun t _ ht => ht
    rcases hs.alias_below hsrc hdst hr with rfl | rfl
    · rw [append_nil]
      show (s.entry _).isSome
      rw [hdst]
      rfl
    · exact hr
  | @move src dst fault o host hsrc hdst hhost hmoved =>
    have hentry := Sys.entry_moved hmoved
    refine hs.pathRename (hmoved.wf hs.wf) (fun p t => ?_) (fun r hr => ?_) fun t hpre ht => ?_
    · rw [hmoved.kindAt]
      split_ifs
      · rw [append_assoc]
        exact hs.links _ t
      · simp
      · exact hs.links p t
    · rw [hentry, if_pos (prefix_append dst r), drop_left]
      exact hr
    · rw [hentry]
      split_ifs with hd
      · -- nothing is below `dst`, and at `dst` there is what was at `src`
        have htd : t = dst := by
          by_contra hne
          have hnone := hmoved.empty (s.root ++ t) ((prefix_append_right_inj _).2 hd)
            (by rwa [ne_eq, append_cancel_left_eq])
          unfold Sys.entry at ht
          rw [hnone] at ht
          cases ht
        rw [htd, drop_length, append_nil, hsrc]
        rfl
      · exact ht
  | openRest hfd hopened href => exact (s.tidied_openRest _ _ _).plain hs
  | dup hfd hopened href => exact (s.tidied_setFd _ _).plain hs
  | close hfd hopened href => exact (s.tidied_fdClose _ _).plain hs

/-! ### A mount -/

def nameA : Component := ⟨[0x61], by decide, by decide⟩
def nameB : Component := ⟨[0x62], by decide, by decide⟩

def emptyMount : Sys where
  host := ⟨AList.singleton [] 0, fun _ => ⟨.dir, [], 1, 0⟩, 1⟩
  root := []
  binds := []
  db := ⟨AList.singleton [] 1, AList.singleton 1 ⟨⟨sIfdir ||| 0o755#32, 0, 0, 0⟩, 0⟩, 1⟩
  inodes _ := 0
  fds := []

theorem emptyMount_entry (p : HPath) : emptyMount.entry p = if p = [] then some 0 else none := by
  show (AList.singleton [] 0).lookup ([] ++ p) = _
  rw [nil_append, ← AList.insert_empty, lookup_insert_apply, AList.lookup_empty]

theorem emptyMount_lookup (b : Path) : emptyMount.db.paths.lookup b = if b = [] then some 1 else none := by
  show (AList.singleton [] 1).lookup b = _
  rw [← AList.insert_empty, lookup_insert_apply, AList.lookup_empty]

theorem emptyMount_plain : emptyMount.Plain := by
  have hentry : ∀ p o, emptyMount.host.entry p = some o → p = [] ∧ o = 0 := by
    intro p o hp
    have hp : emptyMount.entry p = some o := hp
    rw [emptyMount_entry] at hp
    split_ifs at hp with hnil
    exact ⟨hnil, (Option.some.inj hp).symm⟩
  refine ⟨rfl, ⟨fun p c o hp => ?_, fun p q o hp hq _ => ?_, fun p o hp => ?_⟩, fun p t hk => ?_,
    fun b i hb => ?_⟩
  · have hnil := (hentry _ o hp).1
    simp at hnil
  · rw [(hentry p o hp).1, (hentry q o hq).1]
  · rw [(hentry p o hp).2]
    exact Nat.zero_lt_one
  · obtain ⟨o, -, ho⟩ := Host.entry_of_kindAt hk
    cases ho
  · rw [emptyMount_lookup] at hb
    split_ifs at hb with hnil
    cases hb
    refine ⟨Nat.one_ne_zero, by decide, [], hnil, ?_⟩
    rw [emptyMount_entry]
    rfl

def createAct (c : Component) : Act :=
  .openFile [c] ⟨true, false, true, false, false, false⟩ 0o644#32 ⟨0, 0⟩ false

def renameAct : Act := .rename [nameA] [nameB] false

def filesRun : List Act := [createAct nameA, createAct nameB]

theorem filesRun_isSome : (filesRun.foldlM Sys.step emptyMount).isSome := by decide

def afterFiles : Sys := Option.get _ filesRun_isSome

end Ish.Fs.Fakefs
