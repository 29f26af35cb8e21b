import Ish.Fs.Equiv.Fake
import Ish.Lib.Run

/-!
# The lifetime of inodes

`Sys.Live` says that the counts of the inodes in memory are the numbers of open fds, that an open fd has
the row it was opened with, and that every row has a path or is in memory. Removal is split between
`unlink` and the last `close`; both go through `Sys.Live.cleanup`. Two things go wrong: `rename` does not look
at the inode that it takes the last path from, and between the two halves of opening a file the row can go
and its number be given to another file (`inode_rows_live`).
-/

namespace Ish.Fs.Fakefs

open Lib Function List Option

variable {s s' : Sys} {inode i : Nat} {fd : Fd} {extra : Nat → Nat}

def Fd.refers (inode : Nat) (fd : Fd) : Bool :=
  fd.opened && decide (fd.refcount ≠ 0) && decide (fd.fakeInode = inode)

theorem Fd.refers_iff : fd.refers inode = true ↔ fd.opened = true ∧ fd.refcount ≠ 0 ∧ fd.fakeInode = inode := by
  unfold Fd.refers
  rw [Bool.and_eq_true, Bool.and_eq_true, decide_eq_true_eq, decide_eq_true_eq, and_assoc]

theorem Fd.IsNew.refers (h : fd.IsNew) (inode : Nat) : fd.refers inode = false := by
  unfold Fd.refers
  rw [h.opened]
  rfl

/-- What holds while `extra` references to inodes are in the hands of the running call. -/
structure Sys.Live (extra : Nat → Nat) (s : Sys) : Prop where
  counts : ∀ i, s.inodes i = s.fds.countP (Fd.refers i) + extra i
  fdRow : ∀ fd ∈ s.fds, ∀ i, fd.refers i = true → ∃ row, s.db.stats.lookup i = some row ∧ row.born = fd.born
  rowRef : ∀ i, (s.db.stats.lookup i).isSome → s.db.HasPath i ∨ s.inodes i ≠ 0
  pending : ∀ fd ∈ s.fds, fd.opened = false → fd.refcount ≤ 1

def oneRef (inode : Nat) : Nat → Nat := fun i => if i = inode then 1 else 0

/-- The rows that an operation leaves: a row stays the same, or goes. -/
def Db.RowsKept (db db' : Db) : Prop :=
  ∀ i row, db.stats.lookup i = some row →
    db'.stats.lookup i = none ∨ ∃ row', db'.stats.lookup i = some row' ∧ row'.born = row.born

/-- **The row of an inode goes if no path and no fd has it.** -/
theorem Sys.Live.cleanup (hcounts : ∀ i, s.inodes i = s.fds.countP (Fd.refers i))
    (hfd : ∀ fd ∈ s.fds, ∀ i, fd.refers i = true → ∃ row, s.db.stats.lookup i = some row ∧ row.born = fd.born)
    (hrow : ∀ i, i ≠ inode → (s.db.stats.lookup i).isSome → s.db.HasPath i ∨ s.inodes i ≠ 0)
    (hpending : ∀ fd ∈ s.fds, fd.opened = false → fd.refcount ≤ 1) (hzero : s.inodes inode = 0) :
    ({ s with db := s.db.tryCleanupInode inode } : Sys).Live fun _ => 0 := by
  classical
  refine ⟨hcounts, fun fd hmem i href => ?_, fun i hi => ?_, hpending⟩
  · show ∃ row, (s.db.tryCleanupInode inode).stats.lookup i = some row ∧ _
    rw [Db.lookup_tryCleanupInode, if_neg]
    · exact hfd fd hmem i href
    · -- an inode with an fd is in memory
      rintro ⟨rfl, -⟩
      have hpos : 0 < s.fds.countP (Fd.refers i) := countP_pos_iff.2 ⟨fd, hmem, href⟩
      have hcount := hcounts i
      omega
  · have hi : ((s.db.tryCleanupInode inode).stats.lookup i).isSome := hi
    rw [Db.lookup_tryCleanupInode] at hi
    show (s.db.tryCleanupInode inode).HasPath i ∨ s.inodes i ≠ 0
    unfold Db.HasPath
    rw [Db.paths_tryCleanupInode]
    split_ifs at hi with hgone
    · cases hi
    · by_cases hne : i = inode
      · left
        by_contra hno
        exact hgone ⟨hne, by rw [← hne]; exact hno⟩
      · exact hrow i hne hi

theorem Sys.Live.inodeRelease (h : s.Live (oneRef inode)) : (s.inodeRelease inode).Live fun _ => 0 := by
  have hcounts : ∀ i, update s.inodes inode (s.inodes inode - 1) i =
      s.fds.countP (Fd.refers i) := by
    intro i
    have hi := h.counts i
    unfold oneRef at hi
    rw [update_apply]
    split_ifs at hi ⊢ with heq
    · subst heq
      omega
    · omega
  have hrow : ∀ i, i ≠ inode → (s.db.stats.lookup i).isSome →
      s.db.HasPath i ∨ update s.inodes inode (s.inodes inode - 1) i ≠ 0 := by
    intro i hne hi
    rw [update_of_ne hne]
    exact h.rowRef i hi
  unfold Sys.inodeRelease
  dsimp only
  split_ifs with hzero
  · exact Sys.Live.cleanup
      (s := { s with inodes := update s.inodes inode (s.inodes inode - 1) })
      hcounts h.fdRow hrow h.pending hzero
  · refine ⟨hcounts, h.fdRow, fun i hi => ?_, h.pending⟩
    by_cases hne : i = inode
    · rw [hne]
      exact .inr hzero
    · exact hrow i hne hi

/-! ### Fds -/

variable {j : Nat}

theorem mem_set_cases {l : List Fd} {a b : Fd} (h : b ∈ l.set j a) : b ∈ l ∨ b = a :=
  mem_or_eq_of_mem_set h

theorem countP_setFd {fds : List Fd} {e : Fd} (hfd : fds[j]? = some fd) (i : Nat) :
    (fds.set j e).countP (Fd.refers i) + (if fd.refers i = true then 1 else 0) =
      fds.countP (Fd.refers i) + if e.refers i = true then 1 else 0 := by
  obtain ⟨hlt, hget⟩ := List.getElem?_eq_some_iff.1 hfd
  have hle : (if fd.refers i = true then 1 else 0) ≤ fds.countP (Fd.refers i) := by
    split_ifs with href
    · exact countP_pos_iff.2 ⟨fd, mem_of_getElem? hfd, href⟩
    · exact Nat.zero_le _
  rw [countP_set hlt, hget]
  omega

theorem Sys.Live.setFd {extra' : Nat → Nat} (h : s.Live extra) {fd' : Fd} (hfd : s.fds[j]? = some fd)
    (hmove : ∀ i, (if fd'.refers i = true then 1 else 0) + extra' i = (if fd.refers i = true then 1 else 0) + extra i)
    (hrow : ∀ i, fd'.refers i = true → ∃ row, s.db.stats.lookup i = some row ∧ row.born = fd'.born)
    (hpending : fd'.opened = false → fd'.refcount ≤ 1) : (s.setFd j fd').Live extra' where
  counts i := by
    have hset := countP_setFd (e := fd') hfd i
    have hcount := h.counts i
    have hi := hmove i
    show s.inodes i = (s.fds.set j fd').countP (Fd.refers i) + extra' i
    omega
  fdRow g hg i href := by
    rcases mem_set_cases hg with hg | rfl
    · exact h.fdRow g hg i href
    · exact hrow i href
  rowRef := h.rowRef
  pending g hg := by
    rcases mem_set_cases hg with hg | rfl
    · exact h.pending g hg
    · exact hpending

theorem Sys.Live.fdClose (h : s.Live fun _ => 0) (hfd : s.fds[j]? = some fd)
    (href : fd.refcount ≠ 0) : (s.fdClose j fd).Live fun _ => 0 := by
  have hmem := mem_of_getElem? hfd
  unfold Sys.fdClose
  by_cases hlast : fd.refcount - 1 = 0 ∧ fd.opened = true
  · rw [if_pos hlast]
    refine Sys.Live.inodeRelease (h.setFd hfd (fun i => ?_) (fun i hi => ?_) fun hopened => ?_)
    · have hnew : Fd.refers i { fd with refcount := fd.refcount - 1 } = false := by
        unfold Fd.refers
        simp [hlast.1]
      have hold : fd.refers i = true ↔ i = fd.fakeInode := by
        rw [Fd.refers_iff]
        exact ⟨fun h => h.2.2.symm, fun h => ⟨hlast.2, href, h.symm⟩⟩
      simp only [hnew, hold, oneRef, Bool.false_eq_true, if_false]
      omega
    · rw [Fd.refers_iff] at hi
      exact absurd hlast.1 hi.2.1
    · exact absurd hlast.2 (by rw [hopened]; simp)
  · rw [if_neg hlast]
    -- the fd stays open, or was never open
    have hsame : ∀ i, Fd.refers i { fd with refcount := fd.refcount - 1 } = fd.refers i := by
      intro i
      unfold Fd.refers
      cases hopened : fd.opened with
      | false => rfl
      | true =>
        have hmore : fd.refcount - 1 ≠ 0 := fun hzero => hlast ⟨hzero, hopened⟩
        simp [hmore, href]
    refine h.setFd hfd (fun i => by rw [hsame]) (fun i hi => ?_) fun hopened => ?_
    · rw [hsame] at hi
      exact h.fdRow fd hmem i hi
    · have hle := h.pending fd hmem hopened
      show fd.refcount - 1 ≤ 1
      omega

theorem Sys.Live.dup (h : s.Live fun _ => 0) (hfd : s.fds[j]? = some fd)
    (href : fd.refcount ≠ 0) (hopened : fd.opened = true) :
    (s.setFd j { fd with refcount := fd.refcount + 1 }).Live fun _ => 0 := by
  have hsame : ∀ i, Fd.refers i { fd with refcount := fd.refcount + 1 } = fd.refers i := by
    intro i
    unfold Fd.refers
    simp [href]
  refine h.setFd hfd (fun i => by rw [hsame]) (fun i hi => ?_) fun hopened' => ?_
  · rw [hsame] at hi
    exact h.fdRow fd (mem_of_getElem? hfd) i hi
  · exact absurd (hopened.symm.trans hopened') (by simp)

theorem Sys.Live.inodeGet (h : s.Live fun _ => 0) (inode : Nat) : (s.inodeGet inode).Live (oneRef inode) where
  counts i := by
    have hi := h.counts i
    show update s.inodes inode (s.inodes inode + 1) i = _ + oneRef inode i
    unfold oneRef
    rw [update_apply]
    split_ifs with heq
    · subst heq
      show _ = s.fds.countP _ + 1
      omega
    · exact hi
  fdRow := h.fdRow
  rowRef i hi := by
    refine (h.rowRef i hi).imp id fun hne => ?_
    show update s.inodes inode (s.inodes inode + 1) i ≠ 0
    rw [update_apply]
    split_ifs
    · exact Nat.succ_ne_zero _
    · exact hne
  pending := h.pending

theorem Sys.setFd_setFd (s : Sys) (j : Nat) (a b : Fd) : (s.setFd j a).setFd j b = s.setFd j b := by
  unfold Sys.setFd
  rw [set_set]

section

variable (h : s.Live fun _ => 0)
include h

theorem Sys.Live.openRest (hfd : s.fds[j]? = some fd)
    (hopened : fd.opened = false) (href : fd.refcount ≠ 0) {how : OpenEnd}
    (hsafe : how = .accepted → ∀ row, s.db.stats.lookup fd.fakeInode = some row → row.born = fd.born) :
    (s.openRest j fd how).1.Live fun _ => 0 := by
  have hcount : fd.refcount - 1 = 0 := by
    have hle := h.pending fd (mem_of_getElem? hfd) hopened
    omega
  have hold : ∀ i, fd.refers i = false := by
    intro i
    unfold Fd.refers
    rw [hopened]
    rfl
  unfold Sys.openRest
  by_cases hstat : how = .noStat ∨ s.db.stats.lookup fd.fakeInode = none
  · rw [if_pos hstat]
    exact h.fdClose hfd href
  · rw [if_neg hstat]
    obtain ⟨hhow, hrow⟩ := not_or.1 hstat
    obtain ⟨row, hrow⟩ := ne_none_iff_exists'.1 hrow
    have hget := h.inodeGet fd.fakeInode
    by_cases hrefused : how = .refused
    · -- the reference that was taken is given up again
      rw [if_pos hrefused]
      unfold Sys.fdClose
      rw [if_pos ⟨hcount, rfl⟩, Sys.setFd_setFd]
      have hnew : ∀ i, Fd.refers i { fd with opened := true, refcount := fd.refcount - 1 } = false := by
        intro i
        unfold Fd.refers
        simp [hcount]
      refine Sys.Live.inodeRelease (hget.setFd hfd (fun i => by rw [hnew, hold]) (fun i hi => ?_)
        fun hopen => by cases hopen)
      rw [hnew] at hi
      cases hi
    · rw [if_neg hrefused]
      have haccepted : how = .accepted := by
        cases how with
        | noStat => exact absurd rfl hhow
        | refused => exact absurd rfl hrefused
        | accepted => rfl
      have hnew : ∀ i, Fd.refers i { fd with opened := true } = true ↔ i = fd.fakeInode := by
        intro i
        rw [Fd.refers_iff]
        exact ⟨fun h => h.2.2.symm, fun h => ⟨rfl, href, h.symm⟩⟩
      refine hget.setFd hfd (fun i => ?_) (fun i hi => ?_) fun hopen => by cases hopen
      · simp only [hnew, hold, oneRef, Bool.false_eq_true, if_false]
        omega
      · rw [(hnew i).1 hi]
        exact ⟨row, hrow, hsafe haccepted row hrow⟩

/-! ### Operations on paths -/

/-- Rows stay, new rows have a path or are in memory, and fds may be on their way to being open. -/
theorem Sys.Live.update {l : List Fd} (hinodes : s'.inodes = s.inodes)
    (hfds : s'.fds = s.fds ++ l) (hnew : ∀ fd ∈ l, fd.IsNew)
    (hrows : ∀ i row, s.db.stats.lookup i = some row → ∃ row', s'.db.stats.lookup i = some row' ∧ row'.born = row.born)
    (href : ∀ i, (s'.db.stats.lookup i).isSome → s'.db.HasPath i ∨ s.inodes i ≠ 0) : s'.Live fun _ => 0 where
  counts i := by
    have hzero : l.countP (Fd.refers i) = 0 :=
      countP_eq_zero.2 fun fd hfd => by rw [(hnew fd hfd).refers]; simp
    rw [hinodes, hfds, countP_append, hzero]
    exact h.counts i
  fdRow fd hfd i hi := by
    rw [hfds] at hfd
    rcases mem_append.1 hfd with hfd | hfd
    · obtain ⟨row, hrow, hborn⟩ := h.fdRow fd hfd i hi
      obtain ⟨row', hrow', hborn'⟩ := hrows i row hrow
      exact ⟨row', hrow', hborn'.trans hborn⟩
    · rw [(hnew fd hfd).refers] at hi
      cases hi
  rowRef i hi := by
    rw [hinodes]
    exact href i hi
  pending fd hfd hopened := by
    rw [hfds] at hfd
    rcases mem_append.1 hfd with hfd | hfd
    · exact h.pending fd hfd hopened
    · rw [(hnew fd hfd).refcount]

theorem Sys.Live.updatePaths (hinodes : s'.inodes = s.inodes)
    (hfds : s'.fds = s.fds) (hstats : s'.db.stats = s.db.stats)
    (hpath : ∀ i, s.db.HasPath i → s'.db.HasPath i ∨ s.inodes i ≠ 0) : s'.Live fun _ => 0 := by
  refine h.update (l := []) hinodes (by rw [hfds, append_nil]) (by simp)
    (fun i row hrow => ⟨row, by rw [hstats]; exact hrow, rfl⟩) fun i hi => ?_
  rw [hstats] at hi
  rcases h.rowRef i hi with hp | hne
  · exact hpath i hp
  · exact .inr hne

theorem Sys.Live.writeStat {row : Row} (hrow : s.db.stats.lookup inode = some row) (stat : IshStat) :
    ({ s with db := s.db.inodeWriteStat inode stat } : Sys).Live fun _ => 0 := by
  have hlookup := Db.lookup_inodeWriteStat hrow stat
  refine h.update (l := []) rfl (append_nil _).symm (by simp) (fun i r hr => ?_) fun i hi => ?_
  · show ∃ row', (s.db.inodeWriteStat inode stat).stats.lookup i = some row' ∧ _
    rw [hlookup]
    split_ifs with heq
    · rw [heq, hrow] at hr
      cases hr
      exact ⟨_, rfl, rfl⟩
    · exact ⟨r, hr, rfl⟩
  · have hi : ((s.db.inodeWriteStat inode stat).stats.lookup i).isSome := hi
    have hsome : (s.db.stats.lookup i).isSome := by
      rw [hlookup] at hi
      split_ifs at hi with heq
      · rw [heq, hrow]
        rfl
      · exact hi
    show (s.db.inodeWriteStat inode stat).HasPath i ∨ _
    unfold Db.HasPath
    rw [Db.paths_inodeWriteStat]
    exact h.rowRef i hsome

theorem Sys.Live.create {path : Path} (hnone : s.db.paths.lookup path = none)
    (host : Host) (stat : IshStat) {new : List Fd} (hnew : ∀ fd ∈ new, fd.IsNew) : ({ s with
      host := host, db := (s.db.pathCreate path stat).1, fds := s.fds ++ new } : Sys).Live fun _ => 0 := by
  have hlookup := s.db.stats_pathCreate path stat
  have hpaths := s.db.lookup_pathCreate path stat
  refine h.update rfl rfl hnew (fun i row hrow => ⟨row, ?_, rfl⟩) fun i hi => ?_
  · show (s.db.pathCreate path stat).1.stats.lookup i = some row
    rw [hlookup, if_neg]
    · exact hrow
    · rintro rfl
      rw [Db.lookup_nextRowid] at hrow
      cases hrow
  · have hi : ((s.db.pathCreate path stat).1.stats.lookup i).isSome := hi
    show (s.db.pathCreate path stat).1.HasPath i ∨ _
    rw [hlookup] at hi
    split_ifs at hi with heq
    · exact .inl ⟨path, by rw [hpaths, if_pos rfl, heq]⟩
    · refine (h.rowRef i hi).imp ?_ id
      rintro ⟨b, hb⟩
      refine ⟨b, ?_⟩
      rw [hpaths, if_neg]
      · exact hb
      · rintro rfl
        rw [hnone] at hb
        cases hb

theorem Sys.Live.remove (hs : s.Plain) (host : Host) (path : Path) :
    (({ s with host := host, db := (s.db.pathUnlink path).1 } : Sys).inodeCheckOrphaned
      (s.db.pathUnlink path).2).Live fun _ => 0 := by
  have hstats : (s.db.pathUnlink path).1.stats = s.db.stats := s.db.stats_pathUnlink path
  have hino : ∀ i, s.db.paths.lookup path = some i → i = (s.db.pathUnlink path).2 := by
    intro i hi
    unfold Db.pathUnlink
    rw [Db.pathGetInode_of_lookup hi, if_neg (hs.paths path i hi).pos]
  have hrow : ∀ i, i ≠ (s.db.pathUnlink path).2 → ((s.db.pathUnlink path).1.stats.lookup i).isSome →
      (s.db.pathUnlink path).1.HasPath i ∨ s.inodes i ≠ 0 := by
    intro i hne hi
    rw [hstats] at hi
    refine (h.rowRef i hi).imp ?_ id
    rintro ⟨b, hb⟩
    refine ⟨b, ?_⟩
    rw [hs.lookup_pathUnlink, if_neg]
    · exact hb
    · rintro rfl
      exact hne (hino i hb)
  have hfd : ∀ fd ∈ s.fds, ∀ i, fd.refers i = true →
      ∃ row, (s.db.pathUnlink path).1.stats.lookup i = some row ∧ row.born = fd.born := by
    rw [hstats]
    exact h.fdRow
  unfold Sys.inodeCheckOrphaned
  split_ifs with hzero
  · exact Sys.Live.cleanup (s := { s with host := host, db := (s.db.pathUnlink path).1 })
      h.counts hfd hrow h.pending hzero
  · refine ⟨h.counts, hfd, fun i hi => ?_, h.pending⟩
    by_cases hne : i = (s.db.pathUnlink path).2
    · rw [hne]
      exact .inr hzero
    · exact hrow i hne hi

end

/-! ### Steps -/

/-- The operations that keep the rows right: a row that an fd gets is the one that it had when its path was
looked up, and an inode that loses its last path by a rename is in memory. -/
def Sys.InodeSafe (s : Sys) : Act → Prop
  | .openRest i how => how = .accepted → ∀ fd ∈ s.fds[i]?, ∀ row ∈ s.db.stats.lookup fd.fakeInode,
    row.born = fd.born
  | .rename src dst fault => ∀ host, s.hostRename src dst fault = .ok host → ∀ i, s.db.HasPath i →
    (s.db.pathRename (pathBytes src) (pathBytes dst)).HasPath i ∨ s.inodes i ≠ 0
  | _ => True

variable {out : Outcome}

theorem Sys.Live.step (h : s.Live fun _ => 0) (hs : s.Plain) {a : Act}
    (hcall : s.call a = some (s', out)) (hsafe : s.InodeSafe a) : s'.Live fun _ => 0 := by
  cases hs.effect hcall with
  | quiet hhost hnew =>
    exact h.update rfl rfl hnew (fun i row hrow => ⟨row, hrow, rfl⟩) h.rowRef
  | writeStat hrow => exact h.writeStat hrow _
  | mknodOver _ hdb =>
    obtain ⟨row, hrow⟩ := isSome_iff_exists.1 (hs.paths _ _ hdb).row
    exact h.writeStat hrow _
  | leftover hmake hhost => exact h.updatePaths rfl rfl rfl fun i hi => .inl hi
  | create hdb hhost hnew => exact h.create hdb _ _ hnew
  | @link src dst fault inode host hhost hsrc =>
    -- the new path was in neither tree
    obtain ⟨o, -, -, hdst, -⟩ := Host.link_eq_ok hhost
    have hnone := hs.lookup_eq_none hdst
    refine h.updatePaths rfl rfl rfl fun i hi => .inl ?_
    obtain ⟨b, hb⟩ := hi
    refine ⟨b, ?_⟩
    show (s.db.paths.insert (pathBytes dst) inode).lookup b = some i
    rw [lookup_insert_apply, if_neg]
    · exact hb
    · rintro rfl
      rw [hnone] at hb
      cases hb
  | remove hhost => exact h.remove hs _ _
  | «alias» _ _ hhost | move _ _ hhost _ => exact h.updatePaths rfl rfl rfl (hsafe _ hhost)
  | openRest hfd hopened href =>
    exact h.openRest hfd hopened href fun hhow row hrow => hsafe hhow _ hfd row hrow
  | dup hfd hopened href => exact h.dup hfd href hopened
  | close hfd hopened href => exact h.fdClose hfd href

/-! ### Rows -/

/-- Some path or open fd has this inode. -/
def Sys.Refers (s : Sys) (inode : Nat) : Prop :=
  s.db.HasPath inode ∨ ∃ fd ∈ s.fds, fd.refers inode = true

/-- What is asked of a state: an inode that is referred to has its row, which is for an fd the one that it
was opened with, and any other row is gone. -/
structure Sys.RowsLive (s : Sys) : Prop where
  path : ∀ i, s.db.HasPath i → (s.db.stats.lookup i).isSome
  fd : ∀ fd ∈ s.fds, ∀ i, fd.refers i = true → ∃ row, s.db.stats.lookup i = some row ∧ row.born = fd.born
  gone : ∀ i, (s.db.stats.lookup i).isSome → s.Refers i

theorem Sys.Live.rowsLive (h : s.Live fun _ => 0) (hs : s.Plain) : s.RowsLive where
  path := by
    rintro i ⟨b, hb⟩
    exact (hs.paths b i hb).row
  fd := h.fdRow
  gone i hi := by
    refine (h.rowRef i hi).imp id fun hne => ?_
    rw [h.counts i] at hne
    exact countP_pos_iff.1 (Nat.pos_of_ne_zero hne)

theorem Sys.RowsLive.isSome (h : s.RowsLive) (hi : s.Refers i) : (s.db.stats.lookup i).isSome := by
  rcases hi with hp | ⟨fd, hfd, href⟩
  · exact h.path i hp
  · obtain ⟨row, hrow, -⟩ := h.fd fd hfd i href
    rw [hrow]
    rfl

theorem Db.RowsKept.refl (db : Db) : db.RowsKept db := fun _ row hrow => .inr ⟨row, hrow, rfl⟩

theorem Db.rowsKept_tryCleanupInode (db : Db) (inode : Nat) : db.RowsKept (db.tryCleanupInode inode) := by
  classical
  intro i row hrow
  rw [Db.lookup_tryCleanupInode]
  split_ifs
  · exact .inl rfl
  · exact .inr ⟨row, hrow, rfl⟩

theorem Sys.rowsKept_inodeRelease (s : Sys) (inode : Nat) : s.db.RowsKept (s.inodeRelease inode).db := by
  unfold Sys.inodeRelease
  dsimp only
  split_ifs
  · exact s.db.rowsKept_tryCleanupInode inode
  · exact .refl _

theorem Sys.rowsKept_fdClose (s : Sys) (j : Nat) (fd : Fd) : s.db.RowsKept (s.fdClose j fd).db := by
  unfold Sys.fdClose
  split_ifs
  · exact Sys.rowsKept_inodeRelease (s.setFd j _) _
  · exact .refl _

theorem Db.rowsKept_inodeWriteStat {db : Db} {row : Row} (hrow : db.stats.lookup inode = some row)
    (stat : IshStat) : db.RowsKept (db.inodeWriteStat inode stat) := by
  intro i r hr
  rw [Db.lookup_inodeWriteStat hrow]
  split_ifs with heq
  · rw [heq, hrow] at hr
    cases hr
    exact .inr ⟨_, rfl, rfl⟩
  · exact .inr ⟨r, hr, rfl⟩

/-- **No operation gives the number of a row to another file.** -/
theorem Sys.Effect.rowsKept {a : Act} (he : s.Effect a s' out) (hs : s.Plain) : s.db.RowsKept s'.db := by
  cases he with
  | quiet | leftover | dup => exact .refl _
  | writeStat hrow => exact Db.rowsKept_inodeWriteStat hrow _
  | mknodOver _ hdb =>
    obtain ⟨row, hrow⟩ := isSome_iff_exists.1 (hs.paths _ _ hdb).row
    exact Db.rowsKept_inodeWriteStat hrow _
  | @create _ _ p stat =>
    intro i row hrow
    refine .inr ⟨row, ?_, rfl⟩
    show (s.db.pathCreate (pathBytes p) stat).1.stats.lookup i = some row
    rw [Db.stats_pathCreate, if_neg]
    · exact hrow
    · rintro rfl
      rw [Db.lookup_nextRowid] at hrow
      cases hrow
  | link | «alias» | move => exact fun i row hrow => .inr ⟨row, hrow, rfl⟩
  | @remove _ p host =>
    intro i row hrow
    rw [← s.db.stats_pathUnlink (pathBytes p)] at hrow
    unfold Sys.inodeCheckOrphaned
    split_ifs
    · exact Db.rowsKept_tryCleanupInode _ _ i row hrow
    · exact .inr ⟨row, hrow, rfl⟩
  | @openRest i how fd =>
    unfold Sys.openRest
    split_ifs
    · exact s.rowsKept_fdClose _ _
    · exact Sys.rowsKept_fdClose ((s.inodeGet fd.fakeInode).setFd i { fd with opened := true }) _ _
    · exact .refl _
  | close => exact s.rowsKept_fdClose _ _

/-- What is asked of an operation: the rows are right after it, and an inode that is still referred to has the
row that it had. -/
structure Sys.KeepsRows (s s' : Sys) : Prop where
  rows : s'.RowsLive
  same : ∀ i row, s.db.stats.lookup i = some row → s'.Refers i →
    ∃ row', s'.db.stats.lookup i = some row' ∧ row'.born = row.born

theorem Sys.Live.inodeSafe_of_keeps (h : s.Live fun _ => 0) (hs : s.Plain) {a : Act}
    (hcall : s.call a = some (s', out)) (hkeeps : s'.RowsLive) : s.InodeSafe a := by
  cases a with
  | openRest i how =>
    rintro rfl fd hfd row hrow
    obtain ⟨fd', hfd', href, hopened, hr⟩ := Sys.withFd_eq_some hcall
    cases hfd.symm.trans hfd'
    have hstate : s.openRest i fd .accepted = (s', out) := Option.some.inj hr
    unfold Sys.openRest at hstate
    rw [if_neg (by rw [mem_def.1 hrow]; simp), if_neg (by simp)] at hstate
    obtain ⟨rfl, -⟩ := Prod.mk.inj hstate
    -- the fd is open now
    obtain ⟨hlt, -⟩ := List.getElem?_eq_some_iff.1 hfd
    obtain ⟨row', hrow', hborn⟩ := hkeeps.fd { fd with opened := true } (mem_set hlt _)
      fd.fakeInode (Fd.refers_iff.2 ⟨rfl, href, rfl⟩)
    cases (show s.db.stats.lookup fd.fakeInode = some row' from hrow').symm.trans hrow
    exact hborn
  | rename src dst fault =>
    intro host hok i hi
    have hstate : s.rename src dst fault = (s', out) := Option.some.inj hcall
    unfold Sys.rename at hstate
    rw [hs.isUnderReadonly, hs.isUnderReadonly, Bool.or_false, if_neg Bool.false_ne_true, hok] at hstate
    obtain ⟨rfl, -⟩ := Prod.mk.inj hstate
    obtain ⟨b, hb⟩ := hi
    rcases hkeeps.gone i (hs.paths b i hb).row with hpath | ⟨fd, hfd, href⟩
    · exact .inl hpath
    · have hpos : 0 < s.fds.countP (Fd.refers i) := countP_pos_iff.2 ⟨fd, hfd, href⟩
      have hcount := h.counts i
      exact .inr (by omega)
  | _ => trivial

theorem Sys.Live.run {s₀ : Sys} (hs : s₀.Plain) (h : s₀.Live fun _ => 0)
    (hrun : Run Sys.step Sys.InodeSafe s₀ s) : s.Plain ∧ s.Live fun _ => 0 := by
  refine hrun.inv (fun s => s.Plain ∧ s.Live fun _ => 0) (fun s a s' h hsafe hstep => ?_) ⟨hs, h⟩
  obtain ⟨⟨s₁, out⟩, hcall, rfl⟩ := map_eq_some_iff.1 hstep
  exact ⟨(h.1.effect hcall).plain h.1, h.2.step h.1 hcall hsafe⟩

theorem emptyMount_live : emptyMount.Live fun _ => 0 := by
  refine ⟨fun _ => rfl, fun fd hfd => (not_mem_nil hfd).elim, fun i hi => .inl ⟨[], ?_⟩,
    fun fd hfd => (not_mem_nil hfd).elim⟩
  have hi : ((AList.singleton 1 _ : AList fun _ : Nat => Row).lookup i).isSome := hi
  rw [← AList.insert_empty, lookup_insert_apply, AList.lookup_empty] at hi
  split_ifs at hi with heq
  · rw [emptyMount_lookup, heq]
    rfl
  · cases hi

/-- The first of two new files becomes open. -/
def openAct : Act := .openRest 0 .accepted

theorem openAct_isSome : (afterFiles.call openAct).isSome := by decide

def afterOpenAct : Sys × Outcome := Option.get _ openAct_isSome

/-- Two files are made and closed, and one is renamed over the other. -/
def overRun : List Act :=
  [createAct nameA, .openRest 0 .accepted, .close 0, createAct nameB, .openRest 1 .accepted, .close 1, renameAct]

theorem overRun_isSome : (overRun.foldlM Sys.step emptyMount).isSome := by decide

def afterOver : Sys := Option.get _ overRun_isSome

end Ish.Fs.Fakefs
