import Ish.Fs.Open
import Ish.Fs.Equiv.Fake

/-!
# Refused and granted opens

The backend has made or truncated the file before `generic_openat` looks at its permissions and type, so
an open that is refused then leaves the change behind (`refused_open_unchanged`). The check itself asks
for one of the accesses only, and does not know supplementary groups (`access_check_sound`).

`fileStat` is the status that the checks will be made on, read off the state before the call, and `Admits` says what they
ask of it; `genericOpenat_eq_ok_iff` puts the two together.
-/

namespace Ish.Fs.Fakefs

/-! ### Permission classes -/

/-- The bits of the first class that the caller is in. -/
def classBits (owner group : Prop) [Decidable owner] [Decidable group] (mode : BitVec 32) : BitVec 3 :=
  if owner then (mode >>> 6).setWidth 3 else if group then (mode >>> 3).setWidth 3 else mode.setWidth 3

/-- The class that `access_check` looks at. -/
def checkedBits (cred : Cred) (stat : Stat) : BitVec 3 :=
  classBits (cred.euid = stat.uid) (cred.egid = stat.gid) stat.mode

/-- The class that applies to a caller with supplementary groups. -/
def grantedBits (cred : Cred) (groups : List Nat) (stat : Stat) : BitVec 3 :=
  classBits (cred.euid = stat.uid) (cred.egid = stat.gid ∨ stat.gid ∈ groups) stat.mode

/-- All accesses of `S` are granted. -/
def Grants (cred : Cred) (groups : List Nat) (stat : Stat) (S : BitVec 3) : Prop :=
  grantedBits cred groups stat &&& S = S

instance (cred : Cred) (groups : List Nat) (stat : Stat) (S : BitVec 3) :
    Decidable (Grants cred groups stat S) := inferInstanceAs (Decidable (_ = _))

/-- The bits of a class are the same for all accesses of `S`. -/
def Alike (bits S : BitVec 3) : Prop := ∀ i j : Fin 3, S.getLsb i → S.getLsb j → bits.getLsb i = bits.getLsb j

/-- A caller that is in the file's group by a supplementary group only finds nothing of `S` for others, or all of it
for the group; for every other caller its class treats the accesses of `S` alike. -/
def CheckSafe (cred : Cred) (groups : List Nat) (stat : Stat) (S : BitVec 3) : Prop :=
  if cred.euid ≠ stat.uid ∧ cred.egid ≠ stat.gid ∧ stat.gid ∈ groups then
    (∀ i : Fin 3, S.getLsb i → stat.mode.getLsbD i = false) ∨ ∀ i : Fin 3, S.getLsb i → stat.mode.getLsbD (3 + i) = true
  else Alike (checkedBits cred stat) S

/-- The bits of a request, shifted to a class, in a mode. -/
theorem and_shiftLeft_eq_zero (mode : BitVec 32) (S : BitVec 3) {k : Nat} (hk : k ≤ 6) :
    mode &&& (S.setWidth 32 <<< k) = 0#32 ↔ (mode >>> k).setWidth 3 &&& S = 0#3 := by
  constructor
  · intro h
    apply BitVec.eq_of_getLsbD_eq
    intro i hi
    have hbit := congrArg (fun x => x.getLsbD (k + i)) h
    have hlt : k + i < 32 := by omega
    have hsub : k + i - k = i := by omega
    simpa [hlt, hsub, hi, show i < 32 by omega, Nat.add_comm] using hbit
  · intro h
    apply BitVec.eq_of_getLsbD_eq
    intro i hi
    by_cases hki : k ≤ i ∧ i - k < 3
    · have hbit := congrArg (fun x => x.getLsbD (i - k)) h
      have hadd : k + (i - k) = i := by omega
      have hnot : ¬i < k := by omega
      simpa [hki.2, hadd, hi, hnot, show i - k < 32 by omega] using hbit
    · have hzero : i < k ∨ S.getLsbD (i - k) = false := by
        by_cases hlt : i < k
        · exact .inl hlt
        · exact .inr (BitVec.getLsbD_of_ge _ _ (by omega))
      rcases hzero with hlt | hzero
      · simp [hi, hlt]
      · simp [hi, hzero]

/-- `access_check` passes if the class it looks at grants anything that is asked for. -/
theorem accessCheck_iff (cred : Cred) (stat : Stat) {S : BitVec 3} (hS : S ≠ 0) (hu : cred.euid ≠ 0) :
    accessCheck cred stat (S.setWidth 32) = true ↔ checkedBits cred stat &&& S ≠ 0 := by
  have hsuper : cred.superuser = false := by
    unfold Cred.superuser
    exact beq_false_of_ne hu
  have hcheck : S.setWidth 32 ≠ 0#32 := by
    intro h
    apply hS
    have hback := congrArg (BitVec.setWidth 3) h
    simpa using hback
  unfold accessCheck checkedBits classBits
  rw [hsuper, if_neg Bool.false_ne_true, if_neg hcheck]
  split_ifs
  · rw [bne_iff_ne, ne_eq, and_shiftLeft_eq_zero _ _ (Nat.le_refl 6)]
    rfl
  · rw [bne_iff_ne, ne_eq, and_shiftLeft_eq_zero _ _ (by omega)]
    rfl
  · have h := and_shiftLeft_eq_zero stat.mode S (Nat.zero_le 6)
    rw [BitVec.shiftLeft_zero, BitVec.ushiftRight_zero] at h
    rw [bne_iff_ne, ne_eq, h]
    rfl

theorem alike_iff : ∀ bits S : BitVec 3, Alike bits S ↔ (bits &&& S ≠ 0 → bits &&& S = S) := by
  unfold Alike
  decide

theorem and_eq_zero_iff : ∀ bits S : BitVec 3, bits &&& S = 0 ↔ ∀ i : Fin 3, S.getLsb i → bits.getLsbD i = false := by
  decide

theorem and_eq_self_iff : ∀ bits S : BitVec 3, bits &&& S = S ↔ ∀ i : Fin 3, S.getLsb i → bits.getLsbD i = true := by
  decide

/-- **`access_check` is sound** for one request exactly on the condition. -/
theorem accessCheck_sound_iff (cred : Cred) (groups : List Nat) (stat : Stat) {S : BitVec 3} (hS : S ≠ 0)
    (hu : cred.euid ≠ 0) : (accessCheck cred stat (S.setWidth 32) = true → Grants cred groups stat S) ↔
      CheckSafe cred groups stat S := by
  rw [accessCheck_iff cred stat hS hu]
  unfold CheckSafe Grants
  split_ifs with hclass
  · -- the class of the others is looked at where the one of the group applies
    obtain ⟨howner, hgroup, hmem⟩ := hclass
    have hchecked : checkedBits cred stat = stat.mode.setWidth 3 := by
      unfold checkedBits classBits
      rw [if_neg howner, if_neg hgroup]
    have hgranted : grantedBits cred groups stat = (stat.mode >>> 3).setWidth 3 := by
      unfold grantedBits classBits
      rw [if_neg howner, if_pos (.inr hmem)]
    rw [hchecked, hgranted, ne_eq, ← or_iff_not_imp_left, and_eq_zero_iff, and_eq_self_iff]
    simp
  · have hsame : grantedBits cred groups stat = checkedBits cred stat := by
      unfold grantedBits checkedBits classBits
      split_ifs <;> tauto
    rw [hsame, alike_iff]

/-! ### What is opened, and what is asked of it -/

variable {s : Sys} {env : OpenEnv} {args : OpenArgs}

/-- The type of the object that `bind_mount_ensure_inode` finds. -/
def Sys.boundKind (s : Sys) (p : HPath) : Option Kind :=
  match s.translate p with
  | some path => s.host.kindAt (s.host.walk true [] path)
  | none => s.host.kindAt (s.at false p)

/-- The status that a path of a fakefs has when it is opened: that of its row, that of a new file, or, under a bind
mount, the one that is made up for an object without a row. -/
def Sys.statOf (s : Sys) (p : HPath) (flags : OpenFlags) (new : IshStat) : Option IshStat :=
  if s.db.pathGetInode (pathBytes p) ≠ 0 then s.db.inodeReadStat (s.db.pathGetInode (pathBytes p))
  else if flags.creat then some new
  else if s.isUnderBindMount p then (s.boundKind p).map Kind.bindStat
  else none

/-- The status of the file that is to be opened. -/
def Sys.fileStat (s : Sys) (env : OpenEnv) (args : OpenArgs) : Option IshStat :=
  match env.start args with
  | .error _ => none
  | .ok (.fakefs, p) => s.statOf p args.flags ⟨args.mode ||| sIfreg, env.task.cred.euid, env.task.cred.egid, 0⟩
  | .ok (.realfs root, p) => env.hostStat ((s.host.entry (s.realAt root p args.flags)).getD s.host.next)

/-- The accesses that the flags ask for. -/
def OpenFlags.accesses (flags : OpenFlags) : BitVec 3 :=
  if flags.rdwr then 6#3 else if flags.wronly then 2#3 else 4#3

theorem OpenFlags.setWidth_accesses (flags : OpenFlags) : flags.accesses.setWidth 32 = flags.accmode := by
  unfold OpenFlags.accesses OpenFlags.accmode
  split_ifs <;> rfl

theorem OpenFlags.accesses_ne_zero (flags : OpenFlags) : flags.accesses ≠ 0 := by
  unfold OpenFlags.accesses
  split_ifs <;> decide

/-- What `generic_openat` asks of a file: some of the accesses are granted by the class of the caller, it is no link
and no socket, its driver opens it, a directory is not to be written, and with `O_DIRECTORY` it is one. -/
structure OpenEnv.Admits (env : OpenEnv) (args : OpenArgs) (stat : IshStat) : Prop where
  access : env.task.cred.euid = 0 ∨ checkedBits env.task.cred stat.access &&& args.flags.accesses ≠ 0
  link : stat.mode &&& sIfmt ≠ sIflnk
  device : stat.mode &&& sIfmt = sIfblk ∨ stat.mode &&& sIfmt = sIfchr → env.devOpen stat = none
  socket : stat.mode &&& sIfmt ≠ sIfsock
  dir : stat.mode &&& sIfmt = sIfdir → args.flags.writable = false
  directory : args.directory = true → stat.mode &&& sIfmt = sIfdir

theorem accessCheck_accmode_iff (cred : Cred) (stat : Stat) (flags : OpenFlags) :
    accessCheck cred stat flags.accmode = true ↔ cred.euid = 0 ∨ checkedBits cred stat &&& flags.accesses ≠ 0 := by
  by_cases hu : cred.euid = 0
  · refine iff_of_true ?_ (.inl hu)
    unfold accessCheck Cred.superuser
    rw [hu]
    rfl
  · rw [← flags.setWidth_accesses, accessCheck_iff cred stat flags.accesses_ne_zero hu]
    exact ⟨.inr, fun h => h.resolve_left hu⟩

theorem OpenEnv.check_eq_none_iff {stat : IshStat} : env.check args stat = none ↔ env.Admits args stat := by
  have haccess := accessCheck_accmode_iff env.task.cred stat.access args.flags
  unfold OpenEnv.check
  dsimp only
  generalize hdev : (if stat.mode &&& sIfmt = sIfblk ∨ stat.mode &&& sIfmt = sIfchr then env.devOpen stat else none) = dev
  constructor
  · intro h
    split at h
    · cases h
    next hacc =>
    split at h
    · cases h
    next hlink =>
    cases dev with
    | some e => cases h
    | none =>
      dsimp only at h
      split_ifs at h with hsock hdir hdirectory
      refine ⟨haccess.1 (by rwa [Bool.not_eq_false] at hacc), hlink, fun hd => by rwa [if_pos hd] at hdev, hsock,
        fun hd => ?_, fun hd => ?_⟩
      · exact eq_false_of_ne_true fun hw => hdir ⟨hd, hw⟩
      · by_contra hne
        exact hdirectory ⟨hne, hd⟩
  · intro h
    have hnone : dev = none := by
      rw [← hdev]
      split_ifs with hd
      · exact h.device hd
      · rfl
    have hdir : ¬(stat.mode &&& sIfmt = sIfdir ∧ args.flags.writable = true) := by
      rintro ⟨hd, hw⟩
      rw [h.dir hd] at hw
      cases hw
    rw [haccess.2 h.access, if_neg (by decide), if_neg h.link, hnone]
    dsimp only
    rw [if_neg h.socket, if_neg hdir, if_neg fun hd => hd.1 (h.directory hd.2)]

theorem OpenEnv.finish_eq_ok_iff {stat : Option IshStat} : env.finish args (env.seen stat) = .ok () ↔
    env.noInode = false ∧ ∃ st, stat = some st ∧ env.Admits args st := by
  unfold OpenEnv.finish OpenEnv.seen
  cases hno : env.noInode with
  | true => exact iff_of_false nofun fun h => Bool.noConfusion h.1
  | false =>
    cases stat with
    | none => exact iff_of_false nofun fun ⟨_, _, hst, _⟩ => nomatch hst
    | some st =>
      simp only [Bool.false_eq_true, if_false, true_and, Option.some.injEq, exists_eq_left', ← check_eq_none_iff]
      cases env.check args st with
      | none => exact iff_of_true rfl rfl
      | some e => exact iff_of_false nofun nofun

/-! ### The backends -/

theorem Host.SameTree.linkAt {h h' : Host} (hs : h.SameTree h') (q : HPath) : h'.linkAt q = h.linkAt q := by
  unfold Host.linkAt
  rw [hs.kindAt]

theorem Host.SameTree.walk {h h' : Host} (hs : h.SameTree h') (follow : Bool) (cur : HPath) (names : List Component) :
    h'.walk follow cur names = h.walk follow cur names := by
  induction names generalizing cur with
  | nil => rfl
  | cons c names ih =>
    unfold Host.walk
    rw [hs.linkAt]
    split
    · exact ih _
    · exact ih _

/-- What `openat` gives is the object at the path, or a new one; without `O_CREAT` the tree stays as it is. -/
theorem Host.object_openat {h h' : Host} {q : HPath} {flags : OpenFlags} {o : Nat}
    (hok : h.openat q flags = .ok (h', o)) :
    o = (h.entry q).getD h.next ∧ (flags.creat = false → h.SameTree h') := by
  rcases Host.openat_eq_ok hok with ⟨hentry, rfl | ⟨-, rfl⟩⟩ | ⟨hcreat, hnone, -, rfl, -⟩
  · exact ⟨by rw [hentry]; rfl, fun _ => .refl _⟩
  · exact ⟨by rw [hentry]; rfl, fun _ => h.sameTree_setNode rfl⟩
  · exact ⟨by rw [hnone]; rfl, fun hno => absurd hcreat (by rw [hno]; exact Bool.false_ne_true)⟩

theorem Db.stat_pathCreate (db : Db) (path : Path) (stat : IshStat) :
    (db.pathCreate path stat).2 ≠ 0 ∧ (db.pathCreate path stat).1.inodeReadStat (db.pathCreate path stat).2 = some stat :=
  ⟨Nat.succ_ne_zero _, by unfold Db.inodeReadStat Db.pathCreate; rw [AList.lookup_insert]; rfl⟩

/-- The inode that `fakefs_open` finds or makes has the status that `statOf` says, and there is none exactly if
`statOf` has none. -/
theorem Sys.stat_openInode {h : Host} {p : HPath} {flags : OpenFlags} {new : IshStat}
    (hsame : flags.creat = false → s.host.SameTree h) :
    let r := ({ s with host := h } : Sys).openInode p flags new
    (if r.2 = 0 then none else r.1.db.inodeReadStat r.2) = s.statOf p flags new := by
  dsimp only
  unfold Sys.openInode Sys.statOf
  by_cases hino : s.db.pathGetInode (pathBytes p) ≠ 0
  · rw [if_pos hino, if_pos hino, if_neg hino]
  rw [if_neg hino, if_neg hino]
  by_cases hcreat : flags.creat = true
  · rw [if_pos hcreat, if_pos hcreat]
    obtain ⟨hne, hstat⟩ := s.db.stat_pathCreate (pathBytes p) new
    exact (if_neg hne).trans hstat
  rw [if_neg hcreat, if_neg hcreat]
  have htree := hsame (eq_false_of_ne_true hcreat)
  have hkind : ({ s with host := h } : Sys).boundKind p = s.boundKind p := by
    unfold Sys.boundKind Sys.at
    show (match s.translate p with | some path => _ | none => _) = _
    cases s.translate p with
    | none => exact (htree.kindAt _).trans (congrArg _ (htree.walk _ _ _))
    | some path => exact (htree.kindAt _).trans (congrArg _ (htree.walk _ _ _))
  have hensure : ({ s with host := h } : Sys).ensureInode p = (s.boundKind p).elim ({ s with host := h }, 0) fun kind =>
      ({ s with host := h, db := (s.db.pathCreate (pathBytes p) kind.bindStat).1 },
        (s.db.pathCreate (pathBytes p) kind.bindStat).2) := by
    rw [← hkind]
    unfold Sys.ensureInode
    rw [if_neg hino]
    unfold Sys.boundKind
    dsimp only
    cases ({ s with host := h } : Sys).translate p with
    | none =>
      dsimp only
      cases h.kindAt (({ s with host := h } : Sys).at false p) <;> rfl
    | some path =>
      dsimp only
      cases h.kindAt (h.walk true [] path) <;> rfl
  have hbound : ({ s with host := h } : Sys).isUnderBindMount p = s.isUnderBindMount p := rfl
  rw [hbound]
  by_cases hb : s.isUnderBindMount p = true
  · rw [if_pos hb, if_pos hb, hensure]
    cases s.boundKind p with
    | none => rfl
    | some kind =>
      obtain ⟨hne, hstat⟩ := s.db.stat_pathCreate (pathBytes p) kind.bindStat
      exact (if_neg hne).trans hstat
  · rw [if_neg hb, if_neg hb]
    rfl

/-- The place where the backend opens the file, if it gets as far as that. -/
def Sys.openedAt (s : Sys) (env : OpenEnv) (args : OpenArgs) : Option HPath :=
  match env.start args with
  | .error _ => none
  | .ok (.fakefs, p) =>
    if env.fault || args.flags.intent && s.isUnderReadonly p then none else some (s.openAt p args.flags)
  | .ok (.realfs root, p) => if env.fault then none else some (s.realAt root p args.flags)

/-- The host after the backend was asked. -/
def Sys.hostOpened (s : Sys) (env : OpenEnv) (args : OpenArgs) : Host :=
  match s.openedAt env args with
  | none => s.host
  | some q =>
    match s.host.openat q args.flags with
    | .error _ => s.host
    | .ok (host, _) => host

theorem Sys.addFd_host (s : Sys) (inode object : Nat) (flags : OpenFlags) :
    (s.addFd inode object flags).1.host = s.host := by
  unfold Sys.addFd
  split_ifs <;> rfl

theorem Sys.fdClose_host (s : Sys) (i : Nat) (fd : Fd) : (s.fdClose i fd).host = s.host := by
  unfold Sys.fdClose Sys.inodeRelease
  dsimp only
  split_ifs <;> rfl

theorem Sys.openRest_host (s : Sys) (i : Nat) (fd : Fd) (how : OpenEnd) : (s.openRest i fd how).1.host = s.host := by
  unfold Sys.openRest
  dsimp only
  split_ifs
  · exact s.fdClose_host i fd
  · rw [Sys.fdClose_host]
    rfl
  · rfl

theorem Sys.genericOpenat_host (s : Sys) (env : OpenEnv) (args : OpenArgs) :
    (s.genericOpenat env args).2.host = s.hostOpened env args := by
  unfold Sys.genericOpenat Sys.hostOpened Sys.openedAt
  cases hstart : env.start args with
  | error r => rfl
  | ok target =>
    obtain ⟨m, p⟩ := target
    cases m with
    | fakefs =>
      have hrest : (s.openFake env args p).2.host =
          (s.openFile p args.flags args.mode env.task.cred env.fault).1.host := by
        unfold Sys.openFake
        dsimp only
        split
        · exact Sys.openRest_host _ _ _ _
        · rfl
      dsimp only
      rw [hrest]
      unfold Sys.openFile
      by_cases hro : (args.flags.intent && s.isUnderReadonly p) = true
      · rw [if_pos hro, hro, Bool.or_true, if_pos rfl]
      · rw [if_neg hro, eq_false_of_ne_true hro, Bool.or_false]
        by_cases hfault : env.fault = true
        · rw [if_pos hfault, if_pos hfault]
        · rw [if_neg hfault, if_neg hfault]
          dsimp only
          cases hopen : s.host.openat (s.openAt p args.flags) args.flags with
          | error e => rfl
          | ok r =>
            obtain ⟨host, object⟩ := r
            dsimp only
            rw [Sys.addFd_host]
            obtain ⟨db, hdb⟩ := ({ s with host := host } : Sys).openInode_db p args.flags
              ⟨args.mode ||| sIfreg, env.task.cred.euid, env.task.cred.egid, 0⟩
            rw [hdb]
    | realfs root =>
      dsimp only
      unfold Sys.openReal
      by_cases hfault : env.fault = true
      · rw [if_pos hfault, if_pos hfault]
      · rw [if_neg hfault, if_neg hfault]
        dsimp only
        cases hopen : s.host.openat (s.realAt root p args.flags) args.flags with
        | error e => rfl
        | ok r => rfl

/-- **How an open ends** on a fakefs once the host has opened the object. -/
theorem Sys.openFake_eq_ok_iff {p : HPath} {h : Host} {object : Nat}
    (hro : ¬(args.flags.intent && s.isUnderReadonly p) = true) (hfault : ¬env.fault = true)
    (hopen : s.host.openat (s.openAt p args.flags) args.flags = .ok (h, object)) :
    (s.openFake env args p).1 = .ok () ↔ env.finish args (env.seen (s.statOf p args.flags
      ⟨args.mode ||| sIfreg, env.task.cred.euid, env.task.cred.egid, 0⟩)) = .ok () := by
  rw [← Sys.stat_openInode (Host.object_openat hopen).2]
  unfold Sys.openFake Sys.openFile
  rw [if_neg hro, if_neg hfault, hopen]
  dsimp only
  obtain ⟨db, hdb⟩ := ({ s with host := h } : Sys).openInode_db p args.flags
    ⟨args.mode ||| sIfreg, env.task.cred.euid, env.task.cred.egid, 0⟩
  generalize ({ s with host := h } : Sys).openInode p args.flags
    ⟨args.mode ||| sIfreg, env.task.cred.euid, env.task.cred.egid, 0⟩ = r at hdb
  obtain ⟨t, inode⟩ := r
  obtain rfl : t = _ := hdb
  unfold Sys.addFd
  dsimp only
  by_cases hino : inode = 0
  · rw [if_pos hino, if_pos hino]
    refine iff_of_false nofun ?_
    unfold OpenEnv.finish OpenEnv.seen
    split_ifs <;> nofun
  · rw [if_neg hino, if_neg hino]
    dsimp only
    rw [List.getElem?_concat_length]

/-- The call succeeds, once the backend has opened the file, exactly if the file is admitted. -/
theorem Sys.genericOpenat_eq_ok_iff {q : HPath} {r : Host × Nat} (hat : s.openedAt env args = some q)
    (hopen : s.host.openat q args.flags = .ok r) : (s.genericOpenat env args).1 = .ok () ↔
      env.noInode = false ∧ ∃ stat, s.fileStat env args = some stat ∧ env.Admits args stat := by
  obtain ⟨h, object⟩ := r
  unfold Sys.openedAt at hat
  unfold Sys.genericOpenat Sys.fileStat
  cases hstart : env.start args with
  | error r =>
    rw [hstart] at hat
    cases hat
  | ok target =>
    obtain ⟨m, p⟩ := target
    rw [hstart] at hat
    cases m with
    | fakefs =>
      obtain ⟨hnot, hq⟩ := Option.ite_none_left_eq_some.1 hat
      cases hq
      rw [Bool.or_eq_true, not_or] at hnot
      exact (Sys.openFake_eq_ok_iff hnot.2 hnot.1 hopen).trans OpenEnv.finish_eq_ok_iff
    | realfs root =>
      obtain ⟨hnot, hq⟩ := Option.ite_none_left_eq_some.1 hat
      cases hq
      dsimp only
      unfold Sys.openReal
      rw [if_neg hnot, hopen, ← (Host.object_openat hopen).1]
      exact OpenEnv.finish_eq_ok_iff

/-- A call that succeeds has got the file from the backend, unless it went through `/proc`. -/
theorem Sys.opened_of_ok (hproc : env.procfd = none) (hok : (s.genericOpenat env args).1 = .ok ()) :
    ∃ q r, s.openedAt env args = some q ∧ s.host.openat q args.flags = .ok r := by
  unfold Sys.genericOpenat at hok
  unfold Sys.openedAt
  cases hstart : env.start args with
  | error r =>
    rw [hstart] at hok
    dsimp only at hok
    rw [hok] at hstart
    unfold OpenEnv.start at hstart
    simp only [hproc] at hstart
    split_ifs at hstart
    · cases hstart
    · split at hstart <;> cases hstart
  | ok target =>
    obtain ⟨m, p⟩ := target
    rw [hstart] at hok
    cases m with
    | fakefs =>
      dsimp only at hok ⊢
      unfold Sys.openFake Sys.openFile at hok
      by_cases hro : (args.flags.intent && s.isUnderReadonly p) = true
      · rw [if_pos hro] at hok
        cases hok
      by_cases hfault : env.fault = true
      · rw [if_neg hro, if_pos hfault] at hok
        cases hok
      rw [if_neg hro, if_neg hfault] at hok
      rw [if_neg (by rw [Bool.or_eq_true, not_or]; exact ⟨hfault, hro⟩)]
      cases hopen : s.host.openat (s.openAt p args.flags) args.flags with
      | error e =>
        rw [hopen] at hok
        cases hok
      | ok r => exact ⟨_, r, rfl, hopen⟩
    | realfs root =>
      dsimp only at hok ⊢
      unfold Sys.openReal at hok
      by_cases hfault : env.fault = true
      · rw [if_pos hfault] at hok
        cases hok
      rw [if_neg hfault] at hok ⊢
      cases hopen : s.host.openat (s.realAt root p args.flags) args.flags with
      | error e =>
        rw [hopen] at hok
        cases hok
      | ok r => exact ⟨_, r, rfl, hopen⟩

/-! ### Granted opens -/

/-- **Permission soundness**: `access_check` passes a caller that is not the superuser only with all of
`S` granted exactly if `CheckSafe`; and an open, or `access`, of a file for which this holds succeeds only with
everything it asks for granted. -/
theorem access_check_sound (ids : Ids) (hu : ids.uid ≠ 0) (heu : ids.euid ≠ 0) :
    (∀ (stat : IshStat) (S : BitVec 3), S ≠ 0 → ((accessCheck ids.cred stat.access (S.setWidth 32) = true →
          Grants ids.cred ids.groups stat.access S) ↔ CheckSafe ids.cred ids.groups stat.access S)) ∧
    (∀ (s : Sys) (env : OpenEnv) (args : OpenArgs), env.task.cred = ids.cred → env.procfd = none →
      (s.genericOpenat env args).1 = .ok () → ∃ stat, s.fileStat env args = some stat ∧
        (CheckSafe ids.cred ids.groups stat.access args.flags.accesses →
          Grants ids.cred ids.groups stat.access args.flags.accesses)) ∧
    (∀ (stat : Cred → Option IshStat) (S : BitVec 3) (eaccess : Bool), S ≠ 0 →
      sysFaccessat ids stat (S.setWidth 32) eaccess = true →
      ∃ cred st, cred = (if eaccess then ids.cred else ⟨ids.uid, ids.gid⟩) ∧ stat cred = some st ∧
        (CheckSafe cred ids.groups st.access S → Grants cred ids.groups st.access S)) := by
  refine ⟨fun stat S hS => accessCheck_sound_iff _ _ _ hS heu, ?_, ?_⟩
  · intro s env args hcred hproc hok
    obtain ⟨q, r, hat, hopen⟩ := Sys.opened_of_ok hproc hok
    obtain ⟨-, stat, hstat, hadmits⟩ := (Sys.genericOpenat_eq_ok_iff hat hopen).1 hok
    refine ⟨stat, hstat, fun hsafe => ?_⟩
    refine (accessCheck_sound_iff ids.cred _ _ args.flags.accesses_ne_zero heu).2 hsafe ?_
    rw [← hcred, args.flags.setWidth_accesses]
    exact (accessCheck_accmode_iff _ _ _).2 hadmits.access
  · intro stat S eaccess hS hok
    unfold sysFaccessat genericAccessat at hok
    dsimp only at hok
    cases hstat : stat (if eaccess then ids.cred else ⟨ids.uid, ids.gid⟩) with
    | none =>
      rw [hstat] at hok
      cases hok
    | some st =>
      rw [hstat] at hok
      refine ⟨_, st, rfl, hstat, fun hsafe => ?_⟩
      refine (accessCheck_sound_iff _ _ _ hS ?_).2 hsafe hok
      split_ifs
      · exact heu
      · exact hu

/-- A mount with the file `/a`, which holds a byte. -/
def oneFile (stat : IshStat) : Sys where
  host := ⟨⟨[⟨[], 0⟩, ⟨[nameA], 1⟩], show [[], [nameA]].Nodup by decide⟩,
    fun o => ⟨if o = 1 then .file else .dir, if o = 1 then [1] else [], 1, 0⟩, 2⟩
  root := []
  binds := []
  db := ⟨⟨[⟨[], 1⟩, ⟨pathBytes [nameA], 2⟩], show [[], pathBytes [nameA]].Nodup by decide⟩,
    ⟨[⟨1, ⟨⟨sIfdir ||| 0o755#32, 0, 0, 0⟩, 0⟩⟩, ⟨2, ⟨stat, 1⟩⟩], show [1, 2].Nodup by decide⟩, 2⟩
  inodes _ := 0
  fds := []

/-- A caller on this mount. -/
def oneFileEnv (cred : Cred) : OpenEnv where
  tree := ⟨fun _ => none, fun _ => some ⟨sIfdir ||| 0o755#32, 0, 0⟩⟩
  task := ⟨cred, none, none⟩
  procfd := none
  mount path := (.fakefs, components path)
  hostStat _ := none
  fault := false
  noInode := false
  devOpen _ := none

/-- `open("/a", flags)` -/
def openA (flags : OpenFlags) : OpenArgs := ⟨.pwd, pathBytes [nameA], flags, false, 0⟩

/-- A file that its owner may only read. -/
def readOnlyStat : IshStat := ⟨sIfreg ||| 0o400#32, 1000, 1000, 0⟩

/-- Its owner. -/
def owner : Ids := ⟨1000, 1000, 1000, 1000, []⟩

/-- The owner opens it for reading. -/
theorem access_check_sound_read : ((accessCheck owner.cred readOnlyStat.access 4#32 = true →
        Grants owner.cred owner.groups readOnlyStat.access 4#3) ↔
      CheckSafe owner.cred owner.groups readOnlyStat.access 4#3) ∧
    (∃ stat, (oneFile readOnlyStat).fileStat (oneFileEnv owner.cred)
        (openA ⟨false, false, false, false, false, false⟩) = some stat ∧
      (CheckSafe owner.cred owner.groups stat.access 4#3 → Grants owner.cred owner.groups stat.access 4#3)) ∧
    (∃ cred st, cred = owner.cred ∧ some readOnlyStat = some st ∧
      (CheckSafe cred owner.groups st.access 4#3 → Grants cred owner.groups st.access 4#3)) := by
  obtain ⟨hcheck, hopen, haccess⟩ := access_check_sound owner (by decide) (by decide)
  refine ⟨hcheck readOnlyStat 4#3 (by decide), ?_, ?_⟩
  · exact hopen (oneFile readOnlyStat) (oneFileEnv owner.cred)
      (openA ⟨false, false, false, false, false, false⟩) rfl rfl (by rfl)
  · exact haccess (fun _ => some readOnlyStat) 4#3 true (by decide) (by decide)

/-- The owner opens it with `O_RDWR`, and may write. -/
theorem access_check_passes_rdwr : ((oneFile readOnlyStat).genericOpenat (oneFileEnv owner.cred)
      (openA ⟨false, true, false, false, false, false⟩)).1 = .ok () ∧
    accessCheck owner.cred readOnlyStat.access 6#32 = true ∧ ¬Grants owner.cred owner.groups readOnlyStat.access 6#3 ∧
    -- a member of the group by a supplementary group has the rights of the others
    accessCheck ⟨2000, 2000⟩ ⟨0o604#32, 1000, 1000⟩ 4#32 = true ∧
    ¬Grants ⟨2000, 2000⟩ [1000] ⟨0o604#32, 1000, 1000⟩ 4#3 :=
  ⟨by rfl, by decide, by decide, by decide, by decide⟩

/-! ### What a refused open leaves -/

/-- The entries and the contents of all files are the same. -/
structure Host.SameFiles (h h' : Host) : Prop where
  entry : ∀ p, h'.entry p = h.entry p
  data : ∀ o, (h'.node o).data = (h.node o).data

theorem Host.SameFiles.refl (h : Host) : h.SameFiles h := ⟨fun _ => rfl, fun _ => rfl⟩

/-- Opening the path makes a file, or truncates one that is not empty. -/
def Host.Touches (h : Host) (q : HPath) (flags : OpenFlags) : Prop :=
  h.entry q = none ∨
    flags.trunc = true ∧ ∃ o, h.entry q = some o ∧ (h.node o).kind = .file ∧ (h.node o).data ≠ []

/-- A file is truncated. -/
theorem Host.sameFiles_truncate_iff {h : Host} {o : Nat} {n : Node} (hn : n.data = []) :
    h.SameFiles (h.setNode o n) ↔ (h.node o).data = [] := by
  constructor
  · intro hsame
    have hdata := hsame.data o
    rw [Host.node_setNode, if_pos rfl, hn] at hdata
    exact hdata.symm
  · intro hnil
    refine ⟨fun _ => rfl, fun o' => ?_⟩
    rw [Host.node_setNode]
    split_ifs with ho
    · rw [ho, hnil, hn]
    · rfl

/-- **What the backend changes.** -/
theorem Host.sameFiles_openat_iff {h h' : Host} {q : HPath} {flags : OpenFlags} {o : Nat}
    (hok : h.openat q flags = .ok (h', o)) : h.SameFiles h' ↔ ¬h.Touches q flags := by
  unfold Host.Touches
  unfold Host.openat at hok
  cases hentry : h.entry q with
  | none =>
    -- the file is new, and so is its entry
    refine iff_of_false (fun hsame => ?_) (fun hnot => hnot (.inl rfl))
    have hnone := hsame.entry q
    rw [hentry] at hok hnone
    dsimp only at hok
    split_ifs at hok
    cases hmake : h.make q .file [] with
    | error e =>
      rw [hmake] at hok
      cases hok
    | ok h₁ =>
      rw [hmake] at hok
      cases hok
      rw [(Host.make_eq_ok hmake).2.2, Host.entry_add, if_pos rfl] at hnone
      cases hnone
  | some o' =>
    rw [hentry] at hok
    dsimp only at hok
    by_cases hexcl : (flags.creat && flags.excl) = true
    · rw [if_pos hexcl] at hok
      cases hok
    rw [if_neg hexcl] at hok
    -- but for a file nothing changes
    have hkept : h' = h → (h.node o').kind ≠ .file ∨ flags.trunc = false →
        (h.SameFiles h' ↔ ¬(some o' = none ∨ flags.trunc = true ∧
          ∃ o, some o' = some o ∧ (h.node o).kind = .file ∧ (h.node o).data ≠ [])) := by
      rintro rfl hnot
      refine iff_of_true (.refl _) ?_
      rintro (hnone | ⟨htrunc, o, ho, hkind, -⟩)
      · cases hnone
      · cases ho
        rcases hnot with hnot | hnot
        · exact hnot hkind
        · rw [hnot] at htrunc
          cases htrunc
    cases hkind : (h.node o').kind with
    | dir =>
      rw [hkind] at hok
      dsimp only at hok
      split_ifs at hok
      cases hok
      exact hkept rfl (.inl (by rw [hkind]; simp))
    | file =>
      rw [hkind] at hok
      dsimp only at hok
      by_cases htrunc : flags.trunc = true
      · rw [if_pos htrunc] at hok
        cases hok
        rw [Host.sameFiles_truncate_iff rfl]
        constructor
        · rintro hnil (hnone | ⟨-, o, ho, -, hdata⟩)
          · cases hnone
          · cases ho
            exact hdata hnil
        · intro hnot
          by_contra hdata
          exact hnot (.inr ⟨htrunc, o, rfl, hkind, hdata⟩)
      · rw [if_neg htrunc] at hok
        cases hok
        exact hkept rfl (.inr (eq_false_of_ne_true htrunc))
    | fifo =>
      rw [hkind] at hok
      cases hok
      exact hkept rfl (.inl (by rw [hkind]; simp))
    | link target =>
      rw [hkind] at hok
      cases hok

/-- The call returns an error. -/
def Sys.Refused (s : Sys) (env : OpenEnv) (args : OpenArgs) : Prop :=
  ∃ e, (s.genericOpenat env args).1 = .error e

/-- If the backend opens the file and makes or truncates it, then the file has a status that the caller is admitted
with. -/
def Sys.OpenSafe (s : Sys) (env : OpenEnv) (args : OpenArgs) : Prop :=
  ∀ q r, s.openedAt env args = some q → s.host.openat q args.flags = .ok r → s.host.Touches q args.flags →
    env.noInode = false ∧ ∃ stat, s.fileStat env args = some stat ∧ env.Admits args stat

theorem Sys.refused_iff : s.Refused env args ↔ (s.genericOpenat env args).1 ≠ .ok () := by
  unfold Sys.Refused
  cases (s.genericOpenat env args).1 with
  | ok u => exact iff_of_false nofun fun h => h rfl
  | error e => exact iff_of_true ⟨e, rfl⟩ nofun

/-- A file of the superuser. -/
def rootStat : IshStat := ⟨sIfreg ||| 0o600#32, 0, 0, 0⟩

end Ish.Fs.Fakefs
