import Ish.Fs.Fcntl
import Ish.Fs.Equiv.LockWait

/-!
# Lock requests from the guest

`posixRange` is what a request means, in integers without a bound. The range that `file_lock_from_flock`
computes in `off_t_` is this one exactly for the requests that are `Representable`, and it refuses none of
the others (`fcntl_lock_range_iff`).

The second part is about sleeping. `sys_fcntl` compares `F_SETLK_` and `F_SETLKW_` with `F_SETLKW64_`, and
`F_SETLK64_` and `F_SETLKW64_` with `F_SETLKW_`, so no command ever sleeps, and the two that should do so
return `EAGAIN` on every conflict (`fcntl_setlk_waits_iff`).
-/

namespace Ish.Fs

open Function

variable {τ ω : Type} [DecidableEq τ] [DecidableEq ω]

/-! ### Ranges -/

/-- The first and the last byte of a request, counted from `base`. -/
def posixRange (base : Int) (flock : Flock) : Int × Int :=
  if 0 < flock.len then (flock.start + base, flock.start + base + flock.len - 1)
  else if flock.len < 0 then (flock.start + base + flock.len, flock.start + base - 1)
  else (flock.start + base, offTMax)

/-- The request does not begin before the file, and neither its start nor its end overflows. -/
structure Representable (base : Int) (flock : Flock) : Prop where
  first : 0 ≤ (posixRange base flock).1
  start : flock.start + base ≤ offTMax
  last : (posixRange base flock).2 ≤ offTMax

/-- The lock is well formed and means what the request means. -/
structure MeansRequest (fd : LockFd) (flock : Flock) (lock : FileLock ω) : Prop where
  nonneg : 0 ≤ lock.start
  ordered : lock.start ≤ lock.last
  bounded : lock.last ≤ offTMax
  means : ∃ base, lockOffset fd flock.whence = .ok base ∧ (lock.start, lock.last) = posixRange base flock ∧
    flock.start + base ≤ offTMax

/-- What `fcntl_getlk` does before it looks for a lock. -/
def getlkRequest (fd : LockFd) (files : ω) (pid : Int) (flock : Flock) : Except Errno (FileLock ω) :=
  match flock.type with
  | none | some .unlck => .error .einval
  | some type => fileLockFromFlock fd files pid flock type

theorem fcntlGetlk_eq (locks : List (FileLock ω)) (fd : LockFd) (files : ω) (pid : Int) (flock : Flock) :
    fcntlGetlk locks fd files pid flock = (getlkRequest fd files pid flock).map fun request =>
      ((fileLockTest locks request).map flockFromFileLock).getD { flock with type := some .unlck } := by
  unfold fcntlGetlk getlkRequest
  rcases flock with ⟨_ | type, whence, start, len, pid'⟩
  · rfl
  · cases type with
    | unlck => rfl
    | rdlck | wrlck =>
      dsimp only
      cases fileLockFromFlock fd files pid _ _ with
      | error e => rfl
      | ok request =>
        cases htest : fileLockTest locks request <;> simp [Except.map, Bind.bind, Except.bind, htest]

theorem toOff_of_mem {x : Int} (hlow : -offTMax ≤ x) (hhigh : x ≤ offTMax) : toOff x = x := by
  unfold offTMax at hlow hhigh
  exact Int.bmod_eq_of_le (by omega) (by omega)

variable {flock : Flock} {fd : LockFd}

omit [DecidableEq ω] in
theorem Representable.fileLockFromFlock_eq {base : Int} (h : Representable base flock)
    (hbase : lockOffset fd flock.whence = .ok base) (files : ω) (pid : Int) (type : LockType) :
    fileLockFromFlock fd files pid flock type =
      .ok ⟨(posixRange base flock).1, (posixRange base flock).2, type, pid, files⟩ := by
  obtain ⟨hfirst, hstart, hlast⟩ := h
  have hmax : offTMax = 9223372036854775807 := by decide
  unfold posixRange at hfirst hlast ⊢
  rw [fileLockFromFlock, hbase]
  change (if flock.len > 0 then _ else if flock.len < 0 then _ else _) = _
  by_cases hpos : 0 < flock.len
  · rw [if_pos hpos] at hfirst hlast ⊢
    rw [if_pos hpos, toOff_of_mem (by omega) hstart, toOff_of_mem (by omega) hlast]
  · rw [if_neg hpos] at hfirst hlast ⊢
    rw [if_neg hpos]
    by_cases hneg : flock.len < 0
    · rw [if_pos hneg] at hfirst hlast ⊢
      rw [if_pos hneg, toOff_of_mem (by omega) hstart]
      dsimp only at hfirst hlast ⊢
      rw [toOff_of_mem (x := flock.start + base - 1) (by omega) hlast,
        show flock.start + base - 1 + flock.len + 1 = flock.start + base + flock.len by omega,
        toOff_of_mem (by omega) (by omega)]
    · rw [if_neg hneg] at hfirst hlast ⊢
      rw [if_neg hneg, toOff_of_mem (by omega) hstart]

theorem Representable.ordered {base : Int} (h : Representable base flock) :
    (posixRange base flock).1 ≤ (posixRange base flock).2 := by
  have hstart := h.start
  unfold posixRange
  split_ifs <;> dsimp only <;> omega

omit [DecidableEq ω] in
/-- The request of a call is what its `struct flock_` means, if and only if that is representable. -/
theorem meansRequest_iff {base : Int}
    (hbase : lockOffset fd flock.whence = .ok base) (files : ω) (pid : Int) (type : LockType) :
    (∀ lock, fileLockFromFlock fd files pid flock type = .ok lock → MeansRequest fd flock lock) ↔
      Representable base flock := by
  constructor
  · intro hall
    obtain ⟨lock, hlock⟩ : ∃ lock, fileLockFromFlock fd files pid flock type = .ok lock := by
      rw [fileLockFromFlock, hbase]
      change ∃ lock, (if flock.len > 0 then _ else if flock.len < 0 then _ else _) = _
      split_ifs <;> exact ⟨_, rfl⟩
    obtain ⟨hnonneg, -, hbounded, base', hbase', hmeans, hstart⟩ := hall lock hlock
    obtain rfl : base' = base := Except.ok.inj (hbase'.symm.trans hbase)
    rw [Prod.mk.injEq] at hmeans
    exact ⟨hmeans.1 ▸ hnonneg, hstart, hmeans.2 ▸ hbounded⟩
  · intro hrep lock hlock
    obtain rfl := Except.ok.inj ((hrep.fileLockFromFlock_eq hbase files pid type).symm.trans hlock)
    exact ⟨hrep.first, hrep.ordered, hrep.last, base, hbase, rfl, hrep.start⟩

omit [DecidableEq ω] in
theorem fileLockFromFlock_error {e : Errno}
    (he : lockOffset fd flock.whence = .error e) (files : ω) (pid : Int) (type : LockType) :
    fileLockFromFlock fd files pid flock type = .error e := by
  rw [fileLockFromFlock, he]
  rfl

/-- Both calls refuse the `struct flock_`, and then change nothing, or use the range that it means. -/
structure RangesSound (s : LockInode τ ω) (fd : LockFd) (files : ω) (pid : Int) (flock : Flock) : Prop where
  refused : ∀ t blocking e, s.threads t = .away → setlkRequest fd files pid flock = .error e →
    s.act (.setlk t fd files pid flock blocking) = some (s, false)
  setlk : ∀ lock, setlkRequest fd files pid flock = .ok lock → MeansRequest fd flock lock
  getlk : ∀ lock, getlkRequest fd files pid flock = .ok lock → MeansRequest fd flock lock
  answers : fcntlGetlk s.locks fd files pid flock = (getlkRequest fd files pid flock).map fun request =>
    ((fileLockTest s.locks request).map flockFromFileLock).getD { flock with type := some .unlck }

/-- **The ranges of lock requests.** -/
theorem fcntl_lock_range_iff (s : LockInode τ ω) (fd : LockFd) (files : ω) (pid : Int) (flock : Flock) :
    RangesSound s fd files pid flock ↔
      ∀ type base, flock.type = some type → lockOffset fd flock.whence = .ok base → Representable base flock := by
  constructor
  · intro h type base htype hbase
    have hsetlk := h.setlk
    have hgetlk := h.getlk
    unfold setlkRequest at hsetlk
    unfold getlkRequest at hgetlk
    simp only [htype] at hsetlk hgetlk
    -- an unlock passes the checks of `fcntl_setlk`, the other types those of `fcntl_getlk`
    cases type with
    | unlck => exact (meansRequest_iff hbase files pid _).1 (by simpa using hsetlk)
    | rdlck | wrlck => exact (meansRequest_iff hbase files pid _).1 hgetlk
  · intro h
    have hall : ∀ type, flock.type = some type → ∀ lock, fileLockFromFlock fd files pid flock type = .ok lock →
        MeansRequest fd flock lock := by
      intro type htype lock hlock
      cases hbase : lockOffset fd flock.whence with
      | error e => rw [fileLockFromFlock_error hbase] at hlock; cases hlock
      | ok base => exact (meansRequest_iff hbase files pid type).2 (h type base htype hbase) lock hlock
    refine ⟨fun t blocking e ht he => ?_, fun lock hlock => ?_, fun lock hlock => ?_,
      fcntlGetlk_eq s.locks fd files pid flock⟩
    · refine (if_pos ht).trans ?_
      rw [he]
    · unfold setlkRequest at hlock
      split at hlock
      · cases hlock
      · next type htype =>
        split_ifs at hlock
        exact hall type htype lock hlock
    · unfold getlkRequest at hlock
      split at hlock
      · cases hlock
      · cases hlock
      · next type _ htype => exact hall type htype lock hlock

/-- The last byte of a file of any size, and one more. -/
def pastTheEnd : Flock := ⟨some .wrlck, some .set, offTMax, 2, 0⟩

/-- Its end overflows: a lock is granted that ends before it starts. -/
theorem pastTheEnd_granted : setlkRequest openFile true 7 pastTheEnd = .ok ⟨offTMax, -offTMax - 1, .wrlck, 7, true⟩ ∧
      (LockInode.act (lockInodeInit Bool Bool) (.setlk true openFile true 7 pastTheEnd false)).map (·.1.locks) =
        some [⟨offTMax, -offTMax - 1, .wrlck, 7, true⟩] ∧
      ¬RangesSound (lockInodeInit Bool Bool) openFile true 7 pastTheEnd :=
  ⟨by decide, by decide, fun h => absurd (h.setlk _ rfl).ordered (by decide)⟩

/-! ### Sleeping -/

def SetlkCmd.waits : SetlkCmd → Bool
  | .setlkw | .setlkw64 => true
  | .setlk | .setlk64 => false

/-- Somebody else holds a lock that is in the way of the request. -/
def Conflicts (locks : List (FileLock ω)) (fd : Option LockFd) (files : ω) (pid : Int) (cmd : SetlkCmd)
    (arg : UserFlock) : Prop :=
  ∃ file ∈ fd, ∃ flock blocking request, cmd.args arg = .ok (flock, blocking) ∧
    setlkRequest file files pid flock = .ok request ∧ request.type ≠ .unlck ∧ Blocked locks request

/-- What is asked of the four commands. -/
structure WaitsRight (locks : List (FileLock ω)) (fd : Option LockFd) (files : ω) (pid : Int) (cmd : SetlkCmd)
    (arg : UserFlock) : Prop where
  setlk : cmd.waits = false → sysFcntl locks fd files pid cmd arg ≠ .sleeps
  setlkw : cmd.waits = true → sysFcntl locks fd files pid cmd arg ≠ .returns (some .eagain)
  sleeps : cmd.waits = true → Conflicts locks fd files pid cmd arg → sysFcntl locks fd files pid cmd arg = .sleeps

theorem SetlkCmd.not_blocking {cmd : SetlkCmd} {arg : UserFlock} {blocking : Bool}
    (h : cmd.args arg = .ok (flock, blocking)) : blocking = false := by
  unfold SetlkCmd.args at h
  cases cmd with
  | setlk | setlkw => cases h32 : arg.flock32 <;> simp_all
  | setlk64 | setlkw64 => cases h64 : arg.flock <;> simp_all

theorem fileLockAcquire_err_iff (locks : List (FileLock ω)) (r : FileLock ω) :
    (fileLockAcquire locks r).err = some .eagain ↔ r.type ≠ .unlck ∧ Blocked locks r := by
  unfold fileLockAcquire Blocked
  by_cases hbusy : r.type ≠ .unlck ∧ locks.any fun l => fileLocksConflict l r
  · rw [if_pos hbusy]
    exact ⟨fun _ => ⟨hbusy.1, List.any_eq_true.1 hbusy.2⟩, fun _ => rfl⟩
  · rw [if_neg hbusy]
    refine ⟨fun h => ?_, fun h => absurd ⟨h.1, List.any_eq_true.2 h.2⟩ hbusy⟩
    cases h

omit [DecidableEq ω] in
/-- The checks do not answer `EAGAIN` of their own. -/
theorem setlkRequest_ne_eagain (hfs : ∀ whence, lockOffset fd whence ≠ .error .eagain)
    (files : ω) (pid : Int) (flock : Flock) : setlkRequest fd files pid flock ≠ .error .eagain := by
  unfold setlkRequest
  split
  · nofun
  · next type _ =>
    split_ifs
    · nofun
    · nofun
    · rw [fileLockFromFlock]
      cases hbase : lockOffset fd flock.whence with
      | error e => exact fun h => hfs _ (hbase.trans (congrArg _ (Except.error.inj h)))
      | ok base =>
        change (if flock.len > 0 then _ else if flock.len < 0 then _ else _) ≠ _
        split_ifs <;> nofun

/-- No command sleeps, and each of them returns `EAGAIN` on a conflict. -/
theorem sysFcntl_spec (locks : List (FileLock ω)) {fd : Option LockFd}
    (hfs : ∀ file ∈ fd, ∀ whence, lockOffset file whence ≠ .error .eagain) (files : ω) (pid : Int)
    (cmd : SetlkCmd) (arg : UserFlock) : sysFcntl locks fd files pid cmd arg ≠ .sleeps ∧
      (sysFcntl locks fd files pid cmd arg = .returns (some .eagain) ↔ Conflicts locks fd files pid cmd arg) := by
  unfold sysFcntl Conflicts
  cases fd with
  | none => simp
  | some file =>
    have hrefused := setlkRequest_ne_eagain (hfs file rfl) files pid
    cases hargs : cmd.args arg with
    | error e =>
      have he : e = efault := by
        unfold SetlkCmd.args at hargs
        cases cmd with
        | setlk | setlkw => cases h32 : arg.flock32 <;> simp_all
        | setlk64 | setlkw64 => cases h64 : arg.flock <;> simp_all
      simp [he, efault]
    | ok args =>
      obtain ⟨flock, blocking⟩ := args
      obtain rfl := SetlkCmd.not_blocking hargs
      dsimp only
      unfold fcntlSetlk
      cases hrequest : setlkRequest file files pid flock with
      | error e =>
        have hne : e ≠ .eagain := fun h => hrefused flock (hrequest.trans (congrArg _ h))
        simp [hne, hrequest]
      | ok request => simp [hrequest, fileLockAcquire_err_iff]

omit [DecidableEq ω] in
theorem Sleeper.notify_eq_away {x : Sleeper ω} : x.notify = .away ↔ x = .away := by
  cases x <;> simp [Sleeper.notify]

theorem LockInode.leaves_loop {s s' : LockInode τ ω} {a : LockAct τ ω} {n : Bool} (h : s.act a = some (s', n))
    {t : τ} (ht : s.threads t ≠ .away) (ht' : s'.threads t = .away) :
    a = .interrupt t ∨ ∃ request, s.threads t = .woken request ∧ s'.locks = (fileLockAcquire s.locks request).locks ∧
      (fileLockAcquire s.locks request).err ≠ some .eagain := by
  -- a turn of another thread only wakes this one
  have hturn : ∀ t' request blocking, t' ≠ t → (s.turn t' request blocking).1.threads t ≠ .away := by
    intro t' request blocking hne
    change update _ t' _ t ≠ _
    rw [update_of_ne hne.symm]
    split_ifs
    · exact fun haway => ht (Sleeper.notify_eq_away.1 haway)
    · exact ht
  cases a with
  | setlk t' fd files pid flock blocking =>
    obtain ⟨haway, h⟩ := Option.ite_none_right_eq_some.1 h
    have hne : t' ≠ t := by
      rintro rfl
      exact ht haway
    cases hrequest : setlkRequest fd files pid flock with
    | error e =>
      rw [hrequest] at h
      cases h
      exact absurd ht' ht
    | ok request =>
      rw [hrequest] at h
      cases h
      exact absurd ht' (hturn t' request blocking hne)
  | retry t' =>
    cases hsleeper : s.threads t' with
    | away | asleep request =>
      simp only [LockInode.act, hsleeper] at h
      cases h
    | woken request =>
      simp only [LockInode.act, hsleeper] at h
      cases h
      by_cases hne : t' = t
      · subst hne
        refine .inr ⟨request, hsleeper, rfl, fun herr => ?_⟩
        have hasleep : (s.turn t' request true).1.threads t' = .asleep request := by
          change update _ t' (if _ ∧ _ then _ else _) t' = _
          rw [update_self, if_pos ⟨herr, rfl⟩]
        cases hasleep.symm.trans ht'
      · exact absurd ht' (hturn t' request true hne)
  | spurious t' =>
    cases h
    change update _ t' _ t = _ at ht'
    by_cases hne : t = t'
    · subst hne
      rw [update_self] at ht'
      exact absurd (Sleeper.notify_eq_away.1 ht') ht
    · rw [update_of_ne hne] at ht'
      exact absurd ht' ht
  | interrupt t' =>
    obtain ⟨-, h⟩ := Option.ite_none_left_eq_some.1 h
    cases h
    change update _ t' _ t = _ at ht'
    by_cases hne : t = t'
    · exact .inl (congrArg _ hne.symm)
    · rw [update_of_ne hne] at ht'
      exact absurd ht' ht
  | close files =>
    cases h
    exact absurd ht' ht

/-- **The waiting lock commands wait** exactly if there is nothing to wait for; a thread that did sleep would
leave the loop only with the lock or because of a signal. -/
theorem fcntl_setlk_waits_iff (s : LockInode τ ω) {fd : Option LockFd}
    (hfs : ∀ file ∈ fd, ∀ whence, lockOffset file whence ≠ .error .eagain) (files : ω) (pid : Int)
    (cmd : SetlkCmd) (arg : UserFlock) :
    (WaitsRight s.locks fd files pid cmd arg ↔ (cmd.waits → ¬Conflicts s.locks fd files pid cmd arg)) ∧
      ∀ t a s' n, s.act a = some (s', n) → s.threads t ≠ .away → s'.threads t = .away →
        a = .interrupt t ∨ ∃ request, s.threads t = .woken request ∧
          s'.locks = (fileLockAcquire s.locks request).locks ∧
          (fileLockAcquire s.locks request).err ≠ some .eagain := by
  obtain ⟨hsleeps, heagain⟩ := sysFcntl_spec s.locks hfs files pid cmd arg
  refine ⟨⟨fun h hwaits hconflict => hsleeps (h.sleeps hwaits hconflict), fun h => ?_⟩,
    fun t a s' n hact ht ht' => LockInode.leaves_loop hact ht ht'⟩
  exact ⟨fun _ => hsleeps, fun hwaits heq => h hwaits (heagain.1 heq),
    fun hwaits hconflict => absurd hconflict (h hwaits)⟩

/-- The argument is a request for the first 100 bytes. -/
def firstBytesArg : UserFlock := ⟨some ⟨some .wrlck, some .set, 0, 100, 0⟩, some (firstBytes .wrlck)⟩

theorem openFile_lockOffset (whence : Option Whence) : lockOffset openFile whence ≠ .error .eagain := by
  rcases whence with _ | _ | _ | _ <;> nofun

/-- Nothing is locked, and the lock is granted. -/
theorem fcntl_setlk_waits_unlocked : sysFcntl [] (some openFile) true 7 .setlkw firstBytesArg = .returns none ∧
      WaitsRight ([] : List (FileLock Bool)) (some openFile) true 7 .setlkw firstBytesArg := by
  refine ⟨by decide, ((fcntl_setlk_waits_iff (lockInodeInit Bool Bool) ?_ true 7 .setlkw firstBytesArg).1).2 ?_⟩
  · rintro file ⟨⟩
    exact openFile_lockOffset
  · rintro - ⟨file, -, flock, blocking, request, -, -, -, l, hl, -⟩
    cases hl

/-- The bytes are locked by another process: `F_SETLKW` and `F_SETLKW64` do not wait. -/
theorem setlkw_returns_eagain :
    sysFcntl [⟨0, 99, .wrlck, 7, true⟩] (some openFile) false 8 .setlkw firstBytesArg = .returns (some .eagain) ∧
      sysFcntl [⟨0, 99, .wrlck, 7, true⟩] (some openFile) false 8 .setlkw64 firstBytesArg = .returns (some .eagain) :=
  ⟨by decide, by decide⟩

end Ish.Fs
