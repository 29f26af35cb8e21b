import Ish.Fs.Equiv.Lock
import Ish.Lib.Run

/-!
# Waiting for a lock

`file_lock_acquire` notifies `posix_unlock` before it takes anything from a lock; without a
notification every lock is still there, or has become part of a larger one
(`placeLocks_grows`), so a waiter that was blocked stays blocked. `file_lock_remove_owned_by`
removes locks and notifies nobody. Write locks exclude all others (`write_lock_excludes`).
-/

namespace Ish.Fs

open Lib Function List Option

variable {ω : Type} [DecidableEq ω]

/-! ### Without a notification no lock gets smaller -/

/-- `l'` is a lock of the same owner and type on at least the same range. -/
structure Extends (l' l : FileLock ω) : Prop where
  owner_eq : l'.owner = l.owner
  type_eq : l'.type = l.type
  start_le : l'.start ≤ l.start
  last_le : l.last ≤ l'.last

omit [DecidableEq ω] in
theorem Extends.refl (l : FileLock ω) : Extends l l :=
  ⟨rfl, rfl, Int.le_refl _, Int.le_refl _⟩

omit [DecidableEq ω] in
theorem Extends.trans {a b c : FileLock ω} (h : Extends a b) (h' : Extends b c) : Extends a c :=
  ⟨h.owner_eq.trans h'.owner_eq, h.type_eq.trans h'.type_eq, Int.le_trans h.start_le h'.start_le,
    Int.le_trans h'.last_le h.last_le⟩

/-- A larger lock is in conflict with more. -/
theorem Extends.conflict {l l' r : FileLock ω} (h : Extends l' l) (hc : fileLocksConflict l r) :
    fileLocksConflict l' r := by
  obtain ⟨howner, htype, hstart, hlast⟩ := h
  unfold fileLocksConflict fileLocksOverlap at hc ⊢
  rw [howner, htype]
  split_ifs at hc with hne hover hwr
  have hover' : (!(decide (l'.last ≥ r.start) && decide (r.last ≥ l'.start))) = false := by
    simp only [Bool.not_eq_true, Bool.not_eq_false', Bool.and_eq_true, decide_eq_true_eq] at hover ⊢
    omega
  rw [if_neg hne, hover', if_neg Bool.false_ne_true, if_pos hwr]

omit [DecidableEq ω] in
theorem extends_extend (r l : FileLock ω) :
    Extends (extend r l) r ∧ (extend r l).start ≤ l.start ∧ l.last ≤ (extend r l).last := by
  unfold extend
  refine ⟨⟨rfl, rfl, ?_, ?_⟩, ?_, ?_⟩ <;> dsimp only <;> split_ifs <;> omega

omit [DecidableEq ω] in
theorem placeLock_grows {r l : FileLock ω} (howner : l.owner = r.owner) (hn : (placeLock r l).notified = false) :
    Extends (placeLock r l).request r ∧ (l ∈ (placeLock r l).before ∨ Extends (placeLock r l).request l) := by
  unfold placeLock at hn ⊢
  split_ifs at hn ⊢ with htype hfar
  · exact ⟨.refl r, .inl (mem_singleton_self l)⟩
  · obtain ⟨hr, hstart, hlast⟩ := extends_extend r l
    exact ⟨hr, .inr ⟨howner.symm, htype, hstart, hlast⟩⟩
  · exact ⟨.refl r, .inl (mem_singleton_self l)⟩

variable {locks : List (FileLock ω)} {r : FileLock ω}

theorem placeLocks_grows {found : Bool} (hn : (placeLocks found r locks).notified = false) :
    Extends (placeLocks found r locks).request r ∧ ∀ l ∈ locks, l ∈ (placeLocks found r locks).before ∨
        l ∈ (placeLocks found r locks).after ∨ Extends (placeLocks found r locks).request l := by
  induction locks generalizing found r with
  | nil => exact ⟨.refl r, by simp⟩
  | cons l locks ih =>
    unfold placeLocks at hn ⊢
    by_cases howner : l.owner ≠ r.owner
    · rw [if_pos howner] at hn ⊢
      cases found with
      | true => exact ⟨.refl r, fun l' hl' => .inr (.inl hl')⟩
      | false =>
        rw [if_neg Bool.false_ne_true] at hn ⊢
        obtain ⟨hr, hlocks⟩ := ih hn
        refine ⟨hr, forall_mem_cons.2 ⟨.inl mem_cons_self, fun l' hl' => ?_⟩⟩
        exact (hlocks l' hl').imp_left (mem_cons_of_mem l)
    · rw [if_neg howner] at hn ⊢
      obtain ⟨hbody, hrest⟩ := Bool.or_eq_false_iff.1 hn
      obtain ⟨hr₁, hl⟩ := placeLock_grows (not_not.1 howner) hbody
      obtain ⟨hr₂, hlocks⟩ := ih hrest
      refine ⟨hr₂.trans hr₁, forall_mem_cons.2 ⟨?_, fun l' hl' => ?_⟩⟩
      · rcases hl with hl | hl
        · exact .inl (mem_append_left _ hl)
        · exact .inr (.inr (hr₂.trans hl))
      · exact (hlocks l' hl').imp_left (mem_append_right _)

theorem placeLocks_type (found : Bool) (r : FileLock ω) (hun : ∀ l ∈ locks, l.type ≠ .unlck) :
    (placeLocks found r locks).request.type = r.type ∧ (∀ l ∈ (placeLocks found r locks).before, l.type ≠ .unlck) ∧
      ∀ l ∈ (placeLocks found r locks).after, l.type ≠ .unlck := by
  induction locks generalizing found r with
  | nil => simp [placeLocks]
  | cons l locks ih =>
    obtain ⟨hl, hlocks⟩ := forall_mem_cons.1 hun
    unfold placeLocks
    split_ifs with howner hfound
    · simpa using hun
    · obtain ⟨htype, hbefore, hafter⟩ := ih false r hlocks
      exact ⟨htype, forall_mem_cons.2 ⟨hl, hbefore⟩, hafter⟩
    · obtain ⟨htype, hbefore, hafter⟩ := ih true (placeLock r l).request hlocks
      have hbody : (placeLock r l).request.type = r.type ∧
          ∀ k ∈ (placeLock r l).before, k.type = l.type := by
        unfold placeLock subtract
        split_ifs <;> simp [extend]
      refine ⟨htype.trans hbody.1, fun k hk => ?_, hafter⟩
      rcases mem_append.1 hk with hk | hk
      · exact hbody.2 k hk ▸ hl
      · exact hbefore k hk

/-! ### One turn of `fcntl_setlk` -/

/-- A lock of another owner is in the way. -/
def Blocked (locks : List (FileLock ω)) (r : FileLock ω) : Prop :=
  ∃ l ∈ locks, fileLocksConflict l r

theorem fileLockAcquire_cases (locks : List (FileLock ω)) (r : FileLock ω) :
    (Blocked locks r ∧ fileLockAcquire locks r = ⟨some .eagain, locks, r, false⟩) ∨ fileLockAcquire locks r =
        ⟨none, (placeLocks false r locks).before ++
            (if r.type ≠ .unlck then [(placeLocks false r locks).request] else []) ++ (placeLocks false r locks).after,
          (placeLocks false r locks).request, (placeLocks false r locks).notified⟩ := by
  unfold fileLockAcquire
  by_cases hbusy : r.type ≠ .unlck ∧ locks.any fun l => fileLocksConflict l r
  · rw [if_pos hbusy]
    exact .inl ⟨any_eq_true.1 hbusy.2, rfl⟩
  · rw [if_neg hbusy]
    exact .inr rfl

theorem fileLockAcquire_blocked (hun : ∀ l ∈ locks, l.type ≠ .unlck)
    (hn : (fileLockAcquire locks r).notified = false) {r' : FileLock ω}
    (hblocked : Blocked locks r') : Blocked (fileLockAcquire locks r).locks r' := by
  rcases fileLockAcquire_cases locks r with ⟨-, heq⟩ | heq
  · rwa [heq]
  · rw [heq] at hn ⊢
    obtain ⟨l, hl, hc⟩ := hblocked
    obtain ⟨hr, hlocks⟩ := placeLocks_grows hn
    rcases hlocks l hl with hl' | hl' | hext
    · exact ⟨l, by simp [hl'], hc⟩
    · exact ⟨l, by simp [hl'], hc⟩
    · have htype : r.type ≠ .unlck := by
        rw [← hr.type_eq, hext.type_eq]
        exact hun l hl
      exact ⟨_, by simp [htype], hext.conflict hc⟩

theorem fileLockAcquire_type (hun : ∀ l ∈ locks, l.type ≠ .unlck)
    (r : FileLock ω) : ∀ l ∈ (fileLockAcquire locks r).locks, l.type ≠ .unlck := by
  obtain ⟨htype, hbefore, hafter⟩ := placeLocks_type false r hun
  rcases fileLockAcquire_cases locks r with ⟨-, heq⟩ | heq
  · rwa [heq]
  · rw [heq]
    intro l hl
    rcases mem_append.1 hl with hl | hl
    · rcases mem_append.1 hl with hl | hl
      · exact hbefore l hl
      · split_ifs at hl with hr
        · rw [mem_singleton.1 hl, htype]
          exact hr
        · cases hl
    · exact hafter l hl

/-- Who is sent to sleep is blocked, and nothing has changed. -/
theorem fileLockAcquire_eagain (h : (fileLockAcquire locks r).err = some .eagain) :
    (fileLockAcquire locks r).locks = locks ∧ Blocked locks r := by
  rcases fileLockAcquire_cases locks r with ⟨hblocked, heq⟩ | heq
  · exact ⟨by rw [heq], hblocked⟩
  · rw [heq] at h
    cases h

variable {τ : Type} [DecidableEq τ]

variable {s s' : LockInode τ ω} {a : LockAct τ ω}

/-- What a step can do: a turn of the loop, a move of a thread that leaves the locks alone and puts
nobody to sleep, or a close. -/
theorem LockInode.act_cases {n : Bool} (h : s.act a = some (s', n)) :
    ((∀ files, a ≠ .close files) ∧ ∃ t r blocking, (s', n) = s.turn t r blocking) ∨
    ((∀ files, a ≠ .close files) ∧ s'.locks = s.locks ∧ ∀ t r, s'.threads t = .asleep r → s.threads t = .asleep r) ∨
    ∃ files, a = .close files ∧ n = false ∧ s' = { s with locks := fileLockRemoveOwnedBy s.locks files } := by
  cases a with
  | setlk t fd files pid flock blocking =>
    obtain ⟨-, h⟩ := ite_none_right_eq_some.1 h
    cases hrequest : setlkRequest fd files pid flock with
    | error e =>
      simp only [hrequest] at h
      cases h
      exact .inr (.inl ⟨by simp, rfl, fun _ _ h => h⟩)
    | ok r =>
      simp only [hrequest, Option.some.injEq] at h
      exact .inl ⟨by simp, t, r, blocking, h.symm⟩
  | retry t =>
    simp only [LockInode.act] at h
    split at h
    · exact .inl ⟨by simp, t, _, true, (Option.some.inj h).symm⟩
    · cases h
  | spurious t =>
    cases h
    refine .inr (.inl ⟨by simp, rfl, fun t' r hr => ?_⟩)
    by_cases ht : t' = t
    · subst ht
      simp only [LockInode.goto, update_self] at hr
      cases hs : s.threads t' <;> simp [hs, Sleeper.notify] at hr
    · simpa [LockInode.goto, update_of_ne ht] using hr
  | interrupt t =>
    obtain ⟨-, h⟩ := ite_none_left_eq_some.1 h
    cases h
    refine .inr (.inl ⟨by simp, rfl, fun t' r hr => ?_⟩)
    by_cases ht : t' = t
    · subst ht
      simp [LockInode.goto] at hr
    · simpa [LockInode.goto, update_of_ne ht] using hr
  | close files =>
    cases h
    exact .inr (.inr ⟨files, rfl, rfl, rfl⟩)

/-- No unlock is in the list. -/
def LockInode.Typed (s : LockInode τ ω) : Prop := ∀ l ∈ s.locks, l.type ≠ .unlck

theorem LockInode.Typed.act (h : s.Typed) {n : Bool} (hact : s.act a = some (s', n)) : s'.Typed := by
  rcases LockInode.act_cases hact with ⟨-, t, r, blocking, heq⟩ | ⟨-, hlocks, -⟩ | ⟨files, -, -, rfl⟩
  · obtain ⟨rfl, -⟩ := Prod.ext_iff.1 heq
    exact fileLockAcquire_type h r
  · unfold LockInode.Typed
    rwa [hlocks]
  · exact fun l hl => h l (mem_filter.1 hl).1

/-- Who sleeps has to. -/
def LockInode.NoneStuck (s : LockInode τ ω) : Prop :=
  ∀ t r, s.threads t = .asleep r → Blocked s.locks r

/-- The step notifies `posix_unlock` if it frees a sleeper. -/
def LockInode.Signals (s s' : LockInode τ ω) (n : Bool) : Prop :=
  ∀ t r, s.threads t = .asleep r → Blocked s.locks r → ¬ Blocked s'.locks r → n = true

/-- A descriptor of the inode is closed only if every sleeper that is blocked is blocked by a lock
of somebody else. -/
def LockInode.CloseSafe (s : LockInode τ ω) (a : LockAct τ ω) : Prop :=
  ∀ files, a = .close files → ∀ t r, s.threads t = .asleep r → Blocked s.locks r →
    ∃ l ∈ s.locks, l.owner ≠ files ∧ fileLocksConflict l r

theorem blocked_removeOwnedBy_iff {files : ω} : Blocked (fileLockRemoveOwnedBy locks files) r ↔
      ∃ l ∈ locks, l.owner ≠ files ∧ fileLocksConflict l r := by
  simp [Blocked, fileLockRemoveOwnedBy, and_assoc]

/-- A step signals exactly if it is no close that frees a sleeper. -/
theorem LockInode.signals_iff (h : s.Typed) {n : Bool}
    (hact : s.act a = some (s', n)) : s.Signals s' n ↔ s.CloseSafe a := by
  rcases LockInode.act_cases hact with ⟨hclose, t, r, blocking, heq⟩ | ⟨hclose, hlocks, -⟩ |
    ⟨files, rfl, rfl, rfl⟩
  · obtain ⟨rfl, rfl⟩ := Prod.ext_iff.1 heq
    refine iff_of_true (fun t' r' _ hblocked hfree => ?_) fun files ha => absurd ha (hclose files)
    by_contra hn
    exact hfree (fileLockAcquire_blocked h (Bool.not_eq_true _ ▸ hn) hblocked)
  · refine iff_of_true (fun t' r' _ hblocked hfree => ?_) fun files ha => absurd ha (hclose files)
    rw [hlocks] at hfree
    exact absurd hblocked hfree
  · constructor
    · intro hsignals files' ha t r hr hblocked
      cases ha
      by_contra hfree
      exact Bool.false_ne_true (hsignals t r hr hblocked fun hb =>
        hfree (blocked_removeOwnedBy_iff.1 hb))
    · intro hsafe t r hr hblocked hfree
      exact absurd (blocked_removeOwnedBy_iff.2 (hsafe files rfl t r hr hblocked)) hfree

theorem LockInode.NoneStuck.act (h : s.NoneStuck) (htyped : s.Typed)
    {n : Bool} (hsafe : s.CloseSafe a) (hact : s.act a = some (s', n)) : s'.NoneStuck := by
  intro t' r' hr'
  rcases LockInode.act_cases hact with ⟨-, t, r, blocking, heq⟩ | ⟨-, hlocks, hthreads⟩ |
    ⟨files, rfl, -, rfl⟩
  · obtain ⟨rfl, -⟩ := Prod.ext_iff.1 heq
    simp only [LockInode.turn] at hr' ⊢
    by_cases ht : t' = t
    · rw [ht, update_self] at hr'
      split_ifs at hr' with hwait
      cases hr'
      obtain ⟨hlocks, hblocked⟩ := fileLockAcquire_eagain hwait.1
      rwa [hlocks]
    · rw [update_of_ne ht] at hr'
      cases hn : (fileLockAcquire s.locks r).notified with
      | true =>
        -- who was asleep has been woken
        rw [if_pos hn] at hr'
        cases hs : s.threads t' <;> simp [hs, Sleeper.notify] at hr'
      | false =>
        rw [hn, if_neg Bool.false_ne_true] at hr'
        exact fileLockAcquire_blocked htyped hn (h t' r' hr')
  · rw [hlocks]
    exact h t' r' (hthreads t' r' hr')
  · exact blocked_removeOwnedBy_iff.2 (hsafe files rfl t' r' hr' (h t' r' hr'))

/-- **Wake-ups of lock waiters.**  In every state that can be reached, a step that frees a sleeper
notifies `posix_unlock` exactly if it is not a close of a descriptor whose owner's locks are all
that blocks some sleeper; and in every run without such closes, a sleeper is always blocked by a
lock that somebody holds. -/
theorem setlk_wakeup_iff : (∀ s : LockInode τ ω, Run LockInode.step anyStep (lockInodeInit τ ω) s →
      ∀ a s' n, s.act a = some (s', n) → (s.Signals s' n ↔ s.CloseSafe a)) ∧
    ∀ s : LockInode τ ω, Run LockInode.step LockInode.CloseSafe (lockInodeInit τ ω) s → s.NoneStuck := by
  have hinit : (lockInodeInit τ ω).Typed := fun l hl => absurd hl not_mem_nil
  constructor
  · intro s hs a s' n hact
    refine LockInode.signals_iff (hs.inv LockInode.Typed (fun s a t h _ hstep => ?_) hinit) hact
    obtain ⟨⟨t', n'⟩, hact', rfl⟩ := map_eq_some_iff.1 hstep
    exact h.act hact'
  · intro s hs
    have hboth := hs.inv (fun s => s.Typed ∧ s.NoneStuck) (fun s a t h hsafe hstep => ?_)
      ⟨hinit, fun t r hr => by cases hr⟩
    · exact hboth.2
    · obtain ⟨⟨t', n'⟩, hact', rfl⟩ := map_eq_some_iff.1 hstep
      exact ⟨h.1.act hact', h.2.act h.1 hsafe hact'⟩

def openFile : LockFd := ⟨some (.ok 0), .ok 0, .rdwr⟩

def firstBytes (type : LockType) : Flock := ⟨some type, some .set, 0, 100, 0⟩

/-- One process locks the first 100 bytes, and another one waits for them. -/
def waitRun : List (LockAct Bool Bool) :=
  [.setlk true openFile true 7 (firstBytes .wrlck) true, .setlk false openFile false 8 (firstBytes .wrlck) true]

theorem waitRun_isSome : (waitRun.foldlM LockInode.step (lockInodeInit Bool Bool)).isSome := by
  decide

def afterWaitRun : LockInode Bool Bool := Option.get _ waitRun_isSome

theorem afterWaitRun_asleep : afterWaitRun.threads false = .asleep ⟨0, 99, .wrlck, 8, false⟩ := by
  decide

def release : LockAct Bool Bool := .setlk true openFile true 7 (firstBytes .unlck) true

/-- Then the sleeper is blocked, and if the lock is released it is woken. -/
theorem setlk_wakeup_waitRun : Blocked afterWaitRun.locks ⟨0, 99, .wrlck, 8, false⟩ ∧
    (afterWaitRun.act release).map Prod.snd = some true ∧
    ∀ s' n, afterWaitRun.act release = some (s', n) → afterWaitRun.Signals s' n := by
  have hrun : waitRun.foldlM LockInode.step (lockInodeInit Bool Bool) = some afterWaitRun :=
    (some_get waitRun_isSome).symm
  refine ⟨?_, by decide, fun s' n hact => ?_⟩
  · refine setlk_wakeup_iff.2 afterWaitRun (.of_foldlM (fun a ha s files hclose => ?_) hrun) false _
      afterWaitRun_asleep
    subst hclose
    simp [waitRun] at ha
  · refine (setlk_wakeup_iff.1 afterWaitRun (.of_foldlM (fun _ _ _ => trivial) hrun) _ s' n hact).2 ?_
    intro files hclose
    cases hclose

/-- If its owner closes the file instead, nobody is woken, although nothing is locked any more. -/
theorem close_loses_wakeup : ∃ s, waitRun.foldlM LockInode.step (lockInodeInit Bool Bool) = some s ∧
      ∃ s', s.act (.close true) = some (s', false) ∧ s'.locks = [] ∧
        s.threads false = .asleep ⟨0, 99, .wrlck, 8, false⟩ ∧ s'.threads false = .asleep ⟨0, 99, .wrlck, 8, false⟩ :=
  ⟨afterWaitRun, (some_get waitRun_isSome).symm, _, rfl, by decide,
    by decide, by decide⟩

/-! ### Exclusion -/

/-- A range of bytes that `off_t_` can count. -/
def FileLock.InRange (r : FileLock ω) : Prop := 0 ≤ r.start ∧ r.start ≤ r.last ∧ r.last ≤ offTMax

def LockInode.AsksInRange (_ : LockInode τ ω) : LockAct τ ω → Prop
  | .setlk _ fd files pid flock _ => ∀ r, setlkRequest fd files pid flock = .ok r → r.InRange
  | _ => True

/-- A thread waits for such a range, or for nothing. -/
def Sleeper.InRange : Sleeper ω → Prop
  | .away => True
  | .asleep r | .woken r => r.InRange

/-- The list is in order, and so is what the threads wait for. -/
structure LockInode.Ok (s : LockInode τ ω) : Prop where
  locks : LocksOk s.locks
  waits : ∀ t, (s.threads t).InRange

theorem LocksOk.fileLockAcquire (h : LocksOk locks) (hr : r.InRange) : LocksOk (fileLockAcquire locks r).locks := by
  by_cases hbusy : r.type ≠ .unlck ∧ ∃ l ∈ locks, Conflict l r
  · unfold Fs.fileLockAcquire
    rw [if_pos (by rwa [h.any_conflict_iff hr.2.1])]
    exact h
  · exact (h.acquire hr.1 hr.2.1 hr.2.2 hbusy).2.2

theorem LocksOk.removeOwnedBy (h : LocksOk locks) (owner : ω) : LocksOk (fileLockRemoveOwnedBy locks owner) where
  valid l hl := h.valid l (mem_filter.1 hl).1
  grouped := h.grouped.sublist filter_sublist
  apart := h.apart.filter _
  compatible := h.compatible.filter _

omit [DecidableEq ω] in
theorem Sleeper.InRange.notify {x : Sleeper ω} (h : x.InRange) : x.notify.InRange := by
  cases x <;> exact h

theorem LockInode.Ok.turn (h : s.Ok) (t : τ) (hr : r.InRange) (blocking : Bool) : (s.turn t r blocking).1.Ok := by
  refine ⟨h.locks.fileLockAcquire hr, (forall_update_iff _ (p := fun _ => Sleeper.InRange)).2 ⟨?_, fun t' _ => ?_⟩⟩
  · split_ifs
    · exact hr
    · trivial
  · split_ifs
    · exact (h.waits t').notify
    · exact h.waits t'

omit [DecidableEq ω] in
theorem LockInode.Ok.goto (h : s.Ok) (t : τ) {next : Sleeper ω} (hnext : next.InRange) : (s.goto t next).Ok :=
  ⟨h.locks, (forall_update_iff _ (p := fun _ => Sleeper.InRange)).2 ⟨hnext, fun t' _ => h.waits t'⟩⟩

theorem LockInode.Ok.step (h : s.Ok) {a : LockAct τ ω} (hask : s.AsksInRange a) (hstep : s.step a = some s') :
    s'.Ok := by
  obtain ⟨⟨s₁, n⟩, hact, rfl⟩ := Option.map_eq_some_iff.1 hstep
  cases a with
  | setlk t fd files pid flock blocking =>
    obtain ⟨-, hact⟩ := Option.ite_none_right_eq_some.1 hact
    cases hr : setlkRequest fd files pid flock with
    | error e =>
      rw [hr] at hact
      cases hact
      exact h
    | ok r =>
      rw [hr] at hact
      cases hact
      exact h.turn t (hask r hr) blocking
  | retry t =>
    have ht := h.waits t
    simp only [LockInode.act] at hact
    split at hact
    · next r hs =>
      cases hact
      exact h.turn t (show (Sleeper.woken r).InRange from hs ▸ ht) true
    · cases hact
  | spurious t =>
    cases hact
    exact h.goto t (h.waits t).notify
  | interrupt t =>
    obtain ⟨-, hact⟩ := Option.ite_none_left_eq_some.1 hact
    cases hact
    exact h.goto t trivial
  | close files =>
    cases hact
    exact ⟨h.locks.removeOwnedBy files, h.waits⟩

/-- **Write locks exclude**: whatever the threads do, a byte on which one owner has a write lock is locked by nobody
else. -/
theorem write_lock_excludes (h : Run LockInode.step LockInode.AsksInRange (lockInodeInit τ ω) s) {a b : ω} {x : Int}
    (hab : a ≠ b) (hheld : heldAt s.locks a x = some .wrlck) : heldAt s.locks b x = none := by
  have hok := h.inv LockInode.Ok (fun s _ _ hs hask hstep => hs.step hask hstep) ⟨locksOk_nil, fun _ => trivial⟩
  cases hb : heldAt s.locks b x with
  | none => rfl
  | some type =>
    obtain ⟨l, hl, rfl, hlx, hwr⟩ := hok.locks.heldAt_eq_some_iff.1 hheld
    obtain ⟨m, hm, rfl, hmx, -⟩ := hok.locks.heldAt_eq_some_iff.1 hb
    have : Std.Symm fun a b : FileLock ω => ¬Conflict a b := ⟨fun _ _ hn hc => hn hc.symm⟩
    exact absurd ⟨hab, ⟨x, hlx, hmx⟩, .inl hwr⟩
      (hok.locks.compatible.forall hl hm fun heq => hab (congrArg FileLock.owner heq))

/-- After `waitRun` the process that waits has no lock on the byte 7. -/
theorem write_lock_excludes_waitRun : heldAt afterWaitRun.locks false 7 = none := by
  have hrun : waitRun.foldlM LockInode.step (lockInodeInit Bool Bool) = some afterWaitRun :=
    (Option.some_get waitRun_isSome).symm
  refine write_lock_excludes (a := true) (.of_foldlM (fun a ha _ => ?_) hrun) (by decide) (by decide)
  rcases mem_cons.1 ha with rfl | ha
  · intro r hr
    cases hr
    exact ⟨by decide, by decide, by decide⟩
  · obtain rfl := mem_singleton.1 ha
    intro r hr
    cases hr
    exact ⟨by decide, by decide, by decide⟩

end Ish.Fs
