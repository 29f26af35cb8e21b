import Ish.Kernel.TimerFd
import Ish.Lib.Run
import Mathlib.Data.Fintype.Basic

/-!
# The locks of a timer descriptor

`timerfd_settime` takes `timer->lock` under `fd->lock`, and the timer thread takes `fd->lock` under
`timer->lock`. These are the only two places where a lock is taken under another one, so two threads
wait for each other exactly if one is in each (`timerfd_deadlock_iff`).
-/

namespace Ish.TimerFd

open Lib Function

variable {τ : Type} [DecidableEq τ] {s s' : State τ}

/-! ### Who holds which lock -/

def CallerPc.holds : CallerPc → Lock → Bool
  | .settimeTimer _ _, .fd => true
  | .settimeBody _ _, _ => true
  | .settimeDone, .fd => true
  | .reading, .fd => true
  | .leaving, .fd => true
  | _, _ => false

def CallerPc.wants : CallerPc → Option Lock
  | .settimeFd _ _ => some .fd
  | .settimeTimer _ _ => some .timer
  | .readFd => some .fd
  | .woken _ => some .fd
  | .pollFd => some .fd
  | _ => none

def TimerPc.holds : TimerPc → Lock → Bool
  | .check, .timer => true
  | .callback, .timer => true
  | .notifying, _ => true
  | .after, .timer => true
  | _, _ => false

def TimerPc.wants : TimerPc → Option Lock
  | .start => some .timer
  | .callback => some .fd
  | _ => Option.none

/-- What a thread holds by where it is. -/
def State.holds (s : State τ) : Owner τ → Lock → Bool
  | .caller t, l => (s.caller t).holds l
  | .timer, l => s.thread.holds l

def State.wants (s : State τ) : Owner τ → Option Lock
  | .caller t => (s.caller t).wants
  | .timer => s.thread.wants

/-- Two threads each hold one of the locks and wait for the other one. -/
def State.Deadlock (s : State τ) : Prop :=
  ∃ x y l l', x ≠ y ∧ l ≠ l' ∧ s.lock l = some x ∧ s.wants x = some l' ∧ s.lock l' = some y ∧
    s.wants y = some l

/-- The owner of a lock is the thread that is where it holds it, and a timer thread that does not run is
nowhere. -/
structure State.Inv (s : State τ) : Prop where
  owner : ∀ l x, s.lock l = some x ↔ s.holds x l = true
  stopped : s.running = false → s.thread = .none

variable {l : Lock}

omit [DecidableEq τ] in
theorem State.map_take_eq_some {x : Owner τ} {f : State τ → State τ} (h : (s.take l x).map f = some s') :
    s.lock l = none ∧ s' = f { s with lock := update s.lock l (some x) } := by
  obtain ⟨s₁, htake, rfl⟩ := Option.map_eq_some_iff.1 h
  obtain ⟨hfree, h⟩ := Option.ite_none_right_eq_some.1 htake
  exact ⟨hfree, congrArg f (Option.some.inj h).symm⟩

/-- In `timer_set` with `fd->lock`, before `timer->lock`. -/
def CallerPc.inTimerSet : CallerPc → Bool
  | .settimeTimer _ _ => true
  | _ => false

/-- In `sys_timerfd_settime`, before `fd->lock`. -/
def CallerPc.inSettime : CallerPc → Bool
  | .settimeFd _ _ => true
  | _ => false

/-- A step of a caller: it takes the lock `l` (`b`), or gives it up, and comes to `pc`. It may start the timer
thread. -/
structure CallerStep (s s' : State τ) (t : τ) (pc : CallerPc) (l : Lock) (b : Bool) : Prop where
  caller : s'.caller = update s.caller t pc
  lock : s'.lock = update s.lock l (if b then some (.caller t) else none)
  before : if b then s.lock l = none else (s.caller t).holds l = true
  after : ∀ k, pc.holds k = if k = l then b else (s.caller t).holds k
  inTimerSet : pc.inTimerSet = (s.caller t).inSettime
  thread : s'.thread = s.thread ∧ s'.running = s.running ∨ s.running = false ∧ s'.thread = .start ∧ s'.running = true

variable {t : τ}

theorem State.stepCaller_cases (h : s.stepCaller t = some s') : ∃ pc l b, CallerStep s s' t pc l b := by
  unfold State.stepCaller at h
  cases hpc : s.caller t with
  | idle | asleep =>
    rw [hpc] at h
    cases h
  | settimeFd _ _ | readFd | pollFd =>
    rw [hpc] at h
    obtain ⟨hfree, rfl⟩ := State.map_take_eq_some h
    exact ⟨_, .fd, true, rfl, rfl, hfree, by rw [hpc]; intro k; cases k <;> rfl, by rw [hpc]; rfl, .inl ⟨rfl, rfl⟩⟩
  | settimeTimer v i =>
    rw [hpc] at h
    obtain ⟨hfree, rfl⟩ := State.map_take_eq_some h
    exact ⟨_, .timer, true, rfl, rfl, hfree, by rw [hpc]; intro k; cases k <;> rfl, by rw [hpc]; rfl, .inl ⟨rfl, rfl⟩⟩
  | woken err =>
    rw [hpc] at h
    obtain ⟨hfree, rfl⟩ := State.map_take_eq_some h
    refine ⟨_, .fd, true, rfl, rfl, hfree, ?_, ?_, .inl ⟨rfl, rfl⟩⟩
    · rw [hpc]
      intro k
      cases err <;> cases k <;> rfl
    · rw [hpc]
      cases err <;> rfl
  | settimeBody v i =>
    rw [hpc] at h
    cases h
    refine ⟨.settimeDone, .timer, false, ?_⟩
    unfold State.timerSet
    dsimp only
    split_ifs with hrun hv
    · exact ⟨rfl, rfl, by rw [hpc]; rfl, by rw [hpc]; intro k; cases k <;> rfl, by rw [hpc]; rfl, .inl ⟨rfl, rfl⟩⟩
    · exact ⟨rfl, rfl, by rw [hpc]; rfl, by rw [hpc]; intro k; cases k <;> rfl, by rw [hpc]; rfl,
        .inr ⟨eq_false_of_ne_true hrun, rfl, rfl⟩⟩
    · exact ⟨rfl, rfl, by rw [hpc]; rfl, by rw [hpc]; intro k; cases k <;> rfl, by rw [hpc]; rfl, .inl ⟨rfl, rfl⟩⟩
  | settimeDone | leaving =>
    rw [hpc] at h
    cases h
    exact ⟨_, .fd, false, rfl, rfl, by rw [hpc]; rfl, by rw [hpc]; intro k; cases k <;> rfl, by rw [hpc]; rfl,
      .inl ⟨rfl, rfl⟩⟩
  | reading =>
    rw [hpc] at h
    dsimp only at h
    split_ifs at h <;> cases h <;> exact ⟨_, .fd, false, rfl, rfl, by rw [hpc]; rfl,
      by rw [hpc]; intro k; cases k <;> rfl, by rw [hpc]; rfl, .inl ⟨rfl, rfl⟩⟩

/-- A step of the timer thread: it takes a lock or gives it up, or goes on with those that it has. It comes into its
callback when the timer expires. -/
structure TimerStep (s s' : State τ) (remaining : Bool) : Prop where
  caller : s'.caller = s.caller
  locks : s'.lock = s.lock ∧ (∀ k, s'.thread.holds k = s.thread.holds k) ∨ ∃ l b,
    s'.lock = update s.lock l (if b then some .timer else none) ∧
      (if b then s.lock l = none else s.thread.holds l = true) ∧
      ∀ k, s'.thread.holds k = if k = l then b else s.thread.holds k
  running : s'.running = s.running ∨ s'.thread = .none
  callback : s'.thread = .callback ↔ s.thread = .check ∧ s.active = true ∧ remaining = false

omit [DecidableEq τ] in
theorem State.stepTimer_cases {remaining : Bool} (h : s.stepTimer remaining = some s') : TimerStep s s' remaining := by
  unfold State.stepTimer at h
  cases hpc : s.thread with
  | none =>
    rw [hpc] at h
    cases h
  | start =>
    rw [hpc] at h
    obtain ⟨hfree, rfl⟩ := State.map_take_eq_some h
    exact ⟨rfl, .inr ⟨.timer, true, rfl, hfree, by rw [hpc]; intro k; cases k <;> rfl⟩, .inl rfl, by simp [hpc]⟩
  | callback =>
    rw [hpc] at h
    obtain ⟨hfree, rfl⟩ := State.map_take_eq_some h
    exact ⟨rfl, .inr ⟨.fd, true, rfl, hfree, by rw [hpc]; intro k; cases k <;> rfl⟩, .inl rfl, by simp [hpc]⟩
  | check =>
    rw [hpc] at h
    dsimp only at h
    split_ifs at h with hleft hactive <;> cases h
    · rw [Bool.and_eq_true] at hleft
      exact ⟨rfl, .inr ⟨.timer, false, rfl, by rw [hpc]; rfl, by rw [hpc]; intro k; cases k <;> rfl⟩, .inl rfl,
        by simp [State.free, hleft]⟩
    · have hnone : remaining = false := by simpa [hactive] using hleft
      exact ⟨rfl, .inl ⟨rfl, by rw [hpc]; intro k; cases k <;> rfl⟩, .inl rfl, by simp [hpc, hactive, hnone]⟩
    · exact ⟨rfl, .inr ⟨.timer, false, rfl, by rw [hpc]; rfl, by rw [hpc]; intro k; cases k <;> rfl⟩, .inr rfl,
        by simp [State.finish, State.free, hactive]⟩
  | asleep =>
    rw [hpc] at h
    cases h
    exact ⟨rfl, .inl ⟨rfl, by rw [hpc]; intro k; cases k <;> rfl⟩, .inl rfl, by simp [hpc]⟩
  | notifying =>
    rw [hpc] at h
    cases h
    exact ⟨rfl, .inr ⟨.fd, false, rfl, by rw [hpc]; rfl, by rw [hpc]; intro k; cases k <;> rfl⟩, .inl rfl,
      by simp [State.free, hpc]⟩
  | after =>
    rw [hpc] at h
    dsimp only at h
    split_ifs at h <;> cases h
    · exact ⟨rfl, .inl ⟨rfl, by rw [hpc]; intro k; cases k <;> rfl⟩, .inl rfl, by simp [hpc]⟩
    · exact ⟨rfl, .inr ⟨.timer, false, rfl, by rw [hpc]; rfl, by rw [hpc]; intro k; cases k <;> rfl⟩, .inr rfl,
        by simp [State.finish, State.free, hpc]⟩

namespace State.Inv

variable (hi : s.Inv)
include hi

theorem owner_update {x : Owner τ} {b : Bool} (hmay : if b then s.lock l = none else s.holds x l = true)
    (hlock : s'.lock = update s.lock l (if b then some x else none))
    (hholds : ∀ y k, s'.holds y k = if y = x ∧ k = l then b else s.holds y k) :
    ∀ k y, s'.lock k = some y ↔ s'.holds y k = true := by
  have hother : ∀ y, y ≠ x → s.holds y l = false := by
    intro y hy
    rw [← Bool.not_eq_true, ← hi.owner]
    cases b with
    | true =>
      rw [if_pos rfl] at hmay
      simp [hmay]
    | false =>
      rw [if_neg (by decide), ← hi.owner] at hmay
      simpa [hmay] using Ne.symm hy
  intro k y
  rw [hlock, hholds, update_apply]
  by_cases hk : k = l
  · subst hk
    rw [if_pos rfl]
    by_cases hy : y = x
    · simp [hy]
    · simp [hy, hother y hy, Ne.symm hy]
  · rw [if_neg hk, if_neg fun h => hk h.2]
    exact hi.owner k y

theorem stepCaller (h : s.stepCaller t = some s') : s'.Inv := by
  obtain ⟨pc, l, b, hs⟩ := State.stepCaller_cases h
  -- a thread is made only if there is none
  have hthread : ∀ k, s'.thread.holds k = s.thread.holds k := by
    intro k
    rcases hs.thread with ⟨hth, -⟩ | ⟨hrun, hth, -⟩
    · rw [hth]
    · rw [hth, hi.stopped hrun]
      cases k <;> rfl
  refine ⟨hi.owner_update (x := .caller t) hs.before hs.lock fun y k => ?_, fun hrun => ?_⟩
  · cases y with
    | caller t' =>
      show (s'.caller t').holds k = if _ then b else (s.caller t').holds k
      rw [hs.caller, update_apply]
      by_cases ht : t' = t
      · simp [ht, hs.after k]
      · simp [ht]
    | timer => exact (hthread k).trans (if_neg fun h => by cases h.1).symm
  · rcases hs.thread with ⟨hth, hrun'⟩ | ⟨-, -, hrun'⟩
    · exact hth.trans (hi.stopped (hrun'.symm.trans hrun))
    · cases hrun'.symm.trans hrun

theorem stepTimer {remaining : Bool} (h : s.stepTimer remaining = some s') : s'.Inv := by
  have hs := State.stepTimer_cases h
  have hstopped : s'.running = false → s'.thread = .none := by
    intro hrun
    refine hs.running.elim (fun heq => absurd h ?_) id
    unfold State.stepTimer
    rw [hi.stopped (heq.symm.trans hrun)]
    nofun
  have hcaller : ∀ t k, (s'.caller t).holds k = (s.caller t).holds k := fun t k => by rw [hs.caller]
  refine ⟨?_, hstopped⟩
  rcases hs.locks with ⟨hlock, hholds⟩ | ⟨l, b, hlock, hmay, hholds⟩
  · intro l x
    have hsame : s'.holds x l = s.holds x l := by
      cases x with
      | caller t => exact hcaller t l
      | timer => exact hholds l
    rw [hlock, hsame]
    exact hi.owner l x
  · refine hi.owner_update (x := .timer) hmay hlock fun y k => ?_
    cases y with
    | caller t => exact (hcaller t k).trans (if_neg fun h => by cases h.1).symm
    | timer =>
      show s'.thread.holds k = _
      rw [hholds]
      simp [State.holds]

theorem move_caller {pc : CallerPc} (hpc : ∀ k, pc.holds k = (s.caller t).holds k) :
    (s.setCaller t pc).Inv := by
  refine ⟨fun l x => ?_, hi.stopped⟩
  have hsame : (s.setCaller t pc).holds x l = s.holds x l := by
    cases x with
    | timer => rfl
    | caller t' =>
      show (update s.caller t pc t').holds l = _
      rw [update_apply]
      split_ifs with ht
      · rw [hpc, ht]
        rfl
      · rfl
  rw [hsame]
  exact hi.owner l x

theorem begin {pc : CallerPc} (hpc : ∀ k, pc.holds k = false) (h : s.begin t pc = some s') : s'.Inv := by
  refine guarded h fun hidle => ?_
  refine hi.move_caller fun k => ?_
  rw [hpc, hidle]
  rfl

theorem step {a : Act τ} (h : s.step a = some s') : s'.Inv := by
  cases a with
  | settime _ _ _ | read _ | poll _ => exact hi.begin (fun k => by cases k <;> rfl) h
  | caller t => exact hi.stepCaller h
  | wake t err =>
    refine guarded h fun hasleep => ?_
    refine hi.move_caller fun k => ?_
    rw [hasleep]
    cases k <;> rfl
  | timer remaining => exact hi.stepTimer h

end State.Inv

omit [DecidableEq τ] in
theorem init_inv (nonblock : Bool) : (init nonblock : State τ).Inv where
  owner l x := by
    have hholds : (init nonblock : State τ).holds x l = false := by
      cases x <;> cases l <;> rfl
    rw [hholds]
    simp [init]
  stopped _ := rfl

/-! ### Threads that wait for each other -/

theorem CallerPc.holds_wants {pc : CallerPc} {l' : Lock} (hheld : pc.holds l = true)
    (hwants : pc.wants = some l') : l = .fd ∧ l' = .timer ∧ pc.inTimerSet = true := by
  cases pc <;> cases hwants <;> cases l <;> first | exact ⟨rfl, rfl, rfl⟩ | cases hheld

theorem TimerPc.holds_wants {pc : TimerPc} {l' : Lock} (hheld : pc.holds l = true)
    (hwants : pc.wants = some l') : l = .timer ∧ l' = .fd ∧ pc = .callback := by
  cases pc <;> cases hwants <;> cases l <;> first | exact ⟨rfl, rfl, rfl⟩ | cases hheld

omit [DecidableEq τ] in
/-- Two threads wait for each other exactly if one is in `timer_set` and the timer thread is in
`timerfd_callback`. -/
theorem State.Inv.timerfd_deadlock_iff (hi : s.Inv) :
    s.Deadlock ↔ (∃ t, (s.caller t).inTimerSet = true) ∧ s.thread = .callback := by
  constructor
  · rintro ⟨x, y, l, l', hne, -, hx, hwx, hy, hwy⟩
    have hx := (hi.owner _ _).1 hx
    have hy := (hi.owner _ _).1 hy
    cases x with
    | caller t =>
      obtain ⟨rfl, rfl, hin⟩ := CallerPc.holds_wants hx hwx
      cases y with
      | caller t' => cases (CallerPc.holds_wants hy hwy).1
      | timer => exact ⟨⟨t, hin⟩, (TimerPc.holds_wants hy hwy).2.2⟩
    | timer =>
      obtain ⟨rfl, rfl, hcb⟩ := TimerPc.holds_wants hx hwx
      cases y with
      | caller t' => exact ⟨⟨t', (CallerPc.holds_wants hy hwy).2.2⟩, hcb⟩
      | timer => exact absurd rfl hne
  · rintro ⟨⟨t, hin⟩, hcb⟩
    cases hpc : s.caller t with
    | settimeTimer v i =>
      refine ⟨.caller t, .timer, .fd, .timer, by simp, by decide, ?_, ?_, ?_, ?_⟩
      · exact (hi.owner _ _).2 (by show (s.caller t).holds _ = _; rw [hpc]; rfl)
      · show (s.caller t).wants = _
        rw [hpc]
        rfl
      · exact (hi.owner _ _).2 (by show s.thread.holds _ = _; rw [hcb]; rfl)
      · show s.thread.wants = _
        rw [hcb]
        rfl
    | _ => rw [hpc] at hin; cases hin

/-- A step after which no two threads wait for each other: `fd->lock` is not taken in
`sys_timerfd_settime` while the timer thread is in `timerfd_callback`, and the timer does not expire while
a caller is in `timer_set`. -/
def Safe (s : State τ) : Act τ → Prop
  | .caller t => (s.caller t).inSettime = true → s.thread ≠ .callback
  | .timer remaining =>
    s.thread = .check ∧ s.active = true ∧ remaining = false → ∀ t, (s.caller t).inTimerSet = false
  | _ => True

theorem State.Inv.not_deadlock_setCaller (hi : s.Inv) (hno : ¬s.Deadlock) {pc : CallerPc}
    (hholds : ∀ k, pc.holds k = (s.caller t).holds k) (hpc : pc.inTimerSet = false) : ¬(s.setCaller t pc).Deadlock := by
  rw [(hi.move_caller hholds).timerfd_deadlock_iff]
  rw [hi.timerfd_deadlock_iff] at hno
  rintro ⟨⟨t', hin⟩, hcb⟩
  refine hno ⟨⟨t', ?_⟩, hcb⟩
  have hin : (update s.caller t pc t').inTimerSet = true := hin
  rw [update_apply] at hin
  split_ifs at hin with ht
  · rw [hpc] at hin
    cases hin
  · exact hin

/-- One step leads two threads to wait for each other exactly if it is not `Safe`. -/
theorem State.Inv.not_deadlock_step_iff (hi : s.Inv) (hno : ¬s.Deadlock) {a : Act τ}
    (h : s.step a = some s') : ¬s'.Deadlock ↔ Safe s a := by
  have hi' := hi.step h
  cases a with
  | settime t _ _ | read t | poll t =>
    refine guarded h fun hidle => ?_
    refine iff_of_true (hi.not_deadlock_setCaller hno (fun k => ?_) rfl) trivial
    rw [hidle]
    cases k <;> rfl
  | wake t err =>
    refine guarded h fun hasleep => ?_
    refine iff_of_true (hi.not_deadlock_setCaller hno (fun k => ?_) rfl) trivial
    rw [hasleep]
    cases k <;> rfl
  | caller t =>
    obtain ⟨pc, l, b, hs⟩ := State.stepCaller_cases h
    have hpc := hs.inTimerSet
    have hthread : s'.thread = .callback ↔ s.thread = .callback := by
      rcases hs.thread with ⟨hth, -⟩ | ⟨hrun, hth, -⟩
      · rw [hth]
      · rw [hth, hi.stopped hrun]
        decide
    rw [hi.timerfd_deadlock_iff] at hno
    rw [hi'.timerfd_deadlock_iff, hthread, hs.caller]
    constructor
    · intro hno' hin hcb
      exact hno' ⟨⟨t, by rw [update_self, hpc, hin]⟩, hcb⟩
    · rintro hsafe ⟨⟨t', hin⟩, hcb⟩
      rw [update_apply] at hin
      split_ifs at hin with ht
      · exact hsafe (hpc ▸ hin) hcb
      · exact hno ⟨⟨t', hin⟩, hcb⟩
  | timer remaining =>
    have hs := State.stepTimer_cases h
    rw [hi'.timerfd_deadlock_iff, hs.caller, hs.callback]
    constructor
    · intro hno' hexp t
      exact eq_false_of_ne_true fun hin => hno' ⟨⟨t, hin⟩, hexp⟩
    · rintro hsafe ⟨⟨t, hin⟩, hexp⟩
      exact absurd (hsafe hexp t) (by rw [hin]; decide)

theorem inv_of_run {nonblock : Bool} (h : Run State.step Safe (init nonblock) s) : s.Inv ∧ ¬s.Deadlock := by
  refine h.inv (fun s => s.Inv ∧ ¬s.Deadlock) ?_ ⟨init_inv nonblock, ?_⟩
  · rintro s a s' ⟨hi, hno⟩ hsafe hstep
    exact ⟨hi.step hstep, (hi.not_deadlock_step_iff hno hstep).2 hsafe⟩
  · rw [(init_inv nonblock).timerfd_deadlock_iff]
    rintro ⟨-, hcb⟩
    cases hcb

/-- **In every run of safe steps no two threads wait for each other, and the first step that is not safe
makes them.** -/
theorem timerfd_no_deadlock (nonblock : Bool) : (∀ s : State τ, Run State.step Safe (init nonblock) s → ¬s.Deadlock) ∧
      ∀ (s : State τ) (a : Act τ) (s' : State τ), Run State.step Safe (init nonblock) s →
        s.step a = some s' → (¬s'.Deadlock ↔ Safe s a) := by
  refine ⟨fun s h => (inv_of_run h).2, fun s a s' h hstep => ?_⟩
  obtain ⟨hi, hno⟩ := inv_of_run h
  exact hi.not_deadlock_step_iff hno hstep

instance [Fintype τ] (s : State τ) (a : Act τ) : Decidable (Safe s a) :=
  match a with
  | .caller t => inferInstanceAs (Decidable ((s.caller t).inSettime = true → s.thread ≠ .callback))
  | .timer remaining =>
    inferInstanceAs (Decidable
      (s.thread = .check ∧ s.active = true ∧ remaining = false → ∀ t, (s.caller t).inTimerSet = false))
  | .settime _ _ _ => isTrue trivial
  | .read _ => isTrue trivial
  | .poll _ => isTrue trivial
  | .wake _ _ => isTrue trivial

/-- A timer is set, its thread runs up to the test for the time left, and the timer is set once more. -/
def crossRun : List (Act Unit) :=
  [.settime () true false, .caller (), .caller (), .caller (), .caller (), .timer true,
    .settime () true false, .caller ()]

theorem crossRun_isSome :
    (crossRun.foldlM (fun s a => if Safe s a then State.step s a else none) (init false)).isSome := by
  decide

def crossing : State Unit := Option.get _ crossRun_isSome

theorem crossing_run : Run State.step Safe (init false) crossing :=
  .of_guarded (l := crossRun) (Option.some_get crossRun_isSome).symm

theorem crossing_step_isSome : (crossing.step (.timer false)).isSome := by decide

/-- The timer expires. -/
def deadlocked : State Unit := Option.get _ crossing_step_isSome

theorem deadlocked_step : crossing.step (.timer false) = some deadlocked :=
  (Option.some_get crossing_step_isSome).symm

theorem timerfd_no_deadlock_crossing : ¬crossing.Deadlock ∧ (¬deadlocked.Deadlock ↔ Safe crossing (.timer false)) :=
  ⟨(timerfd_no_deadlock false).1 _ crossing_run, (timerfd_no_deadlock false).2 _ _ _ crossing_run deadlocked_step⟩

/-- `timerfd_settime` while the timer expires: neither thread can go on. -/
theorem timerfd_deadlock_reached : ∃ s : State Unit, Run State.step anyStep (init false) s ∧ s.Deadlock ∧
      s.step (.caller ()) = none ∧ s.step (.timer false) = none ∧ s.step (.timer true) = none := by
  have hrun : Run State.step anyStep (init false) deadlocked :=
    .tail _ (crossing_run.mono fun _ _ _ => trivial) trivial deadlocked_step
  refine ⟨deadlocked, hrun, ⟨.caller (), .timer, .fd, .timer, by decide, by decide, ?_⟩, ?_⟩
  · decide
  · exact ⟨by rfl, by rfl, by rfl⟩

end Ish.TimerFd
