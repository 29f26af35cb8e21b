import Ish.Kernel.WaitFor
import Ish.Kernel.Equiv.Signal

/-!
# Signals that come between the look and the sleep

A sender makes its signal pending under `sighand->lock` and broadcasts `waiting_cond` later, without the
lock of the wait. If the wait is on `sighand->lock`, nothing becomes pending between the look for
signals and the sleep (`Wait.Inv.window`), and every later signal has its broadcast still to come. With
another lock a broadcast can fall between the two and is lost (`wait_for_lost_signal`); if none does
(`Wait.Careful`), the sender of every such signal has yet to broadcast (`Wait.Attended`).
-/

namespace Ish.Signals

open Lib Function List Option

/-- The sender has yet to broadcast. -/
def SenderPc.due : SenderPc → Bool
  | .set | .toNotify | .notifying => true
  | _ => false

/-- The sender has `sighand->lock`. -/
def SenderPc.holds : SenderPc → Bool
  | .locked _ | .set => true
  | _ => false

/-- The task has the lock of the wait. -/
def WaiterPc.holds : WaiterPc → Bool
  | .out | .asleep | .woken => false
  | _ => true

/-- The task has looked for signals and not gone to sleep yet. -/
def WaiterPc.window : WaiterPc → Bool
  | .publish | .publishing | .presleep => true
  | _ => false

variable {σ : Type}

/-- A signal is pending and not blocked that was delivered after the task looked for signals. -/
def Wait.Fresh (s : Wait σ) : Prop :=
  ∃ sig, has s.fresh sig = true ∧ has s.pending sig = true ∧ has s.blocked sig = false

/-- The task sleeps without a timeout, with such a signal, and no broadcast is to come. -/
def Wait.Lost (s : Wait σ) : Prop :=
  s.pc = .asleep ∧ s.timed = false ∧ s.Fresh ∧ ∀ i, (s.sender i).due = false

/-- No sender broadcasts between the look for signals and the sleep, unless the wait is on `sighand->lock` or has a
timeout. -/
def Wait.Careful (s : Wait σ) : WaitStep σ → Prop
  | .sendNotify _ => s.pc.window = true → s.onSighand = true ∨ s.timed = true
  | _ => True

/-- From its look on until it is woken, the task has only such signals whose senders have yet to broadcast. -/
def Wait.Attended (s : Wait σ) : Prop :=
  s.pc.window = true ∨ s.pc = .asleep → s.timed = false → s.Fresh → ∃ i, (s.sender i).due = true

/-- The task has `sighand->lock`, as the lock of the wait or for its look. -/
def Wait.HasSighand (s : Wait σ) : Prop :=
  s.onSighand = true ∧ s.pc.holds = true ∨ s.pc = .checking

/-- Who has `sighand->lock`, and what holds while the task has it. -/
structure Wait.Inv (s : Wait σ) : Prop where
  sender : ∀ i, (s.sender i).holds = true → s.sighandLock = some (.sender i)
  waiter : s.HasSighand → s.sighandLock = some .waiter
  window : s.onSighand = true → s.pc.window = true → s.fresh = 0
  published : s.pc = .presleep ∨ s.pc = .asleep → s.waitingCond = true

variable {s s' : Wait σ}

theorem Wait.Inv.move (h : s.Inv) (hsender : s'.sender = s.sender)
    (hlock : s'.sighandLock = s.sighandLock) (hon : s'.onSighand = s.onSighand) (hholds : s'.HasSighand → s.HasSighand)
    (hwindow : s.onSighand = true → s'.pc.window = true → s'.fresh = 0)
    (hpublished : s'.pc = .presleep ∨ s'.pc = .asleep → s'.waitingCond = true) : s'.Inv where
  sender i hi := by
    rw [hsender] at hi
    rw [hlock]
    exact h.sender i hi
  waiter hh := by
    rw [hlock]
    exact h.waiter (hholds hh)
  window hon' hw := hwindow (hon ▸ hon') hw
  published := hpublished

theorem Wait.Inv.broadcast (h : s.Inv) : s.broadcast.Inv := by
  unfold Wait.broadcast
  split_ifs with hpc
  · exact h.move rfl rfl rfl (by simp [Wait.HasSighand, WaiterPc.holds]) (by simp [WaiterPc.window])
      (by simp)
  · exact h

theorem Wait.Inv.take (h : s.Inv) (hfree : s.lock = none) {pc : WaiterPc}
    (hwindow : pc.window = false) (hpub : pc ≠ .presleep ∧ pc ≠ .asleep) (hpc : pc ≠ .checking) :
    Wait.Inv { s.setLock (some .waiter) with pc := pc } := by
  unfold Wait.lock at hfree
  unfold Wait.setLock
  split_ifs at hfree ⊢ with hon
  · refine ⟨fun i hi => ?_, fun _ => rfl, fun _ hw => ?_, fun hp => ?_⟩
    · have hlock := h.sender i hi
      rw [hfree] at hlock
      cases hlock
    · rw [hwindow] at hw
      cases hw
    · exact absurd hp (by simp [hpub])
  · exact h.move rfl rfl rfl (fun hh => hh.elim (fun hh => absurd hh.1 hon) fun hh => absurd hh hpc)
      (fun hon' => absurd hon' hon) fun hp => absurd hp (by simp [hpub])

theorem Wait.Inv.release (h : s.Inv) (hholds : s.pc.holds = true) {pc : WaiterPc}
    (hout : pc.holds = false) (hpub : pc = .asleep → s.waitingCond = true) :
    Wait.Inv { s.setLock none with pc := pc } := by
  have hwindow : pc.window = false := by cases pc <;> first | rfl | cases hout
  have hpresleep : pc ≠ .presleep := by
    rintro rfl
    cases hout
  have hnot : ¬(s.onSighand = true ∧ pc.holds = true ∨ pc = .checking) := by
    rintro (⟨-, hh⟩ | rfl)
    · rw [hout] at hh
      cases hh
    · cases hout
  unfold Wait.setLock
  split_ifs with hon
  · refine ⟨fun i hi => ?_, fun hh => absurd hh hnot, fun _ hw => ?_, fun hp => ?_⟩
    · have hlock := (h.sender i hi).symm.trans (h.waiter (.inl ⟨hon, hholds⟩))
      cases hlock
    · rw [hwindow] at hw
      cases hw
    · exact hpub (hp.resolve_left hpresleep)
  · exact h.move rfl rfl rfl (fun hh => absurd hh hnot) (fun hon' => absurd hon' hon)
      fun hp => hpub (hp.resolve_left hpresleep)

variable {i : σ}

/-- Nothing becomes pending while the task has `sighand->lock`. -/
theorem Wait.Inv.window_of_sender (h : s.Inv) (hi : s.sighandLock = some (.sender i)) :
    s.onSighand = true → s.pc.window = true → False := by
  intro hon hw
  have hholds : s.pc.holds = true := by
    cases hpc : s.pc <;> rw [hpc] at hw <;> first | rfl | cases hw
  have hlock := (h.waiter (.inl ⟨hon, hholds⟩)).symm.trans hi
  cases hlock

theorem inv_waitInit : (waitInit σ).Inv :=
  ⟨fun _ hi => by simp [waitInit, SenderPc.holds] at hi,
    fun hh => by simp [Wait.HasSighand, waitInit, WaiterPc.holds] at hh,
    fun _ hw => by simp [waitInit, WaiterPc.window] at hw, fun hp => by simp [waitInit] at hp⟩

theorem Wait.attended_of_awake (hwindow : s.pc.window = false) (hpc : s.pc ≠ .asleep) : s.Attended := by
  rintro (hw | hasleep)
  · rw [hwindow] at hw
    cases hw
  · exact absurd hasleep hpc

theorem Wait.Attended.of (h : s.Attended)
    (hpc : s'.pc.window = true ∨ s'.pc = .asleep → s.pc.window = true ∨ s.pc = .asleep) (htimed : s'.timed = s.timed)
    (hfresh : s'.Fresh → s.Fresh) (hdue : ∀ i, (s.sender i).due = true → (s'.sender i).due = true) : s'.Attended := by
  intro hlooked huntimed hf
  obtain ⟨i, hi⟩ := h (hpc hlooked) (htimed ▸ huntimed) (hfresh hf)
  exact ⟨i, hdue i hi⟩

theorem Wait.Attended.broadcast (h : s.Attended) : s.broadcast.Attended := by
  unfold Wait.broadcast
  split_ifs
  · exact attended_of_awake rfl (by simp)
  · exact h

/-! ### The steps -/

variable [DecidableEq σ]

variable {q : SenderPc}

theorem Wait.Inv.goto (h : s.Inv) (i : σ) (hq : q.holds = false) : (s.goto i q).Inv := by
  refine ⟨fun j hj => ?_, h.waiter, h.window, h.published⟩
  have hj : (update s.sender i q j).holds = true := hj
  rw [update_apply] at hj
  split_ifs at hj
  · rw [hq] at hj
    cases hj
  · exact h.sender j hj

theorem Wait.Inv.sendRelease (h : s.Inv) (hi : s.sighandLock = some (.sender i))
    (hq : q.holds = false) : Wait.Inv { s.goto i q with sighandLock := none } := by
  refine ⟨fun j hj => ?_, fun hh => ?_, h.window, h.published⟩
  · have hj : (update s.sender i q j).holds = true := hj
    rw [update_apply] at hj
    split_ifs at hj with hji
    · rw [hq] at hj
      cases hj
    · have hlock := (h.sender j hj).symm.trans hi
      exact absurd (Owner.sender.inj (Option.some.inj hlock)) hji
  · have hlock := (h.waiter hh).symm.trans hi
    cases hlock

theorem Wait.step_sendSet (hstep : s.step (.sendSet i) = some s') :
    ∃ sig, s.sender i = .locked sig ∧ s' = s.sendSet i sig := by
  simp only [Wait.step] at hstep
  split at hstep
  · next sig hi => exact ⟨sig, hi, (Option.some.inj hstep).symm⟩
  · cases hstep

theorem Wait.Inv.sendSet (h : s.Inv) {sig : Signal} (hi : s.sender i = .locked sig) : (s.sendSet i sig).Inv := by
  have hlock : s.sighandLock = some (.sender i) := h.sender i (by rw [hi]; rfl)
  have hset : Wait.Inv { s with pending := add s.pending sig, fresh := add s.fresh sig } :=
    ⟨h.sender, h.waiter, fun hon hw => (h.window_of_sender hlock hon hw).elim, h.published⟩
  unfold Wait.sendSet
  split_ifs
  · exact h.sendRelease hlock rfl
  · dsimp only
    split_ifs with hblocked hpause
    · refine hset.broadcast.sendRelease ?_ rfl
      unfold Wait.broadcast
      split_ifs <;> exact hlock
    · exact hset.sendRelease hlock rfl
    · refine ⟨fun j hj => ?_, hset.waiter, hset.window, hset.published⟩
      have hj : (update s.sender i .set j).holds = true := hj
      rw [update_apply] at hj
      split_ifs at hj with hji
      · rw [hji]
        exact hlock
      · exact h.sender j hj

variable {a : WaitStep σ}

theorem Wait.Inv.step (h : s.Inv) (hstep : s.step a = some s') : s'.Inv := by
  cases a with
  | lock onSighand =>
    refine guarded hstep fun ⟨hpc, hfree⟩ => ?_
    have hpc : s.pc = .out := hpc
    have hbefore : Wait.Inv { s with onSighand := onSighand } :=
      ⟨h.sender, fun hh => by simp [Wait.HasSighand, hpc, WaiterPc.holds] at hh,
        fun _ hw => by simp [hpc, WaiterPc.window] at hw, h.published⟩
    exact hbefore.take hfree rfl (by simp) (by simp)
  | unlock => exact guarded hstep fun hpc => h.release (by simp [hpc, WaiterPc.holds]) rfl (by simp)
  | waitFor onPause timed =>
    exact guarded hstep fun hpc => h.move rfl rfl rfl (by simp [Wait.HasSighand, hpc, WaiterPc.holds])
      (by simp [WaiterPc.window]) (by simp)
  | check =>
    obtain ⟨hpc, hs'⟩ := ite_none_right_eq_some.1 hstep
    by_cases hon : s.onSighand = true
    · rw [if_pos hon] at hs'
      cases hs'
      exact h.move rfl rfl rfl (by simp [Wait.HasSighand, hpc, hon, WaiterPc.holds])
        (by simp [WaiterPc.window]) (by simp)
    · rw [if_neg hon] at hs'
      refine guarded hs' fun hfree => ?_
      refine ⟨fun i hi => ?_, fun _ => rfl, fun hon' => absurd hon' hon, by simp⟩
      have hlock := h.sender i hi
      rw [hfree] at hlock
      cases hlock
  | read =>
    refine guarded hstep fun hpc => ?_
    have hlock : s.sighandLock = some .waiter := h.waiter (.inr hpc)
    refine ⟨fun i hi => ?_, fun hh => ?_, fun _ _ => rfl, fun hp => ?_⟩
    · have hsender := (h.sender i hi).symm.trans hlock
      cases hsender
    · show (if s.onSighand then s.sighandLock else none) = some .waiter
      obtain ⟨hon, -⟩ | hchecking := hh
      · exact (if_pos hon).trans hlock
      · simp only [Wait.read] at hchecking
        split_ifs at hchecking
    · simp only [Wait.read] at hp
      split_ifs at hp <;> simp at hp
  | publishLock =>
    exact guarded hstep fun ⟨hpc, _⟩ => h.move rfl rfl rfl (by simp [Wait.HasSighand, hpc, WaiterPc.holds])
      (fun hon _ => h.window hon (by rw [hpc]; rfl)) (by simp)
  | publish =>
    exact guarded hstep fun hpc => h.move rfl rfl rfl (by simp [Wait.HasSighand, hpc, WaiterPc.holds])
      (fun hon _ => h.window hon (by rw [hpc]; rfl)) fun _ => rfl
  | sleep =>
    exact guarded hstep fun hpc => h.release (by simp [hpc, WaiterPc.holds]) rfl fun _ => h.published (.inl hpc)
  | wake =>
    exact guarded hstep fun hpc => h.move rfl rfl rfl (by simp [Wait.HasSighand, WaiterPc.holds])
      (by simp [WaiterPc.window]) (by simp)
  | relock => exact guarded hstep fun ⟨hpc, hfree⟩ => h.take hfree rfl (by simp) (by simp)
  | unpublish =>
    exact guarded hstep fun ⟨hpc, _⟩ => h.move rfl rfl rfl (by simp [Wait.HasSighand, hpc, WaiterPc.holds])
      (by simp [WaiterPc.window]) (by simp)
  | own pending blocked waiting =>
    exact guarded hstep fun ⟨hpc, _⟩ => h.move rfl rfl rfl id (by simp [hpc, WaiterPc.window]) (by simp [hpc])
  | sendLock i sig =>
    refine guarded hstep fun ⟨hi, hfree⟩ => ?_
    refine ⟨fun j hj => ?_, fun hh => ?_, h.window, h.published⟩
    · have hj : (update s.sender i (.locked sig) j).holds = true := hj
      rw [update_apply] at hj
      split_ifs at hj with hji
      · rw [hji]
      · have hlock := h.sender j hj
        rw [hfree] at hlock
        cases hlock
    · have hlock := h.waiter hh
      rw [hfree] at hlock
      cases hlock
  | sendSet i =>
    obtain ⟨sig, hi, rfl⟩ := Wait.step_sendSet hstep
    exact h.sendSet hi
  | sendUnlock i => exact guarded hstep fun hi => h.sendRelease (h.sender i (by rw [hi]; rfl)) rfl
  | sendCondLock i =>
    refine guarded hstep fun _ => ?_
    have hgoto := h.goto i (q := .notifying) rfl
    exact ⟨hgoto.sender, hgoto.waiter, hgoto.window, hgoto.published⟩
  | sendNotify i =>
    refine guarded hstep fun _ => ?_
    have hnotify : Wait.Inv (if s.waitingCond then s.broadcast else s) := by
      split_ifs
      · exact h.broadcast
      · exact h
    have hgoto := hnotify.goto i (q := .relocking) rfl
    exact ⟨hgoto.sender, hgoto.waiter, hgoto.window, hgoto.published⟩
  | sendRelock i => exact guarded hstep fun _ => h.goto i rfl
  | otherLock | otherUnlock => exact guarded hstep fun _ => ⟨h.sender, h.waiter, h.window, h.published⟩
  | otherNotify =>
    cases hstep
    exact h.broadcast

/-! ### Who is left asleep -/

theorem due_goto (hi : (s.sender i).due = true → q.due = true) (j : σ)
    (hj : (s.sender j).due = true) : ((s.goto i q).sender j).due = true := by
  show (update s.sender i q j).due = true
  rw [update_apply]
  split_ifs with hji
  · exact hi (hji ▸ hj)
  · exact hj

theorem Wait.Attended.sendSet (h : s.Attended) {sig : Signal} (hi : s.sender i = .locked sig) :
    (s.sendSet i sig).Attended := by
  have hnotDue : ∀ q : SenderPc, (s.sender i).due = true → q.due = true := by
    intro q hdue
    rw [hi] at hdue
    cases hdue
  have hblocked (hb : (has (s.blocked &&& ~~~s.waiting) sig && isBlockable sig) = true) {s' : Wait σ}
      (hpending : s'.pending = add s.pending sig) (hfresh : s'.fresh = add s.fresh sig)
      (hkeep : s'.blocked = s.blocked) : s'.Fresh → s.Fresh := by
    -- the signal is blocked, so it does not count
    rintro ⟨sig', hf, hp, hunblocked⟩
    have hb : has s.blocked sig = true := by
      rw [Bool.and_eq_true, has_eq_getLsbD, BitVec.getLsbD_and, Bool.and_eq_true] at hb
      rw [has_eq_getLsbD]
      exact hb.1.1
    rw [hkeep] at hunblocked
    have hne : sig' ≠ sig := by
      rintro rfl
      rw [hunblocked] at hb
      cases hb
    rw [hfresh] at hf
    rw [hpending] at hp
    exact ⟨sig', by simpa [hne] using hf, by simpa [hne] using hp, hunblocked⟩
  unfold Wait.sendSet
  split_ifs
  · exact h.of id rfl id (due_goto (hnotDue .idle))
  · dsimp only
    split_ifs with hb hpause
    · have hset : Wait.Attended { s with pending := add s.pending sig, fresh := add s.fresh sig } :=
        h.of id rfl (hblocked hb rfl rfl rfl) fun _ hj => hj
      exact hset.broadcast.of id rfl id (due_goto (by
        unfold Wait.broadcast
        split_ifs <;> exact hnotDue .idle))
    · exact h.of id rfl (hblocked hb rfl rfl rfl) (due_goto (hnotDue .idle))
    · -- the sender itself will broadcast
      have hset : update s.sender i .set i = .set := update_self ..
      exact fun _ _ _ => ⟨i, congrArg SenderPc.due hset⟩

theorem Wait.Attended.step (hinv : s.Inv) (h : s.Attended) (hcare : s.Careful a) (hstep : s.step a = some s') :
    s'.Attended := by
  cases a with
  | lock _ | unlock | waitFor _ _ | wake | relock | unpublish =>
    exact guarded hstep fun _ => attended_of_awake rfl (by simp)
  | check =>
    obtain ⟨-, hs'⟩ := ite_none_right_eq_some.1 hstep
    split_ifs at hs' <;> cases hs' <;> exact attended_of_awake rfl (by simp)
  | read =>
    -- the set of the signals since the look is empty
    refine guarded hstep fun _ _ _ => ?_
    rintro ⟨sig, hfresh, -⟩
    exact absurd ((has_zero sig).symm.trans hfresh) (by simp)
  | publishLock => exact guarded hstep fun ⟨hpc, _⟩ => h.of (fun _ => .inl (by rw [hpc]; rfl)) rfl id fun _ hi => hi
  | publish => exact guarded hstep fun hpc => h.of (fun _ => .inl (by rw [hpc]; rfl)) rfl id fun _ hi => hi
  | sleep =>
    refine guarded hstep fun hpc => ?_
    unfold Wait.setLock
    split_ifs <;> exact h.of (fun _ => .inl (by rw [hpc]; rfl)) rfl id fun _ hi => hi
  | own pending blocked waiting =>
    exact guarded hstep fun ⟨hpc, _⟩ => attended_of_awake (by simp [hpc, WaiterPc.window]) (by simp [hpc])
  | sendLock i sig =>
    exact guarded hstep fun ⟨hi, _⟩ => h.of id rfl id
      (due_goto (i := i) (q := .locked sig) fun hdue => by rw [hi] at hdue; cases hdue)
  | sendSet i =>
    obtain ⟨sig, hi, rfl⟩ := Wait.step_sendSet hstep
    exact h.sendSet hi
  | sendUnlock i => exact guarded hstep fun _ => h.of id rfl id (due_goto (i := i) (q := .toNotify) fun _ => rfl)
  | sendCondLock i => exact guarded hstep fun _ => h.of id rfl id (due_goto (i := i) (q := .notifying) fun _ => rfl)
  | sendNotify i =>
    refine guarded hstep fun _ => ?_
    by_cases hasleep : s.pc = .asleep
    · -- who sleeps has published its condition and is woken
      have hpc : (s.sendNotify i).pc = .woken := by
        simp [Wait.sendNotify, Wait.goto, Wait.broadcast, hinv.published (.inr hasleep), hasleep]
      exact attended_of_awake (by rw [hpc]; rfl) (by rw [hpc]; simp)
    · have hsame : (if s.waitingCond then s.broadcast else s) = s := by
        simp [Wait.broadcast, hasleep]
      unfold Wait.sendNotify
      rw [hsame]
      rintro (hw | hpc) huntimed ⟨sig, hfresh, -⟩
      · have huntimed : s.timed = false := huntimed
        have hon : s.onSighand = true := (hcare hw).resolve_right (by rw [huntimed]; exact Bool.false_ne_true)
        have hfresh : has s.fresh sig = true := hfresh
        rw [hinv.window hon hw] at hfresh
        exact absurd ((has_zero sig).symm.trans hfresh) (by simp)
      · exact absurd hpc hasleep
  | sendRelock i =>
    exact guarded hstep fun ⟨hi, _⟩ => h.of id rfl id
      (due_goto (i := i) (q := .idle) fun hdue => by rw [hi] at hdue; cases hdue)
  | otherLock | otherUnlock => exact guarded hstep fun _ => h.of id rfl id fun _ hi => hi
  | otherNotify =>
    cases hstep
    exact h.broadcast

/-- **Signals in `wait_for`.**  If no sender broadcasts between the look of a task and its sleep, or the wait is on
`sighand->lock`, then the task is never left asleep with a signal that came after its look and of which no broadcast is
to come. -/
theorem wait_for_signal {s : Wait σ} (hrun : Run Wait.step Wait.Careful (waitInit σ) s) : ¬s.Lost := by
  have hinv := hrun.inv (fun s => s.Inv ∧ s.Attended)
    (fun _ _ _ h hcare hstep => ⟨h.1.step hstep, h.2.step h.1 hcare hstep⟩)
    ⟨inv_waitInit, Wait.attended_of_awake rfl (by simp [waitInit])⟩
  rintro ⟨hasleep, huntimed, hfresh, hnone⟩
  obtain ⟨i, hi⟩ := hinv.2 (.inr hasleep) huntimed hfresh
  rw [hnone i] at hi
  cases hi

/-- The task waits, and has looked for signals. -/
def lookRun (onSighand : Bool) : List (WaitStep (Fin 1)) :=
  [.lock onSighand, .waitFor false false, .check, .read]

/-- It publishes the condition. -/
def publishRun : List (WaitStep (Fin 1)) := [.publishLock, .publish]

/-- A signal is delivered to it. -/
def signalRun : List (WaitStep (Fin 1)) :=
  [.sendLock 0 sigusr1, .sendSet 0, .sendUnlock 0, .sendCondLock 0, .sendNotify 0, .sendRelock 0]

/-- A signal that is set after the look, while its broadcast comes after the sleep. -/
def earlySleep : List (WaitStep (Fin 1)) :=
  lookRun false ++ [.sendLock 0 sigusr1, .sendSet 0, .sendUnlock 0] ++ publishRun ++ [.sleep]

instance (s : Wait σ) (a : WaitStep σ) : Decidable (s.Careful a) := by
  cases a <;> unfold Wait.Careful <;> infer_instance

theorem earlySleep_isSome : (earlySleep.foldlM (fun s a => if Wait.Careful s a then s.step a else none)
    (waitInit (Fin 1))).isSome := by
  decide

/-- The state in which it sleeps. -/
def afterEarlySleep : Wait (Fin 1) := Option.get _ earlySleep_isSome

/-- The task sleeps with a signal that came after its look, and its sender has yet to broadcast. -/
theorem wait_for_signal_sleep : afterEarlySleep.pc = .asleep ∧ has afterEarlySleep.fresh sigusr1 = true ∧
    ¬afterEarlySleep.Lost :=
  ⟨by decide, by decide, wait_for_signal (.of_guarded (some_get earlySleep_isSome).symm)⟩

/-- On another lock a signal comes between the look and the sleep. -/
def lateSleep : List (WaitStep (Fin 1)) := lookRun false ++ signalRun ++ publishRun ++ [.sleep]

theorem lateSleep_isSome : (lateSleep.foldlM Wait.step (waitInit (Fin 1))).isSome := by
  decide

/-- The state in which it sleeps. -/
def afterLateSleep : Wait (Fin 1) := Option.get _ lateSleep_isSome

/-- The task sleeps, and the signal was delivered after its look; its sender has nothing left to do. -/
theorem wait_for_lost_signal : Run Wait.step anyStep (waitInit (Fin 1)) afterLateSleep ∧ afterLateSleep.Lost :=
  ⟨Run.of_foldlM (fun _ _ _ => trivial) (some_get lateSleep_isSome).symm,
    by decide, by decide,
    ⟨sigusr1, by decide, by decide, by decide⟩, by decide⟩

end Ish.Signals
