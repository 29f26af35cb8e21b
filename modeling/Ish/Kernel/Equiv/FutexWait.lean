import Ish.Kernel.FutexWait
import Ish.Kernel.Equiv.Futex

/-!
# A wake-up that is counted is delivered, or not

A wake counts the threads that it takes off a queue and leaves a byte in the pipe of each. A thread
that is in `poll`, or can only get there, finds the byte and returns 0 (`Delivered`, kept by every
step up to its return). One that has left `poll` for another reason may be counted and report that
reason. So what matters is where the threads are when they are woken (`Waits.Attends`): every wake-up that
is counted is delivered exactly if they are all there (`wake_delivered`).
-/

namespace Ish.Futexes

open Lib List Option
open Function (update update_apply update_of_ne update_self)

variable {τ : Type} [DecidableEq τ]

/-! ### Who waits -/

variable {a : Spec τ}

omit [DecidableEq τ] in
theorem Rep.on_eq_none_iff {held : Nat → Nat} {s : State τ} (h : Rep held s a) (t : τ) :
    a.on t = none ↔ s.wait t = none := by
  rw [h.on t]
  cases hwait : s.wait t with
  | none => simp
  | some id =>
    have hkey : s.keyAt id ≠ none := fun hnone => (h.dead id hnone).1 t hwait
    simpa using hkey

theorem Spec.Ok.on_requeue {k k2 : Key} {n : Nat} (h : a.Ok) (t : τ) :
    (Spec.requeue k k2 n a).2.on t = none ↔ a.on t = none := by
  induction n generalizing a with
  | zero => rfl
  | succ n ih =>
    unfold Spec.requeue
    cases hqueue : a.queue k with
    | nil => rfl
    | cons w rest =>
      have hon : ((a.leave w).enqueue k2 w).on t = none ↔ a.on t = none := by
        have hw : a.on w = some k := h.on k w (by rw [hqueue]; exact mem_cons_self)
        rw [Spec.on_enqueue, Spec.on_leave]
        by_cases htw : t = w
        · simp [htw, hw]
        · simp [htw]
      dsimp only
      split_ifs
      · exact hon
      · exact (ih (h.move k2 w)).trans hon

variable {act : Act τ}

theorem Spec.Ok.on_wakes (h : a.Ok) (hact : act.wakes) (t : τ) : (a.perform act).1.on t = none ↔ a.on t = none := by
  cases act with
  | waitEnter => cases hact
  | waitLeave => cases hact
  | wakelike k wakeMax target =>
    cases target with
    | none => rfl
    | some target => exact (h.wake k wakeMax).on_requeue t
  | cmpRequeue k wakeMax requeueMax k2 loaded expected =>
    unfold Spec.perform
    cases loaded with
    | none => rfl
    | some x =>
      dsimp only
      split_ifs
      · rfl
      · exact (h.wake k wakeMax).on_requeue t
  | wakeOp k max1 k2 max2 cmpTrue =>
    unfold Spec.perform
    cases cmpTrue <;> rfl

omit [DecidableEq τ] in
theorem Act.enabled_of_wakes (hact : act.wakes) (s : State τ) : s.Enabled act := by
  cases act with
  | waitEnter => cases hact
  | waitLeave => cases hact
  | _ => trivial

theorem Spec.Ok.on_of_woken (h : a.Ok) {t : τ} (ht : t ∈ (a.perform act).2.1) : a.on t ≠ none := by
  have hqueue : ∀ {k : Key} {n : Nat}, t ∈ (a.queue k).take n → a.on t ≠ none := by
    intro k n hmem
    rw [h.on k t (mem_of_mem_take hmem)]
    simp
  cases act with
  | waitEnter u k loaded val pipe =>
    unfold Spec.perform at ht
    cases loaded with
    | none => cases ht
    | some x =>
      dsimp only at ht
      split_ifs at ht <;> cases ht
  | waitLeave => cases ht
  | wakelike k wakeMax target => cases target <;> exact hqueue ht
  | cmpRequeue k wakeMax requeueMax k2 loaded expected =>
    unfold Spec.perform at ht
    cases loaded with
    | none => cases ht
    | some x =>
      dsimp only at ht
      split_ifs at ht
      · cases ht
      · exact hqueue ht
  | wakeOp k max1 k2 max2 cmpTrue =>
    unfold Spec.perform at ht
    cases cmpTrue with
    | false => exact hqueue ht
    | true =>
      rcases mem_append.1 ht with hmem | hmem
      · exact hqueue hmem
      · have hwoken := (h.wake k max1).on k2 t (mem_of_mem_take hmem)
        rw [show a.on t = some k2 from hwoken]
        simp

variable {s s' : Waits τ} {t : τ}

section Known

variable [Finite τ]

/-- The table is sound, and the threads in `futex_wait` are those that it knows. -/
def Waits.Known (s : Waits τ) : Prop :=
  ∃ a, Rest s.table a ∧ ∀ t, a.on t = none ↔ s.pc t = .idle

omit [Finite τ] in
theorem pc_update_eq_idle {pc : τ → Pc} {t : τ} {q : Pc} (hpc : pc t ≠ .idle) (hq : q ≠ .idle)
    (u : τ) : update pc t q u = .idle ↔ pc u = .idle := by
  rw [update_apply]
  by_cases hu : u = t
  · simp [hu, hpc, hq]
  · simp [hu]

omit [Finite τ] in
theorem Waits.Known.goto (h : s.Known) {q : Pc} (hpc : s.pc t ≠ .idle) (hq : q ≠ .idle) : (s.goto t q).Known := by
  obtain ⟨a, hrest, hon⟩ := h
  exact ⟨a, hrest, fun u => (hon u).trans (pc_update_eq_idle hpc hq u).symm⟩

theorem Rest.enter_cases {s : State τ} (h : Rest s a) (ht : s.wait t = none) (k : Key)
    (loaded : Option Nat) (val : Nat) (pipe : Bool) : ∃ o, s.waitEnter t k loaded val pipe = some o ∧
      ((o.ret.isSome ∧ Rest o.state a) ∨ (o.ret.isSome = false ∧ Rest o.state (a.enqueue k t))) := by
  obtain ⟨s', hs', hrest⟩ := h.waitEnter ht k loaded val pipe
  refine ⟨_, hs', ?_⟩
  unfold Spec.perform at hrest ⊢
  cases loaded with
  | none => exact .inl ⟨rfl, hrest⟩
  | some x =>
    dsimp only at hrest ⊢
    split_ifs at hrest ⊢
    · exact .inl ⟨rfl, hrest⟩
    · exact .inl ⟨rfl, hrest⟩
    · exact .inr ⟨rfl, hrest⟩

theorem Waits.Known.leave_isSome (h : s.Known) {err : Option WaitErrno}
    (hpc : s.pc t = .done err) : ∃ s', s.leave t = some (s', err) ∧ s'.Known := by
  obtain ⟨a, hrest, hon⟩ := h
  have hwait : s.table.wait t ≠ none := by
    rw [Ne, ← hrest.on_eq_none_iff, hon, hpc]
    simp
  obtain ⟨s₁, hs₁, hrest₁⟩ := hrest.waitLeave hwait
  unfold Waits.leave
  rw [hpc, hs₁]
  refine ⟨_, rfl, a.leave t, hrest₁, fun u => ?_⟩
  show (a.leave t).on u = none ↔ update s.pc t .idle u = .idle
  rw [Spec.on_leave, update_apply]
  by_cases hu : u = t
  · simp [hu]
  · simp [hu, hon]

omit [Finite τ] in
theorem Waits.leave_pc {r : Waits τ × Option WaitErrno} (h : s.leave t = some r) : s.pc t = .done r.2 := by
  unfold Waits.leave at h
  split at h
  · split at h
    · cases h
    · cases h
      assumption
  · cases h

omit [Finite τ] in
theorem Waits.step_arm (h : s.step (.arm t) = some s') : ∃ timeout, s.pc t = .start timeout ∧ s' = s.arm t timeout := by
  simp only [Waits.step] at h
  split at h
  · cases h
    exact ⟨_, by assumption, rfl⟩
  · cases h

omit [Finite τ] in
theorem Waits.step_wake (h : s.step (.wake act) = some s') :
    act.wakes ∧ ∃ o, s.table.perform act = some o ∧ s' = s.wake o := by
  obtain ⟨hact, hmap⟩ := ite_none_right_eq_some.1 h
  obtain ⟨o, ho, heq⟩ := map_eq_some_iff.1 hmap
  exact ⟨hact, o, ho, heq.symm⟩

theorem Waits.Known.step (h : s.Known) {a : WaitAct τ} (hstep : s.step a = some s') : s'.Known := by
  cases a with
  | enter t k loaded val pipe timeout =>
    obtain ⟨hpc, henter⟩ := ite_none_right_eq_some.1 hstep
    obtain ⟨a, hrest, hon⟩ := h
    have hwait : s.table.wait t = none := (hrest.on_eq_none_iff t).1 ((hon t).2 hpc)
    obtain ⟨o, ho, ⟨hret, hrest'⟩ | ⟨hret, hrest'⟩⟩ := hrest.enter_cases hwait k loaded val pipe
    · unfold Waits.enter at henter
      rw [ho] at henter
      simp only [hret, if_true] at henter
      cases henter
      exact ⟨a, hrest', hon⟩
    · unfold Waits.enter at henter
      rw [ho] at henter
      simp only [hret, Bool.false_eq_true, if_false] at henter
      cases henter
      refine ⟨a.enqueue k t, hrest', fun u => ?_⟩
      show (a.enqueue k t).on u = none ↔ update s.pc t (.start timeout) u = .idle
      rw [Spec.on_enqueue, update_apply]
      by_cases hu : u = t
      · simp [hu]
      · simp [hu, hon]
  | arm t =>
    obtain ⟨timeout, hpc, rfl⟩ := Waits.step_arm hstep
    exact h.goto (q := .top) (by simp [hpc]) (by simp)
  | turn t =>
    refine guarded hstep fun hpc => ?_
    unfold Waits.turn
    split_ifs <;> exact h.goto (by simp [hpc]) (by simp)
  | poll t =>
    refine guarded hstep fun hpc => ?_
    unfold Waits.pollReturn
    split_ifs
    · exact h.goto (q := .done none) (by simp [hpc]) (by simp)
    · exact h.goto (by simp [hpc]) (by simp)
  | check t groupExit sigPending loaded =>
    refine guarded hstep fun hpc => ?_
    have hgoto : ∀ q : Pc, q ≠ .idle → (s.goto t q).Known := fun q hq => h.goto (by simp [hpc]) hq
    unfold Waits.check
    split_ifs
    · exact hgoto _ (by simp)
    · exact hgoto _ (by simp)
    · cases loaded with
      | none => exact hgoto _ (by simp)
      | some x =>
        dsimp only
        split_ifs <;> exact hgoto _ (by simp)
  | leave t =>
    obtain ⟨r, hr, rfl⟩ := map_eq_some_iff.1 hstep
    obtain ⟨s₁, hs₁, hknown⟩ := h.leave_isSome (Waits.leave_pc hr)
    obtain rfl : s₁ = r.1 := congrArg Prod.fst (Option.some.inj (hs₁.symm.trans hr))
    exact hknown
  | wake act =>
    obtain ⟨hact, o, ho, rfl⟩ := Waits.step_wake hstep
    obtain ⟨a, hrest, hon⟩ := h
    obtain ⟨s₁, hs₁, hrest'⟩ := hrest.perform (Act.enabled_of_wakes hact s.table)
    obtain rfl := Option.some.inj (hs₁.symm.trans ho)
    exact ⟨_, hrest', fun u => (hrest.ok.on_wakes hact u).trans (hon u)⟩
  | tick ns =>
    cases hstep
    exact h

theorem known_of_run {ok : Waits τ → WaitAct τ → Prop} {now : Int}
    (hrun : Run Waits.step ok (waitsInit τ now) s) : s.Known :=
  hrun.inv Waits.Known (fun _ _ _ h _ hstep => h.step hstep)
    ⟨specInit τ, rep_init, fun _ => by simp [specInit, waitsInit]⟩

end Known

/-! ### What happens to a byte in the pipe -/

/-- The thread is in `poll` or can only get there, and its pipe is readable; or it has ended its loop
with 0. -/
def Waits.Delivered (s : Waits τ) (t : τ) : Prop :=
  ((s.pc t = .start none ∨ s.pc t = .top ∧ s.deadline t = 0 ∨ s.pc t = .poll) ∧ 0 < s.bytes t) ∨
    s.pc t = .done none

/-- A thread that a wake reaches where it is. -/
def Waits.Attends (s : Waits τ) (t : τ) : Prop :=
  s.pc t = .start none ∨ s.pc t = .top ∧ s.deadline t = 0 ∨ s.pc t = .poll ∨ s.pc t = .done none

omit [DecidableEq τ] in
theorem Waits.Delivered.congr (h : s.Delivered t) (hpc : s'.pc t = s.pc t)
    (hdeadline : s'.deadline t = s.deadline t) (hbytes : s.bytes t ≤ s'.bytes t) : s'.Delivered t := by
  unfold Waits.Delivered at h ⊢
  rw [hpc, hdeadline]
  exact h.imp (fun hwait => ⟨hwait.1, hwait.2.trans_le hbytes⟩) id

omit [DecidableEq τ] in
theorem Waits.Delivered.ne_of_pc (h : s.Delivered t) {u : τ} (hpc : s.pc u = .idle ∨ s.pc u = .checks) : t ≠ u := by
  rintro rfl
  unfold Waits.Delivered at h
  rcases hpc with hpc | hpc <;> simp [hpc] at h

theorem Waits.Delivered.goto_of_ne (h : s.Delivered t) {u : τ} (hne : t ≠ u) (q : Pc) : (s.goto u q).Delivered t :=
  h.congr (update_of_ne hne _ _) rfl le_rfl

theorem Waits.Delivered.step (h : s.Delivered t) {a : WaitAct τ} (ha : a ≠ .leave t)
    (hstep : s.step a = some s') : s'.Delivered t := by
  cases a with
  | enter u k loaded val pipe timeout =>
    obtain ⟨hpc, henter⟩ := ite_none_right_eq_some.1 hstep
    have hne : t ≠ u := h.ne_of_pc (.inl hpc)
    unfold Waits.enter at henter
    split at henter
    · cases henter
    · split_ifs at henter
      · cases henter
        exact h.congr rfl rfl le_rfl
      · cases henter
        refine h.congr (update_of_ne hne _ _) rfl ?_
        show s.bytes t ≤ update s.bytes u 0 t
        rw [update_of_ne hne]
  | arm u =>
    obtain ⟨timeout, hpc, rfl⟩ := Waits.step_arm hstep
    by_cases hne : t = u
    · subst hne
      unfold Waits.Delivered at h
      rw [hpc] at h
      obtain ⟨hstart, hbytes⟩ | hdone := h
      · have htimeout : timeout = none := by simpa using hstart
        subst htimeout
        exact .inl ⟨.inr (.inl ⟨update_self .., update_self ..⟩), hbytes⟩
      · cases hdone
    · exact h.congr (update_of_ne hne _ _) (update_of_ne hne _ _) le_rfl
  | turn u =>
    refine guarded hstep fun hpc => ?_
    by_cases hne : t = u
    · subst hne
      unfold Waits.Delivered at h
      rw [hpc] at h
      obtain ⟨htop, hbytes⟩ | hdone := h
      · have hdeadline : s.deadline t = 0 := by simpa using htop
        unfold Waits.turn
        rw [if_neg (by simp [hdeadline])]
        exact .inl ⟨.inr (.inr (update_self ..)), hbytes⟩
      · cases hdone
    · unfold Waits.turn
      split_ifs <;> exact h.goto_of_ne hne _
  | poll u =>
    refine guarded hstep fun hpc => ?_
    by_cases hne : t = u
    · subst hne
      unfold Waits.Delivered at h
      rw [hpc] at h
      obtain ⟨-, hbytes⟩ | hdone := h
      · -- this is where the wake-up is seen
        unfold Waits.pollReturn
        rw [if_pos hbytes]
        exact .inr (update_self ..)
      · cases hdone
    · unfold Waits.pollReturn
      split_ifs
      · refine (h.goto_of_ne hne (.done none)).congr rfl rfl ?_
        show s.bytes t ≤ update s.bytes u 0 t
        rw [update_of_ne hne]
      · exact h.goto_of_ne hne _
  | check u groupExit sigPending loaded =>
    refine guarded hstep fun hpc => ?_
    have hne : t ≠ u := h.ne_of_pc (.inr hpc)
    unfold Waits.check
    split_ifs
    · exact h.goto_of_ne hne _
    · exact h.goto_of_ne hne _
    · cases loaded with
      | none => exact h.goto_of_ne hne _
      | some x =>
        dsimp only
        split_ifs <;> exact h.goto_of_ne hne _
  | leave u =>
    have hne : t ≠ u := fun heq => ha (by rw [heq])
    obtain ⟨r, hr, rfl⟩ := map_eq_some_iff.1 hstep
    unfold Waits.leave at hr
    split at hr
    · split at hr
      · cases hr
      · cases hr
        exact (h.goto_of_ne hne .idle).congr rfl rfl le_rfl
    · cases hr
  | wake act =>
    obtain ⟨-, o, -, rfl⟩ := Waits.step_wake hstep
    refine h.congr rfl rfl ?_
    show s.bytes t ≤ if t ∈ o.woken then s.bytes t + 1 else s.bytes t
    split_ifs <;> omega
  | tick ns =>
    cases hstep
    exact h.congr rfl rfl le_rfl

theorem Waits.Attends.wake (h : s.Attends t) {o : Outcome τ} (ht : t ∈ o.woken) : (s.wake o).Delivered t := by
  have hbytes : 0 < (s.wake o).bytes t := by
    show 0 < if t ∈ o.woken then s.bytes t + 1 else s.bytes t
    rw [if_pos ht]
    omega
  obtain hstart | htop | hpoll | hdone := h
  · exact .inl ⟨.inl hstart, hbytes⟩
  · exact .inl ⟨.inr (.inl htop), hbytes⟩
  · exact .inl ⟨.inr (.inr hpoll), hbytes⟩
  · exact .inr hdone

/-- A wake takes only threads off a queue that it reaches where they are. -/
def Waits.Reaches (s : Waits τ) : WaitAct τ → Prop
  | .wake act => ∀ o, s.table.perform act = some o → ∀ t ∈ o.woken, s.Attends t
  | _ => True

/-- What is counted is delivered. -/
theorem counted_step (hdelivered : ∀ t, s.counted t = true → s.Delivered t) {a : WaitAct τ}
    (hreach : s.Reaches a) (hstep : s.step a = some s') (hcounted : s'.counted t = true) : s'.Delivered t := by
  -- a thread that was counted before is delivered as before, unless it leaves
  have hold : a ≠ .leave t → s.counted t = true → s'.Delivered t := fun ha hc =>
    (hdelivered t hc).step ha hstep
  cases a with
  | enter u k loaded val pipe timeout =>
    obtain ⟨hpc, henter⟩ := ite_none_right_eq_some.1 hstep
    unfold Waits.enter at henter
    split at henter
    · cases henter
    · split_ifs at henter
      · cases henter
        exact hold (by simp) hcounted
      · cases henter
        have hc : update s.counted u false t = true := hcounted
        by_cases hu : t = u
        · rw [hu, update_self] at hc
          cases hc
        · rw [update_of_ne hu] at hc
          exact hold (by simp) hc
  | arm u =>
    obtain ⟨timeout, -, rfl⟩ := Waits.step_arm hstep
    exact hold (by simp) hcounted
  | turn u =>
    obtain ⟨-, hs'⟩ := ite_none_right_eq_some.1 hstep
    refine hold (by simp) ?_
    cases hs'
    unfold Waits.turn at hcounted
    split_ifs at hcounted <;> exact hcounted
  | poll u =>
    obtain ⟨-, hs'⟩ := ite_none_right_eq_some.1 hstep
    refine hold (by simp) ?_
    cases hs'
    unfold Waits.pollReturn at hcounted
    split_ifs at hcounted <;> exact hcounted
  | check u groupExit sigPending loaded =>
    obtain ⟨-, hs'⟩ := ite_none_right_eq_some.1 hstep
    refine hold (by simp) ?_
    cases hs'
    unfold Waits.check at hcounted
    split_ifs at hcounted
    · exact hcounted
    · exact hcounted
    · cases loaded with
      | none => exact hcounted
      | some x =>
        dsimp only at hcounted
        split_ifs at hcounted <;> exact hcounted
  | leave u =>
    obtain ⟨r, hr, rfl⟩ := map_eq_some_iff.1 hstep
    unfold Waits.leave at hr
    split at hr
    · split at hr
      · cases hr
      · cases hr
        have hc : update s.counted u false t = true := hcounted
        by_cases hu : t = u
        · rw [hu, update_self] at hc
          cases hc
        · rw [update_of_ne hu] at hc
          exact hold (by simpa using Ne.symm hu) hc
    · cases hr
  | wake act =>
    obtain ⟨-, o, ho, rfl⟩ := Waits.step_wake hstep
    by_cases ht : t ∈ o.woken
    · exact (hreach o ho t ht).wake ht
    · refine hold (by simp) ?_
      have hc : (s.counted t || decide (t ∈ o.woken)) = true := hcounted
      simpa [ht] using hc
  | tick ns =>
    cases hstep
    exact hold (by simp) hcounted

/-- From where the thread is now it can return an error. -/
def Waits.MayFail (s : Waits τ) (t : τ) : Prop :=
  ∃ s₁ s₂ err, Run Waits.step (fun _ a => a ≠ .leave t) s s₁ ∧ s₁.leave t = some (s₂, some err)

/-- The steps that follow lead to an error. -/
theorem Waits.MayFail.of_step {a : WaitAct τ} (ha : a ≠ .leave t) (hstep : s.step a = some s')
    (h : s'.MayFail t) : s.MayFail t := by
  obtain ⟨s₁, s₂, err, hrun, hleave⟩ := h
  exact ⟨s₁, s₂, err, (Run.single a ha hstep).trans hrun, hleave⟩

variable [Finite τ]

theorem Waits.Known.mayFail_done (h : s.Known) {err : WaitErrno} (hpc : s.pc t = .done (some err)) : s.MayFail t := by
  obtain ⟨s', hleave, -⟩ := h.leave_isSome hpc
  exact ⟨s, s', err, .refl s, hleave⟩

theorem Waits.Known.mayFail_late (h : s.Known) (hpc : s.pc t = .top) (hdeadline : s.deadline t ≠ 0)
    (hlate : (s.deadline t - s.now).tdiv 1000000 ≤ 0) : s.MayFail t := by
  have hturn : s.turn t = s.goto t (.done (some .etimedout)) := if_pos ⟨hdeadline, hlate⟩
  have hstep : s.step (.turn t) = some (s.goto t (.done (some .etimedout))) := by
    rw [← hturn]
    exact if_pos hpc
  exact .of_step (by simp) hstep
    ((h.goto (by simp [hpc]) (by simp)).mayFail_done (update_self ..))

theorem Waits.Known.mayFail_top (h : s.Known) (hpc : s.pc t = .top) (hdeadline : s.deadline t ≠ 0) : s.MayFail t := by
  -- so much time goes by
  have htick : s.step (.tick (s.deadline t - s.now).toNat) =
      some { s with now := s.now + (s.deadline t - s.now).toNat } := rfl
  refine .of_step (by simp) htick ((h.step htick).mayFail_late hpc hdeadline ?_)
  have hnonneg : 0 ≤ -(s.deadline t - (s.now + (s.deadline t - s.now).toNat)) := by omega
  have hneg := Int.tdiv_nonneg hnonneg (show (0 : Int) ≤ 1000000 by decide)
  rw [Int.neg_tdiv] at hneg
  show (s.deadline t - (s.now + (s.deadline t - s.now).toNat)).tdiv 1000000 ≤ 0
  omega

theorem Waits.Known.mayFail_start (h : s.Known) {d : Int} (hpc : s.pc t = .start (some d)) : s.MayFail t := by
  have harm : ∀ s : Waits τ, s.pc t = .start (some d) →
      s.step (.arm t) = some (s.arm t (some d)) := by
    intro s hpc
    simp only [Waits.step, hpc]
  by_cases hzero : s.now + d = 0
  · -- a deadline of 0 would not count, so the clock ticks before it is set
    have htick : s.step (.tick 1) = some { s with now := s.now + (1 : Nat) } := rfl
    have hstep := harm { s with now := s.now + (1 : Nat) } hpc
    refine .of_step (by simp) htick (.of_step (by simp) hstep ?_)
    refine ((h.step htick).step hstep).mayFail_top (update_self ..) ?_
    show update s.deadline t (s.now + (1 : Nat) + d) t ≠ 0
    rw [update_self]
    omega
  · refine .of_step (by simp) (harm s hpc) ?_
    refine (h.step (harm s hpc)).mayFail_top (update_self ..) ?_
    show update s.deadline t (s.now + d) t ≠ 0
    rw [update_self]
    exact hzero

theorem Waits.Known.mayFail_checks (h : s.Known) (hpc : s.pc t = .checks) : s.MayFail t := by
  have hstep : s.step (.check t true false none) = some (s.goto t (.done (some .eintr))) :=
    if_pos hpc
  exact .of_step (by simp) hstep
    ((h.goto (by simp [hpc]) (by simp)).mayFail_done (update_self ..))

theorem Waits.Known.mayFail (h : s.Known) (hpc : s.pc t ≠ .idle) (hnot : ¬s.Attends t) : s.MayFail t := by
  simp only [Waits.Attends, not_or, not_and] at hnot
  obtain ⟨hstart, htop, hpoll, hdone⟩ := hnot
  cases hq : s.pc t with
  | idle => exact absurd hq hpc
  | start timeout =>
    cases timeout with
    | none => exact absurd hq hstart
    | some d => exact h.mayFail_start hq
  | top => exact h.mayFail_top hq (htop hq)
  | poll => exact absurd hq hpoll
  | checks => exact h.mayFail_checks hq
  | done err =>
    cases err with
    | none => exact absurd hq hdone
    | some err => exact h.mayFail_done hq

/-- **Counted wake-ups.**  In every run whose wakes reach the threads that they take off a queue, a
thread that is counted returns 0; and whatever the run, a thread that is taken off a queue returns 0
whatever happens then if and only if the wake reaches it where it is. -/
theorem wake_delivered (now : Int) : (∀ (s s' : Waits τ) (t : τ) (err : Option WaitErrno),
      Run Waits.step Waits.Reaches (waitsInit τ now) s → s.counted t = true → s.leave t = some (s', err) → err = none) ∧
    ∀ (s s₁ : Waits τ) (act : Act τ) (o : Outcome τ), Run Waits.step anyStep (waitsInit τ now) s →
      s.table.perform act = some o → s.step (.wake act) = some s₁ → ∀ t ∈ o.woken,
      ((∀ s₂ s₃ err, Run Waits.step (fun _ a => a ≠ .leave t) s₁ s₂ →
        s₂.leave t = some (s₃, err) → err = none) ↔ s.Attends t) := by
  refine ⟨fun s s' t err hrun hcounted hleave => ?_, fun s s₁ act o hrun ho hstep t ht => ?_⟩
  · have hdelivered : ∀ t, s.counted t = true → s.Delivered t :=
      hrun.inv (fun s => ∀ t, s.counted t = true → s.Delivered t)
        (fun _ _ _ h hreach hstep _ hc => counted_step h hreach hstep hc) fun _ hc => by cases hc
    have hpc := Waits.leave_pc hleave
    have hafter := hdelivered t hcounted
    unfold Waits.Delivered at hafter
    rw [hpc] at hafter
    simpa using hafter
  · obtain ⟨hact, o', ho', rfl⟩ := Waits.step_wake hstep
    obtain rfl : o' = o := Option.some.inj (ho'.symm.trans ho)
    have hknown := known_of_run hrun
    constructor
    · intro hreturns
      by_contra hnot
      obtain ⟨a, hrest, hon⟩ := hknown
      have hwaits : s.pc t ≠ .idle := by
        obtain ⟨s', hs', -⟩ := hrest.perform (Act.enabled_of_wakes hact s.table)
        obtain rfl := Option.some.inj (hs'.symm.trans ho)
        rw [Ne, ← hon t]
        exact hrest.ok.on_of_woken ht
      have hfail := (known_of_run (.tail (.wake act) hrun trivial hstep)).mayFail
        (s := s.wake o') (t := t) hwaits hnot
      obtain ⟨s₂, s₃, err, hrun₂, hleave⟩ := hfail
      cases hreturns s₂ s₃ (some err) hrun₂ hleave
    · intro hattends s₂ s₃ err hrun₂ hleave
      have hdelivered := hrun₂.inv (fun s => s.Delivered t)
        (fun _ _ _ h ha hstep => h.step ha hstep) (hattends.wake ht)
      have hpc := Waits.leave_pc hleave
      unfold Waits.Delivered at hdelivered
      rw [hpc] at hdelivered
      simpa using hdelivered

local instance twoWaiters : NeZero 2 := ⟨by decide⟩

/-- One thread waits for at most a second, and is in `poll`. -/
def pollRun : List (WaitAct (Fin 2)) :=
  [.enter 0 ⟨1, 4096⟩ (some 7) 7 true (some 1000000000), .arm 0, .turn 0]

/-- It is woken there and returns. -/
def pollWake : Act (Fin 2) := .wakelike ⟨1, 4096⟩ 1 none

theorem pollRun_isSome : (pollRun.foldlM Waits.step (waitsInit (Fin 2) 5)).isSome := by
  decide

def afterPollRun : Waits (Fin 2) := Option.get _ pollRun_isSome

theorem pollWake_isSome : (afterPollRun.table.perform pollWake).isSome := by decide

theorem pollLeave_isSome : (((afterPollRun.step (.wake pollWake)).bind fun s => s.step (.poll 0)).bind
      fun s => s.leave 0).isSome := by
  decide

/-- The wake counts the thread, which returns 0. -/
theorem wake_delivered_pollRun :
    ∃ s₁ s₂ s₃ err, afterPollRun.step (.wake pollWake) = some s₁ ∧ s₁.step (.poll 0) = some s₂ ∧
      s₂.leave 0 = some (s₃, err) ∧ s₂.counted 0 = true ∧ err = none ∧
      ∀ s₂ s₃ err, Run Waits.step (fun _ a => a ≠ .leave 0) s₁ s₂ → s₂.leave 0 = some (s₃, err) → err = none := by
  obtain ⟨⟨s₃, err⟩, hleave⟩ := isSome_iff_exists.1 pollLeave_isSome
  obtain ⟨s₂, hpoll, hleave⟩ := bind_eq_some_iff.1 hleave
  obtain ⟨s₁, hwake, hpoll⟩ := bind_eq_some_iff.1 hpoll
  obtain ⟨o, ho⟩ := isSome_iff_exists.1 pollWake_isSome
  have hpc : afterPollRun.pc 0 = .poll := by decide
  have hwoken : o.woken = [0] := by
    have hmap : (afterPollRun.table.perform pollWake).map Outcome.woken = some [0] := by
      decide
    rw [ho] at hmap
    exact Option.some.inj hmap
  have hmem : (0 : Fin 2) ∈ o.woken := by rw [hwoken]; exact mem_cons_self
  have hattends : afterPollRun.Attends 0 := .inr (.inr (.inl hpc))
  have hreach : afterPollRun.Reaches (.wake pollWake) := by
    intro o' ho' t ht
    obtain rfl : o' = o := Option.some.inj (ho'.symm.trans ho)
    rw [hwoken, mem_singleton] at ht
    exact ht ▸ hattends
  have hbefore : ∀ {ok : Waits (Fin 2) → WaitAct (Fin 2) → Prop}, (∀ a ∈ pollRun, ∀ s, ok s a) →
      Run Waits.step ok (waitsInit (Fin 2) 5) afterPollRun :=
    fun hok => Run.of_foldlM hok (some_get pollRun_isSome).symm
  have hrun : Run Waits.step Waits.Reaches (waitsInit (Fin 2) 5) s₂ := by
    refine .tail (.poll 0) (.tail (.wake pollWake) (hbefore ?_) hreach hwake) trivial hpoll
    intro a ha s
    simp only [pollRun, mem_cons, not_mem_nil, or_false] at ha
    rcases ha with rfl | rfl | rfl <;> trivial
  have hcounted : s₂.counted 0 = true := by
    have hmap : ((afterPollRun.step (.wake pollWake)).bind fun s => s.step (.poll 0)).map
        (fun s => s.counted 0) = some true := by decide
    rw [hwake, bind_some, hpoll] at hmap
    exact Option.some.inj hmap
  exact ⟨s₁, s₂, s₃, err, hwake, hpoll, hleave, hcounted, (wake_delivered 5).1 s₂ s₃ 0 err hrun hcounted hleave,
    ((wake_delivered 5).2 afterPollRun s₁ pollWake o (hbefore fun _ _ _ => trivial) ho hwake 0
      hmem).2 hattends⟩

/-- The time of a thread is over, and it is woken before it has the lock again. -/
def lateRun : List (WaitAct (Fin 2)) :=
  [.enter 0 ⟨1, 4096⟩ (some 7) 7 true (some 0), .arm 0, .turn 0, .wake (.wakelike ⟨1, 4096⟩ 1 none)]

theorem lateRun_isSome : (lateRun.foldlM Waits.step (waitsInit (Fin 2) 5)).isSome := by
  decide

def afterLateRun : Waits (Fin 2) := Option.get _ lateRun_isSome

/-- The wake has counted it, and it reports that its time was over. -/
theorem wake_lost_lateRun : Run Waits.step anyStep (waitsInit (Fin 2) 5) afterLateRun ∧ afterLateRun.counted 0 = true ∧
      (afterLateRun.leave 0).map Prod.snd = some (some .etimedout) :=
  ⟨Run.of_foldlM (fun _ _ _ => trivial) (some_get lateRun_isSome).symm,
    by decide, by decide⟩

end Ish.Futexes
