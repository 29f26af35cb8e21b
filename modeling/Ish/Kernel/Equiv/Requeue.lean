import Ish.Kernel.Equiv.Futex

/-!
# How far a requeue goes

The requeue loop moves each waiter once if the two addresses differ. If they are the same, every thread that is
moved joins the queue that the loop walks, and with two or more threads in it the loop only ends when it has made
`requeue_max` moves (`futex_requeue_bounded_iff`). No waiter is lost or on two queues in either case.
-/

namespace Ish.Futexes

open Lib

variable {τ : Type} [DecidableEq τ]

/-! ### The loop -/

omit [DecidableEq τ] in
theorem Spec.wake_self (a : Spec τ) (k : Key) (n : Nat) : (a.wake k n).queue k = (a.queue k).drop n :=
  Function.update_self _ _ _

theorem Spec.requeue_clock (k k2 : Key) (max : Nat) (a : Spec τ) :
    (Spec.requeue k k2 max a).2.clock = a.clock + (Spec.requeue k k2 max a).1 := by
  induction max generalizing a with
  | zero => rfl
  | succ max ih =>
    unfold Spec.requeue
    cases a.queue k with
    | nil => rfl
    | cons w rest =>
      dsimp only
      split_ifs
      · rfl
      · have hmoved := ih ((a.leave w).enqueue k2 w)
        have htick : ((a.leave w).enqueue k2 w).clock = a.clock + 1 := rfl
        dsimp only
        omega

theorem Spec.requeue_queued (k k2 : Key) (max : Nat) {a : Spec τ} {t : τ} (ht : ∃ k', t ∈ a.queue k') :
    ∃ k', t ∈ (Spec.requeue k k2 max a).2.queue k' := by
  induction max generalizing a with
  | zero => exact ht
  | succ max ih =>
    have hmove : ∀ w, ∃ k', t ∈ ((a.leave w).enqueue k2 w).queue k' := by
      intro w
      by_cases hw : t = w
      · exact ⟨k2, Spec.mem_enqueue.2 (.inr ⟨hw, rfl⟩)⟩
      · obtain ⟨k', hk'⟩ := ht
        exact ⟨k', Spec.mem_enqueue.2 (.inl ((List.mem_erase_of_ne hw).2 hk'))⟩
    unfold Spec.requeue
    cases a.queue k with
    | nil => exact ht
    | cons w rest =>
      dsimp only
      split_ifs
      · exact hmove w
      · exact ih (hmove w)

theorem Spec.requeue_self (k : Key) (max : Nat) {a : Spec τ} (hlong : 2 ≤ (a.queue k).length) :
    (Spec.requeue k k max a).1 = max := by
  induction max generalizing a with
  | zero => rfl
  | succ max ih =>
    unfold Spec.requeue
    cases hq : a.queue k with
    | nil =>
      rw [hq] at hlong
      cases hlong
    | cons w rest =>
      have hrest : 0 < rest.length := by
        rw [hq, List.length_cons] at hlong
        omega
      have hqueue : ((a.leave w).enqueue k w).queue k = rest ++ [w] := by
        simp [Spec.leave, Spec.enqueue, hq]
      have hlong' : 2 ≤ (((a.leave w).enqueue k w).queue k).length := by
        rw [hqueue, List.length_append, List.length_singleton]
        omega
      dsimp only
      rw [if_neg (by simpa using List.length_pos_iff.1 hrest)]
      exact congrArg (· + 1) (ih hlong')

theorem Spec.requeue_short (k k2 : Key) (max : Nat) {a : Spec τ} (hshort : (a.queue k).length ≤ 1) :
    (Spec.requeue k k2 max a).1 ≤ (a.queue k).length := by
  cases max with
  | zero => exact Nat.zero_le _
  | succ max =>
    unfold Spec.requeue
    cases hq : a.queue k with
    | nil => exact Nat.zero_le _
    | cons w rest =>
      rw [hq, List.length_cons] at hshort
      obtain rfl : rest = [] := List.length_eq_zero_iff.1 (by omega)
      exact Nat.le_refl 1

theorem Spec.requeue_le_iff (k k2 : Key) (max : Nat) {a : Spec τ} (h : a.Ok) :
    (Spec.requeue k k2 max a).1 ≤ (a.queue k).length ↔
      (k = k2 → (a.queue k).length ≤ 1 ∨ max ≤ (a.queue k).length) := by
  by_cases hk : k = k2
  · subst hk
    by_cases hshort : (a.queue k).length ≤ 1
    · exact ⟨fun _ _ => .inl hshort, fun _ => Spec.requeue_short k k max hshort⟩
    · rw [Spec.requeue_self k max (by omega)]
      exact ⟨fun hle _ => .inr hle, fun hle => (hle rfl).resolve_left hshort⟩
  · rw [(Spec.requeue_of_ne hk max h).1]
    exact ⟨fun _ heq => absurd heq hk, fun _ => Nat.min_le_right _ _⟩

/-! ### The calls -/

/-- `FUTEX_REQUEUE_`, or `FUTEX_CMP_REQUEUE_` with the value that is found and the one that is expected. -/
def requeueAct (k : Key) (wakeMax requeueMax : Nat) (k2 : Key) : Option (Option Nat × Nat) → Act τ
  | none => .wakelike k wakeMax (some (requeueMax, k2))
  | some (loaded, expected) => .cmpRequeue k wakeMax requeueMax k2 loaded expected

/-- The call gets as far as the queues. -/
def Passes (cmp : Option (Option Nat × Nat)) : Prop := ∀ p ∈ cmp, p.1 = some p.2

/-- The call makes no more moves than there are waiters, and returns no larger number; who is not woken is on one
queue. -/
def RequeueOk (s : State τ) (k : Key) (act : Act τ) : Prop :=
  ∃ o, s.perform act = some o ∧ o.state.clock - s.clock ≤ (s.queueAt k).length ∧
    (∀ n, o.ret = some (.ok n) → n ≤ (s.queueAt k).length) ∧
    ∀ k', ∀ t ∈ s.queueAt k', t ∉ o.woken → ∃ k₁, t ∈ o.state.queueAt k₁ ∧ (o.state.queueAt k₁).Nodup ∧
      ∀ k₂, t ∈ o.state.queueAt k₂ → k₂ = k₁

section

variable [Finite τ] {s : State τ} {a : Spec τ}

/-- The call does to the queues what the loop does. -/
theorem Rest.requeueAct (h : Rest s a) (k : Key) (wakeMax requeueMax : Nat) (k2 : Key)
    {cmp : Option (Option Nat × Nat)} (hcmp : Passes cmp) :
    Does (s.perform (Futexes.requeueAct k wakeMax requeueMax k2 cmp))
      ((Spec.requeue k k2 requeueMax (a.wake k wakeMax)).2, (a.queue k).take wakeMax,
        some (.ok (((a.queue k).take wakeMax).length + (Spec.requeue k k2 requeueMax (a.wake k wakeMax)).1))) := by
  match cmp with
  | none => exact h.wakelike k wakeMax (some (requeueMax, k2))
  | some (loaded, expected) =>
    obtain rfl : loaded = some expected := hcmp _ rfl
    have hdoes := h.cmpRequeue k wakeMax requeueMax k2 (some expected) expected
    simp only [Spec.perform, ne_eq, not_true_eq_false, if_false] at hdoes
    exact hdoes

theorem Rest.requeueAct_refused (h : Rest s a) (k : Key) (wakeMax requeueMax : Nat) (k2 : Key)
    {cmp : Option (Option Nat × Nat)} (hcmp : ¬Passes cmp) :
    ∃ e, Does (s.perform (Futexes.requeueAct k wakeMax requeueMax k2 cmp)) (a, [], some (.error e)) := by
  match cmp with
  | none => exact absurd nofun hcmp
  | some (loaded, expected) =>
    have hdoes := h.cmpRequeue k wakeMax requeueMax k2 loaded expected
    cases loaded with
    | none => exact ⟨.efault, hdoes⟩
    | some x =>
      have hne : x ≠ expected := by
        rintro rfl
        exact hcmp (by rintro _ ⟨⟩; rfl)
      simp only [Spec.perform, if_pos hne] at hdoes
      exact ⟨.eagain, hdoes⟩

omit [DecidableEq τ] [Finite τ] in
theorem Rep.on_one {held : Nat → Nat} (h : Rep held s a) {k : Key} {t : τ} (ht : t ∈ a.queue k) :
    t ∈ s.queueAt k ∧ (s.queueAt k).Nodup ∧ ∀ k', t ∈ s.queueAt k' → k' = k := by
  rw [h.queueAt_eq]
  exact ⟨ht, h.ok.nodup k, fun k' hk' => Option.some.inj ((h.ok.on k' t hk').symm.trans (h.ok.on k t ht))⟩

/-- **A requeue is bounded** if and only if the addresses differ, or there are not two threads left to move, or it
may not move more than are left. -/
theorem futex_requeue_bounded_iff (hs : Run State.step State.Enabled (init τ) s) (k : Key)
    (wakeMax requeueMax : Nat) (k2 : Key) (cmp : Option (Option Nat × Nat)) :
    RequeueOk s k (requeueAct k wakeMax requeueMax k2 cmp) ↔ (Passes cmp → k = k2 → (s.queueAt k).length - wakeMax ≤ 1 ∨
        requeueMax ≤ (s.queueAt k).length - wakeMax) := by
  obtain ⟨a, hrest⟩ := rest_of_run hs
  rw [RequeueOk, hrest.queueAt_eq]
  by_cases hcmp : Passes cmp
  · obtain ⟨s', hs', hrest'⟩ := hrest.requeueAct k wakeMax requeueMax k2 hcmp
    rw [hs', forall_prop_of_true hcmp]
    have hok := hrest.ok.wake k wakeMax
    have hqueue := a.wake_self k wakeMax
    have hiff := Spec.requeue_le_iff k k2 requeueMax hok
    rw [hqueue, List.length_drop] at hiff
    rw [← hiff]
    have hclock : s'.clock = s.clock + (Spec.requeue k k2 requeueMax (a.wake k wakeMax)).1 := by
      rw [← hrest'.clock, Spec.requeue_clock, ← hrest.clock]
      rfl
    constructor
    · rintro ⟨_, ⟨⟩, -, hret, -⟩
      have hle := hret _ rfl
      rw [List.length_take] at hle
      omega
    · intro hle
      refine ⟨_, rfl, ?_, ?_, fun k' t ht hwoken => ?_⟩
      · change s'.clock - s.clock ≤ _
        omega
      · rintro n ⟨⟩
        rw [List.length_take]
        omega
      · have hqueued : ∃ k', t ∈ (a.wake k wakeMax).queue k' := by
          refine ⟨k', ?_⟩
          by_cases hk : k' = k
          · subst hk
            rw [hqueue]
            rw [← List.take_append_drop wakeMax (a.queue k')] at ht
            exact (List.mem_append.1 ht).resolve_left hwoken
          · have hother : (a.wake k wakeMax).queue k' = a.queue k' := Function.update_of_ne hk _ _
            rwa [hother]
        obtain ⟨k₁, hk₁⟩ := Spec.requeue_queued k k2 requeueMax hqueued
        exact ⟨k₁, hrest'.on_one hk₁⟩
  · obtain ⟨e, s', hs', hrest'⟩ := hrest.requeueAct_refused k wakeMax requeueMax k2 hcmp
    refine ⟨fun _ hpasses => absurd hpasses hcmp, fun _ => ⟨_, hs', ?_, nofun, fun k' t ht _ => ?_⟩⟩
    · change s'.clock - s.clock ≤ _
      rw [← hrest'.clock, ← hrest.clock, Nat.sub_self]
      exact Nat.zero_le _
    · exact ⟨k', hrest'.on_one ht⟩

end

/-- Two threads are on the queue; one is woken and the other moved to another address. -/
theorem futex_requeue_bounded_queueRun : afterQueueRun.queueAt ⟨1, 4096⟩ = [1, 2] ∧
      RequeueOk afterQueueRun ⟨1, 4096⟩ (requeueAct ⟨1, 4096⟩ 1 5 ⟨1, 8192⟩ none) :=
  ⟨by decide, (futex_requeue_bounded_iff (Run.of_guarded (Option.some_get queueRun_isSome).symm) _ 1 5 _ none).2
    fun _ heq => absurd heq (by decide)⟩

/-- If both are moved to the address they are at, a thousand times at most, then a thousand moves are made and
counted. -/
theorem requeue_goes_round :
    (afterQueueRun.perform (requeueAct ⟨1, 4096⟩ 0 1000 ⟨1, 4096⟩ none)).map (·.ret) = some (some (.ok 1000)) := by
  have hrun : Run State.step State.Enabled (init (Fin 3)) afterQueueRun :=
    Run.of_guarded (Option.some_get queueRun_isSome).symm
  obtain ⟨a, hrest⟩ := rest_of_run hrun
  have hqueue : a.queue ⟨1, 4096⟩ = [1, 2] := by
    rw [← hrest.queueAt_eq]
    decide
  have hlong : 2 ≤ ((a.wake ⟨1, 4096⟩ 0).queue ⟨1, 4096⟩).length := by
    rw [a.wake_self, hqueue]
    decide
  have hpasses : Passes none := nofun
  obtain ⟨s', hs', -⟩ := hrest.requeueAct ⟨1, 4096⟩ 0 1000 ⟨1, 4096⟩ hpasses
  rw [hs', Spec.requeue_self _ 1000 hlong]
  rfl

end Ish.Futexes
