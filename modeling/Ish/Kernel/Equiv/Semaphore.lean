import Ish.Kernel.Semaphore

/-!
# Semaphore operations in sequence

`sem_try_apply` compares every operation with the values before the call, and then does all of them. That is the same
as doing them one after the other exactly where the two checks agree (`semtimedop_sequential_iff`).
-/

namespace Ish.Semaphores

open Function

/-- An operation can be done at a value and leaves a value of the range. -/
def Semop.Fits (o : Semop) (val : Int) : Prop :=
  0 ≤ val + o.op.toInt ∧ val + o.op.toInt ≤ 32767 ∧ (o.op.toInt = 0 → val = 0)

instance (o : Semop) (val : Int) : Decidable (o.Fits val) := inferInstanceAs (Decidable (_ ∧ _ ∧ _))

/-- The operations one after the other, if all of them can be done. -/
def simulate (nsems : Nat) (val : Nat → Int) : List Semop → Option (Nat → Int)
  | [] => some val
  | o :: rest =>
    if o.num.toNat < nsems ∧ o.Fits (val o.num.toNat) then
      simulate nsems (update val o.num.toNat (val o.num.toNat + o.op.toInt)) rest
    else none

def SemSet.vals (set : SemSet) (i : Nat) : Int := (set.values i).toNat

/-- A pass is **sequential**: it does the operations in sequence, or says that this cannot be done and does nothing. -/
def Pass.Sequential (ops : List Semop) (p : Pass) : Prop :=
  match simulate p.set.nsems p.set.vals ops with
  | some val => p.err = none ∧ p.set'.vals = val
  | none => p.err.isSome ∧ p.set' = p.set

/-- What the operations of `pre` add to a semaphore. -/
def added (pre : List Semop) (num : BitVec 16) : Int := ((pre.filter (·.num = num)).map (·.op.toInt)).sum

/-- **The condition**: all operations can be done at the values before the call exactly if each can be done at the value
that the earlier ones leave. -/
def SemSet.ChecksAgree (set : SemSet) (ops : List Semop) : Prop :=
  (∀ o ∈ ops, o.num.toNat < set.nsems ∧ 0 ≤ set.vals o.num.toNat + o.op.toInt ∧
    (o.op.toInt = 0 → set.vals o.num.toNat = 0)) ↔
  ∀ pre o post, ops = pre ++ o :: post → o.num.toNat < set.nsems ∧ o.Fits (set.vals o.num.toNat + added pre o.num)

theorem check_eq_none_iff (set : SemSet) (ops : List Semop) : semTryApply.check set ops = none ↔
    ∀ o ∈ ops, o.num.toNat < set.nsems ∧ 0 ≤ set.vals o.num.toNat + o.op.toInt ∧
      (o.op.toInt = 0 → set.vals o.num.toNat = 0) := by
  induction ops with
  | nil => simp [semTryApply.check]
  | cons o rest ih =>
    have hval : (0 : Int) ≤ set.vals o.num.toNat := Int.natCast_nonneg _
    rw [List.forall_mem_cons, ← ih]
    show (if _ then _ else if o.op.toInt < 0 ∧ set.vals o.num.toNat < -o.op.toInt then _
      else if o.op.toInt = 0 ∧ set.vals o.num.toNat ≠ 0 then _ else semTryApply.check set rest) = none ↔ _
    split_ifs with hnum hneg hzero
    · simp [Nat.not_lt.2 hnum]
    · refine ⟨nofun, fun h => ?_⟩
      omega
    · exact ⟨nofun, fun h => absurd (h.1.2.2 hzero.1) hzero.2⟩
    · refine ⟨fun h => ⟨⟨Nat.not_le.1 hnum, ?_, fun h0 => ?_⟩, h⟩, fun h => h.2⟩
      · omega
      · by_contra hne
        exact hzero ⟨h0, hne⟩

theorem simulate_isSome_iff (nsems : Nat) (val : Nat → Int) (ops : List Semop) : (simulate nsems val ops).isSome ↔
    ∀ pre o post, ops = pre ++ o :: post → o.num.toNat < nsems ∧ o.Fits (val o.num.toNat + added pre o.num) := by
  induction ops generalizing val with
  | nil => simp [simulate]
  | cons o rest ih =>
    -- the operation is seen by the later ones on its semaphore
    have hval : ∀ pre (o' : Semop), update val o.num.toNat (val o.num.toNat + o.op.toInt) o'.num.toNat +
        added pre o'.num = val o'.num.toNat + added (o :: pre) o'.num := by
      intro pre o'
      unfold added
      rw [update_apply, List.filter_cons]
      by_cases hnum : o.num = o'.num
      · simp [hnum]
        omega
      · rw [if_neg fun h => hnum (BitVec.eq_of_toNat_eq h.symm), if_neg (by simpa using hnum)]
    unfold simulate
    split_ifs with hfits
    · rw [ih]
      simp only [hval]
      refine ⟨fun h pre o' post heq => ?_, fun h pre o' post heq => h (o :: pre) o' post (by rw [heq]; rfl)⟩
      cases pre with
      | nil =>
        cases heq
        simpa [added] using hfits
      | cons o₁ pre =>
        cases heq
        exact h pre o' post rfl
    · refine ⟨nofun, fun h => absurd ?_ hfits⟩
      simpa [added] using h [] o rest rfl

/-- Where the operations can be done in sequence, the second loop does that. -/
theorem foldl_applyOne (pid : Int) {set : SemSet} {ops : List Semop} {val : Nat → Int}
    (h : simulate set.nsems set.vals ops = some val) : (ops.foldl (semTryApply.applyOne pid) set).vals = val := by
  induction ops generalizing set with
  | nil => exact Option.some.inj h
  | cons o rest ih =>
    obtain ⟨⟨-, hlow, hhigh, -⟩, hrest⟩ := Option.ite_none_right_eq_some.1 h
    refine @ih (semTryApply.applyOne pid set o) ?_
    have hvals : (semTryApply.applyOne pid set o).vals =
        update set.vals o.num.toNat (set.vals o.num.toNat + o.op.toInt) := by
      funext i
      show ((update set.values o.num.toNat (set.values o.num.toNat + o.op) i).toNat : Int) = _
      rw [update_apply, update_apply]
      split_ifs
      · unfold SemSet.vals at *
        rw [BitVec.toNat_add]
        rw [BitVec.toInt_eq_toNat_cond] at *
        split_ifs at * <;> omega
      · rfl
    rw [hvals]
    exact hrest

theorem sequential_iff (pid : Int) (set : SemSet) (ops : List Semop) :
    Pass.Sequential ops ⟨set, (semTryApply pid set ops).1, (semTryApply pid set ops).2⟩ ↔ set.ChecksAgree ops := by
  unfold SemSet.ChecksAgree
  rw [← check_eq_none_iff, ← simulate_isSome_iff]
  unfold Pass.Sequential semTryApply
  dsimp only
  cases hsim : simulate set.nsems set.vals ops with
  | none => cases hcheck : semTryApply.check set ops <;> simp
  | some val =>
    cases hcheck : semTryApply.check set ops with
    | none => simp [foldl_applyOne pid hsim]
    | some err => simp

theorem sequential_iff_of_mem_loop {pid : Int} {ops : List Semop} {turns : List Turn} {p : Pass}
    (hp : p ∈ (sysSemtimedop.loop pid ops turns).2) : p.Sequential ops ↔ p.set.ChecksAgree ops := by
  induction turns with
  | nil => cases hp
  | cons t rest ih =>
    unfold sysSemtimedop.loop at hp
    cases hset : t.set with
    | none =>
      rw [hset] at hp
      cases hp
    | some set =>
      rw [hset] at hp
      dsimp only at hp
      cases hret : sysSemtimedop.returns (ops.any (·.nowait)) t.wait (semTryApply pid set ops).1 with
      | some ret =>
        rw [hret] at hp
        rw [List.mem_singleton.1 hp]
        exact sequential_iff pid set ops
      | none =>
        rw [hret] at hp
        rcases List.mem_cons.1 hp with rfl | hp
        · exact sequential_iff pid set ops
        · exact ih hp

/-- The last pass did the operations exactly if the loop returns 0. -/
theorem loop_ok_iff (pid : Int) (ops : List Semop) (turns : List Turn) :
    (sysSemtimedop.loop pid ops turns).1 = some (.ok ()) ↔
      ∃ p ∈ (sysSemtimedop.loop pid ops turns).2.getLast?, p.err = none := by
  induction turns with
  | nil => simp [sysSemtimedop.loop]
  | cons t rest ih =>
    unfold sysSemtimedop.loop
    cases t.set with
    | none => simp
    | some set =>
      dsimp only
      cases hret : sysSemtimedop.returns (ops.any (·.nowait)) t.wait (semTryApply pid set ops).1 with
      | some ret =>
        cases herr : (semTryApply pid set ops).1 with
        | none =>
          rw [herr] at hret
          cases hret
          simp
        | some err =>
          rw [herr] at hret
          have hne : ret ≠ .ok () := by
            rintro rfl
            unfold sysSemtimedop.returns at hret
            dsimp only at hret
            split_ifs at hret
            · cases hret
            · obtain ⟨_, -, hok⟩ := Option.map_eq_some_iff.1 hret
              cases hok
          simp [hne]
      | none =>
        -- the pass has failed, so it is not the last one of a call that returns 0
        have herr : (semTryApply pid set ops).1 ≠ none := by
          intro herr
          rw [herr] at hret
          cases hret
        dsimp only
        rw [ih, List.getLast?_cons]
        cases (sysSemtimedop.loop pid ops rest).2.getLast? with
        | none => simp [herr]
        | some p => simp

/-- **Semaphore operations are sequential** exactly if, in every pass, the checks against the values before the call
say what the checks one after the other say; and the call returns 0 exactly if its last pass did the operations. -/
theorem semtimedop_sequential_iff (pid : Int) (ops : List Semop) (mem read timeout : Bool) (turns : List Turn) :
    let r := sysSemtimedop pid ops mem read timeout turns
    ((∀ p ∈ r.2, p.Sequential ops) ↔ ∀ p ∈ r.2, p.set.ChecksAgree ops) ∧
      (r.1 = some (.ok ()) ↔ ∃ p ∈ r.2.getLast?, p.err = none) := by
  refine ⟨forall₂_congr fun p hp => ?_, ?_⟩
  · unfold sysSemtimedop at hp
    split_ifs at hp
    · cases hp
    · cases hp
    · cases hp
    · exact sequential_iff_of_mem_loop hp
  · unfold sysSemtimedop
    split_ifs
    · simp
    · simp
    · simp
    · exact loop_ok_iff pid ops turns

/-- A semaphore of value 1 is taken twice in one call, and comes to 65535. -/
theorem semtimedop_wraps :
    let ops : List Semop := [⟨0, -1, false⟩, ⟨0, -1, false⟩]
    let set : SemSet := ⟨1, fun _ => 1, fun _ => 0⟩
    ∃ p ∈ (sysSemtimedop 1 ops true true true [⟨some set, none⟩]).2,
      p.err = none ∧ p.set'.values 0 = 65535 ∧ ¬ p.Sequential ops := by
  intro ops set
  refine ⟨⟨set, (semTryApply 1 set ops).1, (semTryApply 1 set ops).2⟩, List.mem_singleton_self _, rfl, by decide, ?_⟩
  unfold Pass.Sequential
  have hsim : simulate 1 set.vals ops = none := by decide
  rw [hsim]
  rintro ⟨h, -⟩
  cases h

end Ish.Semaphores
