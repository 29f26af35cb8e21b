import Mathlib.Data.Set.Card

/-!
# Counting references

A finite table of slots, each empty or pointing to an object. `tally f a` is the number of slots
of `f` that point to `a`; the lemmas follow it through a change of one slot. `HasTally f a n` says the
same of a table of any size: finitely many slots point to `a`, and there are `n` of them.
-/

namespace Ish.Lib

open Function Nat Set

variable {κ α : Type}

/-- The number of slots that point to `a`. -/
noncomputable def tally (f : κ → Option α) (a : α) : Nat :=
  {x | f x = some a}.ncard

variable {f : κ → Option α} {a : α}

theorem tally_eq_zero_iff [Finite κ] : tally f a = 0 ↔ ∀ x, f x ≠ some a := by
  unfold tally
  rw [ncard_eq_zero, eq_empty_iff_forall_notMem]
  rfl

theorem tally_ne_zero [Finite κ] {x : κ} (h : f x = some a) : tally f a ≠ 0 :=
  fun h0 => tally_eq_zero_iff.1 h0 x h

/-- If every reference in `g` is one of `f`, or stands at the place of one of `h`, then `g` has at
most as many as `f` and `h` together. -/
theorem tally_le_add {κ' : Type} [Finite κ] [Finite κ'] {f g : κ → Option α} {h : κ' → Option α} (place : κ' → κ)
    (hg : ∀ x, g x = some a → f x = some a ∨ ∃ y, place y = x ∧ h y = some a) : tally g a ≤ tally f a + tally h a := by
  have hsub : {x | g x = some a} ⊆ {x | f x = some a} ∪ Set.image place {y | h y = some a} := by
    intro x hx
    rcases hg x hx with hf | ⟨y, hy, ha⟩
    · exact Or.inl hf
    · exact Or.inr ⟨y, ha, hy⟩
  calc tally g a ≤ ({x | f x = some a} ∪ Set.image place {y | h y = some a}).ncard :=
        ncard_le_ncard hsub
    _ ≤ tally f a + (Set.image place {y | h y = some a}).ncard := ncard_union_le _ _
    _ ≤ tally f a + tally h a := Nat.add_le_add_left (ncard_image_le (Set.toFinite _)) _

variable {n : Nat}

theorem tally_le (f : Fin n → Option α) (a : α) : tally f a ≤ n := by
  have h := ncard_le_ncard (subset_univ {x | f x = some a})
  rwa [ncard_univ, card_eq_fintype_card, Fintype.card_fin] at h

variable [DecidableEq κ] [DecidableEq α]

private theorem setOf_update (f : κ → Option α) (i : κ) (v : Option α) (a : α) : {x | update f i v x = some a} =
      if v = some a then insert i {x | f x = some a} else {x | f x = some a} \ {i} := by
  ext x
  by_cases hx : x = i
  · subst hx
    split_ifs with hv <;> simp [hv]
  · split_ifs <;> simp [hx]

theorem tally_update [Finite κ] (f : κ → Option α) (i : κ) (v : Option α) (a : α) :
    tally (update f i v) a + (if f i = some a then 1 else 0) = tally f a + if v = some a then 1 else 0 := by
  unfold tally
  rw [setOf_update]
  by_cases hi : i ∈ {x | f x = some a}
  · have hpos : 0 < {x | f x = some a}.ncard := (ncard_pos).2 ⟨i, hi⟩
    have hdiff := ncard_sdiff_singleton_of_mem hi
    rw [if_pos (show f i = some a from hi)]
    split_ifs
    · rw [insert_eq_of_mem hi]
    · omega
  · rw [if_neg (show ¬ f i = some a from hi)]
    split_ifs
    · rw [ncard_insert_of_notMem hi]
    · rw [sdiff_singleton_eq_self hi]

theorem tally_clear [Finite κ] {i : κ} (h : f i = some a) :
    tally (update f i none) = update (tally f) a (tally f a - 1) := by
  funext b
  have hb := tally_update f i none b
  rw [h] at hb
  by_cases hba : b = a
  · subst hba
    rw [update_self]
    simp only [if_true, reduceCtorEq, if_false] at hb
    omega
  · rw [update_of_ne hba]
    simpa [Ne.symm hba] using hb

theorem tally_fill [Finite κ] {i : κ} (a : α) (h : f i = none) :
    tally (update f i (some a)) = update (tally f) a (tally f a + 1) := by
  funext b
  have hb := tally_update f i (some a) b
  rw [h] at hb
  by_cases hba : b = a
  · subst hba
    rw [update_self]
    simpa using hb
  · rw [update_of_ne hba]
    simpa [Ne.symm hba] using hb

/-! ### Tables of any size -/

/-- There are exactly `n` slots that point to `a`. -/
def HasTally (f : κ → Option α) (a : α) (n : Nat) : Prop :=
  {x | f x = some a}.encard = n

omit [DecidableEq κ] [DecidableEq α] in
theorem HasTally.eq_zero_iff (h : HasTally f a n) : n = 0 ↔ ∀ x, f x ≠ some a := by
  unfold HasTally at h
  rw [← cast_eq_zero (R := ℕ∞), ← h, encard_eq_zero, eq_empty_iff_forall_notMem]
  rfl

omit [DecidableEq κ] [DecidableEq α] in
theorem HasTally.zero (h : ∀ x, f x ≠ some a) : HasTally f a 0 := by
  unfold HasTally
  rw [cast_zero, encard_eq_zero, eq_empty_iff_forall_notMem]
  exact h

/-- A slot that comes to point to `a`. -/
theorem HasTally.fill (h : HasTally f a n) {i : κ} (hi : f i ≠ some a) : HasTally (update f i (some a)) a (n + 1) := by
  have hnot : i ∉ {x | f x = some a} := hi
  unfold HasTally at h ⊢
  rw [setOf_update, if_pos rfl, encard_insert_of_notMem hnot, h]
  rfl

theorem HasTally.clear (h : HasTally f a n) {i : κ} (hi : f i = some a)
    {v : Option α} (hv : v ≠ some a) : HasTally (update f i v) a (n - 1) := by
  have hmem : i ∈ {x | f x = some a} := hi
  have hne : n ≠ 0 := fun h0 => (h.eq_zero_iff.mp h0) i hi
  unfold HasTally at h ⊢
  have hsum := encard_sdiff_singleton_add_one hmem
  rw [setOf_update, if_neg hv]
  rw [h, show (n : ℕ∞) = ((n - 1 : Nat) : ℕ∞) + 1 by exact_mod_cast (succ_pred hne).symm] at hsum
  exact ENat.add_left_injective_of_ne_top ENat.one_ne_top hsum

theorem HasTally.other (h : HasTally f a n) {i : κ} (hi : f i ≠ some a)
    {v : Option α} (hv : v ≠ some a) : HasTally (update f i v) a n := by
  have hnot : i ∉ {x | f x = some a} := hi
  unfold HasTally at h ⊢
  rw [setOf_update, if_neg hv, sdiff_singleton_eq_self hnot, h]

end Ish.Lib
