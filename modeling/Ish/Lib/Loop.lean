import Mathlib.Order.Nat

/-!
# Counting loops

`forRange body n i` runs `body i`, `body (i + 1)`, …, `n` turns in all. `forUntil` is the same
loop with an early return. `skipRange` is a loop whose increment may jump, as in
`for (i = start; i < stop; i = next(i))`; it is the plain loop when the turns it jumps over would
have done nothing.
-/

namespace Ish.Lib

variable {σ ε : Type}

/-- `n` turns of `body`, from `i` on. -/
def forRange (body : Nat → σ → σ) : Nat → Nat → σ → σ
  | 0, _, s => s
  | n + 1, i, s => forRange body n (i + 1) (body i s)

/-- `n` turns of `body`, from `i` on, left early when a turn answers `some e`. -/
def forUntil (body : Nat → σ → Option ε × σ) : Nat → Nat → σ → Option ε × σ
  | 0, _, s => (none, s)
  | n + 1, i, s =>
    match body i s with
    | (some e, s') => (some e, s')
    | (none, s') => forUntil body n (i + 1) s'

/-- `for (; i < stop; i = next(i)) body(i)`, where `next` sees the state after the turn. The
increment is at least one, so `stop - i` turns are enough. -/
def skipRange (next : σ → Nat → Nat) (body : Nat → σ → σ) (stop : Nat) : Nat → Nat → σ → σ
  | 0, _, s => s
  | fuel + 1, i, s =>
    if i < stop then
      let s' := body i s
      skipRange next body stop fuel (next s' i) s'
    else s

/-! ### Rules for `forRange` -/

@[simp]
theorem forRange_zero (body : Nat → σ → σ) (i : Nat) (s : σ) : forRange body 0 i s = s := rfl

theorem forRange_succ (body : Nat → σ → σ) (n i : Nat) (s : σ) :
    forRange body (n + 1) i s = forRange body n (i + 1) (body i s) := rfl

theorem forRange_add (body : Nat → σ → σ) (a b i : Nat) (s : σ) :
    forRange body (a + b) i s = forRange body b (i + a) (forRange body a i s) := by
  induction a generalizing i s with
  | zero => rw [Nat.zero_add, Nat.add_zero, forRange_zero]
  | succ a ih =>
    rw [Nat.succ_add, forRange_succ, ih, forRange_succ]
    congr 1
    omega

/-- Turns that do nothing can be left out. -/
theorem forRange_eq_self (body : Nat → σ → σ) (n i : Nat) (s : σ)
    (h : ∀ j, i ≤ j → j < i + n → body j s = s) : forRange body n i s = s := by
  induction n generalizing i with
  | zero => rfl
  | succ n ih =>
    rw [forRange_succ, h i (le_refl i) (by omega)]
    exact ih (i + 1) fun j hj hlt => h j (by omega) (by omega)

variable {f : Nat → σ → σ} {s : σ}

/-- **Invariant rule**: what every turn keeps, the loop keeps. -/
theorem forRange_induct {n i : Nat} (P : Nat → σ → Prop)
    (init : P i s) (step : ∀ j s, i ≤ j → j < i + n → P j s → P (j + 1) (f j s)) : P (i + n) (forRange f n i s) := by
  induction n generalizing i s with
  | zero => exact init
  | succ n ih =>
    rw [forRange_succ, show i + (n + 1) = i + 1 + n by omega]
    exact ih (step i s (le_refl i) (by omega) init)
      fun j s hj hlt hP => step j s (by omega) (by omega) hP

/-- The invariant rule for a property that does not mention the counter. -/
theorem forRange_inv {n i : Nat} (P : σ → Prop) (init : P s)
    (step : ∀ j s, i ≤ j → j < i + n → P s → P (f j s)) : P (forRange f n i s) :=
  forRange_induct (fun _ => P) init step

/-- **Two loops in step**: what the turns keep between two states, the loops keep. -/
theorem forRange_rel {τ : Type} {g : Nat → τ → τ} {n i : Nat} {t : τ} (R : σ → τ → Prop)
    (init : R s t) (step : ∀ j s t, R s t → R (f j s) (g j t)) : R (forRange f n i s) (forRange g n i t) := by
  induction n generalizing i s t with
  | zero => exact init
  | succ n ih => exact ih (step i s t init)

theorem forUntil_succ (body : Nat → σ → Option ε × σ) (n i : Nat) (s : σ) : forUntil body (n + 1) i s =
      match body i s with
      | (some e, s') => (some e, s')
      | (none, s') => forUntil body n (i + 1) s' := rfl

/-- **Invariant rule with early return.** -/
theorem forUntil_inv {body : Nat → σ → Option ε × σ} {n i : Nat} (P : σ → Prop) (init : P s)
    (step : ∀ j s, i ≤ j → j < i + n → P s → P (body j s).2) : P (forUntil body n i s).2 := by
  induction n generalizing i s with
  | zero => exact init
  | succ n ih =>
    have hstep := step i s (le_refl i) (by omega) init
    rw [forUntil_succ]
    rcases hb : body i s with ⟨_ | e, s'⟩
    · rw [hb] at hstep
      exact ih hstep fun j s hj hlt hP => step j s (by omega) (by omega) hP
    · rw [hb] at hstep
      exact hstep

/-- A loop with early return is a plain loop over the turns it makes. -/
theorem forUntil_eq_forRange (body : Nat → σ → Option ε × σ) (n i : Nat) (s : σ) :
    ∃ k ≤ n, (forUntil body n i s).2 = forRange (fun j s => (body j s).2) k i s ∧
      ((forUntil body n i s).1 = none → k = n) := by
  induction n generalizing i s with
  | zero => exact ⟨0, le_refl 0, rfl, fun _ => rfl⟩
  | succ n ih =>
    rw [forUntil_succ]
    rcases hb : body i s with ⟨_ | e, s'⟩
    · obtain ⟨k, hk, heq, hnone⟩ := ih (i + 1) s'
      refine ⟨k + 1, by omega, ?_, fun h => by rw [hnone h]⟩
      rw [forRange_succ, hb]
      exact heq
    · refine ⟨1, by omega, ?_, fun h => by cases h⟩
      rw [forRange_succ, hb]
      rfl

theorem forUntil_eq_none (body : Nat → σ → Option ε × σ) (h : ∀ j s, (body j s).1 = none)
    (n i : Nat) (s : σ) : (forUntil body n i s).1 = none := by
  induction n generalizing i s with
  | zero => rfl
  | succ n ih =>
    rw [forUntil_succ]
    rcases hb : body i s with ⟨_ | e, s'⟩
    · exact ih (i + 1) s'
    · have := h i s
      simp [hb] at this

/-! ### Loops that skip -/

/-- **A skipping loop is the plain loop** when the increment moves on and every turn it skips
would have done nothing. -/
theorem skipRange_eq_forRange (next : σ → Nat → Nat) (body : Nat → σ → σ) (stop : Nat) (hnext : ∀ s i, i < next s i)
    (hskip : ∀ s i j, i < j → j < next s i → j < stop → body j s = s) :
    ∀ fuel i s, stop - i ≤ fuel → skipRange next body stop fuel i s = forRange body (stop - i) i s := by
  intro fuel
  induction fuel with
  | zero =>
    intro i s h
    rw [Nat.le_zero.1 h]
    rfl
  | succ fuel ih =>
    intro i s h
    unfold skipRange
    by_cases hi : i < stop
    · rw [if_pos hi, ih _ _ (by have := hnext (body i s) i; omega)]
      have hlt := hnext (body i s) i
      -- the plain loop: this turn, the skipped turns, the rest
      obtain ⟨n, hn⟩ : ∃ n, stop - i = n + 1 := ⟨stop - i - 1, by omega⟩
      rw [hn, forRange_succ]
      by_cases hend : next (body i s) i ≤ stop
      · have hidle := forRange_eq_self body (next (body i s) i - (i + 1)) (i + 1) (body i s)
          fun j hj hjlt => hskip (body i s) i j (by omega) (by omega) (by omega)
        have hsplit : n = (next (body i s) i - (i + 1)) + (stop - next (body i s) i) := by omega
        rw [hsplit, forRange_add, hidle]
        congr 1
        omega
      · have hidle := forRange_eq_self body n (i + 1) (body i s)
          fun j hj hjlt => hskip (body i s) i j (by omega) (by omega) (by omega)
        rw [show stop - next (body i s) i = 0 by omega, hidle]
        rfl
    · rw [if_neg hi, show stop - i = 0 by omega]
      rfl

end Ish.Lib
