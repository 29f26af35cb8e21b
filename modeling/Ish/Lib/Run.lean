import Mathlib.Data.List.Basic

/-!
# Runs of a state machine

A machine takes an action in a state and moves on, or stops (`none`). `Run step ok s s'` is a run
from `s` to `s'` all of whose steps are allowed by `ok` in the state they are taken in.
-/

namespace Ish.Lib

variable {σ α : Type} {step : σ → α → Option σ} {ok ok' : σ → α → Prop}

/-- The runs of a machine whose steps satisfy `ok`. -/
inductive Run (step : σ → α → Option σ) (ok : σ → α → Prop) : σ → σ → Prop
  | refl (s : σ) : Run step ok s s
  | tail {s t u : σ} (a : α) : Run step ok s t → ok t a → step t a = some u → Run step ok s u

def anyStep : σ → α → Prop := fun _ _ => True

theorem Run.single {s t : σ} (a : α) (hok : ok s a) (h : step s a = some t) : Run step ok s t :=
  .tail a (.refl s) hok h

theorem Run.trans {s t u : σ} (h : Run step ok s t) (h' : Run step ok t u) : Run step ok s u := by
  induction h' with
  | refl => exact h
  | tail a _ hok hstep ih => exact .tail a ih hok hstep

/-- Fewer conditions allow more runs. -/
theorem Run.mono (himp : ∀ s a, ok s a → ok' s a) {s t : σ} (h : Run step ok s t) : Run step ok' s t := by
  induction h with
  | refl => exact .refl _
  | tail a _ hok hstep ih => exact .tail a ih (himp _ _ hok) hstep

/-- Actions that are allowed in every state, taken one after the other. -/
theorem Run.of_foldlM {l : List α} (hok : ∀ a ∈ l, ∀ s, ok s a) {s t : σ}
    (h : l.foldlM step s = some t) : Run step ok s t := by
  induction l generalizing s with
  | nil =>
    cases h
    exact .refl _
  | cons a l ih =>
    obtain ⟨hhead, htail⟩ := List.forall_mem_cons.1 hok
    rw [List.foldlM_cons] at h
    obtain ⟨u, hu, hrest⟩ := Option.bind_eq_some_iff.1 h
    exact (Run.single a (hhead s) hu).trans (ih htail hrest)

/-- Actions taken one after the other, each of which is checked. -/
theorem Run.of_guarded [∀ s a, Decidable (ok s a)] {l : List α} {s t : σ}
    (h : l.foldlM (fun s a => if ok s a then step s a else none) s = some t) : Run step ok s t := by
  induction l generalizing s with
  | nil =>
    cases h
    exact .refl _
  | cons a l ih =>
    rw [List.foldlM_cons] at h
    obtain ⟨u, hu, hrest⟩ := Option.bind_eq_some_iff.1 h
    obtain ⟨hok, hstep⟩ := Option.ite_none_right_eq_some.1 hu
    exact (Run.single a hok hstep).trans (ih hrest)

/-- What a table holds after one of its entries has been set. -/
theorem update_cases {ι β : Type*} [DecidableEq ι] {f : ι → β} {i j : ι} {b x : β}
    (h : Function.update f j b i = x) : i = j ∧ b = x ∨ i ≠ j ∧ f i = x := by
  by_cases hij : i = j
  · rw [hij, Function.update_self] at h
    exact .inl ⟨hij, h⟩
  · rw [Function.update_of_ne hij] at h
    exact .inr ⟨hij, h⟩

/-- **Guard rule**: what the effect of a guarded step has, its result has. -/
@[elab_as_elim]
theorem guarded {p : Prop} [Decidable p] {s s' : σ} {motive : σ → Prop}
    (h : (if p then some s else none) = some s') (heffect : p → motive s) : motive s' := by
  obtain ⟨hp, hs'⟩ := Option.ite_none_right_eq_some.1 h
  exact Option.some.inj hs' ▸ heffect hp

/-- **Invariant rule**: what every allowed step keeps, every run keeps. -/
theorem Run.inv (I : σ → Prop) (hstep : ∀ s a t, I s → ok s a → step s a = some t → I t) {s t : σ}
    (h : Run step ok s t) (hs : I s) : I t := by
  induction h with
  | refl => exact hs
  | tail a _ hok hst ih => exact hstep _ a _ ih hok hst

end Ish.Lib
