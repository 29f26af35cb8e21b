import Mathlib.Data.List.AList

/-!
# Changing the keys of a table

`rekey t p f` moves every row of a table whose key satisfies `p` to the key `f` gives for it; a row
that is in the way is lost. This is what `update or replace` does to a primary key, and what moving a
subtree does to the paths of a tree, as long as no new key is the key of a row that is moved itself.
-/

namespace Ish.Lib

open List

variable {κ ν : Type} [DecidableEq κ]

/-- The rows with `p` get a new key and take the place of the rows that have it. -/
def rekey (t : AList fun _ : κ => ν) (p : κ → Bool) (f : κ → κ) : AList fun _ : κ => ν :=
  let moved : List (Sigma fun _ : κ => ν) :=
    (t.entries.filter fun row => p row.1).map fun row => ⟨f row.1, row.2⟩
  let kept : List (Sigma fun _ : κ => ν) := t.entries.filter fun row => !p row.1
  (moved ++ kept).toAList

variable {p : κ → Bool} {f g : κ → κ}

/-- The rows that are moved, if `g` takes the new keys back. -/
theorem dlookup_moved (hg : ∀ k, p k = true → g (f k) = k) (l : List (Sigma fun _ : κ => ν)) (k : κ) :
    ((l.filter fun row => p row.1).map fun row => (⟨f row.1, row.2⟩ : Sigma fun _ : κ => ν)).dlookup k =
      if p (g k) = true ∧ f (g k) = k then l.dlookup (g k) else none := by
  induction l with
  | nil => simp
  | cons row l ih =>
    obtain ⟨a, b⟩ := row
    by_cases ha : p a = true
    · rw [filter_cons_of_pos (by exact ha), map_cons]
      by_cases hk : k = f a
      · subst hk
        rw [dlookup_cons_eq, hg a ha, if_pos ⟨ha, rfl⟩, dlookup_cons_eq]
      · rw [dlookup_cons_ne _ _ hk, ih]
        split_ifs with hcond
        · have hne : g k ≠ a := by
            rintro rfl
            exact hk hcond.2.symm
          rw [dlookup_cons_ne _ _ hne]
        · rfl
    · rw [filter_cons_of_neg (by exact ha), ih]
      split_ifs with hcond
      · have hne : g k ≠ a := by
          rintro rfl
          exact ha hcond.1
        rw [dlookup_cons_ne _ _ hne]
      · rfl

theorem dlookup_kept (l : List (Sigma fun _ : κ => ν)) (k : κ) :
    (l.filter fun row => !p row.1).dlookup k = if p k = true then none else l.dlookup k := by
  induction l with
  | nil => simp
  | cons row l ih =>
    obtain ⟨a, b⟩ := row
    by_cases ha : p a = true
    · rw [filter_cons_of_neg (by simp [ha]), ih]
      split_ifs with hk
      · rfl
      · have hne : k ≠ a := by
          rintro rfl
          exact hk ha
        rw [dlookup_cons_ne _ _ hne]
    · rw [filter_cons_of_pos (by simp [ha])]
      by_cases hk : k = a
      · subst hk
        rw [dlookup_cons_eq, if_neg ha, dlookup_cons_eq]
      · rw [dlookup_cons_ne _ _ hk, ih, dlookup_cons_ne _ _ hk]

/-- **What is found under a key afterwards**: a row that was moved there, or else the row that was
there, unless it was moved away. -/
theorem lookup_rekey (hg : ∀ k, p k = true → g (f k) = k) (t : AList fun _ : κ => ν) (k : κ) : (rekey t p f).lookup k =
      (if p (g k) = true ∧ f (g k) = k then t.lookup (g k) else none).or (if p k = true then none else t.lookup k) := by
  unfold rekey
  rw [AList.lookup_to_alist, dlookup_append, dlookup_moved hg, dlookup_kept]
  rfl

end Ish.Lib
