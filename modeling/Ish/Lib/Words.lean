import Mathlib.Data.List.Basic

/-!
# Words

A text over an alphabet with a separator, its words, and the text in which every word follows one
separator.
-/

namespace Ish.Lib

open List

variable {α : Type}

/-- A word is not empty and has no separator. -/
def IsWord (sep : α) (w : List α) : Prop := w ≠ [] ∧ sep ∉ w

def words [DecidableEq α] (sep : α) (l : List α) : List (List α) := (l.splitOn sep).filter fun w => !w.isEmpty

/-- The text of a list of words, a separator before each. -/
def unwords (sep : α) (ws : List (List α)) : List α := ws.flatMap (sep :: ·)

@[simp]
theorem unwords_nil (sep : α) : unwords sep [] = [] := rfl

@[simp]
theorem unwords_cons (sep : α) (w : List α) (ws : List (List α)) :
    unwords sep (w :: ws) = sep :: w ++ unwords sep ws := rfl

@[simp]
theorem unwords_append (sep : α) (ws ws' : List (List α)) :
    unwords sep (ws ++ ws') = unwords sep ws ++ unwords sep ws' :=
  flatMap_append

variable [DecidableEq α]

@[simp]
theorem words_nil (sep : α) : words sep [] = [] := rfl

@[simp]
theorem words_sep_cons (sep : α) (l : List α) : words sep (sep :: l) = words sep l := by
  unfold words
  rw [splitOn_cons_eq_if_modifyHead, if_pos (beq_self_eq_true sep)]
  rfl

/-- A word at the end of a text. -/
theorem words_of_isWord {sep : α} {w : List α} (hw : IsWord sep w) : words sep w = [w] := by
  unfold words
  rw [splitOn_eq_singleton hw.2, filter_cons_of_pos]
  · rfl
  · simp [hw.1]

theorem words_append_sep {sep : α} {w : List α} (hw : IsWord sep w) (l : List α) :
    words sep (w ++ sep :: l) = w :: words sep l := by
  unfold words
  rw [splitOn_append_cons_self_of_not_mem hw.2, filter_cons_of_pos]
  simp [hw.1]

theorem exists_word_of_ne_nil {sep : α} {l : List α} (hne : l ≠ []) (hhead : l.head? ≠ some sep) :
    ∃ w rest, IsWord sep w ∧ l = w ++ rest ∧ (rest = [] ∨ ∃ l', rest = sep :: l') := by
  induction l with
  | nil => exact absurd rfl hne
  | cons a l ih =>
    have ha : sep ≠ a := fun h => hhead (by simp [h])
    by_cases hl : l.head? = some sep
    · obtain ⟨l', rfl⟩ := head?_eq_some_iff.1 hl
      exact ⟨[a], sep :: l', ⟨by simp, by simpa using ha⟩, rfl, Or.inr ⟨l', rfl⟩⟩
    · by_cases hnil : l = []
      · subst hnil
        exact ⟨[a], [], ⟨by simp, by simpa using ha⟩, rfl, Or.inl rfl⟩
      · obtain ⟨w, rest, hw, rfl, hrest⟩ := ih hnil hl
        exact ⟨a :: w, rest, ⟨by simp, by simp [ha, hw.2]⟩, rfl, hrest⟩

/-- Induction over a text, word by word. -/
theorem words_induction (sep : α) {P : List α → Prop} (nil : P [])
    (skip : ∀ l, P l → P (sep :: l)) (last : ∀ w, IsWord sep w → P w)
    (word : ∀ w l, IsWord sep w → P l → P (w ++ sep :: l)) (l : List α) : P l := by
  induction hn : l.length using Nat.strongRecOn generalizing l with
  | _ n ih =>
  subst hn
  by_cases hne : l = []
  · exact hne ▸ nil
  by_cases hhead : l.head? = some sep
  · obtain ⟨l', rfl⟩ : ∃ l', l = sep :: l' := head?_eq_some_iff.1 hhead
    exact skip l' (ih l'.length (by simp) l' rfl)
  · obtain ⟨w, rest, hw, rfl, rfl | ⟨l', rfl⟩⟩ := exists_word_of_ne_nil hne hhead
    · rw [append_nil]
      exact last w hw
    · exact word w l' hw (ih l'.length (by simp; omega) l' rfl)

theorem length_unwords_words_le (sep : α) (l : List α) : (unwords sep (words sep l)).length ≤ l.length + 1 := by
  induction l using words_induction sep with
  | nil => simp
  | skip l ih =>
    rw [words_sep_cons, length_cons]
    exact Nat.le_succ_of_le ih
  | last w hw => simp [words_of_isWord hw]
  | word w l hw ih =>
    rw [words_append_sep hw, unwords_cons]
    simp only [length_append, length_cons]
    omega

theorem length_unwords_words_le_of_head {sep : α} {l : List α} (h : l.head? = some sep) :
    (unwords sep (words sep l)).length ≤ l.length := by
  obtain ⟨l', rfl⟩ := head?_eq_some_iff.1 h
  rw [words_sep_cons]
  exact length_unwords_words_le sep l'

theorem isWord_of_mem_words {sep : α} (l : List α) : ∀ w ∈ words sep l, IsWord sep w := by
  induction l using words_induction sep with
  | nil => simp
  | skip l ih => rwa [words_sep_cons]
  | last w hw => simpa [words_of_isWord hw] using hw
  | word w l hw ih =>
    rw [words_append_sep hw]
    exact forall_mem_cons.2 ⟨hw, ih⟩

theorem words_unwords {sep : α} {ws : List (List α)} (hws : ∀ w ∈ ws, IsWord sep w) :
    words sep (unwords sep ws) = ws := by
  induction ws with
  | nil => rfl
  | cons w ws ih =>
    obtain ⟨hw, htail⟩ := forall_mem_cons.1 hws
    rw [unwords_cons, cons_append, words_sep_cons]
    cases ws with
    | nil => rw [unwords_nil, append_nil, words_of_isWord hw]
    | cons v ws =>
      have ih := ih htail
      rw [unwords_cons, cons_append, words_sep_cons] at ih
      rw [unwords_cons, cons_append, words_append_sep hw, ih]

end Ish.Lib
