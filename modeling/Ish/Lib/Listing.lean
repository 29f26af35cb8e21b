import Mathlib.Data.List.Nodup
import Mathlib.Logic.Function.Basic

/-!
# Families of lists that index a set

Intrusive lists keep every object in at most one list of a family: a hash table, the lists of what
refers to an object. `Lists L f` says that the list `L b` holds, once each, the objects `a` with
`f a = some b`; the lemmas follow it through adding and removing one object.
-/

namespace Ish.Lib

open Function

variable {α β : Type} {L : β → List α} {f : α → Option β}

/-- The list `L b` holds, once each, the `a` with `f a = some b`. -/
structure Lists (L : β → List α) (f : α → Option β) : Prop where
  nodup : ∀ b, (L b).Nodup
  mem : ∀ b a, a ∈ L b ↔ f a = some b

theorem lists_nil : Lists (fun _ : β => ([] : List α)) fun _ => none :=
  ⟨fun _ => List.nodup_nil, by simp⟩

theorem Lists.congr (h : Lists L f) {g : α → Option β} (hg : ∀ a, g a = f a) : Lists L g :=
  ⟨h.nodup, fun b a => by rw [hg, h.mem]⟩

/-- An object is in its list once, and in no other. -/
theorem Lists.count [DecidableEq α] [DecidableEq β] (h : Lists L f) (a : α) (b : β) :
    (L b).count a = if f a = some b then 1 else 0 := by
  split_ifs with hf
  · exact List.count_eq_one_of_mem (h.nodup b) ((h.mem b a).2 hf)
  · exact List.count_eq_zero_of_not_mem fun hmem => hf ((h.mem b a).1 hmem)

/-- An object that is in no list is added at the head of one. -/
theorem Lists.cons [DecidableEq α] [DecidableEq β] (h : Lists L f) {a : α} (ha : f a = none)
    (b : β) : Lists (update L b (a :: L b)) (update f a (some b)) := by
  have hnot : ∀ b, a ∉ L b := fun b hmem => by
    rw [h.mem, ha] at hmem
    cases hmem
  refine ⟨fun b' => ?_, fun b' a' => ?_⟩
  · rw [update_apply]
    split_ifs
    · exact List.nodup_cons.2 ⟨hnot b, h.nodup b⟩
    · exact h.nodup b'
  · rw [update_apply, update_apply]
    by_cases hb : b' = b
    · subst hb
      rw [if_pos rfl, List.mem_cons, h.mem]
      by_cases haa : a' = a
      · simp [haa]
      · simp [haa]
    · rw [if_neg hb, h.mem]
      by_cases haa : a' = a
      · subst haa
        simp [ha, Ne.symm hb]
      · rw [if_neg haa]

theorem Lists.consOption [DecidableEq α] [DecidableEq β] (h : Lists L f) {a : α} (ha : f a = none) (b : Option β) :
    Lists (fun b' => if b = some b' then a :: L b' else L b') (update f a b) := by
  cases b with
  | none => exact h.congr fun a' => by rw [← ha, update_eq_self]
  | some b =>
    have hL : (fun b' => if some b = some b' then a :: L b' else L b') =
        update L b (a :: L b) := by
      funext b'
      rw [update_apply]
      by_cases hb : b' = b
      · simp [hb]
      · simp [hb, Ne.symm hb]
    rw [hL]
    exact h.cons ha b

/-- An object is taken out of whatever list it is in. -/
theorem Lists.erase [DecidableEq α] (h : Lists L f) (a : α) : Lists (fun b => (L b).erase a) (update f a none) := by
  refine ⟨fun b => (h.nodup b).erase a, fun b a' => ?_⟩
  rw [update_apply]
  by_cases haa : a' = a
  · subst haa
    simpa using (h.nodup b).not_mem_erase
  · rw [if_neg haa, ← h.mem, List.mem_erase_of_ne haa]

theorem Lists.erase_of_eq_some [DecidableEq α] [DecidableEq β] (h : Lists L f) {a : α} {b : β} (ha : f a = some b) :
    Lists (update L b ((L b).erase a)) (update f a none) := by
  have hL : update L b ((L b).erase a) = fun b => (L b).erase a := by
    funext b'
    rw [update_apply]
    split_ifs with hb
    · rw [hb]
    · refine (List.erase_of_not_mem fun hmem => hb ?_).symm
      exact Option.some.inj (((h.mem b' a).1 hmem).symm.trans ha)
  rw [hL]
  exact h.erase a

/-- Objects that are added one after the other, each to the list of its key. -/
def pushAll [DecidableEq β] (key : α → β) (l : List α) (L : β → List α) : β → List α :=
  l.foldl (fun L a => Function.update L (key a) (a :: L (key a))) L

theorem Lists.pushAll [DecidableEq α] [DecidableEq β] (h : Lists L f) (key : α → β) {l : List α}
    (hl : l.Nodup) (hf : ∀ a ∈ l, f a = none) :
    Lists (pushAll key l L) fun a => if a ∈ l then some (key a) else f a := by
  induction l generalizing L f with
  | nil => exact h.congr fun a => by simp
  | cons a l ih =>
    obtain ⟨ha, hl⟩ := List.nodup_cons.1 hl
    obtain ⟨hfa, hf⟩ := List.forall_mem_cons.1 hf
    have hne : ∀ a' ∈ l, a' ≠ a := fun a' ha' heq => ha (heq ▸ ha')
    refine (ih (h.cons hfa (key a)) hl fun a' ha' => ?_).congr fun a' => ?_
    · rw [update_of_ne (hne a' ha')]
      exact hf a' ha'
    · rw [update_apply]
      by_cases haa : a' = a
      · subst haa
        simp [ha]
      · simp [haa]

/-- All objects of the first `n` lists. -/
theorem Lists.nodup_flatMap {L : Nat → List α} {f : α → Option Nat} (h : Lists L f) (n : Nat) :
    ((List.range n).flatMap L).Nodup := by
  refine List.nodup_flatMap.2 ⟨fun b _ => h.nodup b, ?_⟩
  refine List.nodup_range.imp fun {b b'} hne => ?_
  intro a ha ha'
  exact hne (Option.some.inj (((h.mem b a).1 ha).symm.trans ((h.mem b' a).1 ha')))

theorem Lists.mem_flatMap {L : Nat → List α} {f : α → Option Nat} (h : Lists L f) {n : Nat}
    (hn : ∀ a b, f a = some b → b < n) {a : α} : a ∈ (List.range n).flatMap L ↔ f a ≠ none := by
  rw [List.mem_flatMap, Option.ne_none_iff_exists']
  exact exists_congr fun b => ⟨fun hb => (h.mem b a).1 hb.2,
    fun hf => ⟨List.mem_range.2 (hn a b hf), (h.mem b a).2 hf⟩⟩

end Ish.Lib
