import Mathlib.Data.List.Basic

/-!
# Lists grouped by a key

The elements with one key stand next to each other. `Grouped.exists_block` finds the block of a
key, and `Grouped.replace` puts another block with this key in its place.
-/

namespace Ish.Lib

open List

variable {α κ : Type} {key : α → κ}

/-- Between two elements with one key there are only elements with this key. -/
def Grouped (key : α → κ) (l : List α) : Prop :=
  ∀ a b c, [a, b, c].Sublist l → key a = key c → key b = key a

theorem grouped_nil : Grouped key [] := by
  intro a b c h
  cases h

theorem Grouped.sublist {l l' : List α} (h : Grouped key l) (hsub : l'.Sublist l) : Grouped key l' :=
  fun a b c habc => h a b c (habc.trans hsub)

/-- The elements with the key `k` are one block; if there is none, its place is at the end. -/
structure Block (key : α → κ) (k : κ) (l block r : List α) : Prop where
  before : ∀ x ∈ l, key x ≠ k
  eq : ∀ x ∈ block, key x = k
  after : ∀ x ∈ r, key x ≠ k
  nil : block = [] → r = []

theorem Grouped.exists_block [DecidableEq κ] {l : List α} (h : Grouped key l) (k : κ) :
    ∃ before block after, l = before ++ block ++ after ∧ Block key k before block after := by
  induction l with
  | nil => exact ⟨[], [], [], rfl, by simp, by simp, by simp, fun _ => rfl⟩
  | cons x l ih =>
    obtain ⟨before, block, after, rfl, hbefore, hblock, hafter, hnil⟩ :=
      ih (h.sublist (sublist_cons_self x l))
    by_cases hx : key x = k
    · cases block with
      | nil =>
        refine ⟨[], [x], before, by simp [hnil rfl], by simp, by simpa using hx, hbefore, by simp⟩
      | cons c block =>
        -- nothing can stand between `x` and the block
        have hempty : before = [] := by
          cases before with
          | nil => rfl
          | cons b before =>
            have hc : key c = k := hblock c mem_cons_self
            have hsub : [x, b, c].Sublist (x :: (b :: before ++ c :: block ++ after)) := by
              refine .cons_cons x (.cons_cons b (singleton_sublist.2 ?_))
              simp
            exact absurd ((h x b c hsub (hx.trans hc.symm)).trans hx)
              (hbefore b mem_cons_self)
        subst hempty
        exact ⟨[], x :: c :: block, after, rfl, by simp, forall_mem_cons.2 ⟨hx, hblock⟩, hafter,
          by simp⟩
    · exact ⟨x :: before, block, after, rfl, forall_mem_cons.2 ⟨hx, hbefore⟩, hblock, hafter,
        hnil⟩

theorem grouped_cons {x : α} {l : List α} : Grouped key (x :: l) ↔
      (∀ b c, [b, c].Sublist l → key x = key c → key b = key x) ∧ Grouped key l := by
  constructor
  · intro h
    exact ⟨fun b c hbc => h x b c (hbc.cons_cons x), h.sublist (sublist_cons_self x l)⟩
  · rintro ⟨hx, hl⟩ a b c habc
    rcases sublist_cons_iff.1 habc with habc | ⟨r, heq, hr⟩
    · exact hl a b c habc
    · obtain ⟨rfl, rfl⟩ := cons_eq_cons.1 heq
      exact hx b c hr

/-- Two elements of a list in two parts. -/
theorem pair_sublist_append {b c : α} {l l' : List α} :
    [b, c].Sublist (l ++ l') ↔ [b, c].Sublist l ∨ b ∈ l ∧ c ∈ l' ∨ [b, c].Sublist l' := by
  constructor
  · intro h
    obtain ⟨l₁, l₂, heq, h₁, h₂⟩ := sublist_append_iff.1 h
    match l₁, heq with
    | [], heq => exact .inr (.inr (by simpa [heq] using h₂))
    | [_], heq =>
      obtain ⟨rfl, rfl⟩ := cons_eq_cons.1 heq
      exact .inr (.inl ⟨singleton_sublist.1 h₁, singleton_sublist.1 h₂⟩)
    | [_, _], heq =>
      obtain ⟨rfl, hrest⟩ := cons_eq_cons.1 heq
      obtain ⟨rfl, -⟩ := cons_eq_cons.1 hrest
      exact .inl h₁
    | _ :: _ :: _ :: _, heq => simp at heq
  · rintro (h | ⟨hb, hc⟩ | h)
    · exact h.trans (sublist_append_left _ _)
    · exact (singleton_sublist.2 hb).append (singleton_sublist.2 hc)
    · exact h.trans (sublist_append_right _ _)

theorem Grouped.block_append {block after : List α} {k : κ} (hblock : ∀ x ∈ block, key x = k)
    (hafter : ∀ x ∈ after, key x ≠ k) (h : Grouped key after) : Grouped key (block ++ after) := by
  induction block with
  | nil => exact h
  | cons x block ih =>
    obtain ⟨hx, hblock⟩ := forall_mem_cons.1 hblock
    refine grouped_cons.2 ⟨fun b c hbc hkey => ?_, ih hblock⟩
    have hc : c ∉ after := fun hmem => hafter c hmem (hkey.symm.trans hx)
    rcases pair_sublist_append.1 hbc with hbc | ⟨-, hmem⟩ | hbc
    · exact (hblock b (hbc.subset mem_cons_self)).trans hx.symm
    · exact absurd hmem hc
    · exact absurd (hbc.subset (by simp)) hc

/-- A list of one key in the place of the block of this key. -/
theorem Grouped.replace {before block after block' : List α} {k : κ}
    (h : Grouped key (before ++ block ++ after)) (hk : Block key k before block after)
    (hblock' : ∀ x ∈ block', key x = k) : Grouped key (before ++ block' ++ after) := by
  obtain ⟨hbefore, hblock, hafter, hnil⟩ := hk
  induction before with
  | nil => exact .block_append hblock' hafter (h.sublist (sublist_append_right _ _))
  | cons x before ih =>
    obtain ⟨hx, hbefore⟩ := forall_mem_cons.1 hbefore
    simp only [cons_append] at h ⊢
    obtain ⟨hhead, htail⟩ := grouped_cons.1 h
    refine grouped_cons.2 ⟨fun b c hbc hkey => ?_, ih htail hbefore⟩
    have hc : c ∉ block' := fun hmem => hx (hkey.trans (hblock' c hmem))
    rcases pair_sublist_append.1 hbc with hbc | ⟨hb, hmem⟩ | hbc
    · rcases pair_sublist_append.1 hbc with hbc | ⟨-, hmem⟩ | hbc
      · refine hhead b c (hbc.trans ?_) hkey
        rw [append_assoc]
        exact sublist_append_left _ _
      · exact absurd hmem hc
      · exact absurd (hbc.subset (by simp)) hc
    · rcases mem_append.1 hb with hb | hb
      · refine hhead b c (pair_sublist_append.2 (.inr (.inl ⟨?_, hmem⟩))) hkey
        exact mem_append_left _ hb
      · -- the old block stood between `x` and `c`
        cases block with
        | nil =>
          rw [hnil rfl] at hmem
          cases hmem
        | cons d block =>
          have hd : key d = key x := by
            refine hhead d c (pair_sublist_append.2 (.inr (.inl ⟨?_, hmem⟩))) hkey
            simp
          exact absurd (hd.symm.trans (hblock d mem_cons_self)) hx
    · exact hhead b c (hbc.trans (sublist_append_right _ _)) hkey

end Ish.Lib
