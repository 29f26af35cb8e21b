import Ish.Memory.PageTable

/-!
# The page table as a map from slots to entries

A page number reaches the slot `page % 2^36`. Seen through `mem_pt`, a store into the table is a
point update of the map from slots to entries, and `mem_next_page` skips only empty slots.
-/

namespace Ish

open Function

/-! ### Slots -/

theorem ptIndex_eq_iff (p q : Nat) :
    (ptIndex p 0 = ptIndex q 0 ∧ ptIndex p 1 = ptIndex q 1 ∧ ptIndex p 2 = ptIndex q 2 ∧
      ptIndex p 3 = ptIndex q 3) ↔ p % memPages = q % memPages := by
  simp only [Fin.ext_iff, ptIndex_zero_val, ptIndex_one_val, ptIndex_two_val, ptIndex_three_val]
  unfold memPages
  omega

theorem mod_memPages_of_lt {p : Nat} (h : p < memPages) : p % memPages = p :=
  Nat.mod_eq_of_lt h

variable (m : Mem) (p : Nat) (flags : Flags)

theorem memPt_congr {p q : Nat} (h : p % memPages = q % memPages) : memPt m p = memPt m q := by
  obtain ⟨h0, h1, h2, h3⟩ := (ptIndex_eq_iff p q).2 h
  unfold memPt
  rw [h0, h1, h2, h3]

@[simp]
theorem memPt_mod : memPt m (p % memPages) = memPt m p :=
  memPt_congr m (Nat.mod_mod _ _)

theorem memPt_eq_of_pgdir {m m' : Mem} (h : m.pgdir = m'.pgdir) (p : Nat) : memPt m p = memPt m' p := by
  unfold memPt
  rw [h]

@[simp]
theorem memPt_memChanged : memPt (memChanged m) p = memPt m p := rfl

@[simp]
theorem memPt_memInit : memPt memInit p = none := rfl

/-! ### Absent subtrees -/

theorem memPt_eq_none_of_l0 {m : Mem} {p q : Nat} (h : m.pgdir.children (ptIndex p 0) = none)
    (hq : q / 0x8000000 = p / 0x8000000) : memPt m q = none := by
  have h0 : ptIndex q 0 = ptIndex p 0 := Fin.ext (by rw [ptIndex_zero_val, ptIndex_zero_val, hq])
  unfold memPt
  rw [h0, h]

theorem memPt_eq_none_of_l1 {m : Mem} {p q : Nat} {l1 : PtNode (PtNode PtL3)}
    (h : m.pgdir.children (ptIndex p 0) = some l1) (h' : l1.children (ptIndex p 1) = none)
    (hq : q / 0x40000 = p / 0x40000) : memPt m q = none := by
  have h0 : ptIndex q 0 = ptIndex p 0 := Fin.ext (by rw [ptIndex_zero_val, ptIndex_zero_val]; omega)
  have h1 : ptIndex q 1 = ptIndex p 1 := Fin.ext (by rw [ptIndex_one_val, ptIndex_one_val, hq])
  unfold memPt
  simp only [h0, h1, h, h']

theorem memPt_eq_none_of_l2 {m : Mem} {p q : Nat} {l1 : PtNode (PtNode PtL3)} {l2 : PtNode PtL3}
    (h : m.pgdir.children (ptIndex p 0) = some l1) (h' : l1.children (ptIndex p 1) = some l2)
    (h'' : l2.children (ptIndex p 2) = none) (hq : q / 0x200 = p / 0x200) : memPt m q = none := by
  have h0 : ptIndex q 0 = ptIndex p 0 := Fin.ext (by rw [ptIndex_zero_val, ptIndex_zero_val]; omega)
  have h1 : ptIndex q 1 = ptIndex p 1 := Fin.ext (by rw [ptIndex_one_val, ptIndex_one_val]; omega)
  have h2 : ptIndex q 2 = ptIndex p 2 := Fin.ext (by rw [ptIndex_two_val, ptIndex_two_val, hq])
  unfold memPt
  simp only [h0, h1, h2, h, h', h'']

/-! ### Stores into the table -/

/-- A store into the slot of `p` is read back through every page number of that slot, and through
no other. -/
theorem memPt_memPtSet (p q : Nat) (e : Option PtEntry) :
    memPt (memPtSet m p e) q = if q % memPages = p % memPages then e else memPt m q := by
  have hslot := ptIndex_eq_iff q p
  unfold memPt memPtSet PtNode.setChild PtNode.childNew
  by_cases h0 : ptIndex q 0 = ptIndex p 0
  swap
  · rw [if_neg (fun h => h0 (hslot.2 h).1)]
    simp only [update_of_ne h0]
  by_cases h1 : ptIndex q 1 = ptIndex p 1
  swap
  · rw [if_neg (fun h => h1 (hslot.2 h).2.1)]
    simp only [h0, update_self, update_of_ne h1]
    cases m.pgdir.children (ptIndex p 0) <;> rfl
  by_cases h2 : ptIndex q 2 = ptIndex p 2
  swap
  · rw [if_neg (fun h => h2 (hslot.2 h).2.2.1)]
    simp only [h0, h1, update_self, update_of_ne h2]
    cases m.pgdir.children (ptIndex p 0) with
    | none => rfl
    | some l1 =>
      simp only [Option.getD_some]
      cases l1.children (ptIndex p 1) <;> rfl
  by_cases h3 : ptIndex q 3 = ptIndex p 3
  · rw [if_pos (hslot.1 ⟨h0, h1, h2, h3⟩)]
    simp only [h0, h1, h2, h3, update_self]
  · rw [if_neg (fun h => h3 (hslot.2 h).2.2.2)]
    simp only [h0, h1, h2, update_self, update_of_ne h3]
    cases m.pgdir.children (ptIndex p 0) with
    | none => rfl
    | some l1 =>
      simp only [Option.getD_some]
      cases l1.children (ptIndex p 1) with
      | none => rfl
      | some l2 =>
        simp only [Option.getD_some]
        cases l2.children (ptIndex p 2) <;> rfl

theorem memPt_memPtNew (p q : Nat) (e : PtEntry) :
    memPt (memPtNew m p e) q = if q % memPages = p % memPages then some e else memPt m q :=
  memPt_memPtSet m p q (some e)

theorem memPt_memPtDel (p q : Nat) :
    memPt (memPtDel m p) q = if q % memPages = p % memPages then none else memPt m q := by
  unfold memPtDel
  cases h : memPt m p with
  | none =>
    split_ifs with hq
    · exact (memPt_congr m hq).trans h
    · rfl
  | some e => exact memPt_memPtSet m p q none

theorem memPt_memPtSetFlags (p q : Nat) (flags : Flags) : memPt (memPtSetFlags m p flags) q =
      if q % memPages = p % memPages then (memPt m p).map fun e => { e with flags := flags }
      else memPt m q := by
  unfold memPtSetFlags
  cases h : memPt m p with
  | none =>
    split_ifs with hq
    · rw [memPt_congr m hq, h]
      rfl
    · rfl
  | some e => exact memPt_memPtSet m p q _

@[simp]
theorem memPtSet_reservations (e : Option PtEntry) : (memPtSet m p e).reservations = m.reservations := rfl

@[simp]
theorem memPtSet_changes (e : Option PtEntry) : (memPtSet m p e).changes = m.changes := rfl

@[simp]
theorem memPtDel_reservations : (memPtDel m p).reservations = m.reservations := by
  unfold memPtDel
  split <;> rfl

@[simp]
theorem memPtDel_nextReservation : (memPtDel m p).nextReservation = m.nextReservation := by
  unfold memPtDel
  split <;> rfl

@[simp]
theorem memPtDel_changes : (memPtDel m p).changes = m.changes := by
  unfold memPtDel
  split <;> rfl

@[simp]
theorem memPtSetFlags_reservations : (memPtSetFlags m p flags).reservations = m.reservations := by
  unfold memPtSetFlags
  split <;> rfl

@[simp]
theorem memPtSetFlags_nextReservation : (memPtSetFlags m p flags).nextReservation = m.nextReservation := by
  unfold memPtSetFlags
  split <;> rfl

@[simp]
theorem memPtSetFlags_changes : (memPtSetFlags m p flags).changes = m.changes := by
  unfold memPtSetFlags
  split <;> rfl

/-! ### `mem_next_page` -/

theorem le_memNextPage_go (page : Nat) : page ≤ memNextPage.go m page := by
  induction page using memNextPage.go.induct m with
  | case1 page h h0 ih =>
    rw [memNextPage.go, if_pos h, h0]
    exact le_trans (by omega) ih
  | case2 page h l1 h0 h1 ih =>
    rw [memNextPage.go, if_pos h, h0]
    simp only [h1]
    exact le_trans (by omega) ih
  | case3 page h l1 h0 l2 h1 h2 ih =>
    rw [memNextPage.go, if_pos h, h0]
    simp only [h1, h2]
    exact le_trans (by omega) ih
  | case4 page h l1 h0 l2 h1 l3 h2 =>
    rw [memNextPage.go, if_pos h, h0]
    simp only [h1, h2, le_refl]
  | case5 page h =>
    rw [memNextPage.go, if_neg h]

theorem memNextPage_go_le (page : Nat) (hpage : page ≤ memPages) : memNextPage.go m page ≤ memPages := by
  induction page using memNextPage.go.induct m with
  | case1 page h h0 ih =>
    rw [memNextPage.go, if_pos h, h0]
    unfold memPages at h ih ⊢
    exact ih (by omega)
  | case2 page h l1 h0 h1 ih =>
    rw [memNextPage.go, if_pos h, h0]
    simp only [h1]
    unfold memPages at h ih ⊢
    exact ih (by omega)
  | case3 page h l1 h0 l2 h1 h2 ih =>
    rw [memNextPage.go, if_pos h, h0]
    simp only [h1, h2]
    unfold memPages at h ih ⊢
    exact ih (by omega)
  | case4 page h l1 h0 l2 h1 l3 h2 =>
    rw [memNextPage.go, if_pos h, h0]
    simp only [h1, h2]
    exact hpage
  | case5 page h =>
    rw [memNextPage.go, if_neg h]
    exact hpage

theorem memPt_eq_none_of_lt_memNextPage_go (page : Nat) :
    ∀ q, page ≤ q → q < memNextPage.go m page → q < memPages → memPt m q = none := by
  induction page using memNextPage.go.induct m with
  | case1 page h h0 ih =>
    rw [memNextPage.go, if_pos h, h0]
    intro q hq hlt hmem
    by_cases hskip : q < (page / 0x8000000 + 1) * 0x8000000
    · exact memPt_eq_none_of_l0 h0 (by omega)
    · exact ih q (by omega) hlt hmem
  | case2 page h l1 h0 h1 ih =>
    rw [memNextPage.go, if_pos h, h0]
    simp only [h1]
    intro q hq hlt hmem
    by_cases hskip : q < (page / 0x40000 + 1) * 0x40000
    · exact memPt_eq_none_of_l1 h0 h1 (by omega)
    · exact ih q (by omega) hlt hmem
  | case3 page h l1 h0 l2 h1 h2 ih =>
    rw [memNextPage.go, if_pos h, h0]
    simp only [h1, h2]
    intro q hq hlt hmem
    by_cases hskip : q < (page / 0x200 + 1) * 0x200
    · exact memPt_eq_none_of_l2 h0 h1 h2 (by omega)
    · exact ih q (by omega) hlt hmem
  | case4 page h l1 h0 l2 h1 l3 h2 =>
    rw [memNextPage.go, if_pos h, h0]
    simp only [h1, h2]
    intro q hq hlt
    omega
  | case5 page h =>
    rw [memNextPage.go, if_neg h]
    intro q hq hlt
    omega

theorem lt_memNextPage (page : Nat) : page < memNextPage m page := by
  unfold memNextPage
  split_ifs
  · exact le_memNextPage_go m (page + 1)
  · exact Nat.lt_succ_self page

/-- **`mem_next_page` skips no mapping.** -/
theorem memPt_eq_none_of_lt_memNextPage {page q : Nat} (hq : page < q)
    (hlt : q < memNextPage m page) : memPt m q = none := by
  unfold memNextPage at hlt
  split_ifs at hlt with h
  · have hle := memNextPage_go_le m (page + 1) (le_of_lt h)
    exact memPt_eq_none_of_lt_memNextPage_go m (page + 1) q hq hlt (lt_of_lt_of_le hlt hle)
  · omega

end Ish
