import Ish.Memory.Hole
import Ish.Memory.Equiv.PageTable
import Ish.Memory.Equiv.Reservation

/-!
# Soundness of the hole search

A range that `pt_find_hole` or `pt_find_hole_high` returns is unmapped, outside every reservation
and inside one of the two windows the search covers.
-/

namespace Ish

/-- No page of `[r, r + size)` has an entry. -/
def Unmapped (m : Mem) (r size : Nat) : Prop :=
  ∀ q, r ≤ q → q < r + size → memPt m q = none

/-- No page of `[r, r + size)` lies in a reservation. -/
def Unreserved (m : Mem) (r size : Nat) : Prop :=
  ∀ q, r ≤ q → q < r + size → memFindReservation m q = none

/-! ### Subtrees -/

variable {m : Mem}

/-- The pages from the base of an absent L0 subtree up to `page` are unmapped. -/
theorem memPt_eq_none_of_l0Base {page q : Nat} (hpage : page < memPages) (h0 : m.pgdir.children (ptIndex page 0) = none)
    (hq : (ptIndex page 0).val * 0x8000000 ≤ q) (hle : q ≤ page) : memPt m q = none := by
  unfold memPages at hpage
  rw [ptIndex_zero_val] at hq
  exact memPt_eq_none_of_l0 h0 (by omega)

theorem memPt_eq_none_of_l1Base {page q : Nat} {l1 : PtNode (PtNode PtL3)}
    (hpage : page < memPages) (h0 : m.pgdir.children (ptIndex page 0) = some l1)
    (h1 : l1.children (ptIndex page 1) = none)
    (hq : (ptIndex page 0).val * 0x8000000 + (ptIndex page 1).val * 0x40000 ≤ q) (hle : q ≤ page) :
    memPt m q = none := by
  unfold memPages at hpage
  rw [ptIndex_zero_val, ptIndex_one_val] at hq
  exact memPt_eq_none_of_l1 h0 h1 (by omega)

theorem memPt_eq_none_of_l2Base {page q : Nat} {l1 : PtNode (PtNode PtL3)} {l2 : PtNode PtL3} (hpage : page < memPages)
    (h0 : m.pgdir.children (ptIndex page 0) = some l1)
    (h1 : l1.children (ptIndex page 1) = some l2) (h2 : l2.children (ptIndex page 2) = none)
    (hq : (ptIndex page 0).val * 0x8000000 + (ptIndex page 1).val * 0x40000 +
      (ptIndex page 2).val * 0x200 ≤ q) (hle : q ≤ page) : memPt m q = none := by
  unfold memPages at hpage
  rw [ptIndex_zero_val, ptIndex_one_val, ptIndex_two_val] at hq
  exact memPt_eq_none_of_l2 h0 h1 h2 (by omega)

/-! ### The downward scan -/

/-- The invariant of the downward scan: an open hole reaches from the page looked at to its end,
which is at most `bound`. -/
def HoleOpen (m : Mem) (bound page : Nat) : Option Nat → Prop
  | none => page < bound
  | some holeEnd =>
    page < holeEnd ∧ holeEnd ≤ bound ∧ ∀ q, page < q → q < holeEnd → memPt m q = none

/-- What a result of the downward scan satisfies. -/
def HoleBelow (m : Mem) (size bound r : Nat) : Prop :=
  r = badPage ∨ mmapHoleEnd < r ∧ r + size ≤ bound ∧ Unmapped m r size

theorem HoleOpen.extend {bound page : Nat} {hole : Option Nat} (h : HoleOpen m bound page hole) (base : Nat)
    (hfree : ∀ q, base ≤ q → q ≤ page → memPt m q = none) : page < hole.getD (page + 1) ∧ hole.getD (page + 1) ≤ bound ∧
      ∀ q, base ≤ q → q < hole.getD (page + 1) → memPt m q = none := by
  cases hole with
  | none =>
    simp only [HoleOpen] at h
    refine ⟨Nat.lt_succ_self page, h, fun q hq hlt => ?_⟩
    exact hfree q hq (Nat.le_of_lt_succ hlt)
  | some e =>
    obtain ⟨hlt, hle, hopen⟩ := h
    refine ⟨hlt, hle, fun q hq hqe => ?_⟩
    by_cases hpq : page < q
    · exact hopen q hpq hqe
    · exact hfree q hq (by omega)

theorem holeInSubtree_sound {size bound base holeEnd r : Nat} (hle : holeEnd ≤ bound)
    (hsize : 1 ≤ size) (hfree : ∀ q, base ≤ q → q < holeEnd → memPt m q = none)
    (h : holeInSubtree size holeEnd base = some r) : HoleBelow m size bound r := by
  unfold holeInSubtree at h
  simp only [Option.ite_none_right_eq_some, Option.some.injEq] at h
  obtain ⟨hge, rfl⟩ := h
  have hbase : base ≤ holeEnd - size ∧ mmapHoleEnd < holeEnd - size := by
    split_ifs at hge <;> omega
  exact Or.inr ⟨hbase.2, by omega, fun q hq hlt => hfree q (by omega) (by omega)⟩

/-- **The downward scan is sound**: by induction on the page looked at. -/
theorem ptFindHoleFrom_go_sound (m : Mem) {size bound : Nat} (hsize : 1 ≤ size) :
    ∀ (page : Nat) (hole : Option Nat), page < memPages → HoleOpen m bound page hole →
      HoleBelow m size bound (ptFindHoleFrom.go m size page hole) := by
  intro page
  induction page using Nat.strong_induction_on with
  | _ page ih =>
  intro hole hpage hopen
  -- the three fast skips share this step: the subtree from `base` up to `page` is absent
  have skip : ∀ base x, base ≤ page → (∀ q, base ≤ q → q ≤ page → memPt m q = none) →
      (∀ r, holeInSubtree size (hole.getD (page + 1)) base = some r → x = r) →
      (holeInSubtree size (hole.getD (page + 1)) base = none → x = if base = 0 then badPage
        else ptFindHoleFrom.go m size (base - 1) (some (hole.getD (page + 1)))) → HoleBelow m size bound x := by
    intro base x hbase hfree hsome hnone
    obtain ⟨hlt, hle, hall⟩ := hopen.extend base hfree
    cases hr : holeInSubtree size (hole.getD (page + 1)) base with
    | some r =>
      rw [hsome r hr]
      exact holeInSubtree_sound hle hsize hall hr
    | none =>
      rw [hnone hr]
      split_ifs with h0
      · exact Or.inl rfl
      · refine ih (base - 1) (by omega) _ (by omega) ⟨by omega, hle, fun q hq hqe => ?_⟩
        exact hall q (by omega) hqe
  unfold ptFindHoleFrom.go
  by_cases hend : mmapHoleEnd < page
  swap
  · rw [if_neg hend]
    exact Or.inl rfl
  rw [if_pos hend]
  cases h0 : m.pgdir.children (ptIndex page 0) with
  | none =>
    refine skip _ _ ?_ (fun q hq hqp => memPt_eq_none_of_l0Base hpage h0 hq hqp) (fun r hr => by simp only [hr])
      fun hr => by simp only [hr]
    rw [ptIndex_zero_val]
    omega
  | some l1 =>
  cases h1 : l1.children (ptIndex page 1) with
  | none =>
    simp only [h1]
    refine skip _ _ ?_ (fun q hq hqp => memPt_eq_none_of_l1Base hpage h0 h1 hq hqp) (fun r hr => by simp only [hr])
      fun hr => by simp only [hr]
    rw [ptIndex_zero_val, ptIndex_one_val]
    omega
  | some l2 =>
  cases h2 : l2.children (ptIndex page 2) with
  | none =>
    simp only [h1, h2]
    refine skip _ _ ?_ (fun q hq hqp => memPt_eq_none_of_l2Base hpage h0 h1 h2 hq hqp) (fun r hr => by simp only [hr])
      fun hr => by simp only [hr]
    rw [ptIndex_zero_val, ptIndex_one_val, ptIndex_two_val]
    omega
  | some l3 =>
  have hne : page ≠ 0 := by omega
  simp only [h1, h2, if_neg hne]
  cases hpt : memPt m page with
  | some e =>
    refine ih (page - 1) (by omega) none (by omega) ?_
    cases hole with
    | none => exact lt_of_le_of_lt (Nat.sub_le page 1) hopen
    | some e => exact lt_of_le_of_lt (Nat.sub_le page 1) (lt_of_lt_of_le hopen.1 hopen.2.1)
  | none =>
    obtain ⟨hlt, hle, hall⟩ := hopen.extend page fun q hq hqp => by
      rw [le_antisymm hqp hq, hpt]
    simp only
    split_ifs with hbig
    · exact Or.inr ⟨hend, by omega, fun q hq hq' => hall q hq (by omega)⟩
    · refine ih (page - 1) (by omega) _ (by omega) ⟨by omega, hle, fun q hq hqe => ?_⟩
      exact hall q (by omega) hqe

theorem ptFindHoleFrom_sound (m : Mem) {size start : Nat} (hsize : 1 ≤ size) (hstart : start ≤ mmapHoleStart) :
    HoleBelow m size (mmapHoleStart + 1) (ptFindHoleFrom m size start) := by
  have hmem : mmapHoleStart < memPages := by decide
  exact ptFindHoleFrom_go_sound m hsize start none (by omega) (Nat.lt_succ_of_le hstart)

/-! ### Reservations -/

theorem MemReservation.rawEnd_eq {r : MemReservation} (h : r.start + r.pages ≤ memPages) :
    r.rawEnd = r.start + r.pages :=
  Nat.mod_eq_of_lt (lt_of_le_of_lt h (by decide))

theorem unreserved_of_memRangeHasReservation {start size : Nat}
    (hmem : start + size ≤ memPages) (h : memRangeHasReservation m start size = false) : Unreserved m start size := by
  intro q hq hlt
  rw [memFindReservation_eq_none_iff]
  intro r hr hcov
  obtain ⟨hstart, hend, hmem'⟩ := MemReservation.covers_iff.1 hcov
  have hpages : r.pages ≠ 0 := by omega
  have hrange := r.rangeEnd_cases
  unfold memRangeHasReservation at h
  rw [pageRangeEnd_eq hmem, if_neg (by omega), if_neg (by omega)] at h
  have hfree := List.any_eq_false.1 h r hr
  simp only [ne_eq, decide_eq_true_eq] at hfree
  exact hfree ⟨hpages, Or.inr ⟨by omega, by omega⟩⟩

/-! ### The upward scan -/

/-- When the scan neither moved the candidate nor found a reservation close above it, every
reservation ends below the candidate, starts after the subtree, or starts no earlier than the
`first` it reports. -/
theorem ptFindHoleHigh.scan_min {subtreeEnd candidate c : Nat} {res : Option MemReservation}
    (rs : List MemReservation) : ∀ first : Option MemReservation, scan subtreeEnd candidate rs first = (c, res) →
      (∀ f, res = some f → c < f.start) → c = candidate ∧
      (∀ g, first = some g → ∃ f, res = some f ∧ f.start ≤ g.start) ∧
      ∀ r ∈ rs, r.rawEnd ≤ candidate ∨ subtreeEnd ≤ r.start ∨ ∃ f, res = some f ∧ f.start ≤ r.start := by
  induction rs with
  | nil =>
    intro first h hres
    cases h
    exact ⟨rfl, fun g hg => ⟨g, hg, le_refl _⟩, by simp⟩
  | cons r rs ih =>
    intro first h hres
    unfold scan at h
    split_ifs at h with hskip hcov
    · obtain ⟨hc, hfirst, hall⟩ := ih first h hres
      refine ⟨hc, hfirst, List.forall_mem_cons.2 ⟨?_, hall⟩⟩
      exact hskip.imp id Or.inl
    · -- the scan stopped at `r`, which does not start above its own end
      cases h
      have := hres r rfl
      omega
    · cases first with
      | none =>
        obtain ⟨hc, hfirst, hall⟩ := ih (some r) h hres
        exact ⟨hc, by simp, List.forall_mem_cons.2 ⟨Or.inr (Or.inr (hfirst r rfl)), hall⟩⟩
      | some g =>
        dsimp only at h
        split_ifs at h with hlt
        · obtain ⟨hc, hfirst, hall⟩ := ih (some r) h hres
          obtain ⟨f, hf, hle⟩ := hfirst r rfl
          refine ⟨hc, ?_, List.forall_mem_cons.2 ⟨Or.inr (Or.inr ⟨f, hf, hle⟩), hall⟩⟩
          rintro _ ⟨⟩
          exact ⟨f, hf, by omega⟩
        · obtain ⟨hc, hfirst, hall⟩ := ih (some g) h hres
          obtain ⟨f, hf, hle⟩ := hfirst g rfl
          refine ⟨hc, hfirst, List.forall_mem_cons.2 ⟨Or.inr (Or.inr ⟨f, hf, by omega⟩), hall⟩⟩

theorem ptFindHoleHigh.unreserved_of_scan (hin : ReservationsInside m)
    (size : Nat) {subtreeEnd candidate c : Nat} {res : Option MemReservation} (hsize : 1 ≤ size)
    (hscan : scan subtreeEnd candidate m.reservations none = (c, res))
    (hend : c + size ≤ subtreeEnd) (hres : ∀ f, res = some f → c + size ≤ f.start) :
    c = candidate ∧ Unreserved m c size := by
  obtain ⟨hc, -, hall⟩ := scan_min m.reservations none hscan fun f hf => by
    have := hres f hf
    omega
  refine ⟨hc, fun q hq hlt => (memFindReservation_eq_none_iff m q).2 fun r hr hcov => ?_⟩
  obtain ⟨hstart, hq', -⟩ := MemReservation.covers_iff.1 hcov
  rcases hall r hr with h | h | ⟨f, hf, hle⟩
  · rw [MemReservation.rawEnd_eq (hin r hr (by omega))] at h
    omega
  · omega
  · have := hres f hf
    omega

variable {size : Nat}

theorem ptFindHoleHigh.search_sound (hin : ReservationsInside m) (hsize : 1 ≤ size) (subtreeEnd : Nat) :
    ∀ n candidate r, subtreeEnd - candidate = n → search m size subtreeEnd candidate = some r →
      candidate ≤ r ∧ r + size ≤ subtreeEnd ∧ Unreserved m r size := by
  intro n
  induction n using Nat.strong_induction_on with
  | _ n ih =>
  intro candidate r hn h
  unfold search at h
  split_ifs at h with hlt
  split at h
  · rename_i c hscan
    split_ifs at h with hbig
    cases h
    obtain ⟨hc, hclear⟩ := unreserved_of_scan hin size hsize hscan (by omega) (by simp)
    exact ⟨hc.ge, by omega, hclear⟩
  · rename_i c first hscan
    obtain ⟨hraw, hcases⟩ := scan_progress hscan
    split_ifs at h with habove hbig
    · cases h
      obtain ⟨-, hlow⟩ | ⟨⟨-, -, hsub⟩, hc⟩ := hcases
      · omega
      · have hclear := (unreserved_of_scan hin size hsize hscan (by omega)
          (by rintro f ⟨⟩; omega)).2
        exact ⟨hc.ge, by omega, hclear⟩
    · obtain ⟨hle, hrest⟩ := ih _ (by omega) first.rawEnd r rfl h
      exact ⟨by omega, hrest⟩
    · obtain ⟨hmove, -⟩ | ⟨⟨hstart, -⟩, hc⟩ := hcases
      · obtain ⟨hle, hrest⟩ := ih _ (by omega) c r rfl h
        exact ⟨by omega, hrest⟩
      · omega

theorem ptFindHoleHigh.inSubtree_sound (hin : ReservationsInside m) {size page r : Nat}
    (hsize : 1 ≤ size) (hpage : page < userAddrMaxPage) (h : inSubtree m size page = some r) :
    page ≤ r ∧ r + size ≤ userAddrMaxPage ∧ Unmapped m r size ∧ Unreserved m r size := by
  unfold inSubtree at h
  cases h0 : m.pgdir.children (ptIndex page 0) with
  | some l1 => simp [h0] at h
  | none =>
    simp only [h0] at h
    obtain ⟨hle, hend, hclear⟩ := search_sound hin hsize (subtreeEnd page) _ _ r rfl h
    have hbase : firstCandidate page = page := by
      unfold firstCandidate
      rw [ptIndex_zero_val]
      dsimp only
      split_ifs <;> omega
    unfold subtreeEnd at hend
    rw [Nat.le_min] at hend
    refine ⟨hbase ▸ hle, hend.2, fun q hq hlt => ?_, hclear⟩
    have hup := lt_of_lt_of_le hlt hend.1
    rw [ptIndex_zero_val] at hup
    unfold userAddrMaxPage at hpage
    exact memPt_eq_none_of_l0 h0 (by omega)

/-- **The upward scan is sound.** -/
theorem ptFindHoleHigh.go_sound (hin : ReservationsInside m) (hsize : 1 ≤ size) (page : Nat) :
    go m size page = badPage ∨ page ≤ go m size page ∧ go m size page + size ≤ userAddrMaxPage ∧
        Unmapped m (go m size page) size ∧ Unreserved m (go m size page) size := by
  induction page using go.induct m size with
  | case1 page hpage candidate h =>
    rw [go, if_pos hpage, h]
    exact Or.inr (inSubtree_sound hin hsize hpage h)
  | case2 page hpage h ih =>
    rw [go, if_pos hpage, h]
    dsimp only
    have := lt_subtreeEnd hpage
    exact ih.imp id fun ⟨hle, hrest⟩ => ⟨by omega, hrest⟩
  | case3 page hpage =>
    rw [go, if_neg hpage]
    exact Or.inl rfl

/-! ### `pt_find_hole` -/

/-- The low window of the search, `(MMAP_HOLE_END, MMAP_HOLE_START]`. -/
def InLowWindow (r size : Nat) : Prop :=
  mmapHoleEnd < r ∧ r + size ≤ mmapHoleStart + 1

/-- The high window of the search, `[0x100000, USER_ADDR_MAX_PAGE]`. -/
def InHighWindow (r size : Nat) : Prop :=
  highBase ≤ r ∧ r + size ≤ userAddrMaxPage + 1

theorem ptFindHole.below_le {size result start : Nat} (hstart : start ≤ mmapHoleStart)
    (hresult : result + size ≤ mmapHoleStart + 1) : below m size result start ≤ mmapHoleStart := by
  unfold below
  split
  · rename_i r hr
    have hmod : (result + size) % wordMod = result + size :=
      Nat.mod_eq_of_lt (lt_of_le_of_lt hresult (by decide))
    have hlt := List.find?_some hr
    rw [hmod] at hlt
    simp only [gt_iff_lt, decide_eq_true_eq] at hlt
    split_ifs <;> omega
  · exact hstart

theorem ptFindHole.attempts_sound (hsize : 1 ≤ size) :
    ∀ (n start : Nat), start ≤ mmapHoleStart → ∀ r, (attempts m size n start).1 = some r →
      InLowWindow r size ∧ Unmapped m r size ∧ Unreserved m r size := by
  intro n
  induction n with
  | zero =>
    intro start _ r h
    cases h
  | succ n ih =>
    intro start hstart r h
    unfold attempts at h
    dsimp only at h
    rcases ptFindHoleFrom_sound m hsize hstart with hbad | ⟨hlow, hhigh, hfree⟩
    · rw [if_pos hbad] at h
      cases h
    · split_ifs at h with hbad hres
      · exact ih _ (below_le hstart hhigh) r h
      · cases h
        refine ⟨⟨hlow, hhigh⟩, hfree, ?_⟩
        have hmem : mmapHoleStart + 1 ≤ memPages := by decide
        exact unreserved_of_memRangeHasReservation (by omega) (by simpa using hres)

theorem ptFindHole.start_le (m : Mem) (size : Nat) : start m size ≤ mmapHoleStart := by
  unfold start
  split_ifs <;> omega

/-- The result of `pt_find_hole` comes from an attempt in the low window or from the upward scan;
only the hint of the address space changes. -/
theorem ptFindHole_cases (m : Mem) (size : Nat) : ((∃ start, start ≤ mmapHoleStart ∧
        (ptFindHole.attempts m size 10 start).1 = some (ptFindHole m size).1) ∨
      (ptFindHole m size).1 = ptFindHole.high m size) ∧
    ∃ hint, (ptFindHole m size).2 = { m with mmapHint := hint } := by
  unfold ptFindHole
  rcases hfirst : ptFindHole.attempts m size 10 (ptFindHole.start m size) with ⟨_ | result, start'⟩
  · dsimp only
    by_cases hwrap : start' < mmapHoleStart
    · rw [if_pos hwrap]
      rcases hsecond : ptFindHole.attempts m size 10 mmapHoleStart with ⟨_ | result, start''⟩
      · exact ⟨Or.inr rfl, m.mmapHint, rfl⟩
      · exact ⟨Or.inl ⟨mmapHoleStart, le_refl _, by rw [hsecond]⟩, _, rfl⟩
    · rw [if_neg hwrap]
      exact ⟨Or.inr rfl, m.mmapHint, rfl⟩
  · exact ⟨Or.inl ⟨_, ptFindHole.start_le m size, by rw [hfirst]⟩, _, rfl⟩

theorem memPt_ptFindHole (m : Mem) (size q : Nat) : memPt (ptFindHole m size).2 q = memPt m q := by
  obtain ⟨hint, hm⟩ := (ptFindHole_cases m size).2
  rw [hm]
  rfl

/-- What both searches promise of a result `r`. -/
def SoundHole (m : Mem) (size r : Nat) : Prop :=
  r ≠ badPage → Unmapped m r size ∧ Unreserved m r size ∧
    (InLowWindow r size ∨ InHighWindow r size)

theorem soundHole_ptFindHoleHigh (hin : ReservationsInside m)
    (hsize : 1 ≤ size) : SoundHole m size (ptFindHoleHigh m size) := by
  intro hne
  rcases ptFindHoleHigh.go_sound hin hsize highBase with hbad | ⟨hle, hend, hfree, hclear⟩
  · exact absurd hbad hne
  · exact ⟨hfree, hclear, Or.inr ⟨hle, Nat.le_succ_of_le hend⟩⟩

theorem soundHole_ptFindHole (hin : ReservationsInside m)
    (hsize : 1 ≤ size) : SoundHole m size (ptFindHole m size).1 := by
  intro hne
  rcases (ptFindHole_cases m size).1 with ⟨start, hstart, hfound⟩ | hhigh
  · obtain ⟨hlow, hfree, hclear⟩ := ptFindHole.attempts_sound hsize 10 start hstart _ hfound
    exact ⟨hfree, hclear, Or.inl hlow⟩
  · rw [hhigh] at hne ⊢
    unfold ptFindHole.high at hne ⊢
    dsimp only at hne ⊢
    split_ifs at hne ⊢ with hres
    · exact soundHole_ptFindHoleHigh hin hsize hres.1
    · exact absurd rfl hne

/-- **Hole-search soundness.**  Both searches are total functions of the table, the reservations
and the hint, and a range they return is unmapped, unreserved and inside a window. -/
theorem ptFindHole_sound (m : Mem) (size : Nat) (hsize : 1 ≤ size) (hin : ReservationsInside m) :
    SoundHole m size (ptFindHole m size).1 ∧ SoundHole m size (ptFindHoleHigh m size) :=
  ⟨soundHole_ptFindHole hin hsize, soundHole_ptFindHoleHigh hin hsize⟩

/-! ### Bounds that hold whatever the reservations are -/

theorem ptFindHoleFrom_of_empty (h : ∀ i, m.pgdir.children i = none) (start : Nat)
    (hlow : mmapHoleEnd < start) (hhigh : start < 0x8000000) : ptFindHoleFrom m 1 start = start := by
  have hbase : (ptIndex start 0).val = 0 := by
    rw [ptIndex_zero_val]
    omega
  have hfits : holeInSubtree 1 (start + 1) 0 = some start := by
    unfold holeInSubtree
    simp only [Nat.not_lt_zero, gt_iff_lt, if_false]
    rw [if_pos (by omega), Nat.add_sub_cancel]
  rw [ptFindHoleFrom, ptFindHoleFrom.go, if_pos hlow, h, hbase, Nat.zero_mul]
  simp only [Option.getD_none, hfits]

/-- An address space with one reservation at the top of the low window. -/
def topReserved : Mem :=
  { memInit with reservations := [⟨0, 0xefff0, 0x10, 0#32⟩] }

theorem ptFindHole_topReserved : (ptFindHole topReserved 1).1 = 0xeffef := by
  have h : ∀ i, topReserved.pgdir.children i = none := fun _ => rfl
  have hstart : ptFindHole.start topReserved 1 = mmapHoleStart := by decide
  have h1 := ptFindHoleFrom_of_empty h mmapHoleStart (by decide) (by decide)
  have h2 := ptFindHoleFrom_of_empty h 0xeffef (by decide) (by decide)
  have hb : ptFindHole.below topReserved 1 mmapHoleStart mmapHoleStart = 0xeffef := by decide
  have hatt : ptFindHole.attempts topReserved 1 10 mmapHoleStart = (some 0xeffef, 0xeffef) := by
    unfold ptFindHole.attempts
    rw [h1, if_neg (by decide), if_pos (by decide), hb]
    unfold ptFindHole.attempts
    rw [h2, if_neg (by decide), if_neg (by decide)]
  unfold ptFindHole
  rw [hstart, hatt]

theorem ptFindHole_sound_topReserved :
    (ptFindHole topReserved 1).1 = 0xeffef ∧ SoundHole topReserved 1 (ptFindHole topReserved 1).1 :=
  ⟨ptFindHole_topReserved,
    (ptFindHole_sound topReserved 1 (by decide) (by simp [ReservationsInside, MemReservation.Inside,
      topReserved, memPages])).1⟩

end Ish
