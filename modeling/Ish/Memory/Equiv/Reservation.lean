import Ish.Memory.Reservation

/-!
# What the reservation functions do to a page

The list of reservations is looked at through `mem_find_reservation`: a page is reserved, with the
flags of the first reservation that covers it, or it is not. Removing or re-flagging a range
changes that for the pages of the range only.
-/

namespace Ish

open Lib

/-! ### Ranges -/

theorem pageRangeEnd_eq_min (start : Nat) {pages : Nat} (h : pages ≠ 0) :
    pageRangeEnd start pages = min (start + pages) memPages := by
  unfold pageRangeEnd
  rw [if_neg h]
  split_ifs <;> omega

theorem pageRangeEnd_eq {start pages : Nat} (h : start + pages ≤ memPages) :
    pageRangeEnd start pages = start + pages := by
  unfold pageRangeEnd
  split_ifs <;> omega

/-- The end of a reservation, with the two cases of `page_range_end`. -/
theorem MemReservation.rangeEnd_cases (r : MemReservation) : r.pages = 0 ∧ r.rangeEnd = r.start ∨
      r.pages ≠ 0 ∧ r.rangeEnd = min (r.start + r.pages) memPages := by
  by_cases h : r.pages = 0
  · exact Or.inl ⟨h, by simp [rangeEnd, pageRangeEnd, h]⟩
  · exact Or.inr ⟨h, pageRangeEnd_eq_min r.start h⟩

theorem MemReservation.covers_iff {r : MemReservation} {q : Nat} :
    r.covers q ↔ r.start ≤ q ∧ q < r.start + r.pages ∧ q < memPages := by
  have h : r.covers q ↔ r.pages ≠ 0 ∧ r.start ≤ q ∧ q < r.rangeEnd := by simp [covers]
  rw [h]
  rcases r.rangeEnd_cases with ⟨h0, hend⟩ | ⟨h0, hend⟩ <;> omega

variable (ok : MemReservation → Bool) (m : Mem)

theorem memFindReservation_eq_none_iff (q : Nat) :
    memFindReservation m q = none ↔ ∀ r ∈ m.reservations, ¬ r.covers q := by
  simp [memFindReservation]

/-- A reservation lies inside the table. -/
def MemReservation.Inside (r : MemReservation) : Prop := r.pages ≠ 0 → r.start + r.pages ≤ memPages

/-- Every reservation lies inside the table. -/
def ReservationsInside (m : Mem) : Prop := ∀ r ∈ m.reservations, r.Inside

theorem inside_memRemoveReservations_go (start uEnd : Nat) {rs : List MemReservation} (h : ∀ r ∈ rs, r.Inside) :
    ∀ next, ∀ r ∈ (memRemoveReservations.go ok start uEnd rs next).1, r.Inside := by
  induction rs with
  | nil => exact fun _ => List.forall_mem_nil _
  | cons r rs ih =>
    obtain ⟨hr, hrs⟩ := List.forall_mem_cons.1 h
    have ih := ih hrs
    have hend := r.rangeEnd_cases
    intro next
    unfold memRemoveReservations.go
    -- what is left of `r` lies between its start and its end
    split_ifs
    · exact List.forall_mem_cons.2 ⟨hr, ih _⟩
    · exact ih _
    · refine List.forall_mem_cons.2 ⟨fun _ => ?_, List.forall_mem_cons.2 ⟨fun _ => ?_, ih _⟩⟩
      · dsimp only
        omega
      · dsimp only
        omega
    · exact List.forall_mem_cons.2 ⟨hr, ih _⟩
    · refine List.forall_mem_cons.2 ⟨fun _ => ?_, ih _⟩
      dsimp only
      omega
    · refine List.forall_mem_cons.2 ⟨fun _ => ?_, ih _⟩
      dsimp only
      omega

theorem ReservationsInside.memRemoveReservations (h : ReservationsInside m) (start pages : Nat) :
    ReservationsInside (memRemoveReservations ok m start pages) := by
  unfold Ish.memRemoveReservations
  split_ifs
  · exact h
  · exact inside_memRemoveReservations_go ok start _ h _

theorem inside_memSetReservationFlags_go (start stop : Nat) (flags : Flags) {rs : List MemReservation}
    (h : ∀ r ∈ rs, r.Inside) : ∀ next, ∀ r ∈ (memSetReservationFlags.go ok start stop flags rs next).1, r.Inside := by
  induction rs with
  | nil => exact fun _ => List.forall_mem_nil _
  | cons r rs ih =>
    obtain ⟨hr, hrs⟩ := List.forall_mem_cons.1 h
    have ih := ih hrs
    have hend := r.rangeEnd_cases
    intro next
    unfold memSetReservationFlags.go
    dsimp only
    by_cases hskip : r.start ≥ stop ∨ r.rangeEnd ≤ start
    · rw [if_pos hskip]
      exact List.forall_mem_cons.2 ⟨hr, ih _⟩
    rw [if_neg hskip]
    simp only [gt_iff_lt, ← max_def_lt, ← min_def_lt]
    generalize hos : max start r.start = overlapStart
    generalize hoe : min r.rangeEnd stop = overlapEnd
    -- the pieces of `r` end where it ends
    have hpiece : ∀ {id start pages : Nat} {flags : Flags}, (pages ≠ 0 → r.pages ≠ 0 ∧ start + pages ≤ r.rangeEnd) →
        (MemReservation.mk id start pages flags).Inside := by
      intro id start pages flags h hne
      have := h hne
      dsimp only
      omega
    split_ifs
    · exact List.forall_mem_cons.2 ⟨hpiece (by omega), List.forall_mem_cons.2 ⟨hpiece (by omega),
        List.forall_mem_cons.2 ⟨hpiece (by omega), ih _⟩⟩⟩
    · exact h
    · exact List.forall_mem_cons.2 ⟨hpiece (by omega), List.forall_mem_cons.2 ⟨hpiece (by omega), ih _⟩⟩
    · exact h
    · exact List.forall_mem_cons.2 ⟨hpiece (by omega), List.forall_mem_cons.2 ⟨hpiece (by omega), ih _⟩⟩
    · exact h
    · exact List.forall_mem_cons.2 ⟨hr, ih _⟩

theorem ReservationsInside.memSetReservationFlags (h : ReservationsInside m) (start pages : Nat) (flags : Flags) :
    ReservationsInside (memSetReservationFlags ok m start pages flags).2 := by
  unfold Ish.memSetReservationFlags
  split_ifs
  · exact h
  · exact inside_memSetReservationFlags_go ok start _ flags h _

theorem ReservationsInside.ptMapLazy (h : ReservationsInside m) (ok : Bool) {start pages : Nat}
    (hmem : start + pages ≤ memPages) (flags : Flags) : ReservationsInside (ptMapLazy ok m start pages flags).2 := by
  cases ok with
  | false => exact h
  | true => exact List.forall_mem_cons.2 ⟨fun _ => hmem, h⟩

/-! ### The flags a page is reserved with -/

/-- The flags of the first reservation of a list that covers `q`. -/
def coverFlags (rs : List MemReservation) (q : Nat) : Option Flags :=
  (rs.find? fun r => r.covers q).map (·.flags)

/-- The flags `q` is reserved with, `none` if it is not reserved. -/
def reservedFlags (m : Mem) (q : Nat) : Option Flags :=
  (memFindReservation m q).map (·.flags)

theorem reservedFlags_eq (q : Nat) : reservedFlags m q = coverFlags m.reservations q :=
  rfl

@[simp]
theorem coverFlags_nil (q : Nat) : coverFlags [] q = none := rfl

theorem coverFlags_cons (r : MemReservation) (rs : List MemReservation) (q : Nat) :
    coverFlags (r :: rs) q = if r.covers q then some r.flags else coverFlags rs q := by
  unfold coverFlags
  rw [List.find?_cons]
  cases h : r.covers q <;> simp

theorem coverFlags_cons_of_not {r : MemReservation} {q : Nat} (h : ¬ r.covers q)
    (rs : List MemReservation) : coverFlags (r :: rs) q = coverFlags rs q := by
  rw [coverFlags_cons, if_neg h]

/-! ### `mem_remove_reservations` -/

theorem coverFlags_memRemoveReservations_go (start uEnd q : Nat)
    (hq : q < start ∨ uEnd ≤ q) (hEnd : uEnd ≤ memPages) (rs : List MemReservation) :
    ∀ next, coverFlags (memRemoveReservations.go ok start uEnd rs next).1 q = coverFlags rs q := by
  induction rs with
  | nil => exact fun _ => rfl
  | cons r rs ih =>
    intro next
    unfold memRemoveReservations.go
    have hcov := MemReservation.covers_iff (r := r) (q := q)
    have hend := r.rangeEnd_cases
    split_ifs with hskip hin hmid hok hlow
    · rw [coverFlags_cons, coverFlags_cons, ih]
    · have hnot : ¬ r.covers q := by
        rw [hcov]
        omega
      rw [ih, coverFlags_cons_of_not hnot]
    · simp only [coverFlags_cons, ih, MemReservation.covers_iff]
      split_ifs <;> first | rfl | omega
    · rw [coverFlags_cons, coverFlags_cons, ih]
    · simp only [coverFlags_cons, ih, MemReservation.covers_iff]
      split_ifs <;> first | rfl | omega
    · simp only [coverFlags_cons, ih, MemReservation.covers_iff]
      split_ifs <;> first | rfl | omega

theorem memRemoveReservations_reservations (start pages : Nat) : (memRemoveReservations ok m start pages).reservations =
      if pages = 0 then m.reservations else (memRemoveReservations.go ok start (pageRangeEnd start pages) m.reservations
        m.nextReservation).1 := by
  unfold memRemoveReservations
  split_ifs <;> rfl

/-- **Removing reservations** leaves the pages outside the range as they were. -/
theorem reservedFlags_memRemoveReservations
    {start pages q : Nat} (hq : q < start ∨ start + pages ≤ q) (hmem : q < memPages) :
    reservedFlags (memRemoveReservations ok m start pages) q = reservedFlags m q := by
  rw [reservedFlags_eq, memRemoveReservations_reservations]
  split_ifs with h0
  · rfl
  · have hend := pageRangeEnd_eq_min start h0
    exact coverFlags_memRemoveReservations_go ok start _ q (by omega) (by omega) _ _

/-! ### `mem_set_reservation_flags` -/

theorem coverFlags_memSetReservationFlags_go (start stop q : Nat)
    (flags : Flags) (hq : q < start ∨ stop ≤ q) (hstop : stop ≤ memPages) (rs : List MemReservation) :
    ∀ next, coverFlags (memSetReservationFlags.go ok start stop flags rs next).1 q = coverFlags rs q := by
  induction rs with
  | nil => exact fun _ => rfl
  | cons r rs ih =>
    intro next
    have hend := r.rangeEnd_cases
    unfold memSetReservationFlags.go
    dsimp only
    by_cases hskip : r.start ≥ stop ∨ r.rangeEnd ≤ start
    · rw [if_pos hskip, coverFlags_cons, coverFlags_cons, ih]
    rw [if_neg hskip]
    simp only [gt_iff_lt, ← max_def_lt, ← min_def_lt]
    generalize hos : max start r.start = overlapStart
    generalize hoe : min r.rangeEnd stop = overlapEnd
    split_ifs
    all_goals
      simp only [coverFlags_cons, ih, MemReservation.covers_iff]
    all_goals
      split_ifs <;> first | rfl | omega

/-- **Setting the flags of a range** leaves the reservations of the pages outside it. -/
theorem reservedFlags_memSetReservationFlags {start pages q : Nat} (flags : Flags) (hq : q < start ∨ start + pages ≤ q)
    (hmem : q < memPages) : reservedFlags (memSetReservationFlags ok m start pages flags).2 q = reservedFlags m q := by
  unfold memSetReservationFlags
  split_ifs with h0
  · rfl
  · have hend := pageRangeEnd_eq_min start h0
    exact coverFlags_memSetReservationFlags_go ok start _ q flags (by omega) (by omega) _ _

theorem memSetReservationFlags_go_ok {ok : MemReservation → Bool} (hok : ∀ r, ok r)
    (start stop : Nat) (flags : Flags) (rs : List MemReservation) :
    ∀ next, (memSetReservationFlags.go ok start stop flags rs next).2.2 = true := by
  induction rs with
  | nil => exact fun _ => rfl
  | cons r rs ih =>
    intro next
    unfold memSetReservationFlags.go
    simp only [hok, if_true]
    split_ifs <;> exact ih _

theorem memSetReservationFlags_ok {ok : MemReservation → Bool} (hok : ∀ r, ok r) (m : Mem)
    (start pages : Nat) (flags : Flags) : (memSetReservationFlags ok m start pages flags).1 = true := by
  unfold memSetReservationFlags
  split_ifs
  · rfl
  · exact memSetReservationFlags_go_ok hok start _ flags _ _

@[simp]
theorem memSetReservationFlags_pgdir (start pages : Nat)
    (flags : Flags) : (memSetReservationFlags ok m start pages flags).2.pgdir = m.pgdir := by
  unfold memSetReservationFlags
  split_ifs <;> rfl

@[simp]
theorem memSetReservationFlags_changes (start pages : Nat)
    (flags : Flags) : (memSetReservationFlags ok m start pages flags).2.changes = m.changes := by
  unfold memSetReservationFlags
  split_ifs <;> rfl

end Ish
