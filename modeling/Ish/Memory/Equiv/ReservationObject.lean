import Ish.Memory.Equiv.Reservation

/-!
# Reservations as objects

A pointer to a `mem_reservation` stays good as long as the first page of the reservation is left
alone: what is removed or re-flagged behind it is cut off into other objects. Names of
reservations are never used twice.
-/

namespace Ish

open Lib List

/-! ### A reservation stays the same object -/

/-- There is a reservation of the name, the first page and the flags of `res`. -/
def HasObject (rs : List MemReservation) (res : MemReservation) : Prop :=
  ∃ r ∈ rs, r.id = res.id ∧ r.start = res.start ∧ r.flags = res.flags ∧ r.pages ≠ 0

variable {rs : List MemReservation}

theorem HasObject.head {r res : MemReservation} (hid : r.id = res.id)
    (hstart : r.start = res.start) (hflags : r.flags = res.flags) (hpages : r.pages ≠ 0) : HasObject (r :: rs) res :=
  ⟨r, mem_cons_self, hid, hstart, hflags, hpages⟩

variable {res : MemReservation}

theorem HasObject.cons (h : HasObject rs res) (r : MemReservation) : HasObject (r :: rs) res := by
  obtain ⟨r', hmem, h'⟩ := h
  exact ⟨r', mem_cons_of_mem r hmem, h'⟩

theorem hasObject_cons_iff {r res : MemReservation} : HasObject (r :: rs) res ↔
      (r.id = res.id ∧ r.start = res.start ∧ r.flags = res.flags ∧ r.pages ≠ 0) ∨ HasObject rs res := by
  unfold HasObject
  simp

variable (ok : MemReservation → Bool)

theorem hasObject_memRemoveReservations_go {start uEnd : Nat} (hout : res.start < start ∨ uEnd ≤ res.start)
    (rs : List MemReservation) :
    ∀ next, HasObject rs res → HasObject (memRemoveReservations.go ok start uEnd rs next).1 res := by
  induction rs with
  | nil => exact fun _ h => h
  | cons r rs ih =>
    intro next h
    unfold memRemoveReservations.go
    rcases hasObject_cons_iff.1 h with ⟨hid, hstart, hflags, hpages⟩ | h
    · -- this is the one: what is cut off is behind its first page
      split_ifs with hskip hin hmid hok hlow
      · exact .head hid hstart hflags hpages
      · omega
      · refine .head hid hstart hflags ?_
        dsimp only
        omega
      · exact .head hid hstart hflags hpages
      · refine .head hid hstart hflags ?_
        dsimp only
        omega
      · omega
    · split_ifs
      · exact (ih next h).cons r
      · exact ih next h
      · exact ((ih _ h).cons _).cons _
      · exact (ih next h).cons r
      · exact (ih next h).cons _
      · exact (ih next h).cons _

theorem hasObject_memSetReservationFlags_go {start stop : Nat}
    (flags : Flags) (hout : res.start < start ∨ stop ≤ res.start) (rs : List MemReservation) :
    ∀ next, HasObject rs res → HasObject (memSetReservationFlags.go ok start stop flags rs next).1 res := by
  induction rs with
  | nil => exact fun _ h => h
  | cons r rs ih =>
    intro next h
    unfold memSetReservationFlags.go
    dsimp only
    by_cases hskip : r.start ≥ stop ∨ r.rangeEnd ≤ start
    · rw [if_pos hskip]
      rcases hasObject_cons_iff.1 h with ⟨hid, hstart, hflags, hpages⟩ | h
      · exact .head hid hstart hflags hpages
      · exact (ih next h).cons r
    rw [if_neg hskip]
    generalize hos : (if r.start > start then r.start else start) = overlapStart
    generalize (if r.rangeEnd < stop then r.rangeEnd else stop) = overlapEnd
    rcases hasObject_cons_iff.1 h with ⟨hid, hstart, hflags, hpages⟩ | h'
    · -- the range starts inside, so there is a piece before it
      have hbefore : overlapStart - r.start ≠ 0 := by
        rw [← hos]
        split_ifs <;> omega
      split_ifs
      · exact .head hid hstart hflags hbefore
      · exact .head hid hstart hflags hpages
      · exact .head hid hstart hflags hbefore
      · exact .head hid hstart hflags hpages
    · split_ifs
      · exact (((ih _ h').cons _).cons _).cons _
      · exact h
      · exact ((ih _ h').cons _).cons _
      · exact h
      · exact ((ih _ h').cons _).cons _
      · exact h
      · exact (ih _ h').cons _

variable {m : Mem}

/-- **Removing** pages other than its first leaves a reservation in place. -/
theorem hasObject_memRemoveReservations {start pages : Nat} (hout : res.start < start ∨ start + pages ≤ res.start)
    (h : HasObject m.reservations res) : HasObject (memRemoveReservations ok m start pages).reservations res := by
  rw [memRemoveReservations_reservations]
  split_ifs with h0
  · exact h
  · have hend := pageRangeEnd_eq_min start h0
    exact hasObject_memRemoveReservations_go ok (by omega) _ _ h

/-- **Re-flagging** pages other than its first leaves the flags in the object of a reservation. -/
theorem hasObject_memSetReservationFlags {start pages : Nat} (flags : Flags)
    (hout : res.start < start ∨ start + pages ≤ res.start) (h : HasObject m.reservations res) :
    HasObject (memSetReservationFlags ok m start pages flags).2.reservations res := by
  unfold memSetReservationFlags
  split_ifs with h0
  · exact h
  · have hend := pageRangeEnd_eq_min start h0
    exact hasObject_memSetReservationFlags_go ok flags (by omega) _ _ h

/-! ### Names -/

/-- What a pass over the reservations does to their names: one is kept, with `k` new names behind
it, or dropped; the pass can end early. -/
inductive Renames : List Nat → Nat → List Nat → Nat → Prop
  | stop (ids : List Nat) (next : Nat) : Renames ids next ids next
  | keep {ids out : List Nat} {next next' : Nat} (a k : Nat) :
      Renames ids (next + k) out next' →
        Renames (a :: ids) next (a :: (List.range' next k ++ out)) next'
  | drop {ids out : List Nat} {next next' : Nat} (a : Nat) :
      Renames ids next out next' → Renames (a :: ids) next out next'

theorem Renames.bounds {ids out : List Nat} {next next' : Nat} (h : Renames ids next out next') :
    next ≤ next' ∧ ∀ a ∈ out, a ∈ ids ∨ next ≤ a ∧ a < next' := by
  induction h with
  | stop ids next => exact ⟨le_refl _, fun a ha => Or.inl ha⟩
  | keep a k _ ih =>
    obtain ⟨hle, hmem⟩ := ih
    refine ⟨by omega, fun b hb => ?_⟩
    rw [mem_cons, mem_append, mem_range'_1] at hb
    rcases hb with rfl | hb | hb
    · exact Or.inl mem_cons_self
    · exact Or.inr ⟨hb.1, by omega⟩
    · rcases hmem b hb with hold | hnew
      · exact Or.inl (mem_cons_of_mem _ hold)
      · exact Or.inr ⟨by omega, hnew.2⟩
  | drop a _ ih =>
    refine ⟨ih.1, fun b hb => ?_⟩
    rcases ih.2 b hb with hold | hnew
    · exact Or.inl (mem_cons_of_mem _ hold)
    · exact Or.inr hnew

theorem Renames.nodup {ids out : List Nat} {next next' : Nat} (h : Renames ids next out next')
    (hids : ids.Nodup) (hlt : ∀ a ∈ ids, a < next) : out.Nodup := by
  induction h with
  | stop ids next => exact hids
  | @keep ids out next next' a k hren ih =>
    obtain ⟨hnot, hids⟩ := nodup_cons.1 hids
    obtain ⟨ha, hlt⟩ := forall_mem_cons.1 hlt
    have hout := ih hids fun b hb => Nat.lt_of_lt_of_le (hlt b hb) (Nat.le_add_right _ _)
    have hmem := hren.bounds.2
    -- the new names are above all old ones
    have hnew : (List.range' next k ++ out).Nodup := by
      refine nodup_append.2 ⟨nodup_range', hout, fun b hb c hc hbc => ?_⟩
      subst hbc
      rw [mem_range'_1] at hb
      rcases hmem b hc with hold | hnew
      · have := hlt b hold
        omega
      · omega
    refine nodup_cons.2 ⟨fun hmem' => ?_, hnew⟩
    rw [mem_append, mem_range'_1] at hmem'
    rcases hmem' with h | h
    · omega
    · rcases hmem a h with hold | hnew
      · exact hnot hold
      · omega
  | drop a _ ih => exact ih (nodup_cons.1 hids).2 (forall_mem_cons.1 hlt).2

theorem renames_memRemoveReservations_go (start uEnd : Nat) (rs : List MemReservation) :
    ∀ next, Renames (rs.map (·.id)) next ((memRemoveReservations.go ok start uEnd rs next).1.map (·.id))
      (memRemoveReservations.go ok start uEnd rs next).2 := by
  induction rs with
  | nil => exact fun next => .stop [] next
  | cons r rs ih =>
    intro next
    unfold memRemoveReservations.go
    split_ifs
    · exact .keep r.id 0 (ih next)
    · exact .drop r.id (ih next)
    · exact .keep r.id 1 (ih (next + 1))
    · exact .keep r.id 0 (ih next)
    · exact .keep r.id 0 (ih next)
    · exact .keep r.id 0 (ih next)

theorem renames_memSetReservationFlags_go (start stop : Nat) (flags : Flags) (rs : List MemReservation) :
    ∀ next, Renames (rs.map (·.id)) next ((memSetReservationFlags.go ok start stop flags rs next).1.map (·.id))
      (memSetReservationFlags.go ok start stop flags rs next).2.1 := by
  induction rs with
  | nil => exact fun next => .stop [] next
  | cons r rs ih =>
    intro next
    unfold memSetReservationFlags.go
    dsimp only
    by_cases hskip : r.start ≥ stop ∨ r.rangeEnd ≤ start
    · rw [if_pos hskip]
      exact .keep r.id 0 (ih next)
    rw [if_neg hskip]
    generalize (if r.start > start then r.start else start) = overlapStart
    generalize (if r.rangeEnd < stop then r.rangeEnd else stop) = overlapEnd
    split_ifs
    · exact .keep r.id 2 (ih (next + 2))
    · exact .stop _ next
    · exact .keep r.id 1 (ih (next + 1))
    · exact .stop _ next
    · exact .keep r.id 1 (ih (next + 1))
    · exact .stop _ next
    · exact .keep r.id 0 (ih next)

/-- The names of the reservations are different and have been handed out. -/
structure ReservationNames (m : Mem) : Prop where
  nodup : (m.reservations.map (·.id)).Nodup
  lt : ∀ a ∈ m.reservations.map (·.id), a < m.nextReservation

theorem ReservationNames.of_renames {m m' : Mem} (h : ReservationNames m)
    (hren : Renames (m.reservations.map (·.id)) m.nextReservation (m'.reservations.map (·.id))
      m'.nextReservation) : ReservationNames m' := by
  refine ⟨hren.nodup h.nodup h.lt, fun a ha => ?_⟩
  rcases hren.bounds.2 a ha with hold | hnew
  · exact Nat.lt_of_lt_of_le (h.lt a hold) hren.bounds.1
  · exact hnew.2

theorem reservationNames_memRemoveReservations (start pages : Nat) (h : ReservationNames m) :
    ReservationNames (memRemoveReservations ok m start pages) := by
  unfold memRemoveReservations
  split_ifs
  · exact h
  · exact h.of_renames (renames_memRemoveReservations_go ok start _ m.reservations _)

theorem reservationNames_memSetReservationFlags (start pages : Nat) (flags : Flags) (h : ReservationNames m) :
    ReservationNames (memSetReservationFlags ok m start pages flags).2 := by
  unfold memSetReservationFlags
  split_ifs
  · exact h
  · exact h.of_renames (renames_memSetReservationFlags_go ok start _ flags m.reservations _)

theorem reservationNames_ptMapLazy (ok : Bool) (start pages : Nat) (flags : Flags)
    (h : ReservationNames m) : ReservationNames (ptMapLazy ok m start pages flags).2 := by
  cases ok with
  | false => exact h
  | true =>
    refine ⟨?_, ?_⟩
    · refine nodup_cons.2 ⟨fun hmem => ?_, h.nodup⟩
      exact Nat.lt_irrefl _ (h.lt _ hmem)
    · refine forall_mem_cons.2 ⟨Nat.lt_succ_self _, fun a ha => ?_⟩
      exact Nat.lt_succ_of_lt (h.lt a ha)

/-- A reservation is found under its name. -/
theorem find_id (h : ReservationNames m) (hmem : res ∈ m.reservations) :
    m.reservations.find? (fun r => r.id = res.id) = some res := by
  obtain ⟨hnodup, -⟩ := h
  generalize m.reservations = rs at *
  induction rs with
  | nil => cases hmem
  | cons r rs ih =>
    obtain ⟨hnot, hnodup⟩ := nodup_cons.1 hnodup
    rw [find?_cons]
    rcases mem_cons.1 hmem with rfl | hmem
    · simp
    · have hne : r.id ≠ res.id := fun heq => hnot (mem_map.2 ⟨res, hmem, heq.symm⟩)
      simp only [hne, decide_false]
      exact ih hmem hnodup

end Ish
