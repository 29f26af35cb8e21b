import Ish.Memory.Basic

/-!
# Lazy reservations

`page_range_end` and the functions of `kernel/memory.c` on `mem->reservations`.

Allocations can fail: `ok r` says whether the `malloc`s made while the reservation `r` is being
split succeed.
-/

namespace Ish

open Lib

/-- `page_range_end` -/
def pageRangeEnd (start pages : Nat) : Nat :=
  if pages = 0 then start
  else if start ≥ memPages ∨ pages > memPages - start then memPages
  else start + pages

/-- The first page after a reservation, `page_range_end(r->start, r->pages)`. -/
def MemReservation.rangeEnd (r : MemReservation) : Nat :=
  pageRangeEnd r.start r.pages

/-- The condition under which `mem_find_reservation` returns `r`. -/
def MemReservation.covers (r : MemReservation) (page : Nat) : Bool :=
  r.pages ≠ 0 ∧ page ≥ r.start ∧ page < r.rangeEnd

/-- `mem_find_reservation`: the first reservation of the list that covers `page`. -/
def memFindReservation (m : Mem) (page : Nat) : Option MemReservation :=
  m.reservations.find? fun r => r.covers page

/-- `pt_map_lazy` when `malloc` answers `ok`. -/
def ptMapLazy (ok : Bool) (m : Mem) (start pages : Nat) (flags : Flags) : Except Errno Unit × Mem :=
  if ok then
    (.ok (), memChanged
      { m with
        reservations := ⟨m.nextReservation, start, pages, flags ||| pAnonymous⟩ :: m.reservations,
        nextReservation := m.nextReservation + 1 })
  else (.error .enomem, m)

/-- The loop of `mem_remove_reservations` over the range `[start, uEnd)`; `next` names the next
reservation allocated. -/
def memRemoveReservations.go (ok : MemReservation → Bool) (start uEnd : Nat) :
    List MemReservation → Nat → List MemReservation × Nat
  | [], next => ([], next)
  | r :: rs, next =>
    if r.start ≥ uEnd ∨ r.rangeEnd ≤ start then
      let rest := go ok start uEnd rs next
      (r :: rest.1, rest.2)
    else if r.start ≥ start ∧ r.rangeEnd ≤ uEnd then
      go ok start uEnd rs next
    else if r.start < start ∧ r.rangeEnd > uEnd then
      if ok r then
        let rest := go ok start uEnd rs (next + 1)
        ({ r with pages := start - r.start } ::
          ⟨next, uEnd, r.rangeEnd - uEnd, r.flags⟩ :: rest.1, rest.2)
      else
        let rest := go ok start uEnd rs next
        (r :: rest.1, rest.2)
    else if r.start < start then
      let rest := go ok start uEnd rs next
      ({ r with pages := start - r.start } :: rest.1, rest.2)
    else
      let rest := go ok start uEnd rs next
      ({ r with start := uEnd, pages := r.rangeEnd - uEnd } :: rest.1, rest.2)

/-- `mem_remove_reservations` -/
def memRemoveReservations (ok : MemReservation → Bool) (m : Mem) (start pages : Nat) : Mem :=
  if pages = 0 then m
  else
    let res := memRemoveReservations.go ok start (pageRangeEnd start pages) m.reservations
      m.nextReservation
    { m with reservations := res.1, nextReservation := res.2 }

/-- The loop of `mem_set_reservation_flags` over the range `[start, stop)`. The last component is
`false` when a `malloc` failed; the reservations passed before keep their new flags. -/
def memSetReservationFlags.go (ok : MemReservation → Bool) (start stop : Nat) (flags : Flags) :
    List MemReservation → Nat → List MemReservation × Nat × Bool
  | [], next => ([], next, true)
  | r :: rs, next =>
    if r.start ≥ stop ∨ r.rangeEnd ≤ start then
      let rest := go ok start stop flags rs next
      (r :: rest.1, rest.2)
    else
      let overlapStart := if r.start > start then r.start else start
      let overlapEnd := if r.rangeEnd < stop then r.rangeEnd else stop
      let before := overlapStart - r.start
      let overlap := overlapEnd - overlapStart
      let after := r.rangeEnd - overlapEnd
      let newFlags := flags ||| (r.flags &&& pAnonymous)
      if before ≠ 0 ∧ after ≠ 0 then
        if ok r then
          let rest := go ok start stop flags rs (next + 2)
          ({ r with pages := before } :: ⟨next, overlapStart, overlap, newFlags⟩ ::
            ⟨next + 1, overlapEnd, after, r.flags⟩ :: rest.1, rest.2)
        else (r :: rs, next, false)
      else if before ≠ 0 then
        if ok r then
          let rest := go ok start stop flags rs (next + 1)
          ({ r with pages := before } :: ⟨next, overlapStart, overlap, newFlags⟩ :: rest.1, rest.2)
        else (r :: rs, next, false)
      else if after ≠ 0 then
        if ok r then
          let rest := go ok start stop flags rs (next + 1)
          ({ r with start := overlapStart, pages := overlap, flags := newFlags } ::
            ⟨next, overlapEnd, after, r.flags⟩ :: rest.1, rest.2)
        else (r :: rs, next, false)
      else
        let rest := go ok start stop flags rs next
        ({ r with flags := newFlags } :: rest.1, rest.2)

/-- `mem_set_reservation_flags`; the first component is `false` for `_ENOMEM`. -/
def memSetReservationFlags (ok : MemReservation → Bool) (m : Mem) (start pages : Nat)
    (flags : Flags) : Bool × Mem :=
  if pages = 0 then (true, m)
  else
    let res := memSetReservationFlags.go ok start (pageRangeEnd start pages) flags m.reservations
      m.nextReservation
    (res.2.2, { m with reservations := res.1, nextReservation := res.2.1 })

/-- `mem_range_has_reservation` -/
def memRangeHasReservation (m : Mem) (start size : Nat) : Bool :=
  if size = 0 then false
  else if pageRangeEnd start size ≤ start then true
  else m.reservations.any fun r =>
    r.pages ≠ 0 ∧ (r.rangeEnd ≤ r.start ∨ r.start < pageRangeEnd start size ∧ r.rangeEnd > start)

end Ish
