import Ish.Memory.PageTable
import Ish.Memory.Reservation

/-!
# The search for free ranges

`pt_find_hole_from`, `pt_find_hole_high`, `pt_find_hole` and `pt_is_hole` of `kernel/memory.c`.

The pair `in_hole`, `hole_end` of the downward scan is one `Option`: `some holeEnd` while a hole
is open. The loops recurse on the page they look at, which every turn lowers (downward scan) or
raises (upward scan), so their termination is part of their definition.
-/

namespace Ish

/-! ### The downward scan -/

/-- The test of one fast skip: an open hole that ends at `holeEnd` and contains the subtree from
`base` on is large enough. -/
def holeInSubtree (size holeEnd base : Nat) : Option Nat :=
  let effectiveBase := if base > mmapHoleEnd then base else mmapHoleEnd + 1
  if holeEnd - effectiveBase ≥ size then some (holeEnd - size) else none

def ptFindHoleFrom.go (m : Mem) (size page : Nat) (hole : Option Nat) : Nat :=
  if mmapHoleEnd < page then
    let holeEnd := hole.getD (page + 1)
    match m.pgdir.children (ptIndex page 0) with
    | none =>
      let l0Base := (ptIndex page 0).val * 0x8000000
      match holeInSubtree size holeEnd l0Base with
      | some r => r
      | none => if l0Base = 0 then badPage else go m size (l0Base - 1) (some holeEnd)
    | some l1 =>
      match l1.children (ptIndex page 1) with
      | none =>
        let l1Base := (ptIndex page 0).val * 0x8000000 + (ptIndex page 1).val * 0x40000
        match holeInSubtree size holeEnd l1Base with
        | some r => r
        | none => if l1Base = 0 then badPage else go m size (l1Base - 1) (some holeEnd)
      | some l2 =>
        match l2.children (ptIndex page 2) with
        | none =>
          let l2Base := (ptIndex page 0).val * 0x8000000 + (ptIndex page 1).val * 0x40000 +
            (ptIndex page 2).val * 0x200
          match holeInSubtree size holeEnd l2Base with
          | some r => r
          | none => if l2Base = 0 then badPage else go m size (l2Base - 1) (some holeEnd)
        | some _ =>
          -- L3 exists: check individual pages
          match memPt m page with
          | some _ => if page = 0 then badPage else go m size (page - 1) none
          | none =>
            if holeEnd - page ≥ size then page
            else if page = 0 then badPage
            else go m size (page - 1) (some holeEnd)
  else badPage
termination_by page
decreasing_by
  all_goals
    have := ptIndex_zero_val page
    have := ptIndex_one_val page
    have := ptIndex_two_val page
    omega

/-- `pt_find_hole_from` -/
def ptFindHoleFrom (m : Mem) (size start : Nat) : Nat :=
  ptFindHoleFrom.go m size start none

/-! ### The upward scan -/

/-- `r->start + r->pages`, in 64 bits and not clipped to the table. -/
def MemReservation.rawEnd (r : MemReservation) : Nat := (r.start + r.pages) % wordMod

/-- The `for` loop of `pt_find_hole_high` over the reservations: the new `candidate` and `first`. -/
def ptFindHoleHigh.scan (subtreeEnd candidate : Nat) :
    List MemReservation → Option MemReservation → Nat × Option MemReservation
  | [], first => (candidate, first)
  | r :: rs, first =>
    if r.rawEnd ≤ candidate ∨ r.start ≥ subtreeEnd then scan subtreeEnd candidate rs first
    else if r.start ≤ candidate then (r.rawEnd, some r)
    else
      match first with
      | none => scan subtreeEnd candidate rs (some r)
      | some f =>
        if r.start < f.start then scan subtreeEnd candidate rs (some r)
        else scan subtreeEnd candidate rs (some f)

/-- A reservation that starts inside the subtree above the candidate. -/
def MemReservation.Above (subtreeEnd candidate : Nat) (r : MemReservation) : Prop :=
  candidate < r.start ∧ candidate < r.rawEnd ∧ r.start < subtreeEnd

/-- What the scan leaves in `candidate` and `first`: either nothing in the way, or a reservation
that lay over the candidate, or one above it. -/
theorem ptFindHoleHigh.scan_cases (subtreeEnd candidate : Nat) (rs : List MemReservation) :
    ∀ first : Option MemReservation, (∀ f ∈ first, f.Above subtreeEnd candidate) →
      scan subtreeEnd candidate rs first = (candidate, none) ∨
      (∃ r, scan subtreeEnd candidate rs first = (r.rawEnd, some r) ∧ r.start ≤ candidate ∧ candidate < r.rawEnd) ∨
      (∃ f, scan subtreeEnd candidate rs first = (candidate, some f) ∧ f.Above subtreeEnd candidate) := by
  induction rs with
  | nil =>
    intro first hfirst
    cases first with
    | none => exact Or.inl rfl
    | some f => exact Or.inr (Or.inr ⟨f, rfl, hfirst f rfl⟩)
  | cons r rs ih =>
    intro first hfirst
    unfold scan
    split_ifs with hskip hcov
    · exact ih first hfirst
    · exact Or.inr (Or.inl ⟨r, rfl, hcov, by omega⟩)
    · have hr : ∀ f ∈ some r, f.Above subtreeEnd candidate := by
        rintro f ⟨⟩
        exact ⟨by omega, by omega, by omega⟩
      cases first with
      | none => exact ih (some r) hr
      | some f =>
        dsimp only
        split_ifs
        · exact ih (some r) hr
        · exact ih (some f) hfirst

/-- Each turn of the inner `while` loop raises the candidate. -/
theorem ptFindHoleHigh.scan_progress {subtreeEnd candidate c : Nat} {rs : List MemReservation}
    {f : MemReservation} (h : scan subtreeEnd candidate rs none = (c, some f)) : candidate < f.rawEnd ∧
      (candidate < c ∧ f.start < c ∨ f.Above subtreeEnd candidate ∧ c = candidate) := by
  rcases scan_cases subtreeEnd candidate rs none (by simp) with h' | ⟨r, h', hs, hr⟩ | ⟨g, h', hg⟩
  · simp [h'] at h
  · cases h'.symm.trans h
    exact ⟨hr, Or.inl ⟨hr, by omega⟩⟩
  · cases h'.symm.trans h
    exact ⟨hg.2.1, Or.inr ⟨hg, rfl⟩⟩

/-- The inner `while` loop of `pt_find_hole_high`: a free candidate in an empty subtree. -/
def ptFindHoleHigh.search (m : Mem) (size subtreeEnd candidate : Nat) : Option Nat :=
  if candidate < subtreeEnd then
    match _h : scan subtreeEnd candidate m.reservations none with
    | (c, none) => if subtreeEnd - c ≥ size then some c else none
    | (c, some first) =>
      if first.start > c then
        if first.start - c ≥ size then some c
        else search m size subtreeEnd first.rawEnd
      else search m size subtreeEnd c
  else none
termination_by subtreeEnd - candidate
decreasing_by
  all_goals
    obtain ⟨hend, ⟨hc, -⟩ | ⟨⟨hstart, -⟩, hc⟩⟩ := scan_progress ‹_› <;> omega

/-- The first candidate in the top-level subtree of a page. -/
def firstCandidate (page : Nat) : Nat :=
  let l0Base := (ptIndex page 0).val * 0x8000000
  if l0Base < page then page else l0Base

/-- The end of the top-level subtree of a page, clipped to the user addresses. -/
def subtreeEnd (page : Nat) : Nat :=
  min ((ptIndex page 0).val * 0x8000000 + 0x8000000) userAddrMaxPage

theorem lt_subtreeEnd {page : Nat} (h : page < userAddrMaxPage) : page < subtreeEnd page := by
  unfold subtreeEnd
  rw [ptIndex_zero_val, Nat.lt_min]
  refine ⟨?_, h⟩
  unfold userAddrMaxPage at h
  omega

/-- One turn of the outer loop of `pt_find_hole_high`: a subtree with an L1 node has something
mapped and is skipped. -/
def ptFindHoleHigh.inSubtree (m : Mem) (size page : Nat) : Option Nat :=
  match m.pgdir.children (ptIndex page 0) with
  | none => search m size (subtreeEnd page) (firstCandidate page)
  | some _ => none

def ptFindHoleHigh.go (m : Mem) (size page : Nat) : Nat :=
  if page < userAddrMaxPage then
    match inSubtree m size page with
    | some candidate => candidate
    | none => go m size (subtreeEnd page)
  else badPage
termination_by userAddrMaxPage - page
decreasing_by
  have := lt_subtreeEnd ‹page < userAddrMaxPage›
  omega

/-- `pt_find_hole_high` -/
def ptFindHoleHigh (m : Mem) (size : Nat) : Nat :=
  ptFindHoleHigh.go m size highBase

/-! ### `pt_find_hole` and `pt_is_hole` -/

/-- Where the next attempt starts: below the first reservation that meets `[result, result + size)`. -/
def ptFindHole.below (m : Mem) (size result start : Nat) : Nat :=
  match m.reservations.find? fun r =>
      r.start < (result + size) % wordMod ∧ r.rawEnd > result with
  | some r => if r.start > 0 then r.start - 1 else 0
  | none => start

/-- At most `n` attempts from `start` down; the result, if one was found, and the last start. -/
def ptFindHole.attempts (m : Mem) (size : Nat) : Nat → Nat → Option Nat × Nat
  | 0, start => (none, start)
  | n + 1, start =>
    let result := ptFindHoleFrom m size start
    if result = badPage then (none, start)
    else if memRangeHasReservation m result size then
      attempts m size n (below m size result start)
    else (some result, start)

/-- Where `pt_find_hole` starts: at the hint, unless it is unset or out of the window. -/
def ptFindHole.start (m : Mem) (size : Nat) : Nat :=
  if m.mmapHint = 0 ∨ m.mmapHint > mmapHoleStart ∨ m.mmapHint ≤ (mmapHoleEnd + size) % wordMod then
    mmapHoleStart
  else m.mmapHint

/-- The end of `pt_find_hole`, when the low 4 GB are exhausted. -/
def ptFindHole.high (m : Mem) (size : Nat) : Nat :=
  let result := ptFindHoleHigh m size
  if result ≠ badPage ∧ ¬ memRangeHasReservation m result size then result else badPage

/-- `pt_find_hole`; a range found in the low window moves `mmap_hint` below it. -/
def ptFindHole (m : Mem) (size : Nat) : Nat × Mem :=
  let found (result : Nat) : Nat × Mem :=
    (result, { m with mmapHint := if result > 0 then result - 1 else 0 })
  match ptFindHole.attempts m size 10 (ptFindHole.start m size) with
  | (some result, _) => found result
  | (none, start) =>
    if start < mmapHoleStart then
      -- wrap around from the top
      match ptFindHole.attempts m size 10 mmapHoleStart with
      | (some result, _) => found result
      | (none, _) => (ptFindHole.high m size, m)
    else (ptFindHole.high m size, m)

/-- `pt_is_hole` -/
def ptIsHole (m : Mem) (start pages : Nat) : Bool :=
  (List.range' start ((start + pages) % wordMod - start)).all (fun page => (memPt m page).isNone) &&
    !memRangeHasReservation m start pages

end Ish
