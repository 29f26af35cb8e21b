import Ish.Memory.Equiv.Map
import Mathlib.Data.List.Pairwise
import Mathlib.Order.WellFounded

/-!
# The list of reservations as a map

A list of disjoint reservations means a partial map from pages to flags (`reservationMap`). The
functions on the list change this map as they should when there is memory for the pieces:
`pt_map_lazy` adds a range, `mem_remove_reservations` takes one out, `mem_set_reservation_flags`
replaces the flags on one; the list stays disjoint, and `mem_find_reservation` looks the map up
(`reservations_refine`).

Both updates replace each node by pieces of it, in its place. `Pieces` says what the pieces of one
node have to do with it, and `Cut` lifts this to the list. Together with the loop over the page
table this makes `pt_unmap_always` exact (`unmap_exact`).
-/

namespace Ish

open Lib List Option

/-! ### The meaning of a list -/

/-- No page is covered twice. -/
def ReservationsDisjoint (rs : List MemReservation) : Prop :=
  rs.Pairwise fun r r' => ∀ q, ¬(r.covers q ∧ r'.covers q)

open Classical in
/-- The flags of the reservation that covers a page. -/
noncomputable def reservationMap (rs : List MemReservation) (q : Nat) : Option Flags :=
  if h : ∃ r ∈ rs, r.covers q then some h.choose.flags else none

variable {q : Nat}

theorem ReservationsDisjoint.unique {rs : List MemReservation} (h : ReservationsDisjoint rs) {r r' : MemReservation}
    (hr : r ∈ rs) (hr' : r' ∈ rs) (hq : r.covers q) (hq' : r'.covers q) : r = r' := by
  by_contra hne
  have hsymm : Std.Symm fun r r' : MemReservation => ∀ q, ¬(r.covers q ∧ r'.covers q) :=
    ⟨fun _ _ hd q hc => hd q hc.symm⟩
  exact h.forall hr hr' hne q ⟨hq, hq'⟩

theorem reservationMap_eq {rs : List MemReservation} (h : ReservationsDisjoint rs) (q : Nat) :
    reservationMap rs q = coverFlags rs q := by
  unfold reservationMap coverFlags
  cases hfind : rs.find? fun r => r.covers q with
  | none =>
    rw [dif_neg]
    · rfl
    · rintro ⟨r, hr, hq⟩
      exact absurd hq (find?_eq_none.mp hfind r hr)
  | some r =>
    have hr : r ∈ rs := mem_of_find?_eq_some hfind
    have hq : r.covers q := find?_some (p := fun r : MemReservation => r.covers q) hfind
    have hex : ∃ r ∈ rs, r.covers q := ⟨r, hr, hq⟩
    rw [dif_pos hex]
    exact congrArg (some ∘ MemReservation.flags) (h.unique hex.choose_spec.1 hr hex.choose_spec.2 hq)

/-! ### Cutting a list -/

theorem coverFlags_append (rs rs' : List MemReservation) (q : Nat) :
    coverFlags (rs ++ rs') q = (coverFlags rs q).or (coverFlags rs' q) := by
  unfold coverFlags
  rw [find?_append]
  cases rs.find? fun r => r.covers q <;> rfl

/-- `ps` are pieces of `r`; `f` says what becomes of the flags of each page, `none` if the page is given up. -/
structure Pieces (f : Nat → Flags → Option Flags) (r : MemReservation) (ps : List MemReservation) : Prop where
  disjoint : ReservationsDisjoint ps
  flags : ∀ q, coverFlags ps q = if r.covers q then f q r.flags else none

/-- Pieces lie inside their node. -/
theorem Pieces.inside {f : Nat → Flags → Option Flags} {r p : MemReservation} {ps : List MemReservation}
    (h : Pieces f r ps) (hp : p ∈ ps) (hq : p.covers q) : r.covers q := by
  by_contra hr
  have hnone : coverFlags ps q = none := (h.flags q).trans (if_neg hr)
  have hfind := find?_eq_none.mp (map_eq_none_iff.mp hnone) p hp
  exact hfind hq

/-- Every node of a list is replaced by pieces of it. -/
inductive Cut (f : Nat → Flags → Option Flags) : List MemReservation → List MemReservation → Prop
  | nil : Cut f [] []
  | cons {r : MemReservation} {ps rs out : List MemReservation} :
      Pieces f r ps → Cut f rs out → Cut f (r :: rs) (ps ++ out)

variable {f : Nat → Flags → Option Flags} {rs out : List MemReservation}

theorem Cut.inside (h : Cut f rs out) : ∀ p ∈ out, ∀ q, p.covers q → ∃ r ∈ rs, r.covers q := by
  induction h with
  | nil => exact fun p hp => nomatch hp
  | @cons r ps rs out hps _ ih =>
    intro p hp q hq
    rcases mem_append.mp hp with hp | hp
    · exact ⟨r, mem_cons_self, hps.inside hp hq⟩
    · obtain ⟨r', hr', hq'⟩ := ih p hp q hq
      exact ⟨r', mem_cons_of_mem _ hr', hq'⟩

/-- Pieces of disjoint reservations are disjoint. -/
theorem Cut.disjoint (h : Cut f rs out) (hrs : ReservationsDisjoint rs) : ReservationsDisjoint out := by
  induction h with
  | nil => exact List.Pairwise.nil
  | @cons r ps rs out hps hcut ih =>
    obtain ⟨hr, hrs⟩ := pairwise_cons.mp hrs
    refine pairwise_append.mpr ⟨hps.disjoint, ih hrs, ?_⟩
    intro p hp p' hp' q hq
    obtain ⟨r', hr', hq'⟩ := hcut.inside p' hp' q hq.2
    exact hr r' hr' q ⟨hps.inside hp hq.1, hq'⟩

theorem Cut.coverFlags (h : Cut f rs out) (hf : (∀ x, f q x = none) ∨ ∀ x, (f q x).isSome) :
    coverFlags out q = (coverFlags rs q).bind (f q) := by
  induction h with
  | nil => rfl
  | @cons r ps rs out hps _ ih =>
    rw [coverFlags_append, hps.flags, coverFlags_cons, ih]
    by_cases hq : r.covers q = true
    · rw [if_pos hq, if_pos hq, bind_some]
      rcases hf with hnone | hsome
      · have hbind : (Ish.coverFlags rs q).bind (f q) = none := by
          cases Ish.coverFlags rs q with
          | none => rfl
          | some x => exact hnone x
        rw [hnone, hbind, or_none]
      · obtain ⟨x, hx⟩ := isSome_iff_exists.mp (hsome r.flags)
        rw [hx, some_or]
    · rw [if_neg hq, if_neg hq, none_or]

variable {r : MemReservation}

theorem MemReservation.covers_iff_rangeEnd : r.covers q ↔ r.start ≤ q ∧ q < r.rangeEnd := by
  have hend := r.rangeEnd_cases
  rw [covers_iff]
  omega

theorem covers_piece {id a b : Nat} {flags : Flags} (hb : b ≤ memPages) :
    (⟨id, a, b - a, flags⟩ : MemReservation).covers q ↔ a ≤ q ∧ q < b := by
  rw [MemReservation.covers_iff]
  show a ≤ q ∧ q < a + (b - a) ∧ q < memPages ↔ _
  omega

theorem covers_with_flags (r : MemReservation) (flags : Flags) (q : Nat) :
    ({ r with flags := flags } : MemReservation).covers q = r.covers q := rfl

theorem reservationsDisjoint_singleton (p : MemReservation) : ReservationsDisjoint [p] :=
  pairwise_singleton _ _

theorem reservationsDisjoint_pair {a b : MemReservation} (h : a.start + a.pages ≤ b.start) :
    ReservationsDisjoint [a, b] := by
  refine pairwise_pair.mpr ?_
  rintro q ⟨ha, hb⟩
  rw [MemReservation.covers_iff] at ha hb
  omega

theorem reservationsDisjoint_triple {a b c : MemReservation} (hab : a.start + a.pages ≤ b.start)
    (hbc : b.start + b.pages ≤ c.start) : ReservationsDisjoint [a, b, c] := by
  refine pairwise_cons.mpr ⟨?_, reservationsDisjoint_pair hbc⟩
  intro p hp q hq
  rw [MemReservation.covers_iff, MemReservation.covers_iff] at hq
  rcases mem_pair.mp hp with rfl | rfl
  · omega
  · omega

theorem pieces_keep (hf : ∀ q, r.covers q → f q r.flags = some r.flags) : Pieces f r [r] where
  disjoint := reservationsDisjoint_singleton r
  flags q := by
    rw [coverFlags_cons, coverFlags_nil]
    split_ifs with hq
    · exact (hf q hq).symm
    · rfl

theorem Cut.refl (hf : ∀ q x, f q x = some x) : ∀ rs, Cut f rs rs
  | [] => .nil
  | r :: rs => .cons (pieces_keep fun q _ => hf q r.flags) (Cut.refl hf rs)

/-! ### `mem_remove_reservations` -/

/-- The pages of the range are given up. -/
def removeAt (start pages q : Nat) (x : Flags) : Option Flags :=
  if start ≤ q ∧ q < start + pages then none else some x

theorem removeAt_cases (start pages q : Nat) :
    (∀ x, removeAt start pages q x = none) ∨ ∀ x, (removeAt start pages q x).isSome := by
  unfold removeAt
  split_ifs
  · exact .inl fun _ => rfl
  · exact .inr fun _ => rfl

variable {ok : MemReservation → Bool}

variable {start : Nat}

/-- The loop of `mem_remove_reservations` cuts the range out of every node, if it can allocate what the splitting of
nodes takes. -/
theorem cut_memRemoveReservations_go {pages uEnd : Nat}
    (hEnd : uEnd = min (start + pages) memPages) (rs : List MemReservation)
    (hok : ∀ r ∈ rs, r.start < start → uEnd < r.rangeEnd → ok r) :
    ∀ next, Cut (removeAt start pages) rs (memRemoveReservations.go ok start uEnd rs next).1 := by
  induction rs with
  | nil => exact fun _ => .nil
  | cons r rs ih =>
    have ih := ih fun r' hr' => hok r' (mem_cons_of_mem _ hr')
    intro next
    have hend := r.rangeEnd_cases
    unfold memRemoveReservations.go
    by_cases hskip : r.start ≥ uEnd ∨ r.rangeEnd ≤ start
    · rw [if_pos hskip]
      refine .cons (pieces_keep fun q hq => ?_) (ih _)
      rw [MemReservation.covers_iff] at hq
      exact if_neg (by omega)
    rw [if_neg hskip]
    have hr : r.rangeEnd ≤ memPages := by omega
    clear hend
    by_cases hin : r.start ≥ start ∧ r.rangeEnd ≤ uEnd
    · rw [if_pos hin]
      refine .cons ⟨List.Pairwise.nil, fun q => ?_⟩ (ih _)
      rw [coverFlags_nil]
      split_ifs with hq
      · rw [MemReservation.covers_iff_rangeEnd] at hq
        exact (if_pos (by omega)).symm
      · rfl
    rw [if_neg hin]
    by_cases hmid : r.start < start ∧ r.rangeEnd > uEnd
    · rw [if_pos hmid, if_pos (hok r (mem_cons_self ..) hmid.1 hmid.2)]
      refine .cons ⟨reservationsDisjoint_pair (by simp only; omega), fun q => ?_⟩ (ih _)
      have hstart : start ≤ memPages := by omega
      simp only [coverFlags_cons, coverFlags_nil, covers_piece hstart, covers_piece hr,
        MemReservation.covers_iff_rangeEnd, removeAt]
      split_ifs <;> first | rfl | omega
    rw [if_neg hmid]
    -- what is left of the node is its head or its tail
    by_cases hlow : r.start < start
    · rw [if_pos hlow]
      refine .cons ⟨reservationsDisjoint_singleton _, fun q => ?_⟩ (ih _)
      have hstart : start ≤ memPages := by omega
      simp only [coverFlags_cons, coverFlags_nil, covers_piece hstart, MemReservation.covers_iff_rangeEnd, removeAt]
      split_ifs <;> first | rfl | omega
    · rw [if_neg hlow]
      refine .cons ⟨reservationsDisjoint_singleton _, fun q => ?_⟩ (ih _)
      simp only [coverFlags_cons, coverFlags_nil, covers_piece hr, MemReservation.covers_iff_rangeEnd, removeAt]
      split_ifs <;> first | rfl | omega

/-- **Removing** a range takes its pages out of the nodes. -/
theorem cut_memRemoveReservations (ok : MemReservation → Bool) (m : Mem) (start pages : Nat)
    (hok : ∀ r ∈ m.reservations, r.start < start → pageRangeEnd start pages < r.rangeEnd → ok r) :
    Cut (removeAt start pages) m.reservations (memRemoveReservations ok m start pages).reservations := by
  rw [memRemoveReservations_reservations]
  split_ifs with h0
  · exact .refl (fun q x => if_neg (by omega)) _
  · exact cut_memRemoveReservations_go (pageRangeEnd_eq_min start h0) _ hok _

theorem mem_memRemoveReservations_go {uEnd : Nat}
    (hok : ok r = false) (hlow : r.start < start) (hhigh : uEnd < r.rangeEnd)
    (hr : r ∈ rs) : ∀ next, r ∈ (memRemoveReservations.go ok start uEnd rs next).1 := by
  induction rs with
  | nil => exact absurd hr not_mem_nil
  | cons r' rs ih =>
    intro next
    unfold memRemoveReservations.go
    rcases mem_cons.1 hr with rfl | hmem
    · by_cases hskip : r.start ≥ uEnd ∨ r.rangeEnd ≤ start
      · rw [if_pos hskip]
        exact mem_cons_self ..
      · rw [if_neg hskip, if_neg (by omega), if_pos ⟨hlow, hhigh⟩, hok]
        exact mem_cons_self ..
    · have ih := ih hmem
      split_ifs <;> simp [ih]

/-! ### `mem_set_reservation_flags` -/

/-- The pages of the range get the new flags, and keep `P_ANONYMOUS`. -/
def setAt (start pages : Nat) (flags : Flags) (q : Nat) (x : Flags) : Flags :=
  if start ≤ q ∧ q < start + pages then flags ||| (x &&& pAnonymous) else x

/-- The loop of `mem_set_reservation_flags` cuts every node at the ends of the range. -/
theorem cut_memSetReservationFlags_go (hok : ∀ r, ok r) {pages stop : Nat}
    (hstop : stop = min (start + pages) memPages) (flags : Flags) (rs : List MemReservation) :
    ∀ next, Cut (fun q x => some (setAt start pages flags q x)) rs
      (memSetReservationFlags.go ok start stop flags rs next).1 := by
  induction rs with
  | nil => exact fun _ => .nil
  | cons r rs ih =>
    intro next
    have hend := r.rangeEnd_cases
    unfold memSetReservationFlags.go
    simp only [hok, if_true]
    by_cases hskip : r.start ≥ stop ∨ r.rangeEnd ≤ start
    · rw [if_pos hskip]
      refine .cons (pieces_keep fun q hq => ?_) (ih _)
      rw [MemReservation.covers_iff] at hq
      exact congrArg some (if_neg (by omega))
    rw [if_neg hskip]
    simp only [gt_iff_lt, ← max_def_lt, ← min_def_lt]
    generalize hos : max start r.start = overlapStart
    generalize hoe : min r.rangeEnd stop = overlapEnd
    have hr : r.rangeEnd ≤ memPages := by omega
    have hle : overlapStart ≤ overlapEnd := by omega
    have hinside : r.start ≤ overlapStart ∧ overlapEnd ≤ r.rangeEnd := by omega
    have hwhere : ∀ q, r.start ≤ q ∧ q < r.rangeEnd →
        (start ≤ q ∧ q < start + pages ↔ overlapStart ≤ q ∧ q < overlapEnd) := by omega
    clear hos hoe hend hskip
    have hoe : overlapEnd ≤ memPages := by omega
    have hos : overlapStart ≤ memPages := by omega
    -- the pieces before and after the overlap are there when they are not empty
    split_ifs
    · refine .cons ⟨reservationsDisjoint_triple (by simp only; omega) (by simp only; omega), fun q => ?_⟩ (ih _)
      have hq := hwhere q
      simp only [coverFlags_cons, coverFlags_nil, covers_piece hos, covers_piece hoe, covers_piece hr,
        MemReservation.covers_iff_rangeEnd, setAt]
      split_ifs <;> first | rfl | omega
    · refine .cons ⟨reservationsDisjoint_pair (by simp only; omega), fun q => ?_⟩ (ih _)
      have hq := hwhere q
      simp only [coverFlags_cons, coverFlags_nil, covers_piece hos, covers_piece hoe,
        MemReservation.covers_iff_rangeEnd, setAt]
      split_ifs <;> first | rfl | omega
    · refine .cons ⟨reservationsDisjoint_pair (by simp only; omega), fun q => ?_⟩ (ih _)
      have hq := hwhere q
      simp only [coverFlags_cons, coverFlags_nil, covers_piece hoe, covers_piece hr,
        MemReservation.covers_iff_rangeEnd, setAt]
      split_ifs <;> first | rfl | omega
    · refine .cons ⟨reservationsDisjoint_singleton _, fun q => ?_⟩ (ih _)
      have hq := hwhere q
      simp only [coverFlags_cons, coverFlags_nil, covers_with_flags, MemReservation.covers_iff_rangeEnd, setAt]
      split_ifs <;> first | rfl | omega

/-- **Setting flags** cuts the nodes at the ends of the range and gives up no page. -/
theorem cut_memSetReservationFlags (hok : ∀ r, ok r) (m : Mem) (start pages : Nat)
    (flags : Flags) : Cut (fun q x => some (setAt start pages flags q x)) m.reservations
      (memSetReservationFlags ok m start pages flags).2.reservations := by
  unfold memSetReservationFlags
  split_ifs with h0
  · exact .refl (fun q x => congrArg some (if_neg (by omega))) _
  · exact cut_memSetReservationFlags_go hok (pageRangeEnd_eq_min start h0) flags _ _

/-! ### Sequences of operations -/

inductive ReservationOp
  | mapLazy (start pages : Nat) (flags : Flags)
  | remove (start pages : Nat)
  | setFlags (start pages : Nat) (flags : Flags)

/-- The operation of the code, with memory for every node it allocates. -/
def ReservationOp.run (m : Mem) : ReservationOp → Mem
  | mapLazy start pages flags => (ptMapLazy true m start pages flags).2
  | remove start pages => memRemoveReservations (fun _ => true) m start pages
  | setFlags start pages flags => (memSetReservationFlags (fun _ => true) m start pages flags).2

def ReservationOp.spec (map : Nat → Option Flags) : ReservationOp → Nat → Option Flags
  | mapLazy start pages flags, q =>
    if start ≤ q ∧ q < start + pages ∧ q < memPages then some (flags ||| pAnonymous) else map q
  | remove start pages, q => if start ≤ q ∧ q < start + pages then none else map q
  | setFlags start pages flags, q =>
    (map q).map fun old => if start ≤ q ∧ q < start + pages then flags ||| (old &&& pAnonymous) else old

/-- `pt_map_lazy` is called on free ranges only. -/
def ReservationOp.Free (map : Nat → Option Flags) : ReservationOp → Prop
  | mapLazy start pages _ => ∀ q, start ≤ q → q < start + pages → map q = none
  | remove _ _ => True
  | setFlags _ _ _ => True

/-- Every `pt_map_lazy` of a sequence is on a range that is free when its turn comes. -/
def FreeRanges : (Nat → Option Flags) → List ReservationOp → Prop
  | _, [] => True
  | map, op :: ops => op.Free map ∧ FreeRanges (op.spec map) ops

variable {m : Mem}

/-- The node `pt_map_lazy` puts in front of the list. -/
theorem disjoint_ptMapLazy (hm : ReservationsDisjoint m.reservations) {pages : Nat} (flags : Flags)
    (hfree : ∀ q, start ≤ q → q < start + pages → reservationMap m.reservations q = none) :
    ReservationsDisjoint (ptMapLazy true m start pages flags).2.reservations := by
  refine pairwise_cons.mpr ⟨?_, hm⟩
  rintro r hr q ⟨hnew, hq⟩
  rw [MemReservation.covers_iff] at hnew
  have hnone : coverFlags m.reservations q = none :=
    (reservationMap_eq hm q).symm.trans (hfree q hnew.1 hnew.2.1)
  exact find?_eq_none.mp (map_eq_none_iff.mp hnone) r hr hq

theorem ReservationOp.disjoint_run (hm : ReservationsDisjoint m.reservations) {op : ReservationOp}
    (hfree : op.Free (reservationMap m.reservations)) : ReservationsDisjoint (op.run m).reservations := by
  cases op with
  | mapLazy start pages flags => exact disjoint_ptMapLazy hm flags hfree
  | remove start pages =>
    exact (cut_memRemoveReservations (fun _ => true) m start pages fun _ _ _ _ => rfl).disjoint hm
  | setFlags start pages flags => exact (cut_memSetReservationFlags (fun _ => rfl) m start pages flags).disjoint hm

theorem ReservationOp.reservationMap_run (hm : ReservationsDisjoint m.reservations) {op : ReservationOp}
    (hfree : op.Free (reservationMap m.reservations)) :
    reservationMap (op.run m).reservations = op.spec (reservationMap m.reservations) := by
  funext q
  rw [reservationMap_eq (op.disjoint_run hm hfree)]
  cases op with
  | mapLazy start pages flags =>
    show coverFlags (_ :: m.reservations) q = _
    rw [coverFlags_cons]
    simp only [MemReservation.covers_iff, spec, reservationMap_eq hm]
  | remove start pages =>
    have hcut := (cut_memRemoveReservations (fun _ => true) m start pages fun _ _ _ _ => rfl).coverFlags
      (removeAt_cases start pages q)
    refine hcut.trans ?_
    simp only [spec, reservationMap_eq hm]
    unfold removeAt
    split_ifs
    · exact bind_fun_none _
    · exact bind_fun_some _
  | setFlags start pages flags =>
    have hcut := (cut_memSetReservationFlags (fun _ => rfl) m start pages flags).coverFlags
      (q := q) (.inr fun _ => rfl)
    refine hcut.trans ?_
    simp only [spec, reservationMap_eq hm]
    exact (map_eq_bind ..).symm

theorem memFindReservation_map (hm : ReservationsDisjoint m.reservations) (q : Nat) :
    (memFindReservation m q).map (·.flags) = reservationMap m.reservations q :=
  (reservationMap_eq hm q).symm

/-- **The list of reservations refines the map**: every sequence of operations keeps it disjoint and changes its
meaning as specified, and `mem_find_reservation` finds a node that covers the page where the map is defined. -/
theorem reservations_refine (m : Mem) (hm : ReservationsDisjoint m.reservations) (ops : List ReservationOp)
    (hfree : FreeRanges (reservationMap m.reservations) ops) :
    ReservationsDisjoint (ops.foldl ReservationOp.run m).reservations ∧
      reservationMap (ops.foldl ReservationOp.run m).reservations =
        ops.foldl ReservationOp.spec (reservationMap m.reservations) ∧
      ∀ q, (∃ r, memFindReservation (ops.foldl ReservationOp.run m) q = some r ∧ r.covers q) ↔
        (ops.foldl ReservationOp.spec (reservationMap m.reservations) q).isSome := by
  induction ops generalizing m with
  | nil =>
    refine ⟨hm, rfl, fun q => ?_⟩
    rw [foldl_nil, foldl_nil, ← memFindReservation_map hm q, isSome_map, isSome_iff_exists]
    refine exists_congr fun r => and_iff_left_of_imp fun hr => ?_
    exact find?_some (p := fun r : MemReservation => r.covers q) hr
  | cons op ops ih =>
    have hop := op.reservationMap_run hm hfree.1
    rw [foldl_cons, foldl_cons, ← hop]
    exact ih (op.run m) (op.disjoint_run hm hfree.1) (hop ▸ hfree.2)

/-- A reservation in which a hole is made, next to which another one is put, and of which a part is made writable. -/
theorem reservations_refine_example :
    reservationMap ([.remove 11 1, .mapLazy 11 1 0, .setFlags 12 9 pWrite].foldl ReservationOp.run
      { memInit with reservations := [⟨0, 10, 4, pRead⟩] }).reservations 12 = some pWrite := by
  have hm : ReservationsDisjoint [⟨0, 10, 4, pRead⟩] := reservationsDisjoint_singleton _
  have hrun := (reservations_refine { memInit with reservations := [⟨0, 10, 4, pRead⟩] } hm
    [.remove 11 1, .mapLazy 11 1 0, .setFlags 12 9 pWrite]
    ⟨trivial, fun q hle hlt => if_pos ⟨hle, hlt⟩, trivial, trivial⟩).2.1
  rw [hrun]
  simp only [foldl_cons, foldl_nil, ReservationOp.spec, reservationMap_eq hm]
  decide

/-! ### Unmapping -/

/-- The pages that a loop with `mem_next_page` comes to. -/
def visited (m : Mem) (page k : Nat) : Nat := (memNextPage m)^[k] page

theorem visited_succ (m : Mem) (page k : Nat) : visited m page (k + 1) = memNextPage m (visited m page k) :=
  Function.iterate_succ_apply' _ _ _

theorem strictMono_visited (m : Mem) (page : Nat) : StrictMono (visited m page) := by
  refine strictMono_nat_of_lt_succ fun k => ?_
  rw [visited_succ]
  exact lt_memNextPage m _

/-- No mapped page is passed over. -/
theorem exists_visited_eq (m : Mem) {page : Nat} (hq : page < q) (hpt : (memPt m q).isSome) :
    ∃ k, visited m page (k + 1) = q := by
  classical
  -- the first page visited that is not below `q`
  have hex : ∃ k, q ≤ visited m page k := ⟨q, (strictMono_visited m page).le_apply⟩
  obtain ⟨k, hk⟩ : ∃ k, Nat.find hex = k + 1 := by
    refine Nat.exists_eq_succ_of_ne_zero fun h0 => ?_
    have hle : q ≤ visited m page 0 := h0 ▸ Nat.find_spec hex
    exact absurd hle (not_le.mpr hq)
  have hle : q ≤ visited m page (k + 1) := hk ▸ Nat.find_spec hex
  have hlt : visited m page k < q := not_le.mp (Nat.find_min hex (by omega))
  refine ⟨k, le_antisymm (not_lt.mp fun hskip => ?_) hle⟩
  rw [visited_succ] at hskip
  rw [memPt_eq_none_of_lt_memNextPage m hlt hskip] at hpt
  exact absurd hpt (by decide)

theorem reservedFlags_ptUnmapAlways_eq {env : HostEnv} (s : Kernel × Mem) {pages : Nat}
    (hmalloc : ∀ r ∈ s.2.reservations, r.start < start → pageRangeEnd start pages < r.rangeEnd →
      env.mallocRes start r) (q : Nat) : reservedFlags (ptUnmapAlways env s start pages).2 q =
      if start ≤ q ∧ q < start + pages then none else reservedFlags s.2 q := by
  rw [reservedFlags_eq, ptUnmapAlways_reservations]
  have hcut : Cut (removeAt start pages) s.2.reservations (ptUnmapAlways.enter env s.2 start pages).reservations :=
    cut_memRemoveReservations (env.mallocRes start)
      { s.2 with mmapHint := max s.2.mmapHint ((start + pages + (wordMod - 1)) % wordMod) } start pages hmalloc
  rw [hcut.coverFlags (removeAt_cases start pages q)]
  unfold removeAt
  split_ifs
  · exact bind_fun_none _
  · exact bind_fun_some _

/-- **Unmapping is exact**: a loop with `mem_next_page` comes to every mapped page above the first in increasing order
and leaves the table, and `pt_unmap_always` takes away the pages of its range, mapped or reserved, and no other. -/
theorem unmap_exact (env : HostEnv) (k : Kernel) (m : Mem) (start pages : Nat) (hrange : start + pages ≤ memPages)
    (hmalloc : ∀ r, env.mallocRes start r) : (∀ page, StrictMono (visited m page) ∧ (∃ n, memPages ≤ visited m page n) ∧
      ∀ q, page < q → q < memPages → (memPt m q).isSome → ∃ n, visited m page (n + 1) = q) ∧ ∀ q < memPages,
      memPt (ptUnmapAlways env (k, m) start pages).2 q = (if start ≤ q ∧ q < start + pages then none else memPt m q) ∧
      reservedFlags (ptUnmapAlways env (k, m) start pages).2 q =
        if start ≤ q ∧ q < start + pages then none else reservedFlags m q := by
  refine ⟨fun page => ?_, fun q hq => ?_⟩
  · have hmono := strictMono_visited m page
    exact ⟨hmono, ⟨memPages, hmono.le_apply⟩, fun q hlt _ hpt => exists_visited_eq m hlt hpt⟩
  · refine ⟨?_, reservedFlags_ptUnmapAlways_eq (k, m) (fun r _ _ _ => hmalloc r) q⟩
    have hword : start + pages < wordMod := lt_of_le_of_lt hrange (by decide)
    rw [memPt_ptUnmapAlways, loopCount_eq hword]
    simp only [touches_iff_of_le hrange hq]

/-- A page mapped below the range and a reservation that reaches into it. -/
theorem unmap_exact_example : (memPt (ptUnmapAlways HostEnv.good (kernelInit, { memPtNew memInit 3 ⟨0, 0, pRead⟩ with
      reservations := [⟨0, 4, 4, pWrite⟩] }) 6 10).2 3).isSome := by
  rw [(unmap_exact HostEnv.good kernelInit { memPtNew memInit 3 ⟨0, 0, pRead⟩ with
    reservations := [⟨0, 4, 4, pWrite⟩] } 6 10 (by decide) fun _ => rfl).2 3 (by decide) |>.1]
  decide

end Ish
