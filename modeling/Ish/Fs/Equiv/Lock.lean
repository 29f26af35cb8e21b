import Ish.Fs.Lock
import Ish.Lib.Grouped

/-!
# The lock list as a map from bytes to locks

`heldAt` reads the list of an inode as a map from owners and bytes to lock types. The loop of
`file_lock_acquire` splits, trims, merges and deletes the locks of one owner; what it leaves of a
group of locks and of the request is said by `Absorbs`, which composes along the list
(`Absorbs.append`), so that each branch of the loop body is looked at once (`absorbs_placeLock`).
-/

namespace Ish.Fs

open Lib List

variable {ω : Type}

/-! ### Ranges -/

def FileLock.covers (l : FileLock ω) (x : Int) : Prop := l.start ≤ x ∧ x ≤ l.last

instance (l : FileLock ω) (x : Int) : Decidable (l.covers x) :=
  inferInstanceAs (Decidable (_ ∧ _))

/-- Disjoint, and not even touching if of the same type. -/
def Apart (a b : FileLock ω) : Prop :=
  (a.last < b.start ∨ b.last < a.start) ∧
    (a.type = b.type → a.last + 1 < b.start ∨ b.last + 1 < a.start)

variable {a b : FileLock ω}

theorem Apart.symm (h : Apart a b) : Apart b a :=
  ⟨h.1.symm, fun htype => (h.2 htype.symm).symm⟩

/-- `Apart`, byte by byte. -/
theorem apart_iff (ha : a.start ≤ a.last) (hb : b.start ≤ b.last) : Apart a b ↔ ∀ x, b.covers x →
      ¬ a.covers x ∧ (a.type = b.type → ¬ (a.start - 1 ≤ x ∧ x ≤ a.last + 1)) := by
  unfold Apart FileLock.covers
  constructor
  · rintro ⟨hdisj, htouch⟩ x hx
    refine ⟨by omega, fun htype => ?_⟩
    have := htouch htype
    omega
  · intro h
    constructor
    · -- the larger of the two starts would be in both
      have := h (max a.start b.start)
      omega
    · intro htype
      have := fun hx => (h (max (a.start - 1) b.start) hx).2 htype
      omega

/-- A nonempty part of a lock. -/
structure Piece (k l : FileLock ω) : Prop where
  type_eq : k.type = l.type
  owner_eq : k.owner = l.owner
  start_le : k.start ≤ k.last
  le_start : l.start ≤ k.start
  last_le : k.last ≤ l.last

variable {l : FileLock ω}

theorem Piece.refl (h : l.start ≤ l.last) : Piece l l :=
  ⟨rfl, rfl, h, Int.le_refl _, Int.le_refl _⟩

variable {x : Int}

theorem Piece.covers {k : FileLock ω} (h : Piece k l) (hx : k.covers x) : l.covers x :=
  ⟨Int.le_trans h.le_start hx.1, Int.le_trans hx.2 h.last_le⟩

theorem Apart.piece {k k' l' : FileLock ω} (h : Apart l l') (hk : Piece k l) (hk' : Piece k' l') : Apart k k' := by
  obtain ⟨hdisj, htouch⟩ := h
  have := hk.le_start
  have := hk.last_le
  have := hk'.le_start
  have := hk'.last_le
  refine ⟨by omega, fun htype => ?_⟩
  have := htouch (hk.type_eq ▸ hk'.type_eq ▸ htype)
  omega

/-! ### What the loop leaves -/

/-- The request `r` has been placed among the locks `ours` of its owner: it has grown to `r'`, and
`kept` is left of them. -/
structure Absorbs (r : FileLock ω) (ours kept : List (FileLock ω)) (r' : FileLock ω) : Prop where
  type_eq : r'.type = r.type
  owner_eq : r'.owner = r.owner
  start_le : r'.start ≤ r.start
  last_le : r.last ≤ r'.last
  /-- the request grows only over locks of its type -/
  grown : ∀ x, r'.covers x → r.covers x ∨ ∃ l ∈ ours, l.type = r.type ∧ l.covers x
  /-- a byte is lost only to the request -/
  lost : ∀ l ∈ ours, ∀ x, l.covers x → r'.covers x ∨ ∃ k ∈ kept, k.type = l.type ∧ k.covers x
  piece : ∀ k ∈ kept, ∃ l ∈ ours, Piece k l
  apart : ∀ k ∈ kept, Apart k r'
  pairwise : kept.Pairwise Apart

theorem absorbs_nil (r : FileLock ω) : Absorbs r [] [] r where
  type_eq := rfl
  owner_eq := rfl
  start_le := Int.le_refl _
  last_le := Int.le_refl _
  grown _ hx := .inl hx
  lost := by simp
  piece := by simp
  apart := by simp
  pairwise := .nil

variable {r : FileLock ω}

/-- A lock that stays as it is. -/
theorem absorbs_keep (hl : l.start ≤ l.last) (h : Apart l r) : Absorbs r [l] [l] r where
  type_eq := rfl
  owner_eq := rfl
  start_le := Int.le_refl _
  last_le := Int.le_refl _
  grown _ hx := .inl hx
  lost l' hl' x hx := .inr ⟨l', hl', rfl, hx⟩
  piece k hk := ⟨k, hk, by
    rw [mem_singleton.1 hk]
    exact .refl hl⟩
  apart k hk := by rwa [mem_singleton.1 hk]
  pairwise := pairwise_singleton _ _

theorem piece_of_mem_subtract {k : FileLock ω} (hover : l.last ≥ r.start ∧ r.last ≥ l.start) (hk : k ∈ subtract r l) :
    Piece k l ∧ (k.last < r.start ∨ r.last < k.start) := by
  have hlow : l.start < r.start → Piece { l with last := r.start - 1 } l :=
    fun h => ⟨rfl, rfl, by dsimp only; omega, Int.le_refl _, by dsimp only; omega⟩
  have hhigh : r.last < l.last → Piece { l with start := r.last + 1 } l :=
    fun h => ⟨rfl, rfl, by dsimp only; omega, by dsimp only; omega, Int.le_refl _⟩
  unfold subtract at hk
  split_ifs at hk
  · rcases mem_cons.1 hk with rfl | hk
    · exact ⟨hlow (by omega), by dsimp only; omega⟩
    · rw [mem_singleton.1 hk]
      exact ⟨hhigh (by omega), by dsimp only; omega⟩
  · cases hk
  · rw [mem_singleton.1 hk]
    exact ⟨hlow (by omega), by dsimp only; omega⟩
  · rw [mem_singleton.1 hk]
    exact ⟨hhigh (by omega), by dsimp only; omega⟩
  · omega

theorem absorbs_subtract (hr : r.start ≤ r.last) (htype : r.type ≠ l.type)
    (hover : l.last ≥ r.start ∧ r.last ≥ l.start) : Absorbs r [l] (subtract r l) r where
  type_eq := rfl
  owner_eq := rfl
  start_le := Int.le_refl _
  last_le := Int.le_refl _
  grown _ hx := .inl hx
  lost l' hl' x hx := by
    rw [mem_singleton.1 hl'] at hx ⊢
    unfold FileLock.covers at hx ⊢
    unfold subtract
    split_ifs <;> simp <;> omega
  piece k hk := ⟨l, mem_singleton_self l, (piece_of_mem_subtract hover hk).1⟩
  apart k hk := by
    obtain ⟨hpiece, hout⟩ := piece_of_mem_subtract hover hk
    exact ⟨hout, fun h => absurd (h.symm.trans hpiece.type_eq) htype⟩
  pairwise := by
    unfold subtract
    split_ifs
    · refine pairwise_pair.2 ⟨?_, fun _ => ?_⟩ <;> dsimp only <;> omega
    all_goals first | exact .nil | exact pairwise_singleton _ _

theorem absorbs_extend (htype : r.type = l.type)
    (hnear : l.last + 1 ≥ r.start ∧ r.last + 1 ≥ l.start) : Absorbs r [l] [] (extend r l) where
  type_eq := rfl
  owner_eq := rfl
  start_le := by
    unfold extend
    dsimp only
    split_ifs <;> omega
  last_le := by
    unfold extend
    dsimp only
    split_ifs <;> omega
  grown x hx := by
    simp only [mem_singleton, exists_eq_left, htype, true_and]
    unfold FileLock.covers extend at *
    dsimp only at hx
    split_ifs at hx <;> omega
  lost l' hl' x hx := by
    rw [mem_singleton.1 hl'] at hx
    refine .inl ?_
    unfold FileLock.covers extend at *
    dsimp only
    split_ifs <;> omega
  piece := by simp
  apart := by simp
  pairwise := .nil

theorem Absorbs.append {r₁ r₂ : FileLock ω} {ours₁ ours₂ kept₁ kept₂ : List (FileLock ω)}
    (h₁ : Absorbs r ours₁ kept₁ r₁) (h₂ : Absorbs r₁ ours₂ kept₂ r₂) (hr : r.start ≤ r.last)
    (hours : ∀ l₁ ∈ ours₁, ∀ l₂ ∈ ours₂, Apart l₁ l₂) (hne : ∀ l ∈ ours₂, l.start ≤ l.last) :
    Absorbs r (ours₁ ++ ours₂) (kept₁ ++ kept₂) r₂ where
  type_eq := h₂.type_eq.trans h₁.type_eq
  owner_eq := h₂.owner_eq.trans h₁.owner_eq
  start_le := Int.le_trans h₂.start_le h₁.start_le
  last_le := Int.le_trans h₁.last_le h₂.last_le
  grown x hx := by
    rcases h₂.grown x hx with hx | ⟨l, hl, htype, hx⟩
    · rcases h₁.grown x hx with hx | ⟨l, hl, htype, hx⟩
      · exact .inl hx
      · exact .inr ⟨l, mem_append_left _ hl, htype, hx⟩
    · exact .inr ⟨l, mem_append_right _ hl, htype.trans h₁.type_eq, hx⟩
  lost l hl x hx := by
    rcases mem_append.1 hl with hl | hl
    · rcases h₁.lost l hl x hx with hx | ⟨k, hk, htype, hx⟩
      · exact .inl ⟨Int.le_trans h₂.start_le hx.1, Int.le_trans hx.2 h₂.last_le⟩
      · exact .inr ⟨k, mem_append_left _ hk, htype, hx⟩
    · rcases h₂.lost l hl x hx with hx | ⟨k, hk, htype, hx⟩
      · exact .inl hx
      · exact .inr ⟨k, mem_append_right _ hk, htype, hx⟩
  piece k hk := by
    rcases mem_append.1 hk with hk | hk
    · obtain ⟨l, hl, hpiece⟩ := h₁.piece k hk
      exact ⟨l, mem_append_left _ hl, hpiece⟩
    · obtain ⟨l, hl, hpiece⟩ := h₂.piece k hk
      exact ⟨l, mem_append_right _ hl, hpiece⟩
  apart k hk := by
    rcases mem_append.1 hk with hk | hk
    · obtain ⟨l, hl, hpiece⟩ := h₁.piece k hk
      have hr₁ := h₁.start_le
      have hr₁' := h₁.last_le
      have hr₂ := h₂.start_le
      have hr₂' := h₂.last_le
      refine (apart_iff hpiece.start_le (by omega)).2 fun x hx => ?_
      -- a byte that the request has gained later is one of a lock that is apart from this one
      rcases h₂.grown x hx with hx | ⟨l₂, hl₂, htype, hx⟩
      · obtain ⟨hout, htouch⟩ := (apart_iff hpiece.start_le (by omega)).1 (h₁.apart k hk) x hx
        exact ⟨hout, fun h => htouch (h.trans h₂.type_eq)⟩
      · have hapart : Apart k l₂ := (hours l hl l₂ hl₂).piece hpiece (.refl (hne l₂ hl₂))
        obtain ⟨hout, htouch⟩ := (apart_iff hpiece.start_le (hne l₂ hl₂)).1 hapart x hx
        exact ⟨hout, fun h => htouch (h.trans (h₂.type_eq.trans htype.symm))⟩
    · exact h₂.apart k hk
  pairwise := by
    refine pairwise_append.2 ⟨h₁.pairwise, h₂.pairwise, fun k₁ hk₁ k₂ hk₂ => ?_⟩
    obtain ⟨l₁, hl₁, hpiece₁⟩ := h₁.piece k₁ hk₁
    obtain ⟨l₂, hl₂, hpiece₂⟩ := h₂.piece k₂ hk₂
    exact (hours l₁ hl₁ l₂ hl₂).piece hpiece₁ hpiece₂

theorem fileLocksOverlap_iff : fileLocksOverlap a b ↔ a.last ≥ b.start ∧ b.last ≥ a.start := by
  simp [fileLocksOverlap]

theorem fileLocksFar_iff : (!fileLocksOverlap a b && !fileLocksAdjacent b a) = true ↔
    ¬(a.last ≥ b.start ∧ b.last ≥ a.start) ∧ ¬(b.last = a.start - 1 ∨ a.last = b.start - 1) := by
  simp [fileLocksOverlap, fileLocksAdjacent]
  omega

theorem absorbs_placeLock (hr : r.start ≤ r.last) (hl : l.start ≤ l.last) :
    Absorbs r [l] (placeLock r l).before (placeLock r l).request := by
  unfold placeLock
  by_cases htype : r.type = l.type
  · rw [if_pos htype]
    by_cases hfar : (!fileLocksOverlap l r && !fileLocksAdjacent r l) = true
    · rw [if_pos hfar]
      rw [fileLocksFar_iff] at hfar
      exact absorbs_keep hl ⟨by omega, fun _ => by omega⟩
    · rw [if_neg hfar]
      rw [fileLocksFar_iff] at hfar
      exact absorbs_extend htype (by omega)
  · rw [if_neg htype]
    by_cases hover : fileLocksOverlap l r = true
    · rw [if_neg (by simp [hover])]
      exact absorbs_subtract hr htype (fileLocksOverlap_iff.1 hover)
    · rw [if_pos (by simpa using hover)]
      rw [fileLocksOverlap_iff] at hover
      exact absorbs_keep hl ⟨by omega, fun h => absurd h.symm htype⟩

/-! ### The invariant of the list -/

/-- Two owners hold overlapping locks one of which is a write lock. -/
def Conflict (a b : FileLock ω) : Prop :=
  a.owner ≠ b.owner ∧ (∃ x, a.covers x ∧ b.covers x) ∧ (a.type = .wrlck ∨ b.type = .wrlck)

theorem Conflict.symm (h : Conflict a b) : Conflict b a :=
  ⟨h.1.symm, h.2.1.imp fun _ hx => hx.symm, h.2.2.symm⟩

def LockType.held : LockType → Option LockType
  | .unlck => none
  | type => some type

theorem LockType.held_eq_some_iff {t t' : LockType} : t.held = some t' ↔ t ≠ .unlck ∧ t = t' := by
  cases t <;> simp [LockType.held]

/-- What the list of an inode always satisfies. -/
structure LocksOk (locks : List (FileLock ω)) : Prop where
  valid : ∀ l ∈ locks, 0 ≤ l.start ∧ l.start ≤ l.last ∧ l.last ≤ offTMax ∧ l.type ≠ .unlck
  grouped : Grouped FileLock.owner locks
  apart : locks.Pairwise fun a b => a.owner = b.owner → Apart a b
  compatible : locks.Pairwise fun a b => ¬ Conflict a b

theorem locksOk_nil : LocksOk ([] : List (FileLock ω)) where
  valid := by simp
  grouped := grouped_nil
  apart := .nil
  compatible := .nil

/-- What `file_lock_acquire` puts into the list. -/
def placed (r r' : FileLock ω) (kept : List (FileLock ω)) : List (FileLock ω) :=
  kept ++ if r.type ≠ .unlck then [r'] else []

section Placed

variable {r r' : FileLock ω} {before ours after kept : List (FileLock ω)}

variable {m : FileLock ω}

theorem mem_placed : m ∈ placed r r' kept ↔ m ∈ kept ∨ r.type ≠ .unlck ∧ m = r' := by
  unfold placed
  split_ifs with h <;> simp [h]

section

variable (h : Absorbs r ours kept r')
include h

/-- Where the bytes of the new locks come from. -/
theorem Absorbs.source (hm : m ∈ placed r r' kept) (hx : m.covers x) :
    r.type ≠ .unlck ∧ m.type = r.type ∧ r.covers x ∨ ∃ l ∈ ours, l.type = m.type ∧ l.covers x := by
  rcases mem_placed.1 hm with hk | ⟨htype, rfl⟩
  · obtain ⟨l, hl, hpiece⟩ := h.piece m hk
    exact .inr ⟨l, hl, hpiece.type_eq.symm, hpiece.covers hx⟩
  · rcases h.grown x hx with hx | ⟨l, hl, hltype, hx⟩
    · exact .inl ⟨htype, h.type_eq, hx⟩
    · exact .inr ⟨l, hl, hltype.trans h.type_eq.symm, hx⟩

theorem Absorbs.placed_owner (hours : ∀ l ∈ ours, l.owner = r.owner)
    (hm : m ∈ placed r r' kept) : m.owner = r.owner := by
  rcases mem_placed.1 hm with hk | ⟨-, rfl⟩
  · obtain ⟨l, hl, hpiece⟩ := h.piece m hk
    exact hpiece.owner_eq.trans (hours l hl)
  · exact h.owner_eq

theorem Absorbs.placed_nonempty (hr : r.start ≤ r.last) (hm : m ∈ placed r r' kept) : m.start ≤ m.last := by
  rcases mem_placed.1 hm with hk | ⟨-, rfl⟩
  · obtain ⟨l, -, hpiece⟩ := h.piece m hk
    exact hpiece.start_le
  · have := h.start_le
    have := h.last_le
    omega

theorem Absorbs.placed_valid (hr₀ : 0 ≤ r.start) (hr : r.start ≤ r.last) (hr₁ : r.last ≤ offTMax)
    (hours : ∀ l ∈ ours, 0 ≤ l.start ∧ l.start ≤ l.last ∧ l.last ≤ offTMax ∧ l.type ≠ .unlck)
    (hm : m ∈ placed r r' kept) : 0 ≤ m.start ∧ m.start ≤ m.last ∧ m.last ≤ offTMax ∧ m.type ≠ .unlck := by
  have hne := h.placed_nonempty hr hm
  refine ⟨?_, hne, ?_, ?_⟩
  · rcases h.source hm ⟨Int.le_refl _, hne⟩ with ⟨-, -, hx⟩ | ⟨l, hl, -, hx⟩
    · exact Int.le_trans hr₀ hx.1
    · exact Int.le_trans (hours l hl).1 hx.1
  · rcases h.source hm ⟨hne, Int.le_refl _⟩ with ⟨-, -, hx⟩ | ⟨l, hl, -, hx⟩
    · exact Int.le_trans hx.2 hr₁
    · exact Int.le_trans hx.2 (hours l hl).2.2.1
  · rcases h.source hm ⟨Int.le_refl _, hne⟩ with ⟨htype, heq, -⟩ | ⟨l, hl, heq, -⟩
    · exact heq ▸ htype
    · exact heq ▸ (hours l hl).2.2.2

theorem Absorbs.placed_apart : (placed r r' kept).Pairwise Apart := by
  refine pairwise_append.2 ⟨h.pairwise, ?_, fun k hk m hm => ?_⟩
  · split_ifs
    · exact pairwise_singleton _ _
    · exact .nil
  · split_ifs at hm
    · rw [mem_singleton.1 hm]
      exact h.apart k hk
    · cases hm

theorem Absorbs.placed_compatible (hours : ∀ l ∈ ours, l.owner = r.owner)
    (hr : r.type ≠ .unlck → ¬ Conflict b r) (hb : ∀ l ∈ ours, ¬ Conflict b l)
    (hm : m ∈ placed r r' kept) : ¬ Conflict b m := by
  rintro ⟨howner, ⟨x, hbx, hmx⟩, hwrite⟩
  have hm' := h.placed_owner hours hm
  rcases h.source hm hmx with ⟨hun, htype, hx⟩ | ⟨l, hl, htype, hx⟩
  · exact hr hun ⟨hm' ▸ howner, ⟨x, hbx, hx⟩, htype ▸ hwrite⟩
  · exact hb l hl ⟨by rwa [hours l hl, ← hm'], ⟨x, hbx, hx⟩, htype ▸ hwrite⟩

end

theorem LocksOk.unique {locks : List (FileLock ω)} (h : LocksOk locks)
    (ha : a ∈ locks) (hb : b ∈ locks) (howner : a.owner = b.owner) (hax : a.covers x) (hbx : b.covers x) : a = b := by
  by_contra hne
  have : Std.Symm fun a b : FileLock ω => a.owner = b.owner → Apart a b :=
    ⟨fun a b hab howner => (hab howner.symm).symm⟩
  have hapart := (h.apart.forall ha hb hne howner).1
  unfold FileLock.covers at hax hbx
  omega

theorem LocksOk.replace (h : LocksOk (before ++ ours ++ after)) (hr₀ : 0 ≤ r.start)
    (hr : r.start ≤ r.last) (hr₁ : r.last ≤ offTMax)
    (hcompat : r.type ≠ .unlck → ∀ l ∈ before ++ ours ++ after, ¬ Conflict l r)
    (hblock : Block FileLock.owner r.owner before ours after) (habsorbs : Absorbs r ours kept r') :
    LocksOk (before ++ placed r r' kept ++ after) where
  valid l hl := by
    rcases mem_append.1 hl with hl | hl
    · rcases mem_append.1 hl with hl | hl
      · exact h.valid l (by simp [hl])
      · exact habsorbs.placed_valid hr₀ hr hr₁ (fun l hl => h.valid l (by simp [hl])) hl
    · exact h.valid l (by simp [hl])
  grouped := h.grouped.replace hblock fun _ hm => habsorbs.placed_owner hblock.eq hm
  apart := by
    have hplaced : ∀ m ∈ placed r r' kept, m.owner = r.owner :=
      fun m hm => habsorbs.placed_owner hblock.eq hm
    obtain ⟨hfront, hback, hcross⟩ := pairwise_append.1 h.apart
    refine pairwise_append.2 ⟨pairwise_append.2 ⟨?_, ?_, ?_⟩, hback, ?_⟩
    · exact (pairwise_append.1 hfront).1
    · refine habsorbs.placed_apart.imp ?_
      intro a b hapart _
      exact hapart
    · intro a ha b hb howner
      exact absurd (howner.trans (hplaced b hb)) (hblock.before a ha)
    · intro a ha b hb
      rcases mem_append.1 ha with ha | ha
      · exact hcross a (mem_append_left _ ha) b hb
      · exact fun howner => absurd (howner.symm.trans (hplaced a ha)) (hblock.after b hb)
  compatible := by
    obtain ⟨hfront, hback, hcross⟩ := pairwise_append.1 h.compatible
    obtain ⟨hbefore', -, hcross'⟩ := pairwise_append.1 hfront
    refine pairwise_append.2 ⟨pairwise_append.2 ⟨hbefore', ?_, ?_⟩, hback, ?_⟩
    · refine pairwise_of_forall_mem_list fun a ha b hb hconflict => hconflict.1 ?_
      rw [habsorbs.placed_owner hblock.eq ha, habsorbs.placed_owner hblock.eq hb]
    · intro a ha b hb
      refine habsorbs.placed_compatible hblock.eq (fun htype => ?_) (fun l hl => hcross' a ha l hl) hb
      exact hcompat htype a (by simp [ha])
    · intro a ha b hb
      rcases mem_append.1 ha with ha | ha
      · exact hcross a (mem_append_left _ ha) b hb
      · intro hconflict
        refine habsorbs.placed_compatible hblock.eq (fun htype => ?_) (fun l hl hbl => ?_) ha
          hconflict.symm
        · exact hcompat htype b (by simp [hb])
        · exact hcross l (mem_append_right _ hl) b hb hbl.symm

theorem Absorbs.exists_placed_iff (h : Absorbs r ours kept r') (hx : r.covers x) {type : LockType} :
    (∃ l ∈ placed r r' kept, l.covers x ∧ l.type = type) ↔ r.type.held = some type := by
  have hx' : r'.covers x := ⟨Int.le_trans h.start_le hx.1, Int.le_trans hx.2 h.last_le⟩
  rw [LockType.held_eq_some_iff]
  constructor
  · rintro ⟨l, hl, hlx, rfl⟩
    rcases mem_placed.1 hl with hk | ⟨hun, rfl⟩
    · have hapart := (h.apart l hk).1
      unfold FileLock.covers at hx' hlx
      omega
    · exact ⟨hun, h.type_eq.symm⟩
  · rintro ⟨hun, rfl⟩
    exact ⟨r', mem_placed.2 (.inr ⟨hun, rfl⟩), hx', h.type_eq⟩

theorem Absorbs.exists_placed_iff_of_not_covers (h : Absorbs r ours kept r')
    (hx : ¬ r.covers x) (hun : ∀ l ∈ ours, l.type ≠ .unlck)
    (hunique : ∀ l ∈ ours, ∀ l' ∈ ours, l.covers x → l'.covers x → l = l') {type : LockType} :
    (∃ l ∈ placed r r' kept, l.covers x ∧ l.type = type) ↔ ∃ l ∈ ours, l.covers x ∧ l.type = type := by
  constructor
  · rintro ⟨l, hl, hlx, rfl⟩
    rcases h.source hl hlx with ⟨-, -, hrx⟩ | ⟨l', hl', htype, hlx'⟩
    · exact absurd hrx hx
    · exact ⟨l', hl', hlx', htype⟩
  · rintro ⟨l, hl, hlx, rfl⟩
    rcases h.lost l hl x hlx with hx' | ⟨k, hk, htype, hkx⟩
    · rcases h.grown x hx' with hrx | ⟨l', hl', htype, hlx'⟩
      · exact absurd hrx hx
      · -- the request has swallowed the lock, which was of its type
        rw [hunique l hl l' hl' hlx hlx', htype]
        exact ⟨r', mem_placed.2 (.inr ⟨htype ▸ hun l' hl', rfl⟩), hx', h.type_eq⟩
    · exact ⟨k, mem_placed.2 (.inl hk), hkx, htype⟩

theorem exists_owner_iff (hblock : Block FileLock.owner r.owner before ours after) {ours' : List (FileLock ω)}
    (hours : ∀ l ∈ ours', l.owner = r.owner) {p : FileLock ω → Prop} :
    (∃ l ∈ before ++ ours' ++ after, l.owner = r.owner ∧ p l) ↔ ∃ l ∈ ours', p l := by
  constructor
  · rintro ⟨l, hl, howner, hp⟩
    rcases mem_append.1 hl with hl | hl
    · rcases mem_append.1 hl with hl | hl
      · exact absurd howner (hblock.before l hl)
      · exact ⟨l, hl, hp⟩
    · exact absurd howner (hblock.after l hl)
  · rintro ⟨l, hl, hp⟩
    exact ⟨l, by simp [hl], hours l hl, hp⟩

theorem exists_other_iff (hours : ∀ l ∈ ours, l.owner = r.owner) {owner : ω}
    (howner : owner ≠ r.owner) {p : FileLock ω → Prop} : (∃ l ∈ before ++ ours ++ after, l.owner = owner ∧ p l) ↔
      ∃ l ∈ before ++ after, l.owner = owner ∧ p l := by
  constructor
  · rintro ⟨l, hl, rfl, hp⟩
    have hnot : l ∉ ours := fun hmem => howner (hours l hmem)
    refine ⟨l, ?_, rfl, hp⟩
    simpa [hnot] using hl
  · rintro ⟨l, hl, heq, hp⟩
    refine ⟨l, ?_, heq, hp⟩
    rcases mem_append.1 hl with hl | hl <;> simp [hl]

end Placed

/-! ### The loop over the list -/

variable [DecidableEq ω]

theorem placeLocks_append {before : List (FileLock ω)}
    (hbefore : ∀ l ∈ before, l.owner ≠ r.owner) (locks : List (FileLock ω)) : placeLocks false r (before ++ locks) =
      ⟨before ++ (placeLocks false r locks).before, (placeLocks false r locks).request,
        (placeLocks false r locks).notified, (placeLocks false r locks).after⟩ := by
  induction before with
  | nil => rfl
  | cons l before ih =>
    obtain ⟨hl, hbefore⟩ := forall_mem_cons.1 hbefore
    rw [cons_append, placeLocks, if_pos hl, if_neg Bool.false_ne_true, ih hbefore]
    rfl

theorem absorbs_placeLocks {ours after : List (FileLock ω)}
    (hr : r.start ≤ r.last) (hours : ∀ l ∈ ours, l.owner = r.owner ∧ l.start ≤ l.last)
    (hapart : ours.Pairwise Apart) (hafter : ∀ l ∈ after, l.owner ≠ r.owner) :
    (placeLocks true r (ours ++ after)).after = after ∧ Absorbs r ours (placeLocks true r (ours ++ after)).before
        (placeLocks true r (ours ++ after)).request := by
  induction ours generalizing r with
  | nil =>
    cases after with
    | nil => exact ⟨rfl, absorbs_nil r⟩
    | cons l after =>
      rw [nil_append, placeLocks, if_pos (hafter l mem_cons_self), if_pos rfl]
      exact ⟨rfl, absorbs_nil r⟩
  | cons l ours ih =>
    obtain ⟨⟨howner, hl⟩, hours⟩ := forall_mem_cons.1 hours
    obtain ⟨hhead, htail⟩ := pairwise_cons.1 hapart
    rw [cons_append, placeLocks, if_neg (not_not.2 howner)]
    have hbody := absorbs_placeLock hr hl
    have hstart := hbody.start_le
    have hlast := hbody.last_le
    obtain ⟨heq, hrest⟩ := ih (r := (placeLock r l).request) (by omega) (by simpa only [hbody.owner_eq] using hours) htail
      (by simpa only [hbody.owner_eq] using hafter)
    exact ⟨heq, hbody.append hrest hr (by simpa using hhead) fun l hl => (hours l hl).2⟩

theorem fileLocksConflict_iff (ha : a.start ≤ a.last) (hb : b.start ≤ b.last) :
    fileLocksConflict a b ↔ Conflict a b := by
  have hover : fileLocksOverlap a b ↔ ∃ x, a.covers x ∧ b.covers x := by
    rw [fileLocksOverlap_iff]
    constructor
    · intro h
      exact ⟨max a.start b.start, by unfold FileLock.covers; omega, by unfold FileLock.covers; omega⟩
    · rintro ⟨x, hax, hbx⟩
      unfold FileLock.covers at hax hbx
      omega
  unfold fileLocksConflict Conflict
  rw [← hover]
  split_ifs <;> simp_all

variable {locks : List (FileLock ω)}

theorem LocksOk.absorbs (h : LocksOk locks) (hr : r.start ≤ r.last) :
    ∃ before ours after kept, locks = before ++ ours ++ after ∧
      Block FileLock.owner r.owner before ours after ∧ (placeLocks false r locks).before = before ++ kept ∧
      (placeLocks false r locks).after = after ∧ Absorbs r ours kept (placeLocks false r locks).request := by
  obtain ⟨before, ours, after, rfl, hblock⟩ := h.grouped.exists_block r.owner
  have hours := hblock.eq
  rw [append_assoc, placeLocks_append hblock.before]
  cases ours with
  | nil =>
    obtain rfl := hblock.nil rfl
    exact ⟨before, [], [], [], by simp, hblock, rfl, rfl, absorbs_nil r⟩
  | cons l ours =>
    -- the first lock of the group is treated as if the group had been found before
    have hfound : placeLocks false r (l :: ours ++ after) =
        placeLocks true r (l :: ours ++ after) := by
      have hl : ¬ l.owner ≠ r.owner := not_not.2 (hours l mem_cons_self)
      rw [cons_append, placeLocks, placeLocks, if_neg hl, if_neg hl]
    have hsub : (l :: ours).Sublist (before ++ (l :: ours) ++ after) :=
      (sublist_append_right _ _).trans (sublist_append_left _ _)
    have hapart : (l :: ours).Pairwise Apart := by
      refine (h.apart.sublist hsub).imp_of_mem fun ha hb hapart => hapart ?_
      rw [hours _ ha, hours _ hb]
    obtain ⟨heq, habsorbs⟩ := absorbs_placeLocks hr
      (fun l' hl' => ⟨hours l' hl', (h.valid l' (hsub.subset hl')).2.1⟩) hapart hblock.after
    rw [hfound]
    exact ⟨before, l :: ours, after, _, by simp, hblock, rfl, heq, habsorbs⟩

/-! ### The list as a map -/

def heldAt (locks : List (FileLock ω)) (owner : ω) (x : Int) : Option LockType :=
  (locks.find? fun l => l.owner = owner ∧ l.covers x).map FileLock.type

/-- The map after a request: it changes on the owner and the range of the request. -/
def assign (held : ω → Int → Option LockType) (r : FileLock ω) : ω → Int → Option LockType :=
  fun owner x => if owner = r.owner ∧ r.covers x then r.type.held else held owner x

theorem LocksOk.heldAt_eq_some_iff (h : LocksOk locks) {owner : ω} {type : LockType} :
    heldAt locks owner x = some type ↔ ∃ l ∈ locks, l.owner = owner ∧ l.covers x ∧ l.type = type := by
  unfold heldAt
  constructor
  · intro hheld
    obtain ⟨l, hfind, htype⟩ := Option.map_eq_some_iff.1 hheld
    have hl := (find?_eq_some_iff_append.1 hfind).1
    rw [decide_eq_true_eq] at hl
    exact ⟨l, mem_of_find?_eq_some hfind, hl.1, hl.2, htype⟩
  · rintro ⟨l, hl, howner, hx, htype⟩
    obtain ⟨l', hfind⟩ := Option.isSome_iff_exists.1
      (find?_isSome (p := fun l => l.owner = owner ∧ l.covers x).2 ⟨l, hl, by simp [howner, hx]⟩)
    have hl' := (find?_eq_some_iff_append.1 hfind).1
    rw [decide_eq_true_eq] at hl'
    have heq : l' = l := h.unique (mem_of_find?_eq_some hfind) hl (hl'.1.trans howner.symm)
      hl'.2 hx
    rw [hfind, heq, Option.map_some, htype]

/-- The new list is the map after the request. -/
theorem heldAt_replace {r' : FileLock ω} {before ours after kept : List (FileLock ω)}
    (h : LocksOk (before ++ ours ++ after)) (h' : LocksOk (before ++ placed r r' kept ++ after))
    (hblock : Block FileLock.owner r.owner before ours after) (habsorbs : Absorbs r ours kept r') :
    heldAt (before ++ placed r r' kept ++ after) = assign (heldAt (before ++ ours ++ after)) r := by
  have hours := hblock.eq
  have hplaced : ∀ m ∈ placed r r' kept, m.owner = r.owner :=
    fun m hm => habsorbs.placed_owner hours hm
  have hmem : ∀ l ∈ ours, l ∈ before ++ ours ++ after := fun l hl => by simp [hl]
  funext owner x
  refine Option.ext fun type => ?_
  rw [h'.heldAt_eq_some_iff]
  unfold assign
  by_cases howner : owner = r.owner
  · rw [howner, exists_owner_iff hblock hplaced]
    by_cases hx : r.covers x
    · rw [if_pos ⟨rfl, hx⟩, habsorbs.exists_placed_iff hx]
    · rw [if_neg fun hand => hx hand.2, h.heldAt_eq_some_iff, exists_owner_iff hblock hours]
      refine habsorbs.exists_placed_iff_of_not_covers hx (fun l hl => (h.valid l (hmem l hl)).2.2.2)
        fun l hl l' hl' => h.unique (hmem l hl) (hmem l' hl') ?_
      rw [hours l hl, hours l' hl']
  · rw [if_neg fun hand => howner hand.1, h.heldAt_eq_some_iff, exists_other_iff hours howner,
      exists_other_iff hplaced howner]

/-! ### `file_lock_acquire` and `fcntl_getlk` -/

theorem LocksOk.any_conflict_iff (h : LocksOk locks) (hr : r.start ≤ r.last) :
    (locks.any fun l => fileLocksConflict l r) ↔ ∃ l ∈ locks, Conflict l r := by
  rw [any_eq_true]
  exact exists_congr fun l => and_congr_right fun hl =>
    fileLocksConflict_iff (h.valid l hl).2.1 hr

theorem LocksOk.acquire (h : LocksOk locks) (hr₀ : 0 ≤ r.start) (hr : r.start ≤ r.last) (hr₁ : r.last ≤ offTMax)
    (hfree : ¬ (r.type ≠ .unlck ∧ ∃ l ∈ locks, Conflict l r)) : (fileLockAcquire locks r).err = none ∧
      heldAt (fileLockAcquire locks r).locks = assign (heldAt locks) r ∧ LocksOk (fileLockAcquire locks r).locks := by
  unfold fileLockAcquire
  rw [if_neg (by rwa [h.any_conflict_iff hr])]
  obtain ⟨before, ours, after, kept, hlocks, hblock, hfront, hback, habsorbs⟩ := h.absorbs hr
  have hnew : (placeLocks false r locks).before ++
      (if r.type ≠ .unlck then [(placeLocks false r locks).request] else []) ++
      (placeLocks false r locks).after =
        before ++ placed r (placeLocks false r locks).request kept ++ after := by
    rw [hfront, hback, placed, append_assoc before]
  dsimp only
  rw [hnew]
  generalize (placeLocks false r locks).request = r' at habsorbs
  subst hlocks
  have hok : LocksOk (before ++ placed r r' kept ++ after) :=
    h.replace hr₀ hr hr₁ (fun htype l hl hc => hfree ⟨htype, l, hl, hc⟩) hblock habsorbs
  exact ⟨rfl, heldAt_replace h hok hblock habsorbs, hok⟩

theorem fcntlGetlk_unlck_iff (hun : ∀ l ∈ locks, l.type ≠ .unlck) {fd : LockFd} {files : ω} {pid : Int} {flock : Flock}
    (htype : flock.type = some r.type) (hr : r.type ≠ .unlck)
    (hrequest : fileLockFromFlock fd files pid flock r.type = .ok r) :
    (∃ flock', fcntlGetlk locks fd files pid flock = .ok flock' ∧ flock'.type = some .unlck) ↔
      (fileLockAcquire locks r).err = none := by
  have hget : fcntlGetlk locks fd files pid flock =
      .ok (((fileLockTest locks r).map flockFromFileLock).getD { flock with type := some .unlck }) := by
    unfold fcntlGetlk
    rw [htype]
    cases hcase : r.type with
    | unlck => exact absurd hcase hr
    | rdlck | wrlck =>
      rw [hcase] at hrequest
      simp only [hrequest]
      cases htest : fileLockTest locks r <;> simp [Bind.bind, Except.bind, htest]
  rw [hget]
  cases htest : fileLockTest locks r with
  | none =>
    have hnone : ¬ locks.any fun l => fileLocksConflict l r := by
      simpa [fileLockTest] using htest
    unfold fileLockAcquire
    rw [if_neg fun hand => hnone hand.2]
    exact ⟨fun _ => rfl, fun _ => ⟨_, rfl, rfl⟩⟩
  | some lock =>
    have hany : locks.any fun l => fileLocksConflict l r :=
      any_eq_true.2 ⟨lock, mem_of_find?_eq_some htest, (find?_eq_some_iff_append.1 htest).1⟩
    unfold fileLockAcquire
    rw [if_pos ⟨hr, hany⟩]
    constructor
    · rintro ⟨flock', heq, hflock⟩
      cases heq
      exact absurd (Option.some.inj hflock) (hun lock (mem_of_find?_eq_some htest))
    · intro herr
      cases herr

/-- **POSIX locks.**  On a list that satisfies the invariant, a request for a range of bytes is
refused, and changes nothing, exactly if it is not an unlock and another owner holds a conflicting
lock; otherwise the list is the old map changed on the owner and range of the request, and satisfies
the invariant. `fcntl_getlk` reports an unlocked range exactly if the request would be granted. -/
theorem file_lock_acquire_refines {locks : List (FileLock ω)} (h : LocksOk locks) {r : FileLock ω}
    (hr₀ : 0 ≤ r.start) (hr : r.start ≤ r.last) (hr₁ : r.last ≤ offTMax) :
    ((fileLockAcquire locks r).err = some .eagain ↔ r.type ≠ .unlck ∧ ∃ l ∈ locks, Conflict l r) ∧
    ((fileLockAcquire locks r).err = some .eagain →
      (fileLockAcquire locks r).locks = locks ∧ (fileLockAcquire locks r).request = r) ∧
    ((fileLockAcquire locks r).err ≠ some .eagain → (fileLockAcquire locks r).err = none ∧
        heldAt (fileLockAcquire locks r).locks = assign (heldAt locks) r ∧ LocksOk (fileLockAcquire locks r).locks) ∧
    ∀ (fd : LockFd) (files : ω) (pid : Int) (flock : Flock), flock.type = some r.type →
      r.type ≠ .unlck → fileLockFromFlock fd files pid flock r.type = .ok r →
      ((∃ flock', fcntlGetlk locks fd files pid flock = .ok flock' ∧ flock'.type = some .unlck) ↔
        (fileLockAcquire locks r).err = none) := by
  have hun : ∀ l ∈ locks, l.type ≠ .unlck := fun l hl => (h.valid l hl).2.2.2
  by_cases hbusy : r.type ≠ .unlck ∧ ∃ l ∈ locks, Conflict l r
  · have heq : fileLockAcquire locks r = ⟨some .eagain, locks, r, false⟩ := by
      unfold fileLockAcquire
      rw [if_pos (by rwa [h.any_conflict_iff hr])]
    refine ⟨?_, ?_, ?_, fun _ _ _ _ => fcntlGetlk_unlck_iff hun⟩
    · simp [heq, hbusy]
    · simp [heq]
    · simp [heq]
  · have hplaced := h.acquire hr₀ hr hr₁ hbusy
    refine ⟨?_, ?_, fun _ => hplaced, fun _ _ _ _ => fcntlGetlk_unlck_iff hun⟩
    · simp [hplaced.1, hbusy]
    · simp [hplaced.1]

/-- One process writes the first 100 bytes and another reads from byte 200 on. -/
def sharedFile : List (FileLock Bool) :=
  [⟨0, 99, .wrlck, 7, true⟩, ⟨200, offTMax, .rdlck, 8, false⟩]

theorem locksOk_sharedFile : LocksOk sharedFile := by
  have hwrite := locksOk_nil.acquire (r := ⟨0, 99, .wrlck, 7, true⟩) (by decide) (by decide)
    (by decide) (by simp)
  have hread := hwrite.2.2.acquire (r := ⟨200, offTMax, .rdlck, 8, false⟩) (by decide) (by decide)
    (by decide) (by
      rintro ⟨-, l, hl, -, ⟨x, hlx, hx⟩, -⟩
      obtain rfl : l = ⟨0, 99, .wrlck, 7, true⟩ := mem_singleton.1 hl
      exact absurd (Int.le_trans hx.1 hlx.2) (by decide))
  exact hread.2.2

/-- A read lock in the middle of the written bytes splits the write lock. -/
theorem file_lock_acquire_sharedFile : (fileLockAcquire sharedFile ⟨10, 19, .rdlck, 7, true⟩).locks =
      [⟨0, 9, .wrlck, 7, true⟩, ⟨20, 99, .wrlck, 7, true⟩, ⟨10, 19, .rdlck, 7, true⟩,
        ⟨200, offTMax, .rdlck, 8, false⟩] ∧ heldAt (fileLockAcquire sharedFile ⟨10, 19, .rdlck, 7, true⟩).locks =
      assign (heldAt sharedFile) ⟨10, 19, .rdlck, 7, true⟩ :=
  ⟨by decide, ((file_lock_acquire_refines locksOk_sharedFile (r := ⟨10, 19, .rdlck, 7, true⟩)
    (by decide) (by decide) (by decide)).2.2.1 (by decide)).2.1⟩

end Ish.Fs
