import Ish.Asbestos.Equiv.Index

/-!
# The chains between blocks

A jump of a live block holds its old fake address, or it goes to the code of a live block at that
address and is linked into the list of that block (`Chains`). Patching a jump adds one link
(`Chains.patch`) and `Links.dropLink` takes one away (`Chains.dropLink`). A block is retired when
`fiber_block_disconnect` has dropped its own links and all links to it, so that no chain speaks of it
any more (`Chains.retire`).
-/

namespace Ish.Asbestos

open Lib Function Option

/-- The block that the jump of slot `i` of block `x` is linked to. -/
def Links.target (l : Links) (x : Nat) (i : Bool) : Option Nat := (l.link (x, i)).target

/-- The chains are those of the live blocks. -/
structure Chains (live : Nat → Option Code) (l : Links) : Prop where
  lists : ∀ i, Lists (fun t => l.jumpsFrom (t, i)) fun x => l.target x i
  linked : ∀ x i t, l.target x i = some t → ∃ c c' old, live x = some c ∧ live t = some c' ∧
    c.jump i = some old ∧ c'.addr = old % 2 ^ 48 ∧ l.word (x, i) = .code t
  unlinked : ∀ x i c old, live x = some c → c.jump i = some old → l.target x i = none →
    l.word (x, i) = .fake old

variable {live : Nat → Option Code} {l : Links} {s : State} {x t : Nat} {i j : Bool}

theorem slot_ne (hne : ¬(x = t ∧ i = j)) : (x, i) ≠ (t, j) := fun heq =>
  hne ⟨congrArg Prod.fst heq, congrArg Prod.snd heq⟩

theorem update_slot {β : Type} (f : Nat × Bool → β) (x : Nat) (i : Bool) (v : β) :
    (fun y => update f (x, i) v (y, i)) = update (fun y => f (y, i)) x v := by
  funext y
  by_cases hy : y = x
  · rw [hy, update_self, update_self]
  · rw [update_of_ne hy, update_of_ne (slot_ne fun heq => hy heq.1)]

theorem update_slot_of_ne {β : Type} (hj : j ≠ i) (f : Nat × Bool → β) (x : Nat) (v : β) :
    (fun y => update f (x, i) v (y, j)) = fun y => f (y, j) :=
  funext fun _ => update_of_ne (slot_ne fun heq => hj heq.2) _ _

/-! ### Patching -/

theorem Links.target_patch (l : Links) (x : Nat) (i : Bool) (t y : Nat) (j : Bool) :
    (l.patch x i t).target y j = if y = x ∧ j = i then some t else l.target y j := by
  unfold Links.target Links.patch
  dsimp only
  split_ifs with heq
  · rw [heq.1, heq.2, update_self]
    rfl
  · rw [update_of_ne (slot_ne heq)]

/-- A slot that holds a fake jump is in no list. -/
theorem Chains.of_fakeTo (h : Chains live l) {c c' : Code} (hx : live x = some c) (hfake : l.fakeTo x i c c' = true) :
    l.target x i = none ∧ ∃ old, c.jump i = some old ∧ c'.addr = old % 2 ^ 48 := by
  obtain ⟨hjump, hword⟩ := (Bool.and_eq_true _ _).mp hfake
  obtain ⟨old, hold⟩ := isSome_iff_exists.1 hjump
  have hword := eq_of_beq hword
  have hnone : l.target x i = none := by
    refine eq_none_iff_forall_ne_some.2 fun t ht => ?_
    obtain ⟨-, -, -, -, -, -, -, hcode⟩ := h.linked x i t ht
    rw [hcode] at hword
    cases hword
  rw [h.unlinked x i c old hx hold hnone] at hword
  exact ⟨hnone, old, hold, (Option.some.inj hword).symm⟩

theorem Chains.patch (h : Chains live l) {c c' : Code} (hx : live x = some c)
    (ht : live t = some c') (hfake : l.fakeTo x i c c' = true) : Chains live (l.patch x i t) := by
  obtain ⟨hnone, old, hold, haddr⟩ := h.of_fakeTo hx hfake
  have hword : ∀ y j, ¬(y = x ∧ j = i) → (l.patch x i t).word (y, j) = l.word (y, j) :=
    fun y j hne => update_of_ne (slot_ne hne) _ _
  refine ⟨fun j => ?_, fun y j u hu => ?_, fun y j d old' hy hold' hu => ?_⟩
  · by_cases hj : j = i
    · subst hj
      unfold Links.patch
      rw [update_slot]
      refine ((h.lists j).cons hnone t).congr fun y => ?_
      rw [← Links.patch, Links.target_patch, update_apply]
      simp
    · unfold Links.patch
      rw [update_slot_of_ne hj]
      refine (h.lists j).congr fun y => ?_
      rw [← Links.patch, Links.target_patch, if_neg fun heq => hj heq.2]
  · rw [Links.target_patch] at hu
    split_ifs at hu with heq
    · obtain ⟨rfl, rfl⟩ := heq
      cases hu
      exact ⟨c, c', old, hx, ht, hold, haddr, update_self _ _ _⟩
    · rw [hword y j heq]
      exact h.linked y j u hu
  · rw [Links.target_patch] at hu
    split_ifs at hu with heq
    rw [hword y j heq]
    exact h.unlinked y j d old' hy hold' hu

theorem Chains.patches (h : Chains live l) {l' : Links} (hpatches : Patches live l l') : Chains live l' := by
  induction hpatches with
  | refl => exact h
  | patch _ hx ht hfake ih => exact ih.patch hx ht hfake

/-! ### Disconnecting -/

theorem Links.target_dropLink (l : Links) (blocks : Nat → Option Code) (x : Nat) (i : Bool) (y : Nat) (j : Bool) :
    (l.dropLink blocks x i).target y j = if y = x ∧ j = i then none else l.target y j := by
  unfold Links.target Links.dropLink
  dsimp only
  split_ifs with heq
  · rw [heq.1, heq.2, update_self]
    rfl
  · rw [update_of_ne (slot_ne heq)]

variable {blocks : Nat → Option Code}

theorem Links.word_dropLink_self (l : Links) {c : Code} {old : Nat}
    (hx : blocks x = some c) (hold : c.jump i = some old) : (l.dropLink blocks x i).word (x, i) = .fake old := by
  unfold Links.dropLink
  dsimp only
  rw [hx, bind_some, hold]
  exact update_self _ _ _

theorem Links.word_dropLink_of_ne (l : Links) (blocks : Nat → Option Code) {y : Nat}
    (hne : ¬(y = x ∧ j = i)) : (l.dropLink blocks x i).word (y, j) = l.word (y, j) := by
  unfold Links.dropLink
  dsimp only
  cases (blocks x).bind (·.jump i) with
  | none => rfl
  | some old => exact update_of_ne (slot_ne hne) _ _

theorem Links.jumpsFrom_dropLink_of_ne (l : Links) (blocks : Nat → Option Code) (hj : j ≠ i)
    (x t : Nat) : (l.dropLink blocks x i).jumpsFrom (t, j) = l.jumpsFrom (t, j) := by
  unfold Links.dropLink
  dsimp only
  cases (l.link (x, i)).target with
  | none => rfl
  | some u => exact update_of_ne (slot_ne fun heq => hj heq.2) _ _

theorem Chains.lists_dropLink (h : Chains live l) (blocks : Nat → Option Code) (x : Nat) (i : Bool) :
    Lists (fun t => (l.dropLink blocks x i).jumpsFrom (t, i)) (update (fun y => l.target y i) x none) := by
  unfold Links.dropLink
  dsimp only
  cases htarget : (l.link (x, i)).target with
  | none =>
    refine (h.lists i).congr fun y => ?_
    rw [← htarget]
    exact congrFun (update_eq_self x fun y => l.target y i) y
  | some u =>
    dsimp only
    rw [update_slot]
    exact (h.lists i).erase_of_eq_some htarget

theorem Chains.dropLink (h : Chains live l)
    (hblocks : ∀ id c, live id = some c → blocks id = some c) (x : Nat) (i : Bool) :
    Chains live (l.dropLink blocks x i) := by
  refine ⟨fun j => ?_, fun y j u hu => ?_, fun y j d old hy hold hu => ?_⟩
  · by_cases hj : j = i
    · subst hj
      refine (h.lists_dropLink blocks x j).congr fun y => ?_
      rw [Links.target_dropLink, update_apply]
      simp
    · simp only [l.jumpsFrom_dropLink_of_ne blocks hj]
      refine (h.lists j).congr fun y => ?_
      rw [Links.target_dropLink, if_neg fun heq => hj heq.2]
  · rw [Links.target_dropLink] at hu
    split_ifs at hu with heq
    rw [l.word_dropLink_of_ne blocks heq]
    exact h.linked y j u hu
  · rw [Links.target_dropLink] at hu
    split_ifs at hu with heq
    · obtain ⟨rfl, rfl⟩ := heq
      exact l.word_dropLink_self (hblocks y d hy) hold
    · rw [l.word_dropLink_of_ne blocks heq]
      exact h.unlinked y j d old hy hold hu

theorem Chains.foldl_dropLink (h : Chains live l)
    (hblocks : ∀ id c, live id = some c → blocks id = some c) (i : Bool) (xs : List Nat) :
    Chains live (xs.foldl (fun l x => l.dropLink blocks x i) l) ∧
      ∀ y j, (xs.foldl (fun l x => l.dropLink blocks x i) l).target y j =
        if y ∈ xs ∧ j = i then none else l.target y j := by
  induction xs generalizing l with
  | nil => exact ⟨h, by simp⟩
  | cons x xs ih =>
    obtain ⟨hchains, htarget⟩ := ih (h.dropLink hblocks x i)
    refine ⟨hchains, fun y j => (htarget y j).trans ?_⟩
    rw [Links.target_dropLink]
    by_cases hy : y = x <;> by_cases hj : j = i <;> simp [hy, hj]

/-- **What `fiber_block_disconnect` does to one slot**: the link of the block goes, and every link
to it. -/
theorem Chains.disconnect (h : Chains live l)
    (hblocks : ∀ id c, live id = some c → blocks id = some c) (b : Nat) (i : Bool) :
    Chains live (l.disconnect blocks b i) ∧ ∀ y j, (l.disconnect blocks b i).target y j =
        if (y = b ∨ l.target y i = some b) ∧ j = i then none else l.target y j := by
  obtain ⟨l', hl', hchains, htarget⟩ : ∃ l',
      (if l.link (b, i) = .null then l else l.dropLink blocks b i) = l' ∧ Chains live l' ∧
      ∀ y j, l'.target y j = if y = b ∧ j = i then none else l.target y j := by
    refine ⟨_, rfl, ?_⟩
    split_ifs with hnull
    · refine ⟨h, fun y j => ?_⟩
      split_ifs with heq
      · rw [heq.1, heq.2, Links.target, hnull]
        rfl
      · rfl
    · exact ⟨h.dropLink hblocks b i, l.target_dropLink blocks b i⟩
  unfold Links.disconnect
  dsimp only
  rw [hl']
  obtain ⟨hafter, hdrop⟩ := hchains.foldl_dropLink hblocks i (l'.jumpsFrom (b, i))
  refine ⟨hafter, fun y j => (hdrop y j).trans ?_⟩
  have hmem : y ∈ l'.jumpsFrom (b, i) ↔ l'.target y i = some b := (hchains.lists i).mem b y
  simp only [hmem, htarget]
  by_cases hy : y = b <;> by_cases hj : j = i <;> simp [hy, hj]

theorem Chains.forget (h : Chains live l) {b : Nat} (hfrom : ∀ i, l.target b i = none)
    (hto : ∀ x i, l.target x i ≠ some b) : Chains (update live b none) l where
  lists := h.lists
  linked x i t ht := by
    have hx : x ≠ b := by
      rintro rfl
      rw [hfrom] at ht
      cases ht
    have htb : t ≠ b := by
      rintro rfl
      exact hto x i ht
    rw [update_of_ne hx, update_of_ne htb]
    exact h.linked x i t ht
  unlinked x i c old hx := by
    rw [update_apply] at hx
    split_ifs at hx
    exact h.unlinked x i c old hx

theorem Chains.retire (hinv : Inv s) (h : Chains s.live s.links) (id : Nat) :
    Chains (s.retire id).live (s.retire id).links := by
  have hblocks := hinv.indexed.blocks
  obtain ⟨h₀, htarget₀⟩ := h.disconnect hblocks id false
  obtain ⟨h₁, htarget₁⟩ := h₀.disconnect hblocks id true
  rw [State.live_retire]
  refine h₁.forget (fun i => ?_) fun x i => ?_
  all_goals
    rw [htarget₁, htarget₀, htarget₀]
    cases i <;> simp

/-! ### The calls -/

variable {s' : State}

theorem Chains.retires (hinv : Inv s) (h : Chains s.live s.links)
    (hretires : Retires s s') : Chains s'.live s'.links := by
  induction hretires with
  | refl => exact h
  | retire hretires _ ih => exact Chains.retire (hinv.retires hretires) ih _
  | bump _ _ ih => exact ih

theorem Chains.relinks (h : Chains s.live s.links) (hrel : Relinks s s') : Chains s'.live s'.links := by
  obtain ⟨l, rfl, hpatches⟩ := hrel
  exact h.patches hpatches

theorem Chains.target_of_not_live (h : Chains live l) (hx : live x = none) : l.target x i = none := by
  refine eq_none_iff_forall_ne_some.2 fun t ht => ?_
  obtain ⟨c, -, -, hc, -⟩ := h.linked x i t ht
  rw [hx] at hc
  cases hc

theorem Chains.jumpsFrom_of_not_live (h : Chains live l) (ht : live t = none) : l.jumpsFrom (t, i) = [] := by
  refine List.eq_nil_iff_forall_not_mem.2 fun x hx => ?_
  obtain ⟨-, c', -, -, hc', -⟩ := h.linked x i t (((h.lists i).mem t x).1 hx)
  rw [ht] at hc'
  cases hc'

theorem Chains.compile (h : Chains s.live s.links) (hnext : s.live s.next = none) (code : Code) :
    Chains (update s.live s.next (some code)) (s.compile code).links := by
  have htarget : ∀ x i, (s.compile code).links.target x i = s.links.target x i := by
    intro x i
    show Link.target (if x = s.next then .loop else s.links.link (x, i)) = s.links.target x i
    split_ifs with hx
    · rw [hx, h.target_of_not_live hnext]
      rfl
    · rfl
  have hjumps : ∀ t i, (s.compile code).links.jumpsFrom (t, i) = s.links.jumpsFrom (t, i) := by
    intro t i
    show (if t = s.next then [] else s.links.jumpsFrom (t, i)) = s.links.jumpsFrom (t, i)
    split_ifs with ht
    · rw [ht, h.jumpsFrom_of_not_live hnext]
    · rfl
  refine ⟨fun i => ?_, fun x i t ht => ?_, fun x i c old hx hold hnone => ?_⟩
  · simp only [hjumps]
    exact (h.lists i).congr fun x => htarget x i
  · rw [htarget] at ht
    obtain ⟨c, c', old, hx, hc', hold, haddr, hword⟩ := h.linked x i t ht
    have hxn : x ≠ s.next := by
      rintro rfl
      rw [hnext] at hx
      cases hx
    have htn : t ≠ s.next := by
      rintro rfl
      rw [hnext] at hc'
      cases hc'
    rw [update_of_ne hxn, update_of_ne htn]
    exact ⟨c, c', old, hx, hc', hold, haddr, (if_neg hxn).trans hword⟩
  · rw [htarget] at hnone
    rcases update_cases hx with ⟨hxn, hx⟩ | ⟨hxn, hx⟩
    · cases hx
      refine (if_pos hxn).trans ?_
      rw [hold]
      rfl
    · exact (if_neg hxn).trans (h.unlinked x i c old hx hold hnone)

theorem Chains.addBlock (hinv : Inv s) (h : Chains s.live s.links) (code : Code) :
    Chains (s.addBlock code).live (s.addBlock code).links := by
  obtain ⟨hash, hashSize, heq⟩ := (s.compile code).countBlock_eq code
  have hlinks : (s.addBlock code).links = (s.compile code).links := by
    unfold State.addBlock
    rw [heq]
    rfl
  rw [State.live_addBlock, hlinks]
  exact h.compile hinv.live_next code

theorem Chains.step (hinv : Inv s) (h : Chains s.live s.links) {a : Act}
    (hstep : s.step a = some s') : Chains s'.live s'.links := by
  obtain ⟨code, eager, incoming, -, rfl⟩ | ⟨last, block, rfl⟩ | ⟨buckets, rfl⟩ | rfl | rfl :=
    State.step_cases hstep
  · exact (Chains.addBlock hinv h code).relinks (relinks_insert s code eager incoming)
  · exact h.relinks (relinks_chain s last block)
  · exact Chains.retires hinv h (hinv.retireLists buckets).1
  · exact h
  · rw [State.live_freeJetsam hinv]
    exact h

theorem chains_init : Chains init.live init.links where
  lists _ := lists_nil
  linked _ _ _ ht := by cases ht
  unlinked _ _ _ _ hx := by cases hx

/-! ### Blocks that are jetsam -/

/-- A slot that is not linked holds its old jump, also in a block that is jetsam. -/
def Restored (blocks : Nat → Option Code) (l : Links) : Prop :=
  ∀ x i c old, blocks x = some c → c.jump i = some old → l.target x i = none →
    l.word (x, i) = .fake old

theorem Restored.patches {l' : Links} (h : Restored blocks l) (hpatches : Patches live l l') : Restored blocks l' := by
  induction hpatches with
  | refl => exact h
  | @patch l₁ x i t _ _ _ _ _ _ ih =>
    intro y j c old hy hold hnone
    rw [Links.target_patch] at hnone
    split_ifs at hnone with heq
    have hword : (l₁.patch x i t).word (y, j) = l₁.word (y, j) :=
      update_of_ne (slot_ne heq) _ _
    rw [hword]
    exact ih y j c old hy hold hnone

theorem Restored.dropLink (h : Restored blocks l) (x : Nat) (i : Bool) : Restored blocks (l.dropLink blocks x i) := by
  intro y j c old hy hold hnone
  rw [Links.target_dropLink] at hnone
  split_ifs at hnone with heq
  · obtain ⟨rfl, rfl⟩ := heq
    exact l.word_dropLink_self hy hold
  · rw [l.word_dropLink_of_ne blocks heq]
    exact h y j c old hy hold hnone

theorem Restored.disconnect (h : Restored blocks l) (b : Nat)
    (i : Bool) : Restored blocks (l.disconnect blocks b i) := by
  have hfold : ∀ (xs : List Nat) (l : Links), Restored blocks l →
      Restored blocks (xs.foldl (fun l x => l.dropLink blocks x i) l) := by
    intro xs
    induction xs with
    | nil => exact fun _ hl => hl
    | cons x xs ih => exact fun l hl => ih _ (hl.dropLink x i)
  have hown : Restored blocks (if l.link (b, i) = .null then l else l.dropLink blocks b i) := by
    split_ifs
    · exact h
    · exact h.dropLink b i
  exact hfold _ _ hown

theorem Restored.retires (h : Restored s.blocks s.links) (hretires : Retires s s') : Restored s'.blocks s'.links := by
  induction hretires with
  | refl => exact h
  | retire _ _ ih => exact (ih.disconnect _ false).disconnect _ true
  | bump _ _ ih => exact ih

theorem Restored.addBlock (h : Restored s.blocks s.links) (code : Code) :
    Restored (s.addBlock code).blocks (s.addBlock code).links := by
  obtain ⟨hash, hashSize, heq⟩ := (s.compile code).countBlock_eq code
  have hblocks : (s.addBlock code).blocks = update s.blocks s.next (some code) := by
    unfold State.addBlock
    rw [heq]
    rfl
  have hlinks : (s.addBlock code).links = (s.compile code).links := by
    unfold State.addBlock
    rw [heq]
    rfl
  rw [hblocks, hlinks]
  intro x i c old hx hold hnone
  rcases update_cases hx with ⟨hxn, hx⟩ | ⟨hxn, hx⟩
  · cases hx
    refine (if_pos hxn).trans ?_
    rw [hold]
    rfl
  · have htarget : (s.compile code).links.target x i = s.links.target x i := by
      show Link.target (if x = s.next then .loop else s.links.link (x, i)) = _
      rw [if_neg hxn]
      rfl
    rw [htarget] at hnone
    exact (if_neg hxn).trans (h x i c old hx hold hnone)

theorem Restored.relinks (h : Restored s.blocks s.links) (hrel : Relinks s s') : Restored s'.blocks s'.links := by
  obtain ⟨l, rfl, hpatches⟩ := hrel
  exact h.patches hpatches

/-- Every call keeps it. -/
theorem Restored.step (hinv : Inv s) (h : Restored s.blocks s.links) {a : Act}
    (hstep : s.step a = some s') : Restored s'.blocks s'.links := by
  obtain ⟨code, eager, incoming, -, rfl⟩ | ⟨last, block, rfl⟩ | ⟨buckets, rfl⟩ | rfl | rfl :=
    State.step_cases hstep
  · exact (h.addBlock code).relinks (relinks_insert s code eager incoming)
  · exact h.relinks (relinks_chain s last block)
  · exact h.retires (hinv.retireLists buckets).1
  · exact h
  · intro x i c old hx
    exact h x i c old (ite_none_left_eq_some.1 hx).2

structure State.Good (s : State) : Prop where
  inv : Inv s
  chains : Chains s.live s.links
  restored : Restored s.blocks s.links

theorem State.Good.step (h : s.Good) {a : Act} (hstep : s.step a = some s') : s'.Good :=
  ⟨h.inv.step hstep, Chains.step h.inv h.chains hstep, Restored.step h.inv h.restored hstep⟩

theorem State.Good.relinks (h : s.Good) (hrel : Relinks s s') : s'.Good :=
  ⟨h.inv.relinks hrel, h.chains.relinks hrel, h.restored.relinks hrel⟩

theorem good_init : init.Good :=
  ⟨inv_init, chains_init, fun _ _ _ _ hx => by cases hx⟩

theorem good_of_run (hrun : Run State.step anyStep init s) : s.Good :=
  hrun.inv State.Good (fun _ _ _ h _ hstep => h.step hstep) good_init

/-- A patched jump of any block goes to a live one. -/
theorem State.Good.live_of_code (h : s.Good) {c : Code} {old : Nat}
    (hx : s.blocks x = some c) (hold : c.jump i = some old) (hword : s.links.word (x, i) = .code t) :
    s.live t ≠ none := by
  cases htarget : s.links.target x i with
  | none =>
    rw [h.restored x i c old hx hold htarget] at hword
    cases hword
  | some u =>
    obtain ⟨-, c', -, -, hc', -, -, hcode⟩ := h.chains.linked x i u htarget
    rw [hword] at hcode
    cases hcode
    rw [hc']
    simp

/-- **Chain integrity in every run**: a jump of a live block is its old one, or it goes to the one
live block at its address, which is in the hash and has the jump in its list, once and in no other
list of the slot. No jump of a live block goes to a block that is jetsam or freed. -/
theorem block_chains_sound {s : State} (hrun : Run State.step anyStep init s) {id : Nat} {c : Code}
    (hlive : s.live id = some c) {i : Bool} {old : Nat} (hjump : c.jump i = some old) :
    (s.links.word (id, i) = .fake old ∨ ∃ t c', s.links.word (id, i) = .code t ∧ s.live t = some c' ∧
        t ∈ s.hash (c'.addr % s.hashSize) ∧ c'.addr = old % 2 ^ 48 ∧
        (s.links.jumpsFrom (t, i)).count id = 1 ∧ ∀ u, u ≠ t → id ∉ s.links.jumpsFrom (u, i)) ∧
    ∀ t, s.links.word (id, i) = .code t → s.isJetsam t = false ∧ (s.blocks t).isSome := by
  obtain ⟨hinv, h, -⟩ := good_of_run hrun
  cases htarget : s.links.target id i with
  | none =>
    have hword := h.unlinked id i c old hlive hjump htarget
    refine ⟨.inl hword, fun t ht => ?_⟩
    rw [hword] at ht
    cases ht
  | some t =>
    obtain ⟨d, c', old', hd, hc', hold, haddr, hword⟩ := h.linked id i t htarget
    obtain rfl : c = d := Option.some.inj (hlive.symm.trans hd)
    obtain rfl : old = old' := Option.some.inj (hjump.symm.trans hold)
    have hmem : ∀ u, id ∈ s.links.jumpsFrom (u, i) ↔ some t = some u := fun u =>
      htarget ▸ (h.lists i).mem u id
    refine ⟨.inr ⟨t, c', hword, hc', ?_, haddr, ?_, fun u hne hu => ?_⟩, fun u hu => ?_⟩
    · rw [hinv.indexed.hash.mem, hc']
      rfl
    · exact List.count_eq_one_of_mem ((h.lists i).nodup t) ((hmem t).2 rfl)
    · exact hne (Option.some.inj ((hmem u).1 hu)).symm
    · rw [hword] at hu
      cases hu
      obtain ⟨hjetsam, hblock⟩ := ite_none_left_eq_some.1 hc'
      exact ⟨Bool.eq_false_iff.2 hjetsam, isSome_iff_exists.2 ⟨c', hblock⟩⟩

/-- Two blocks of a page that jump to each other and a third that falls through into another page,
where the block is invalidated after the dispatcher has chained it. -/
def loopRun : List Act :=
  [.insert ⟨4096, 4107, 64, fun i => if i then none else some 4112, by decide, by decide⟩ true true,
    .insert ⟨4112, 4127, 64, fun i => some (if i then 8192 else 4096), by decide, by decide⟩ true true,
    .insert ⟨8192, 8207, 64, fun _ => none, by decide, by decide⟩ true true,
    .chain 1 2, .invalidatePage 2, .freeJetsam]

theorem loopRun_isSome : (loopRun.foldlM State.step init).isSome := by decide

def afterLoopRun : State := Option.get _ loopRun_isSome

/-- The jumps between the first two are still patched, and the jump to the third is fake again. -/
theorem block_chains_loopRun : afterLoopRun.links.word (1, false) = .code 0 ∧ afterLoopRun.isJetsam 0 = false ∧
      afterLoopRun.links.word (0, false) = .code 1 ∧ afterLoopRun.links.word (1, true) = .fake 8192 := by
  have hrun : Run State.step anyStep init afterLoopRun :=
    Run.of_foldlM (fun _ _ _ => trivial) (some_get loopRun_isSome).symm
  have hword : afterLoopRun.links.word (1, false) = .code 0 := by decide
  have hsome : ((afterLoopRun.live 1).bind (·.jump false)).isSome := by decide
  obtain ⟨old, hold⟩ := isSome_iff_exists.1 hsome
  obtain ⟨c, hlive, hjump⟩ := bind_eq_some_iff.1 hold
  exact ⟨hword, ((block_chains_sound hrun hlive hjump).2 0 hword).1, by decide,
    by decide⟩

end Ish.Asbestos
