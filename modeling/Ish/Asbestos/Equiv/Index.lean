import Ish.Asbestos.Block
import Ish.Lib.Run

/-!
# The indexes of the blocks

The hash and the page lists hold exactly the live blocks, each once in every list that its addresses
select (`Indexed`), and the counters are the sums over them (`Counted`). Both speak of a function
`live` from names to blocks, which an insertion updates at a new name and a retirement at an old one.
-/

namespace Ish.Asbestos

open Lib Function List Option

/-- The block with this name, unless it is jetsam or freed. -/
def State.live (s : State) (id : Nat) : Option Code := if s.isJetsam id then none else s.blocks id

/-- The sum of `g` over the live blocks among the first `n`. -/
def total (g : Code → Nat) (live : Nat → Option Code) (n : Nat) : Nat :=
  ∑ id ∈ Finset.range n, (live id).elim 0 g

/-- The lists hold the live blocks. -/
structure Indexed (live : Nat → Option Code) (s : State) : Prop where
  blocks : ∀ id c, live id = some c → s.blocks id = some c
  size_pos : 0 < s.hashSize
  hash : Lists s.hash fun id => (live id).map (·.addr % s.hashSize)
  pages : ∀ i, Lists (fun n => s.pageHash (n, i)) fun id => (live id).bind (·.pageBucket i)
  unique : ∀ id id' c c', live id = some c → live id' = some c' → c.addr = c'.addr → id = id'

/-- The counters count the live blocks. -/
structure Counted (live : Nat → Option Code) (s : State) : Prop where
  numBlocks : s.numBlocks = total (fun _ => 1) live s.next
  memUsed : s.memUsed = total Code.used live s.next

variable {live : Nat → Option Code} {s : State} {id : Nat} {c : Code}

/-! ### Lookup -/

theorem Indexed.lookup_iff (h : Indexed live s) {a id : Nat} :
    s.lookup a = some id ↔ ∃ c, live id = some c ∧ c.addr = a := by
  have hmem : ∀ id, id ∈ s.hash (a % s.hashSize) ↔
      ∃ c, live id = some c ∧ c.addr % s.hashSize = a % s.hashSize :=
    fun id => (h.hash.mem _ id).trans map_eq_some_iff
  have hany : ∀ id ∈ s.hash (a % s.hashSize), (s.blocks id).any (·.addr = a) = true ↔
      ∃ c, live id = some c ∧ c.addr = a := by
    intro id hid
    obtain ⟨c, hc, -⟩ := (hmem id).1 hid
    simp [h.blocks id c hc, hc]
  constructor
  · intro hlookup
    exact (hany id (mem_of_find?_eq_some hlookup)).1
      (find?_eq_some_iff_append.1 hlookup).1
  · rintro ⟨c, hc, rfl⟩
    have hid : id ∈ s.hash (c.addr % s.hashSize) := (hmem id).2 ⟨c, hc, rfl⟩
    obtain ⟨id', hfind⟩ := isSome_iff_exists.1
      (find?_isSome (p := fun id => (s.blocks id).any (·.addr = c.addr)).2
        ⟨id, hid, (hany id hid).2 ⟨c, hc, rfl⟩⟩)
    obtain ⟨c', hc', haddr⟩ := (hany id' (mem_of_find?_eq_some hfind)).1
      (find?_eq_some_iff_append.1 hfind).1
    rw [State.lookup, hfind, h.unique id' id c' c hc' hc haddr]

theorem Indexed.lookup_eq_none_iff (h : Indexed live s) {a : Nat} :
    s.lookup a = none ↔ ∀ id c, live id = some c → c.addr ≠ a := by
  rw [eq_none_iff_forall_ne_some]
  constructor
  · intro hnone id c hc haddr
    exact hnone id (h.lookup_iff.2 ⟨c, hc, haddr⟩)
  · intro hne id hlookup
    obtain ⟨c, hc, haddr⟩ := h.lookup_iff.1 hlookup
    exact hne id c hc haddr

/-! ### Insertion -/

theorem Indexed.resizeHash (h : Indexed live s) {size : Nat} (hsize : 0 < size) : Indexed live (s.resizeHash size) where
  blocks := h.blocks
  size_pos := hsize
  hash := by
    have hlt : ∀ id n, (live id).map (·.addr % s.hashSize) = some n → n < s.hashSize := by
      intro id n hn
      obtain ⟨c, -, rfl⟩ := map_eq_some_iff.1 hn
      exact Nat.mod_lt _ h.size_pos
    refine (lists_nil.pushAll (s.bucket size) (h.hash.nodup_flatMap s.hashSize) fun _ _ => rfl).congr fun id => ?_
    simp only [h.hash.mem_flatMap hlt]
    cases hlive : live id with
    | none => simp
    | some c => simp [State.bucket, h.blocks id c hlive, State.resizeHash]
  pages := h.pages
  unique := h.unique

theorem Indexed.countBlock (h : Indexed live s) (code : Code) : Indexed live (s.countBlock code) := by
  have hcount : Indexed live
      { s with memUsed := s.memUsed + code.used, numBlocks := s.numBlocks + 1 } :=
    ⟨h.blocks, h.size_pos, h.hash, h.pages, h.unique⟩
  unfold State.countBlock
  dsimp only
  split_ifs
  · exact hcount.resizeHash (Nat.mul_pos h.size_pos Nat.two_pos)
  · exact hcount

theorem State.pageHash_addToLists (s : State) (id : Nat) (c : Code) (n : Nat) (i : Bool) :
    (s.addToLists id c).pageHash (n, i) =
      if c.pageBucket i = some n then id :: s.pageHash (n, i) else s.pageHash (n, i) := by
  have haddTo : ∀ (L : Nat × Bool → List Nat) (b : Option (Nat × Bool)),
      addTo L b id (n, i) = if b = some (n, i) then id :: L (n, i) else L (n, i) := by
    intro L b
    cases b with
    | none => rfl
    | some b =>
      refine (update_apply _ _ _ _).trans ?_
      by_cases hb : (n, i) = b
      · simp [hb]
      · simp [hb, Ne.symm hb]
  unfold State.addToLists
  dsimp only
  rw [haddTo, haddTo]
  cases i <;> simp

theorem Indexed.addToLists (h : Indexed live s) (hid : live id = none)
    (hblock : s.blocks id = some c) (hnew : ∀ id' c', live id' = some c' → c'.addr ≠ c.addr) :
    Indexed (update live id (some c)) (s.addToLists id c) where
  blocks id' c' hc' := by
    rcases update_cases hc' with ⟨heq, hc'⟩ | ⟨heq, hc'⟩
    · cases hc'
      exact heq ▸ hblock
    · exact h.blocks id' c' hc'
  size_pos := h.size_pos
  hash := by
    refine (h.hash.cons (a := id) (by rw [hid]; rfl) (c.addr % s.hashSize)).congr fun id' => ?_
    rw [update_apply, update_apply]
    split_ifs <;> rfl
  pages i := by
    simp only [State.pageHash_addToLists]
    refine ((h.pages i).consOption (a := id) (by rw [hid]; rfl) (c.pageBucket i)).congr fun id' => ?_
    rw [update_apply, update_apply]
    split_ifs <;> rfl
  unique id₁ id₂ c₁ c₂ h₁ h₂ heq := by
    rw [update_apply] at h₁ h₂
    split_ifs at h₁ h₂ with hid₁ hid₂
    · rw [hid₁, hid₂]
    · cases h₁
      exact absurd heq.symm (hnew id₂ c₂ h₂)
    · cases h₂
      exact absurd heq (hnew id₁ c₁ h₁)
    · exact h.unique id₁ id₂ c₁ c₂ h₁ h₂ heq

theorem total_update (live : Nat → Option Code) (g : Code → Nat) {n : Nat} (hid : id < n) (o : Option Code) :
    total g (update live id o) n + (live id).elim 0 g = total g live n + o.elim 0 g := by
  have hmem : id ∈ Finset.range n := Finset.mem_range.2 hid
  have hother : ∑ x ∈ (Finset.range n).erase id, (update live id o x).elim 0 g =
      ∑ x ∈ (Finset.range n).erase id, (live x).elim 0 g := by
    refine Finset.sum_congr rfl fun x hx => ?_
    rw [update_of_ne (Finset.ne_of_mem_erase hx)]
  unfold total
  rw [← Finset.add_sum_erase _ _ hmem, ← Finset.add_sum_erase _ (fun x => (live x).elim 0 g) hmem,
    hother, update_self]
  omega

theorem total_succ {g : Code → Nat} {n : Nat} (hn : live n = none) : total g live (n + 1) = total g live n := by
  unfold total
  rw [Finset.sum_range_succ, hn]
  rfl

/-! ### Retirement -/

theorem Indexed.retire (h : Indexed live s) (id : Nat) : Indexed (update live id none) (s.retire id) where
  blocks id' c' hc' := by
    rw [update_apply] at hc'
    split_ifs at hc'
    exact h.blocks id' c' hc'
  size_pos := h.size_pos
  hash := by
    refine (h.hash.erase id).congr fun id' => ?_
    rw [update_apply, update_apply]
    split_ifs <;> rfl
  pages i := by
    refine ((h.pages i).erase id).congr fun id' => ?_
    rw [update_apply, update_apply]
    split_ifs <;> rfl
  unique id₁ id₂ c₁ c₂ h₁ h₂ := by
    rw [update_apply] at h₁ h₂
    split_ifs at h₁ h₂
    exact h.unique id₁ id₂ c₁ c₂ h₁ h₂

theorem Counted.retire (h : Counted live s) (hlive : live id = some c)
    (hblock : s.blocks id = some c) (hid : id < s.next) : Counted (update live id none) (s.retire id) := by
  have hnum := total_update live (fun _ => 1) hid none
  have hmem := total_update live Code.used hid none
  rw [hlive] at hnum hmem
  simp only [elim_some, elim_none, Nat.add_zero] at hnum hmem
  constructor
  · show s.numBlocks - 1 = total (fun _ => 1) _ s.next
    rw [h.numBlocks]
    omega
  · show s.memUsed - (s.blocks id).elim 0 Code.used = total Code.used _ s.next
    rw [h.memUsed, hblock, elim_some]
    omega

structure Inv (s : State) : Prop where
  fresh : ∀ id, s.next ≤ id → s.blocks id = none
  flagged : ∀ id ∈ s.jetsam, id < s.next ∧ s.isJetsam id = true
  indexed : Indexed s.live s
  counted : Counted s.live s

theorem Inv.lt_next (h : Inv s) (hlive : s.live id = some c) : id < s.next := by
  by_contra hge
  have hblock := h.indexed.blocks id c hlive
  rw [h.fresh id (Nat.not_lt.1 hge)] at hblock
  cases hblock

theorem State.live_retire (s : State) (id : Nat) : (s.retire id).live = update s.live id none := by
  funext id'
  show (if update s.isJetsam id true id' then none else s.blocks id') = _
  by_cases hid : id' = id
  · rw [hid, update_self, update_self, if_pos rfl]
  · rw [update_of_ne hid, update_of_ne hid]
    rfl

theorem Inv.retire (h : Inv s) (hlive : s.live id = some c) : Inv (s.retire id) where
  fresh := h.fresh
  flagged id' hid' := by
    show id' < s.next ∧ update s.isJetsam id true id' = true
    rw [update_apply]
    split_ifs with heq
    · exact ⟨heq ▸ h.lt_next hlive, rfl⟩
    · exact h.flagged id' ((mem_cons.1 hid').resolve_left heq)
  indexed := by
    rw [State.live_retire]
    exact h.indexed.retire id
  counted := by
    rw [State.live_retire]
    exact h.counted.retire hlive (h.indexed.blocks id c hlive) (h.lt_next hlive)

/-- Live blocks of `s` are retired one after the other. -/
inductive Retires (s : State) : State → Prop
  | refl : Retires s s
  | retire {s' : State} {id : Nat} {c : Code} : Retires s s' → s'.live id = some c →
      Retires s (s'.retire id)
  | bump {s' : State} (n : Nat) : Retires s s' → Retires s { s' with invalidateGen := n }

variable {s' : State}

theorem Retires.trans {s s'' : State} (h : Retires s s') (h' : Retires s' s'') : Retires s s'' := by
  induction h' with
  | refl => exact h
  | retire _ hlive ih => exact .retire ih hlive
  | bump n _ ih => exact .bump n ih

theorem Inv.retires (h : Inv s) (hretires : Retires s s') : Inv s' := by
  induction hretires with
  | refl => exact h
  | retire _ hlive ih => exact ih.retire hlive
  | bump n _ ih =>
    exact ⟨ih.fresh, ih.flagged, ⟨ih.indexed.blocks, ih.indexed.size_pos, ih.indexed.hash,
      ih.indexed.pages, ih.indexed.unique⟩, ⟨ih.counted.numBlocks, ih.counted.memUsed⟩⟩

/-- The loop over a list of live blocks. -/
theorem retires_foldl_retire {l : List Nat} {s : State} (hl : l.Nodup) (hlive : ∀ id ∈ l, s.live id ≠ none) :
    Retires s (l.foldl State.retire s) ∧
      (l.foldl State.retire s).live = fun id => if id ∈ l then none else s.live id := by
  induction l generalizing s with
  | nil => exact ⟨.refl, by simp⟩
  | cons id l ih =>
    obtain ⟨hid, hl⟩ := nodup_cons.1 hl
    obtain ⟨hlive₁, hlive⟩ := forall_mem_cons.1 hlive
    obtain ⟨c, hc⟩ := ne_none_iff_exists'.1 hlive₁
    have hne : ∀ id' ∈ l, (s.retire id).live id' ≠ none := by
      intro id' hid'
      have hid'' : id' ≠ id := fun heq => hid (heq ▸ hid')
      rw [State.live_retire, update_of_ne hid'']
      exact hlive id' hid'
    obtain ⟨hretires, hafter⟩ := ih hl hne
    refine ⟨(Retires.retire .refl hc).trans hretires, hafter.trans (funext fun id' => ?_)⟩
    rw [State.live_retire, update_apply]
    by_cases heq : id' = id <;> simp [heq]

theorem Inv.retireList {r : State × Bool} (h : Inv r.1) (n : Nat) (i : Bool) :
    Retires r.1 (State.retireList r (n, i)).1 ∧ ∀ id c, (State.retireList r (n, i)).1.live id = some c →
        r.1.live id = some c ∧ c.pageBucket i ≠ some n := by
  have hmem : ∀ id, id ∈ r.1.pageHash (n, i) ↔ (r.1.live id).bind (·.pageBucket i) = some n :=
    (h.indexed.pages i).mem n
  have hne : ∀ id ∈ r.1.pageHash (n, i), r.1.live id ≠ none := by
    intro id hid hnone
    have hbind := (hmem id).1 hid
    rw [hnone] at hbind
    cases hbind
  obtain ⟨hretires, hlive⟩ := retires_foldl_retire ((h.indexed.pages i).nodup n) hne
  refine ⟨hretires, fun id c hc => ?_⟩
  rw [State.retireList, hlive] at hc
  obtain ⟨hid, hc⟩ := ite_none_left_eq_some.1 hc
  refine ⟨hc, fun hn => hid ((hmem id).2 ?_)⟩
  rw [hc, bind_some, hn]

theorem Inv.foldl_retireList {r : State × Bool} (h : Inv r.1) (buckets : List Nat) : Retires r.1 (buckets.foldl
        (fun r n => State.retireList (State.retireList r (n, false)) (n, true)) r).1 ∧ ∀ id c, (buckets.foldl
        (fun r n => State.retireList (State.retireList r (n, false)) (n, true)) r).1.live id =
          some c → r.1.live id = some c ∧ ∀ n ∈ buckets, ∀ i, c.pageBucket i ≠ some n := by
  induction buckets generalizing r with
  | nil => exact ⟨.refl, fun id c hc => ⟨hc, by simp⟩⟩
  | cons n buckets ih =>
    obtain ⟨h₀, hlive₀⟩ := h.retireList n false
    obtain ⟨h₁, hlive₁⟩ := (h.retires h₀).retireList n true
    have hboth := h₀.trans h₁
    obtain ⟨h₂, hlive₂⟩ := ih (h.retires hboth)
    refine ⟨hboth.trans h₂, fun id c hc => ?_⟩
    obtain ⟨hc₁, hrest⟩ := hlive₂ id c hc
    obtain ⟨hc₀, htrue⟩ := hlive₁ id c hc₁
    obtain ⟨hc, hfalse⟩ := hlive₀ id c hc₀
    refine ⟨hc, forall_mem_cons.2 ⟨fun i => ?_, hrest⟩⟩
    cases i
    · exact hfalse
    · exact htrue

theorem Inv.retireLists (h : Inv s) (buckets : List Nat) : Retires s (s.retireLists buckets) ∧
      ∀ id c, (s.retireLists buckets).live id = some c →
        s.live id = some c ∧ ∀ n ∈ buckets, ∀ i, c.pageBucket i ≠ some n := by
  obtain ⟨hretires, hlive⟩ := Inv.foldl_retireList (r := (s, false)) h buckets
  unfold State.retireLists
  dsimp only
  split_ifs
  · exact ⟨.bump _ hretires, hlive⟩
  · exact ⟨hretires, hlive⟩

variable {p : Nat}

theorem Code.pageBucket_of_overlap (c : Code) (hstart : page c.addr ≤ p)
    (hend : p ≤ page c.endAddr) : ∃ i, c.pageBucket i = some (p % pageHashSize) := by
  have hspan := c.span
  have hpages : p = page c.addr ∨ page c.addr ≠ page c.endAddr ∧ p = page c.endAddr := by
    unfold page at *
    omega
  rcases hpages with rfl | ⟨hne, rfl⟩
  · exact ⟨false, rfl⟩
  · exact ⟨true, if_pos hne⟩

/-! ### The steps -/

/-- `l'` is `l` with further jumps patched, each from a live block to the live block at the address
of its fake jump. -/
inductive Patches (live : Nat → Option Code) (l : Links) : Links → Prop
  | refl : Patches live l l
  | patch {l' : Links} {x : Nat} {i : Bool} {t : Nat} {c c' : Code} : Patches live l l' →
      live x = some c → live t = some c' → l'.fakeTo x i c c' = true →
      Patches live l (l'.patch x i t)

theorem Patches.trans {l l' l'' : Links} (h : Patches live l l') (h' : Patches live l' l'') : Patches live l l'' := by
  induction h' with
  | refl => exact h
  | patch _ hx ht hfake ih => exact .patch ih hx ht hfake

/-- `s'` is `s` with further jumps patched. -/
def Relinks (s s' : State) : Prop :=
  ∃ l, s' = { s with links := l } ∧ Patches s.live s.links l

theorem Relinks.refl (s : State) : Relinks s s := ⟨s.links, rfl, .refl⟩

theorem Relinks.trans {s s'' : State} (h : Relinks s s') (h' : Relinks s' s'') : Relinks s s'' := by
  obtain ⟨l, rfl, hl⟩ := h
  obtain ⟨l', rfl, hl'⟩ := h'
  exact ⟨l', rfl, hl.trans hl'⟩

/-- The links are not part of the indexes. -/
theorem Inv.relinks {s : State} (h : Inv s) (hrel : Relinks s s') : Inv s' := by
  obtain ⟨l, rfl, -⟩ := hrel
  exact ⟨h.fresh, h.flagged, ⟨h.indexed.blocks, h.indexed.size_pos, h.indexed.hash,
    h.indexed.pages, h.indexed.unique⟩, ⟨h.counted.numBlocks, h.counted.memUsed⟩⟩

theorem relinks_prechainPatchSlot (s : State) (source : Nat) (i : Bool) (target : Nat) :
    Relinks s (s.prechainPatchSlot source i target) := by
  unfold State.prechainPatchSlot
  split
  · next hsource htarget =>
    split_ifs with hjetsam hfake
    · exact .refl s
    · obtain ⟨hsj, htj⟩ := not_or.1 hjetsam
      exact ⟨_, rfl, .patch .refl ((if_neg hsj).trans hsource) ((if_neg htj).trans htarget) hfake.1⟩
    · exact .refl s
  · exact .refl s

theorem relinks_prechainOutgoing (s : State) (block : Nat) (code : Code) (i : Bool) :
    Relinks s (s.prechainOutgoing block code i) := by
  unfold State.prechainOutgoing
  split
  · exact .refl s
  · split_ifs
    · exact .refl s
    · split
      · exact .refl s
      · exact relinks_prechainPatchSlot _ _ _ _

theorem relinks_prechainIncoming (block scanned : Nat) (sources : List Nat) (s : State) :
    Relinks s (prechainIncoming block scanned sources s) := by
  induction sources generalizing scanned s with
  | nil => exact .refl s
  | cons source sources ih =>
    unfold prechainIncoming
    split_ifs
    · exact ih scanned s
    · exact .refl s
    · exact ((relinks_prechainPatchSlot _ _ _ _).trans (relinks_prechainPatchSlot _ _ _ _)).trans
        (ih _ _)

theorem relinks_prechainSamePage (s : State) (block : Nat) (code : Code) (incoming : Bool) :
    Relinks s (s.prechainSamePage block code incoming) := by
  have hout := (relinks_prechainOutgoing s block code false).trans
    (relinks_prechainOutgoing _ block code true)
  unfold State.prechainSamePage
  dsimp only
  split_ifs
  · exact hout.trans (relinks_prechainIncoming _ _ _ _)
  · exact hout

theorem relinks_chainSlot (s : State) {last block : Nat} (hlast : ¬s.isJetsam last)
    (hblock : ¬s.isJetsam block) (i : Bool) : Relinks s (s.chainSlot last block i) := by
  unfold State.chainSlot
  split
  · next hcode hcode' =>
    split_ifs with hfake
    · exact ⟨_, rfl, .patch .refl ((if_neg hlast).trans hcode) ((if_neg hblock).trans hcode') hfake⟩
    · exact .refl s
  · exact .refl s

theorem relinks_chain (s : State) (last block : Nat) : Relinks s (s.chain last block) := by
  unfold State.chain
  split_ifs with hjetsam
  · exact .refl s
  · obtain ⟨hlast, hblock⟩ := not_or.1 hjetsam
    have hfirst := relinks_chainSlot s hlast hblock false
    refine hfirst.trans (relinks_chainSlot _ ?_ ?_ true)
    all_goals
      obtain ⟨l, heq, -⟩ := hfirst
      rw [heq]
      assumption

/-- The state after `fiber_insert` without the chains. -/
def State.addBlock (s : State) (code : Code) : State :=
  ((s.compile code).countBlock code).addToLists s.next code

theorem relinks_insert (s : State) (code : Code) (eager incoming : Bool) :
    Relinks (s.addBlock code) (s.insert code eager incoming) := by
  unfold State.insert State.addBlock
  dsimp only
  split_ifs
  · exact relinks_prechainSamePage _ _ _ _
  · exact .refl _

theorem State.countBlock_eq (s : State) (code : Code) : ∃ hash hashSize, s.countBlock code = { s with
        memUsed := s.memUsed + code.used
        numBlocks := s.numBlocks + 1
        hash := hash
        hashSize := hashSize } := by
  unfold State.countBlock
  dsimp only
  split_ifs
  · exact ⟨_, _, rfl⟩
  · exact ⟨s.hash, s.hashSize, rfl⟩

theorem Inv.live_next (h : Inv s) : s.live s.next = none := by
  unfold State.live
  rw [h.fresh s.next (Nat.le_refl _), ite_self]

theorem State.live_addBlock (s : State) (code : Code) : (s.addBlock code).live = update s.live s.next (some code) := by
  obtain ⟨hash, hashSize, heq⟩ := (s.compile code).countBlock_eq code
  funext id
  unfold State.addBlock
  rw [heq]
  show (if update s.isJetsam s.next false id then none
    else update s.blocks s.next (some code) id) = _
  by_cases hid : id = s.next
  · rw [hid, update_self, update_self, update_self]
    rfl
  · rw [update_of_ne hid, update_of_ne hid, update_of_ne hid]
    rfl

theorem Indexed.compile (h : Inv s) (code : Code) : Indexed s.live (s.compile code) where
  blocks id c hc := by
    show update s.blocks s.next (some code) id = some c
    rw [update_of_ne (h.lt_next hc).ne]
    exact h.indexed.blocks id c hc
  size_pos := h.indexed.size_pos
  hash := h.indexed.hash
  pages := h.indexed.pages
  unique := h.indexed.unique

theorem Inv.addBlock (h : Inv s) {code : Code} (hnew : s.lookup code.addr = none) : Inv (s.addBlock code) := by
  have hlive := s.live_addBlock code
  have hidx := (Indexed.compile h code).countBlock code
  have htotal : ∀ g, total g (update s.live s.next (some code)) (s.next + 1) =
      total g s.live s.next + g code := by
    intro g
    have hupd := total_update s.live g (Nat.lt_succ_self s.next) (some code)
    rw [h.live_next, total_succ h.live_next] at hupd
    exact hupd
  obtain ⟨hash, hashSize, heq⟩ := (s.compile code).countBlock_eq code
  refine ⟨fun id hid => ?_, fun id hid => ?_, ?_, ?_, ?_⟩
  · unfold State.addBlock at hid ⊢
    rw [heq] at hid ⊢
    have hlt : s.next < id := hid
    show update s.blocks s.next (some code) id = none
    rw [update_of_ne hlt.ne']
    exact h.fresh id hlt.le
  · unfold State.addBlock at hid ⊢
    rw [heq] at hid ⊢
    obtain ⟨hlt, hflag⟩ := h.flagged id hid
    show id < s.next + 1 ∧ update s.isJetsam s.next false id = true
    rw [update_of_ne hlt.ne]
    exact ⟨hlt.trans (Nat.lt_succ_self _), hflag⟩
  · rw [hlive]
    refine hidx.addToLists h.live_next ?_ (h.indexed.lookup_eq_none_iff.1 hnew)
    rw [heq]
    exact update_self _ _ _
  · rw [hlive]
    unfold State.addBlock
    rw [heq]
    exact (congrArg (· + 1) h.counted.numBlocks).trans (htotal fun _ => 1).symm
  · rw [hlive]
    unfold State.addBlock
    rw [heq]
    exact (congrArg (· + code.used) h.counted.memUsed).trans (htotal Code.used).symm

theorem State.live_freeJetsam (h : Inv s) : s.freeJetsam.live = s.live := by
  funext id
  show (if s.isJetsam id then none else if id ∈ s.jetsam then none else s.blocks id) = s.live id
  unfold State.live
  by_cases hid : id ∈ s.jetsam
  · rw [if_pos (h.flagged id hid).2, if_pos (h.flagged id hid).2]
  · rw [if_neg hid]

theorem Inv.freeJetsam (h : Inv s) : Inv s.freeJetsam := by
  have hlive := State.live_freeJetsam h
  refine ⟨fun id hid => ?_, by simp [State.freeJetsam], ?_, ?_⟩
  · show (if id ∈ s.jetsam then none else s.blocks id) = none
    rw [h.fresh id hid, ite_self]
  · have hblocks : ∀ id c, s.freeJetsam.live id = some c → s.freeJetsam.blocks id = some c :=
      fun id c hc => (ite_none_left_eq_some.1 hc).2
    rw [hlive] at hblocks ⊢
    exact ⟨hblocks, h.indexed.size_pos, h.indexed.hash, h.indexed.pages, h.indexed.unique⟩
  · rw [hlive]
    exact ⟨h.counted.numBlocks, h.counted.memUsed⟩

theorem inv_init : Inv init where
  fresh _ _ := rfl
  flagged := by simp [init]
  indexed := by
    have hlive : init.live = fun _ => none := rfl
    rw [hlive]
    exact ⟨by simp, by decide, lists_nil, fun _ => lists_nil, by simp⟩
  counted := ⟨rfl, rfl⟩

theorem State.step_cases {s : State} {a : Act} (hstep : s.step a = some s') :
    (∃ code eager incoming, s.lookup code.addr = none ∧ s' = s.insert code eager incoming) ∨
      (∃ last block, s' = s.chain last block) ∨ (∃ buckets, s' = s.retireLists buckets) ∨
      s' = s ∨ s' = s.freeJetsam := by
  cases a with
  | insert code eager incoming =>
    obtain ⟨hnew, heq⟩ := ite_none_right_eq_some.1 hstep
    exact .inl ⟨code, eager, incoming, hnew, (Option.some.inj heq).symm⟩
  | chain last block =>
    obtain ⟨-, heq⟩ := ite_none_right_eq_some.1 hstep
    exact .inr (.inl ⟨last, block, (Option.some.inj heq).symm⟩)
  | invalidatePage p =>
    have heq : s.invalidatePage p = s' := Option.some.inj hstep
    unfold State.invalidatePage at heq
    split_ifs at heq
    · exact .inr (.inr (.inr (.inl heq.symm)))
    · exact .inr (.inr (.inl ⟨_, heq.symm⟩))
  | invalidateRange start stop =>
    exact .inr (.inr (.inl ⟨_, (Option.some.inj hstep).symm⟩))
  | invalidateAll =>
    exact .inr (.inr (.inl ⟨List.range pageHashSize, (Option.some.inj hstep).symm⟩))
  | freeJetsam =>
    exact .inr (.inr (.inr (.inr (Option.some.inj hstep).symm)))

theorem Inv.step (h : Inv s) {a : Act} (hstep : s.step a = some s') : Inv s' := by
  obtain ⟨code, eager, incoming, hnew, rfl⟩ | ⟨last, block, rfl⟩ | ⟨buckets, rfl⟩ | rfl | rfl :=
    State.step_cases hstep
  · exact (h.addBlock hnew).relinks (relinks_insert s code eager incoming)
  · exact h.relinks (relinks_chain s last block)
  · exact h.retires (h.retireLists buckets).1
  · exact h
  · exact h.freeJetsam

theorem inv_of_run (hrun : Run State.step anyStep init s) : Inv s :=
  hrun.inv Inv (fun _ _ _ h _ hstep => h.step hstep) inv_init

/-! ### What a run leaves -/

/-- A block in the range is on one of the lists that `asbestos_invalidate_range` goes through. -/
theorem Inv.invalidateRange_apart (h : Inv s) {start stop : Nat} (hp : start ≤ p ∧ p < stop)
    (hc : (s.invalidateRange start stop).live id = some c) : ¬(page c.addr ≤ p ∧ p ≤ page c.endAddr) := by
  rintro ⟨hstart, hend⟩
  obtain ⟨i, hi⟩ := c.pageBucket_of_overlap hstart hend
  have hmem : p % pageHashSize ∈
      (List.range' start (stop - start)).map (· % pageHashSize) := by
    refine mem_map.2 ⟨p, mem_range'_1.2 ⟨hp.1, ?_⟩, rfl⟩
    omega
  exact ((h.retireLists _).2 id c hc).2 _ hmem i hi

theorem Inv.invalidatePage_apart (h : Inv s)
    (hc : (s.invalidatePage p).live id = some c) : ¬(page c.addr ≤ p ∧ p ≤ page c.endAddr) := by
  unfold State.invalidatePage at hc
  split_ifs at hc with hempty
  · -- the fast path: both lists of the page are empty, and the block would be in one of them
    rintro ⟨hstart, hend⟩
    obtain ⟨i, hi⟩ := c.pageBucket_of_overlap hstart hend
    have hmem : id ∈ s.pageHash (p % pageHashSize, i) := by
      rw [(h.indexed.pages i).mem, hc, bind_some, hi]
    cases i
    · exact not_mem_nil (hempty.1 ▸ hmem)
    · exact not_mem_nil (hempty.2 ▸ hmem)
  · exact h.invalidateRange_apart ⟨Nat.le_refl p, Nat.lt_succ_self p⟩ hc

theorem Inv.live_of_invalidatePage (h : Inv s)
    (hc : (s.invalidatePage p).live id = some c) : s.live id = some c := by
  unfold State.invalidatePage at hc
  split_ifs at hc
  · exact hc
  · exact ((h.retireLists _).2 id c hc).1

theorem Inv.invalidateAll_empty (h : Inv s) (id : Nat) : s.invalidateAll.live id = none := by
  refine eq_none_iff_forall_ne_some.2 fun c hc => ?_
  refine ((h.retireLists _).2 id c hc).2 (page c.addr % pageHashSize) ?_ false rfl
  exact mem_range.2 (Nat.mod_lt _ (by decide))

/-- **The indexes of the blocks are consistent in every run**: a live block is once in the bucket of
its address and once in the list of each of its pages, and in no other; the counters are the number
and the size of the live blocks; `fiber_lookup` finds exactly the live block at an address; and an
invalidation leaves no live block on the pages it is called for. -/
theorem block_index_consistent {s : State} (hrun : Run State.step anyStep init s) : (∀ id c, s.live id = some c →
      (∀ n, (s.hash n).count id = if n = c.addr % s.hashSize then 1 else 0) ∧ (∀ n, (s.pageHash (n, false)).count id =
        if n = page c.addr % pageHashSize then 1 else 0) ∧ (∀ n, (s.pageHash (n, true)).count id =
        if page c.addr ≠ page c.endAddr ∧ n = page c.endAddr % pageHashSize then 1 else 0)) ∧
    (∀ id c, s.live id = some c → id < s.next) ∧
    s.numBlocks = total (fun _ => 1) s.live s.next ∧ s.memUsed = total Code.used s.live s.next ∧
    (∀ a id, s.lookup a = some id ↔ ∃ c, s.live id = some c ∧ c.addr = a) ∧
    (∀ p id c, (s.invalidatePage p).live id = some c → ¬(page c.addr ≤ p ∧ p ≤ page c.endAddr)) ∧
    (∀ start stop p id c, (s.invalidateRange start stop).live id = some c → start ≤ p ∧ p < stop →
      ¬(page c.addr ≤ p ∧ p ≤ page c.endAddr)) ∧ ∀ id, s.invalidateAll.live id = none := by
  have h := inv_of_run hrun
  refine ⟨fun id c hc => ⟨fun n => ?_, fun n => ?_, fun n => ?_⟩, fun id c => h.lt_next,
    h.counted.numBlocks, h.counted.memUsed, fun a id => h.indexed.lookup_iff,
    fun p id c => h.invalidatePage_apart, fun start stop p id c hc hp =>
    h.invalidateRange_apart hp hc, h.invalidateAll_empty⟩
  · rw [h.indexed.hash.count, hc]
    simp [eq_comm]
  · refine ((h.indexed.pages false).count id n).trans ?_
    rw [hc]
    simp [Code.pageBucket, eq_comm]
  · refine ((h.indexed.pages true).count id n).trans ?_
    rw [hc]
    by_cases hpage : page c.addr = page c.endAddr <;> simp [Code.pageBucket, hpage, eq_comm]

/-- A block inside page 1 and one that goes on into page 2, which is then invalidated. -/
def twoPageRun : List Act :=
  [.insert ⟨4096, 4111, 64, fun _ => none, by decide, by decide⟩ true true,
    .insert ⟨8180, 8199, 96, fun _ => none, by decide, by decide⟩ true true,
    .invalidatePage 2, .freeJetsam]

theorem twoPageRun_isSome : (twoPageRun.foldlM State.step init).isSome := by decide

def afterTwoPageRun : State := Option.get _ twoPageRun_isSome

/-- The first block is left. -/
theorem block_index_twoPageRun : afterTwoPageRun.lookup 4096 = some 0 ∧ afterTwoPageRun.lookup 8180 = none ∧
      afterTwoPageRun.numBlocks = 1 ∧ (afterTwoPageRun.hash 0).count 0 = 1 := by
  have hrun : Run State.step anyStep init afterTwoPageRun :=
    Run.of_foldlM (fun _ _ _ => trivial) (some_get twoPageRun_isSome).symm
  have hlookup : afterTwoPageRun.lookup 4096 = some 0 := by decide
  obtain ⟨hlists, -, -, -, hfind, -⟩ := block_index_consistent hrun
  obtain ⟨c, hc, haddr⟩ := (hfind 4096 0).1 hlookup
  refine ⟨hlookup, by decide, by decide, ?_⟩
  rw [(hlists 0 c hc).1, haddr]
  decide

end Ish.Asbestos
