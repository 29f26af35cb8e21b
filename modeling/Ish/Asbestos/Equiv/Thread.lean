import Ish.Asbestos.Thread
import Ish.Asbestos.Equiv.Chain

/-!
# What a guest thread holds, and which blocks it enters

The pointers to blocks in the caches of a thread are never dangling, and while `invalidate_gen` is
the generation of the caches they are to live blocks (`Thread.Sound`, for every step). So every
block that is entered is live: the dispatcher finds live blocks, and a patched jump goes to one.

Whether the block that is entered is also up to date is a question about the live blocks, which only
`Thread.dispatch` makes more of (`Thread.step_shrinks`).
-/

namespace Ish.Asbestos

open Lib Function Option

/-! ### Generations -/

theorem foldl_retire_frame (ids : List Nat) (s : State) : (ids.foldl State.retire s).invalidateGen = s.invalidateGen ∧
      (ids.foldl State.retire s).blocks = s.blocks := by
  induction ids generalizing s with
  | nil => exact ⟨rfl, rfl⟩
  | cons id ids ih => exact ih (s.retire id)

theorem retireList_frame (r : State × Bool) (n : Nat × Bool) :
    (State.retireList r n).1.invalidateGen = r.1.invalidateGen ∧ (State.retireList r n).1.blocks = r.1.blocks ∧
      ((State.retireList r n).2 = false → (State.retireList r n).1 = r.1 ∧ r.2 = false) := by
  obtain ⟨hgen, hblocks⟩ := foldl_retire_frame (r.1.pageHash n) r.1
  refine ⟨hgen, hblocks, fun hdid => ?_⟩
  obtain ⟨hr, hempty⟩ := Bool.or_eq_false_iff.1 hdid
  have hnil : r.1.pageHash n = [] := by simpa using hempty
  unfold State.retireList
  rw [hnil]
  exact ⟨rfl, hr⟩

/-- The loops change the generation only at the end, and if nothing is retired they do nothing. -/
theorem foldl_retireList_frame (buckets : List Nat) (r : State × Bool) :
    let r' := buckets.foldl
      (fun r n => State.retireList (State.retireList r (n, false)) (n, true)) r
    r'.1.invalidateGen = r.1.invalidateGen ∧ r'.1.blocks = r.1.blocks ∧
      (r'.2 = false → r'.1 = r.1 ∧ r.2 = false) := by
  induction buckets generalizing r with
  | nil => exact ⟨rfl, rfl, fun h => ⟨rfl, h⟩⟩
  | cons n buckets ih =>
    obtain ⟨hgen₀, hblocks₀, hdid₀⟩ := retireList_frame r (n, false)
    obtain ⟨hgen₁, hblocks₁, hdid₁⟩ := retireList_frame (State.retireList r (n, false)) (n, true)
    obtain ⟨hgen₂, hblocks₂, hdid₂⟩ :=
      ih (State.retireList (State.retireList r (n, false)) (n, true))
    refine ⟨hgen₂.trans (hgen₁.trans hgen₀), hblocks₂.trans (hblocks₁.trans hblocks₀), ?_⟩
    intro hdid
    obtain ⟨heq₂, hfalse₂⟩ := hdid₂ hdid
    obtain ⟨heq₁, hfalse₁⟩ := hdid₁ hfalse₂
    obtain ⟨heq₀, hfalse₀⟩ := hdid₀ hfalse₁
    exact ⟨heq₂.trans (heq₁.trans heq₀), hfalse₀⟩

/-- What pointers to blocks survive: no block is freed, and in the same generation none is
retired. -/
structure Evolves (s s' : State) : Prop where
  blocks : ∀ id, s.blocks id ≠ none → s'.blocks id ≠ none
  gen : s.invalidateGen ≤ s'.invalidateGen
  live : s'.invalidateGen = s.invalidateGen → ∀ id, s.live id ≠ none → s'.live id ≠ none

theorem Evolves.refl (s : State) : Evolves s s :=
  ⟨fun _ h => h, Nat.le_refl _, fun _ _ h => h⟩

theorem evolves_invalidatePage (s : State) (p : Nat) : Evolves s (s.invalidatePage p) := by
  unfold State.invalidatePage
  split_ifs with hempty
  · exact .refl s
  · generalize hb : (List.range' p (p + 1 - p)).map (· % pageHashSize) = buckets
    obtain ⟨hgen, hblocks, hdid⟩ := foldl_retireList_frame buckets (s, false)
    unfold State.invalidateRange State.retireLists
    rw [hb]
    dsimp only
    split_ifs with htrue
    · refine ⟨fun id hid => ?_, ?_, fun heq => ?_⟩
      · show (_ : State × Bool).1.blocks id ≠ none
        rw [hblocks]
        exact hid
      · exact hgen.ge.trans (Nat.le_succ _)
      · exact absurd (heq.trans hgen.symm) (Nat.succ_ne_self _)
    · obtain ⟨heq, -⟩ := hdid (by simpa using htrue)
      rw [heq]
      exact .refl s

theorem Relinks.evolves {s s' : State} (h : Relinks s s') : Evolves s s' := by
  obtain ⟨l, rfl, -⟩ := h
  exact ⟨fun _ h => h, Nat.le_refl _, fun _ _ h => h⟩

theorem State.addBlock_frame (s : State) (code : Code) : (s.addBlock code).invalidateGen = s.invalidateGen ∧
      (s.addBlock code).blocks = update s.blocks s.next (some code) := by
  obtain ⟨hash, hashSize, heq⟩ := (s.compile code).countBlock_eq code
  unfold State.addBlock
  rw [heq]
  exact ⟨rfl, rfl⟩

theorem State.live_insert (s : State) (code : Code) (eager incoming : Bool) :
    (s.insert code eager incoming).live = update s.live s.next (some code) := by
  obtain ⟨l, heq, -⟩ := relinks_insert s code eager incoming
  rw [heq]
  exact s.live_addBlock code

theorem evolves_insert (s : State) (code : Code) (eager incoming : Bool) :
    Evolves s (s.insert code eager incoming) := by
  obtain ⟨l, heq, -⟩ := relinks_insert s code eager incoming
  obtain ⟨hgen, hblocks⟩ := s.addBlock_frame code
  have hlive := s.live_insert code eager incoming
  refine ⟨fun id hid => ?_, ?_, fun _ id hid => ?_⟩
  · rw [heq]
    show (s.addBlock code).blocks id ≠ none
    rw [hblocks, update_apply]
    split_ifs
    · simp
    · exact hid
  · rw [heq]
    exact hgen.ge
  · rw [hlive, update_apply]
    split_ifs
    · simp
    · exact hid

/-! ### The pointers of a thread -/

/-- The thread has a pointer to the block. -/
def Thread.Holds (m : Thread) (id : Nat) : Prop :=
  (∃ n, m.cache n = some id) ∨ (∃ n, m.retCache n = some id) ∨ m.lastBlock = some id ∨
    m.running = some id

/-- The block is not freed, and live if nothing has been retired since the caches were emptied. -/
def Thread.Knows (m : Thread) (id : Nat) : Prop :=
  m.fibers.blocks id ≠ none ∧
    (m.cacheGen = m.fibers.invalidateGen → m.fibers.live id ≠ none)

/-- Nothing the thread holds is freed. -/
structure Thread.Sound (m : Thread) : Prop where
  good : m.fibers.Good
  gen : m.cacheGen ≤ m.fibers.invalidateGen
  holds : ∀ id, m.Holds id → m.Knows id

variable {m m' : Thread} {id : Nat} {c : Code}

/-- A live block is known. -/
theorem Thread.Sound.knows_of_live (h : m.Sound) (hid : m.fibers.live id ≠ none) : m.Knows id := by
  refine ⟨fun hnone => ?_, fun _ => hid⟩
  obtain ⟨c, hc⟩ := ne_none_iff_exists'.1 hid
  rw [h.good.inv.indexed.blocks id c hc] at hnone
  cases hnone

theorem Thread.Sound.of_holds (h : m.Sound) (hfibers : m'.fibers = m.fibers)
    (hgen : m'.cacheGen = m.cacheGen) (hholds : ∀ id, m'.Holds id → m.Knows id) : m'.Sound := by
  refine ⟨hfibers ▸ h.good, ?_, fun id hid => ?_⟩
  · rw [hfibers, hgen]
    exact h.gen
  · unfold Thread.Knows
    rw [hfibers, hgen]
    exact hholds id hid

theorem Thread.Sound.of_pointers (h : m.Sound) (hfibers : m'.fibers = m.fibers) (hgen : m'.cacheGen = m.cacheGen)
    (hcache : ∀ n id, m'.cache n = some id → m.cache n = some id ∨ m.Knows id)
    (hret : ∀ n id, m'.retCache n = some id → m.retCache n = some id ∨ m.Knows id)
    (hlast : ∀ id, m'.lastBlock = some id → m.lastBlock = some id ∨ m.Knows id)
    (hrun : ∀ id, m'.running = some id → m.running = some id ∨ m.Knows id) : m'.Sound := by
  refine h.of_holds hfibers hgen fun id hid => ?_
  rcases hid with ⟨n, hn⟩ | ⟨n, hn⟩ | hid | hid
  · exact (hcache n id hn).elim (fun hold => h.holds id (.inl ⟨n, hold⟩)) fun hknows => hknows
  · exact (hret n id hn).elim (fun hold => h.holds id (.inr (.inl ⟨n, hold⟩))) fun hknows => hknows
  · exact (hlast id hid).elim (fun hold => h.holds id (.inr (.inr (.inl hold)))) fun hknows => hknows
  · exact (hrun id hid).elim (fun hold => h.holds id (.inr (.inr (.inr hold)))) fun hknows => hknows

theorem Thread.Knows.set (hid : m.Knows id) {P : Prop} {id' : Nat} (h : some id = some id') : P ∨ m.Knows id' :=
  .inr (Option.some.inj h ▸ hid)

theorem Thread.Knows.update (hid : m.Knows id) {f : Nat → Option Nat} {n : Nat} (n' id' : Nat)
    (h : Function.update f n (some id) n' = some id') : f n' = some id' ∨ m.Knows id' :=
  (update_cases h).elim (fun hnew => hid.set hnew.2) fun hold => .inl hold.2

theorem Thread.Sound.evolve (h : m.Sound) {s : State} (hgood : s.Good)
    (hev : Evolves m.fibers s) : { m with fibers := s }.Sound := by
  refine ⟨hgood, h.gen.trans hev.gen, fun id hid => ?_⟩
  obtain ⟨hblock, hlive⟩ := h.holds id hid
  refine ⟨hev.blocks id hblock, fun heq => ?_⟩
  have hsame : s.invalidateGen = m.fibers.invalidateGen :=
    Nat.le_antisymm (heq ▸ h.gen) hev.gen
  exact hev.live hsame id (hlive (heq.trans hsame))

theorem Thread.Sound.invalidatePage (h : m.Sound) (p : Nat) : { m with fibers := m.fibers.invalidatePage p }.Sound := by
  have hstep : m.fibers.step (.invalidatePage p) = some (m.fibers.invalidatePage p) := rfl
  exact h.evolve (h.good.step hstep) (evolves_invalidatePage m.fibers p)

theorem sound_dropCaches (hgood : m.fibers.Good) (hrest : m.running = none) {n : Nat}
    (hn : n ≤ m.fibers.invalidateGen) : (m.dropCaches n).Sound := by
  refine ⟨hgood, hn, fun id hid => ?_⟩
  rcases hid with ⟨n, hn⟩ | ⟨n, hn⟩ | hlast | hrun
  · cases hn
  · cases hn
  · cases hlast
  · have hnone : m.running = some id := hrun
    rw [hrest] at hnone
    cases hnone

section

variable (h : m.Sound)
include h

theorem Thread.Sound.checkGen (hrest : m.running = none) :
    m.checkGen.Sound ∧ m.checkGen.cacheGen = m.checkGen.fibers.invalidateGen := by
  unfold Thread.checkGen
  split_ifs with heq
  · exact ⟨h, heq⟩
  · exact ⟨sound_dropCaches h.good hrest (Nat.le_refl _), rfl⟩

theorem Thread.Sound.stop : { m with running := none }.Sound :=
  h.of_pointers rfl rfl (fun _ _ => .inl) (fun _ _ => .inl) (fun _ => .inl) nofun

theorem Thread.Sound.forgetLast : { m with lastBlock := none }.Sound :=
  h.of_pointers rfl rfl (fun _ _ => .inl) (fun _ _ => .inl) nofun fun _ => .inl

theorem Thread.Sound.setLast (hid : m.Knows id) : { m with lastBlock := some id }.Sound :=
  h.of_pointers rfl rfl (fun _ _ => .inl) (fun _ _ => .inl) (fun _ => hid.set) fun _ => .inl

theorem Thread.Sound.enter (hid : m.Knows id) : (m.enter id).Sound :=
  h.of_pointers rfl rfl (fun _ _ => .inl) (fun _ _ => .inl) (fun _ => hid.set) fun _ => hid.set

theorem Thread.Sound.remember (hid : m.Knows id) (ip : Nat) : (m.remember ip id).Sound :=
  h.of_pointers rfl rfl hid.update (fun _ _ => .inl) (fun _ => .inl) fun _ => .inl

theorem Thread.Sound.call (hid : m.Knows id) (n : Nat) : { m with retCache := update m.retCache n (some id) }.Sound :=
  h.of_pointers rfl rfl (fun _ _ => .inl) hid.update (fun _ => .inl) fun _ => .inl

theorem Thread.Sound.flushIf (hrest : m.running = none) (b : Bool) : (m.flushIf b).Sound := by
  unfold Thread.flushIf
  split_ifs
  · have hdrop := sound_dropCaches h.good hrest (Nat.le_refl m.fibers.invalidateGen)
    exact hdrop.of_holds rfl rfl hdrop.holds
  · exact h

theorem Thread.Sound.cleanPage : m.cleanPage.Sound := by
  unfold Thread.cleanPage
  split
  · next p _ =>
    exact (h.invalidatePage p).of_holds rfl rfl (h.invalidatePage p).holds
  · exact h

end

/-- The blocks have the same bytes, and memory is the same. -/
structure Thread.SameMemory (m m' : Thread) : Prop where
  source : m'.source = m.source
  fetchFault : m'.fetchFault = m.fetchFault
  frame : m'.frame = m.frame
  ram : m'.ram = m.ram

theorem Thread.SameMemory.trans {m'' : Thread} (h : m.SameMemory m') (h' : m'.SameMemory m'') : m.SameMemory m'' :=
  ⟨h'.source.trans h.source, h'.fetchFault.trans h.fetchFault, h'.frame.trans h.frame, h'.ram.trans h.ram⟩

theorem Thread.SameMemory.phys (h : m.SameMemory m') : m'.phys = m.phys := by
  funext x
  unfold Thread.phys
  rw [h.frame]

theorem Thread.SameMemory.byte (h : m.SameMemory m') : m'.byte = m.byte := by
  funext x
  unfold Thread.byte
  rw [h.phys, h.ram]

theorem Thread.flushIf_frame (m : Thread) (b : Bool) : m.SameMemory (m.flushIf b) ∧ (m.flushIf b).fibers = m.fibers ∧
      (m.flushIf b).running = m.running ∧ (m.flushIf b).dirtyPage = m.dirtyPage := by
  unfold Thread.flushIf
  split_ifs <;> exact ⟨⟨rfl, rfl, rfl, rfl⟩, rfl, rfl, rfl⟩

theorem Thread.cleanPage_frame (m : Thread) : m.SameMemory m.cleanPage ∧ m.cleanPage.running = m.running ∧
      m.cleanPage.fibers = m.dirtyPage.elim m.fibers m.fibers.invalidatePage := by
  unfold Thread.cleanPage
  cases m.dirtyPage <;> exact ⟨⟨rfl, rfl, rfl, rfl⟩, rfl, rfl⟩

/-- The part after `fiber_enter` changes nothing but the pointers, and the blocks of the dirty
page. -/
theorem Thread.leave_frame (m : Thread) (crash : Bool) : m.SameMemory (m.leave crash) ∧ (m.leave crash).running = none ∧
      (m.leave crash).fibers = m.dirtyPage.elim m.fibers m.fibers.invalidatePage := by
  obtain ⟨hmem₀, hfibers₀, hrun₀, hdirty₀⟩ :=
    Thread.flushIf_frame { m with running := none } crash
  obtain ⟨hmem₁, hrun₁, hfibers₁⟩ :=
    Thread.cleanPage_frame ({ m with running := none }.flushIf crash)
  obtain ⟨hmem₂, hfibers₂, hrun₂, -⟩ :=
    Thread.flushIf_frame ({ m with running := none }.flushIf crash).cleanPage
      ({ m with running := none }.flushIf crash).cleanPage.changed
  have hstop : m.SameMemory { m with running := none } := ⟨rfl, rfl, rfl, rfl⟩
  rw [hfibers₀, hdirty₀] at hfibers₁
  exact ⟨((hstop.trans hmem₀).trans hmem₁).trans hmem₂, hrun₂.trans (hrun₁.trans hrun₀), hfibers₂.trans hfibers₁⟩

theorem Thread.Sound.leave (h : m.Sound) (crash : Bool) : (m.leave crash).Sound := by
  have hclean := (h.stop.flushIf rfl crash).cleanPage
  refine hclean.flushIf ?_ _
  rw [(Thread.cleanPage_frame _).2.1, (Thread.flushIf_frame _ _).2.2.1]

theorem Thread.refresh_frame (m : Thread) :
    m.SameMemory m.refresh ∧ m.refresh.fibers = m.fibers ∧ m.refresh.running = m.running := by
  unfold Thread.refresh
  split_ifs <;> exact ⟨⟨rfl, rfl, rfl, rfl⟩, rfl, rfl⟩

theorem Thread.checkGen_frame (m : Thread) : m.SameMemory m.checkGen ∧ m.checkGen.fibers = m.fibers := by
  unfold Thread.checkGen
  split_ifs <;> exact ⟨⟨rfl, rfl, rfl, rfl⟩, rfl⟩

theorem Thread.rerun_frame (hgood : m.fibers.Good) (free : Bool) :
    m.SameMemory (m.rerun free) ∧ (m.rerun free).fibers.live = m.fibers.live := by
  have hrest : ∀ m₁ : Thread, m₁.SameMemory m₁.refresh.checkGen ∧ m₁.refresh.checkGen.fibers = m₁.fibers := by
    intro m₁
    obtain ⟨hmem₀, hfibers₀, -⟩ := m₁.refresh_frame
    obtain ⟨hmem₁, hfibers₁⟩ := m₁.refresh.checkGen_frame
    exact ⟨hmem₀.trans hmem₁, hfibers₁.trans hfibers₀⟩
  unfold Thread.rerun
  by_cases hfree : free
  · rw [if_pos hfree]
    obtain ⟨hmem, hfibers⟩ := hrest { m with fibers := m.fibers.freeJetsam }
    refine ⟨⟨hmem.source, hmem.fetchFault, hmem.frame, hmem.ram⟩, (congrArg State.live hfibers).trans ?_⟩
    exact State.live_freeJetsam hgood.inv
  · rw [if_neg hfree]
    obtain ⟨hmem, hfibers⟩ := hrest m
    exact ⟨⟨hmem.source, hmem.fetchFault, hmem.frame, hmem.ram⟩, congrArg State.live hfibers⟩

theorem sound_refresh (hgood : m.fibers.Good) (hrest : m.running = none)
    (hcurrent : m.cacheGen = m.fibers.invalidateGen → m.Sound) : m.refresh.checkGen.Sound := by
  by_cases hchanged : m.changed
  · have hdrop := sound_dropCaches hgood hrest (Nat.zero_le _)
    have hrefresh : m.refresh.Sound := by
      unfold Thread.refresh
      rw [if_pos hchanged]
      exact hdrop.of_holds rfl rfl hdrop.holds
    exact (hrefresh.checkGen (m.refresh_frame.2.2.trans hrest)).1
  · have hsame : m.refresh = m := if_neg hchanged
    rw [hsame]
    by_cases heq : m.cacheGen = m.fibers.invalidateGen
    · exact ((hcurrent heq).checkGen hrest).1
    · unfold Thread.checkGen
      rw [if_neg heq]
      exact sound_dropCaches hgood hrest (Nat.le_refl _)

/-- Freed blocks were jetsam, and then the caches are emptied before they are used again. -/
theorem Thread.Sound.rerun (h : m.Sound) (hrest : m.running = none) (free : Bool) : (m.rerun free).Sound := by
  have hfreed : m.fibers.freeJetsam.Good := h.good.step (a := .freeJetsam) rfl
  have hlive := State.live_freeJetsam h.good.inv
  unfold Thread.rerun
  refine Thread.Sound.forgetLast ?_
  by_cases hfree : free
  · rw [if_pos hfree]
    refine sound_refresh hfreed hrest fun heq => ⟨hfreed, h.gen, fun id hid => ?_⟩
    have hid' : m.fibers.freeJetsam.live id ≠ none := by
      rw [hlive]
      exact (h.holds id hid).2 heq
    refine ⟨fun hnone => ?_, fun _ => hid'⟩
    obtain ⟨c, hc⟩ := ne_none_iff_exists'.1 hid'
    have hblock : m.fibers.freeJetsam.blocks id = some c := hfreed.inv.indexed.blocks id c hc
    rw [show m.fibers.freeJetsam.blocks id = none from hnone] at hblock
    cases hblock
  · rw [if_neg hfree]
    exact sound_refresh h.good hrest fun _ => h

/-! ### The dispatcher -/

theorem Thread.Sound.findBlock_cases (h : m.Sound) (hgen : m.cacheGen = m.fibers.invalidateGen) (new : Compiled) :
    (∃ id c, m.fibers.live id = some c ∧ c.addr = new.code.addr ∧
      (m.findBlock new = (id, m) ∨ m.findBlock new = (id, m.remember new.code.addr id))) ∨
    (m.fibers.lookup new.code.addr = none ∧ m.findBlock new =
        (m.fibers.next, (m.compile new).remember new.code.addr m.fibers.next)) := by
  unfold Thread.findBlock
  dsimp only
  split
  · next id hcached =>
    -- the pointers of the cache are to live blocks
    obtain ⟨hcache, haddr⟩ := filter_eq_some_iff.1 hcached
    obtain ⟨c, hc⟩ := ne_none_iff_exists'.1 ((h.holds id (.inl ⟨_, hcache⟩)).2 hgen)
    refine .inl ⟨id, c, hc, ?_, .inl rfl⟩
    rw [h.good.inv.indexed.blocks id c hc] at haddr
    simpa using haddr
  · split
    · next id hlookup =>
      obtain ⟨c, hc, haddr⟩ := h.good.inv.indexed.lookup_iff.1 hlookup
      exact .inl ⟨id, c, hc, haddr, .inr rfl⟩
    · next hlookup => exact .inr ⟨hlookup, rfl⟩

theorem Thread.Sound.compile (h : m.Sound) {new : Compiled}
    (hnew : m.fibers.lookup new.code.addr = none) : (m.compile new).Sound := by
  have hstep : m.fibers.step (.insert new.code new.eager new.incoming) =
      some (m.fibers.insert new.code new.eager new.incoming) := if_pos hnew
  have hev := h.evolve (h.good.step hstep) (evolves_insert m.fibers _ _ _)
  exact hev.of_holds rfl rfl hev.holds

theorem Thread.live_compile_next (m : Thread) (new : Compiled) :
    (m.compile new).fibers.live m.fibers.next = some new.code := by
  show (m.fibers.insert new.code new.eager new.incoming).live m.fibers.next = some new.code
  rw [State.live_insert, update_self]

theorem Thread.relinks_start (m : Thread) (id : Nat) (locked : Bool) : Relinks m.fibers (m.start id locked).fibers := by
  unfold Thread.start
  dsimp only
  split
  · split_ifs
    · exact relinks_chain _ _ _
    · exact .refl _
  · exact .refl _

theorem Thread.Sound.start (h : m.Sound) (hid : m.Knows id) (locked : Bool) : (m.start id locked).Sound := by
  have hrel := m.relinks_start id locked
  have hev := (h.enter hid).evolve (h.good.relinks hrel) hrel.evolves
  exact hev.of_holds rfl rfl hev.holds

/-- What the dispatcher does before it enters a block: it may compile one, and it chains. -/
theorem Thread.Sound.dispatch (h : m.Sound) (hrest : m.running = none) (new : Compiled) (locked : Bool) :
    (m.dispatch new locked).Sound ∧ ∃ id c, (m.dispatch new locked).running = some id ∧
      (m.dispatch new locked).fibers.live id = some c ∧ c.addr = new.code.addr ∧
      ((m.SameMemory (m.dispatch new locked) ∧ (m.dispatch new locked).fibers.live = m.fibers.live) ∨
        ((m.compile new).SameMemory (m.dispatch new locked) ∧ id = m.fibers.next ∧ (m.dispatch new locked).fibers.live =
            update m.fibers.live m.fibers.next (some new.code))) := by
  obtain ⟨hcheck, hgen⟩ := h.checkGen hrest
  obtain ⟨hmem, hfibers⟩ := m.checkGen_frame
  have hlive : ∀ (m : Thread) (id : Nat), (m.start id locked).fibers.live = m.fibers.live := by
    intro m id
    obtain ⟨l, heq, -⟩ := m.relinks_start id locked
    rw [heq]
    rfl
  unfold Thread.dispatch
  rcases hcheck.findBlock_cases hgen new with ⟨id, c, hc, haddr, hfind⟩ | ⟨hnone, hfind⟩
  · have hknows := hcheck.knows_of_live (by rw [hc]; simp)
    rcases hfind with hfind | hfind <;> rw [hfind]
    · refine ⟨hcheck.start hknows locked, id, c, rfl, ?_, haddr, .inl ⟨?_, ?_⟩⟩
      · rw [hlive]
        exact hc
      · exact ⟨hmem.source, hmem.fetchFault, hmem.frame, hmem.ram⟩
      · rw [hlive, hfibers]
    · have hremember := hcheck.remember hknows new.code.addr
      refine ⟨hremember.start hknows locked, id, c, rfl, ?_, haddr, .inl ⟨?_, ?_⟩⟩
      · rw [hlive]
        exact hc
      · exact ⟨hmem.source, hmem.fetchFault, hmem.frame, hmem.ram⟩
      · rw [hlive]
        exact congrArg State.live hfibers
  · rw [hfind]
    have hcompile := hcheck.compile hnone
    have hnext := m.checkGen.live_compile_next new
    have hknows := hcompile.knows_of_live (by rw [hnext]; simp)
    refine ⟨(hcompile.remember hknows new.code.addr).start hknows locked, _, new.code, rfl, ?_, rfl, .inr ⟨?_, ?_, ?_⟩⟩
    · rw [hlive]
      exact hnext
    · refine ⟨?_, ?_, hmem.frame, hmem.ram⟩
      · show update m.checkGen.source m.checkGen.fibers.next m.checkGen.byte = _
        rw [hmem.source, hfibers, hmem.byte]
        rfl
      · show update m.checkGen.fetchFault m.checkGen.fibers.next new.fetchFault = _
        rw [hmem.fetchFault, hfibers]
        rfl
    · rw [hfibers]
    · rw [hlive]
      show (m.checkGen.fibers.insert new.code new.eager new.incoming).live = _
      rw [State.live_insert, hfibers]

theorem Thread.Sound.live_of_chained (h : m.Sound) {i : Bool} {t : Nat}
    (ht : m.chained id i = some t) : m.fibers.live t ≠ none := by
  unfold Thread.chained at ht
  split at ht
  · cases ht
  · next old hold =>
    obtain ⟨c, hc, hjump⟩ := bind_eq_some_iff.1 hold
    split at ht
    · next u hword =>
      cases ht
      exact h.good.live_of_code hc hjump hword
    · cases ht

theorem Thread.Sound.knows_caller (h : m.Sound) {a : Nat} (ha : m.caller a = some id) : m.Knows id := by
  obtain ⟨hret, -⟩ := filter_eq_some_iff.1 ha
  exact h.holds id (.inr (.inl ⟨_, hret⟩))

/-! ### Every step -/

theorem Thread.Sound.load (h : m.Sound) (p : Nat) (writable : Bool) : (m.load p writable).Sound := by
  unfold Thread.load
  split_ifs
  · exact h
  · exact h.of_holds rfl rfl h.holds

theorem Thread.Sound.writePtr (h : m.Sound) (p : Nat) : (m.writePtr p).Sound := by
  unfold Thread.writePtr
  split_ifs
  · exact h.of_holds rfl rfl h.holds
  · exact (h.invalidatePage p).of_holds rfl rfl (h.invalidatePage p).holds

theorem Thread.step_jump {i : Bool} (hstep : m.step (.jump i) = some m') :
    ∃ id t, m.running = some id ∧ m.chained id i = some t ∧ m' = m.enter t := by
  delta Thread.step at hstep
  dsimp only at hstep
  split at hstep
  · next t ht =>
    obtain ⟨id, hid, hchained⟩ := bind_eq_some_iff.1 ht
    exact ⟨id, t, hid, hchained, (Option.some.inj hstep).symm⟩
  · cases hstep

theorem Thread.step_poke {i : Bool} (hstep : m.step (.poke i) = some m') :
    ∃ id t, m.running = some id ∧ m.chained id i = some t ∧ m' = { m with lastBlock := some t }.leave false := by
  delta Thread.step at hstep
  dsimp only at hstep
  split at hstep
  · next t ht =>
    obtain ⟨id, hid, hchained⟩ := bind_eq_some_iff.1 ht
    exact ⟨id, t, hid, hchained, (Option.some.inj hstep).symm⟩
  · cases hstep

theorem Thread.step_call (hstep : m.step .call = some m') : ∃ id n, m.running = some id ∧
      m' = { m with retCache := update m.retCache n (some id) } := by
  delta Thread.step at hstep
  dsimp only at hstep
  split at hstep
  · cases hstep
  · next id hid =>
    split at hstep
    · cases hstep
    · exact ⟨id, _, hid, (Option.some.inj hstep).symm⟩

theorem Thread.step_ret {a : Nat} (hstep : m.step (.ret a) = some m') :
    (∃ id t, m.caller a = some id ∧ m.chained id false = some t ∧ m' = m.enter t) ∨ m' = m.leave false ∨
      ∃ id, m.caller a = some id ∧ m' = { m with lastBlock := some id }.leave false := by
  delta Thread.step at hstep
  dsimp only at hstep
  obtain ⟨-, hret⟩ := ite_none_left_eq_some.1 hstep
  split at hret
  · exact .inr (.inl (Option.some.inj hret).symm)
  · next id hid =>
    split at hret
    · next t ht => exact .inl ⟨id, t, hid, ht, (Option.some.inj hret).symm⟩
    · exact .inr (.inr ⟨id, hid, (Option.some.inj hret).symm⟩)

/-- **The pointers of a thread are good after every step.** -/
theorem Thread.Sound.step (h : m.Sound) {a : ThreadAct} (hstep : m.step a = some m') : m'.Sound := by
  cases a with
  | load p writable => exact guarded hstep fun _ => h.load p writable
  | store a v => exact guarded hstep fun _ => (h.writePtr (page a)).of_holds rfl rfl (h.writePtr (page a)).holds
  | badStore _ | sync _ | map _ _ => exact guarded hstep fun _ => h.of_holds rfl rfl h.holds
  | jump i =>
    obtain ⟨id, t, -, ht, rfl⟩ := Thread.step_jump hstep
    exact h.enter (h.knows_of_live (h.live_of_chained ht))
  | poke i =>
    obtain ⟨id, t, -, ht, rfl⟩ := Thread.step_poke hstep
    exact (h.setLast (h.knows_of_live (h.live_of_chained ht))).leave false
  | call =>
    obtain ⟨id, n, hrun, rfl⟩ := Thread.step_call hstep
    exact h.call (h.holds id (.inr (.inr (.inr hrun)))) n
  | ret a =>
    obtain ⟨id, t, -, ht, rfl⟩ | rfl | ⟨id, hid, rfl⟩ := Thread.step_ret hstep
    · exact h.enter (h.knows_of_live (h.live_of_chained ht))
    · exact h.leave false
    · exact (h.setLast (h.knows_caller hid)).leave false
  | leave crash => exact guarded hstep fun _ => h.leave crash
  | dispatch new locked =>
    exact guarded hstep fun ⟨hrest, _⟩ => (h.dispatch (isNone_iff_eq_none.1 hrest) new locked).1
  | rerun free => exact guarded hstep fun hrest => h.rerun (isNone_iff_eq_none.1 hrest) free
  | unmap p => exact guarded hstep fun _ => (h.invalidatePage p).of_holds rfl rfl (h.invalidatePage p).holds
  | kernelStore a v =>
    exact guarded hstep fun _ => (h.invalidatePage (page a)).of_holds rfl rfl (h.invalidatePage (page a)).holds

theorem sound_threadInit (ram : Nat → UInt8) : (threadInit ram).Sound := by
  refine ⟨good_init, Nat.le_refl 0, fun id hid => ?_⟩
  rcases hid with ⟨n, hn⟩ | ⟨n, hn⟩ | hlast | hrun
  · cases hn
  · cases hn
  · cases hlast
  · cases hrun

theorem Thread.writePtr_frame (m : Thread) (p : Nat) : m.SameMemory (m.writePtr p) ∧ (m.writePtr p).dirtyPage = some p ∧
      (m.writePtr p).running = m.running ∧
      ((m.writePtr p).fibers = m.fibers ∨ (m.writePtr p).fibers = m.fibers.invalidatePage p) := by
  unfold Thread.writePtr
  split_ifs
  · exact ⟨⟨rfl, rfl, rfl, rfl⟩, rfl, rfl, .inl rfl⟩
  · exact ⟨⟨rfl, rfl, rfl, rfl⟩, rfl, rfl, .inr rfl⟩

theorem Thread.live_of_leave (hinv : Inv m.fibers) {crash : Bool}
    (hc : (m.leave crash).fibers.live id = some c) : m.fibers.live id = some c := by
  rw [(m.leave_frame crash).2.2] at hc
  cases hdirty : m.dirtyPage with
  | none =>
    rw [hdirty] at hc
    exact hc
  | some p =>
    rw [hdirty] at hc
    exact hinv.live_of_invalidatePage hc

/-- Only the dispatcher makes blocks, and only `pt_map` maps a page. -/
theorem Thread.step_shrinks (hsound : m.Sound) {a : ThreadAct} (hstep : m.step a = some m')
    (hdispatch : ∀ new locked, a ≠ .dispatch new locked) (hmap : ∀ p f, a ≠ .map p f) :
    (∀ id c, m'.fibers.live id = some c → m.fibers.live id = some c) ∧
      m'.fetchFault = m.fetchFault ∧ ∀ p, m.frame p = none → m'.frame p = none := by
  have hinv := hsound.good.inv
  have hleave : ∀ (last : Option Nat) (crash : Bool),
      (∀ id c, ({ m with lastBlock := last }.leave crash).fibers.live id = some c →
        m.fibers.live id = some c) ∧
      ({ m with lastBlock := last }.leave crash).fetchFault = m.fetchFault ∧
      ∀ p, m.frame p = none → ({ m with lastBlock := last }.leave crash).frame p = none := by
    intro last crash
    obtain ⟨hmem, -⟩ := Thread.leave_frame { m with lastBlock := last } crash
    refine ⟨fun id c => Thread.live_of_leave (m := { m with lastBlock := last }) hinv,
      hmem.fetchFault, fun p hp => ?_⟩
    rw [hmem.frame]
    exact hp
  cases a with
  | dispatch new locked => exact absurd rfl (hdispatch new locked)
  | map p f => exact absurd rfl (hmap p f)
  | load p writable =>
    refine guarded hstep fun _ => ?_
    unfold Thread.load
    split_ifs <;> exact ⟨fun _ _ hc => hc, rfl, fun _ hp => hp⟩
  | store a v =>
    refine guarded hstep fun _ => ?_
    obtain ⟨hmem, -, -, hfibers⟩ := m.writePtr_frame (page a)
    refine ⟨fun id c hc => ?_, hmem.fetchFault, fun p hp => hmem.frame ▸ hp⟩
    have hc : (m.writePtr (page a)).fibers.live id = some c := hc
    rcases hfibers with hfibers | hfibers
    · rwa [hfibers] at hc
    · rw [hfibers] at hc
      exact hinv.live_of_invalidatePage hc
  | badStore _ | sync _ => exact guarded hstep fun _ => ⟨fun _ _ hc => hc, rfl, fun _ hp => hp⟩
  | jump i =>
    obtain ⟨id, t, -, -, rfl⟩ := Thread.step_jump hstep
    exact ⟨fun _ _ hc => hc, rfl, fun _ hp => hp⟩
  | poke i =>
    obtain ⟨id, t, -, -, rfl⟩ := Thread.step_poke hstep
    exact hleave (some t) false
  | call =>
    obtain ⟨id, n, -, rfl⟩ := Thread.step_call hstep
    exact ⟨fun _ _ hc => hc, rfl, fun _ hp => hp⟩
  | ret a =>
    obtain ⟨id, t, -, -, rfl⟩ | rfl | ⟨id, -, rfl⟩ := Thread.step_ret hstep
    · exact ⟨fun _ _ hc => hc, rfl, fun _ hp => hp⟩
    · exact hleave m.lastBlock false
    · exact hleave (some id) false
  | leave crash => exact guarded hstep fun _ => hleave m.lastBlock crash
  | rerun free =>
    refine guarded hstep fun _ => ?_
    obtain ⟨hmem, hlive⟩ := Thread.rerun_frame hsound.good free
    exact ⟨fun _ _ hc => hlive ▸ hc, hmem.fetchFault, fun p hp => hmem.frame ▸ hp⟩
  | unmap p =>
    refine guarded hstep fun _ => ?_
    refine ⟨fun _ _ hc => hinv.live_of_invalidatePage hc, rfl, fun q hq => ?_⟩
    show update m.frame p none q = none
    rw [update_apply]
    split_ifs
    · rfl
    · exact hq
  | kernelStore a v => exact guarded hstep fun _ => ⟨fun _ _ hc => hinv.live_of_invalidatePage hc, rfl, fun _ hp => hp⟩

/-- **A block that is entered is live.** -/
theorem Thread.Sound.live_of_enters (h : m.Sound) {a : ThreadAct} (hstep : m.step a = some m')
    (henters : a.enters) {t : Nat} (hrun : m'.running = some t) : m'.fibers.live t ≠ none := by
  cases a with
  | jump i =>
    obtain ⟨id, u, -, hu, rfl⟩ := Thread.step_jump hstep
    cases hrun
    exact h.live_of_chained hu
  | ret a =>
    obtain ⟨id, u, -, hu, rfl⟩ | rfl | ⟨id, hid, rfl⟩ := Thread.step_ret hstep
    · cases hrun
      exact h.live_of_chained hu
    · rw [(Thread.leave_frame _ _).2.1] at hrun
      cases hrun
    · rw [(Thread.leave_frame _ _).2.1] at hrun
      cases hrun
  | dispatch new locked =>
    obtain ⟨⟨hrest, -⟩, hm'⟩ := ite_none_right_eq_some.1 hstep
    cases hm'
    obtain ⟨-, id, c, hid, hc, -⟩ := h.dispatch (isNone_iff_eq_none.1 hrest) new locked
    obtain rfl : id = t := Option.some.inj (hid.symm.trans hrun)
    rw [hc]
    simp
  | _ => cases henters

end Ish.Asbestos
