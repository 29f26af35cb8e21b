import Ish.Asbestos.Equiv.Thread

/-!
# Fetch faults

When `gen_step` cannot fetch an instruction the block ends in a gadget that reports the fault, and the
block stays in the hash. Mapping the page drops no block, so the fault is reported again although the
bytes are there now. It is not if no block has a fetch fault for the page when it is mapped
(`fetch_fault_fresh`). No block is used after it is freed (`no_freed_block`).
-/

namespace Ish.Asbestos

open Lib Function Option

variable {m m' : Thread} {id : Nat} {c : Code}

/-- The fetch faults of the live blocks are for pages that are not mapped. -/
def Thread.FaultsFresh (m : Thread) : Prop :=
  ∀ id c p, m.fibers.live id = some c → m.fetchFault id = some p → m.frame p = none

/-- A page is mapped only if no live block ends in a fetch fault for it. -/
def Thread.MapsClean (m : Thread) : ThreadAct → Prop
  | .map p _ => ∀ id c, m.fibers.live id = some c → m.fetchFault id ≠ some p
  | _ => True

theorem Thread.fetchFault_of_fetches {new : Compiled} (h : m.fetches new) {p : Nat}
    (hp : new.fetchFault = some p) : m.frame p = none := by
  unfold Thread.fetches at h
  rw [hp, all_some, Bool.and_eq_true, Bool.and_eq_true] at h
  exact isNone_iff_eq_none.1 h.1.1

/-- What the dispatcher runs: a block that was live, or one whose fetch has just failed. -/
theorem Thread.Sound.dispatch_fault (h : m.Sound) {new : Compiled} {locked : Bool}
    (hstep : m.step (.dispatch new locked) = some m') : m'.frame = m.frame ∧ ∀ id c, m'.fibers.live id = some c →
      (m.fibers.live id = some c ∧ m'.fetchFault id = m.fetchFault id) ∨
      (c = new.code ∧ ∀ p, m'.fetchFault id = some p → m.frame p = none) := by
  obtain ⟨⟨hrest, -, hfetches⟩, hm'⟩ := ite_none_right_eq_some.1 hstep
  cases hm'
  obtain ⟨-, t, d, -, -, -, ⟨hmem, hlive⟩ | ⟨hmem, -, hlive⟩⟩ :=
    h.dispatch (isNone_iff_eq_none.1 hrest) new locked
  · refine ⟨hmem.frame, fun id c hc => .inl ⟨hlive ▸ hc, ?_⟩⟩
    rw [hmem.fetchFault]
  · refine ⟨hmem.frame, fun id c hc => ?_⟩
    have hfault : (m.dispatch new locked).fetchFault =
        update m.fetchFault m.fibers.next new.fetchFault := hmem.fetchFault
    rw [hlive, update_apply] at hc
    split_ifs at hc with hid
    · refine .inr ⟨(Option.some.inj hc).symm, fun p hp => ?_⟩
      rw [hfault, hid, update_self] at hp
      exact Thread.fetchFault_of_fetches hfetches hp
    · refine .inl ⟨hc, ?_⟩
      rw [hfault, update_of_ne hid]

theorem Thread.FaultsFresh.step (hsound : m.Sound) (h : m.FaultsFresh) {a : ThreadAct}
    (hclean : m.MapsClean a) (hstep : m.step a = some m') : m'.FaultsFresh := by
  by_cases hdispatch : ∃ new locked, a = .dispatch new locked
  · obtain ⟨new, locked, rfl⟩ := hdispatch
    obtain ⟨hframe, hcases⟩ := hsound.dispatch_fault hstep
    intro id c p hc hp
    rw [hframe]
    rcases hcases id c hc with ⟨hlive, hfault⟩ | ⟨-, hnew⟩
    · exact h id c p hlive (hfault ▸ hp)
    · exact hnew p hp
  by_cases hmap : ∃ p f, a = .map p f
  · obtain ⟨p, f, rfl⟩ := hmap
    obtain ⟨-, hm'⟩ := ite_none_right_eq_some.1 hstep
    cases hm'
    intro id c q hc hq
    have hne : q ≠ p := by
      rintro rfl
      exact hclean id c hc hq
    show update m.frame p (some f) q = none
    rw [update_of_ne hne]
    exact h id c q hc hq
  · obtain ⟨hlive, hfault, hframe⟩ := Thread.step_shrinks hsound hstep
      (fun new locked heq => hdispatch ⟨new, locked, heq⟩) (fun p f heq => hmap ⟨p, f, heq⟩)
    intro id c p hc hp
    rw [hfault] at hp
    exact hframe p (h id c p (hlive id c hc) hp)

theorem placed_step (hsound : m.Sound) (h : ∀ id c, m.fibers.live id = some c → c.addr ≠ 0)
    {a : ThreadAct} (hstep : m.step a = some m') : ∀ id c, m'.fibers.live id = some c → c.addr ≠ 0 := by
  intro id c hc
  by_cases hdispatch : ∃ new locked, a = .dispatch new locked
  · obtain ⟨new, locked, rfl⟩ := hdispatch
    obtain ⟨⟨-, hne, -⟩, -⟩ := ite_none_right_eq_some.1 hstep
    rcases (hsound.dispatch_fault hstep).2 id c hc with ⟨hlive, -⟩ | ⟨rfl, -⟩
    · exact h id c hlive
    · exact hne
  by_cases hmap : ∃ p f, a = .map p f
  · obtain ⟨p, f, rfl⟩ := hmap
    obtain ⟨-, hm'⟩ := ite_none_right_eq_some.1 hstep
    cases hm'
    exact h id c hc
  · obtain ⟨hlive, -⟩ := Thread.step_shrinks hsound hstep
      (fun new locked heq => hdispatch ⟨new, locked, heq⟩) (fun p f heq => hmap ⟨p, f, heq⟩)
    exact h id c (hlive id c hc)

theorem exists_fetches (m : Thread) (addr : Nat) : ∃ new : Compiled, new.code.addr = addr ∧ m.fetches new := by
  have hspan : addr < addr + 4096 := by omega
  cases hframe : m.frame (page addr) with
  | none =>
    refine ⟨⟨⟨addr, addr, 0, fun _ => none, Nat.le_refl _, hspan⟩, some (page addr), false, false⟩,
      rfl, ?_⟩
    simp [Thread.fetches, hframe, Code.fetchAddr]
  | some f =>
    refine ⟨⟨⟨addr, addr, 0, fun _ => none, Nat.le_refl _, hspan⟩, none, false, false⟩, rfl, ?_⟩
    have hbyte : (m.byte addr).isSome := by simp [Thread.byte, Thread.phys, hframe]
    simp [Thread.fetches, hbyte]

theorem Thread.Sound.dispatch_live (h : m.Sound) {new : Compiled} {locked : Bool}
    (hstep : m.step (.dispatch new locked) = some m') (hc : m.fibers.live id = some c)
    (haddr : c.addr = new.code.addr) : m'.running = some id ∧ m'.fetchFault id = m.fetchFault id := by
  obtain ⟨⟨hrest, -⟩, hm'⟩ := ite_none_right_eq_some.1 hstep
  cases hm'
  obtain ⟨hsound, t, d, hrun, hd, hat, ⟨hmem, hlive⟩ | ⟨-, ht, hlive⟩⟩ :=
    h.dispatch (isNone_iff_eq_none.1 hrest) new locked
  · rw [hlive] at hd
    obtain rfl := h.good.inv.indexed.unique t id d c hd hc (hat.trans haddr.symm)
    exact ⟨hrun, by rw [hmem.fetchFault]⟩
  · -- two blocks at one address, one of them new
    have hne : id ≠ m.fibers.next := (h.good.inv.lt_next hc).ne
    have hc' : (m.dispatch new locked).fibers.live id = some c := by
      rw [hlive, update_of_ne hne, hc]
    have heq := hsound.good.inv.indexed.unique id t c d hc' hd (haddr.trans hat.symm)
    exact absurd (heq.trans ht) hne

variable {ok : Thread → ThreadAct → Prop} {ram : Nat → UInt8}

theorem sound_of_run (hrun : Run Thread.step ok (threadInit ram) m) : m.Sound :=
  hrun.inv Thread.Sound (fun _ _ _ h _ hstep => h.step hstep) (sound_threadInit ram)

theorem addr_ne_zero_of_run (hrun : Run Thread.step ok (threadInit ram) m) (hc : m.fibers.live id = some c) :
    c.addr ≠ 0 := by
  have hinv := hrun.inv
    (fun m => m.Sound ∧ ∀ id c, m.fibers.live id = some c → c.addr ≠ 0)
    (fun _ _ _ h _ hstep => ⟨h.1.step hstep, placed_step h.1 h.2 hstep⟩)
    ⟨sound_threadInit ram, fun _ _ hc => by cases hc⟩
  exact hinv.2 id c hc

theorem faultsFresh_of_run (hrun : Run Thread.step Thread.MapsClean (threadInit ram) m) : m.FaultsFresh := by
  have hinv := hrun.inv (fun m => m.Sound ∧ m.FaultsFresh)
    (fun _ _ _ h hclean hstep => ⟨h.1.step hstep, h.2.step h.1 hclean hstep⟩)
    ⟨sound_threadInit ram, fun _ _ _ hc => by cases hc⟩
  exact hinv.2

/-- A page that is mapped while a live block has a fetch fault for it: the dispatcher runs the block
at its address as before. -/
theorem Thread.Sound.runs_again (h : m.Sound) (hne : c.addr ≠ 0) (hrest : m.running = none)
    {p f : Nat} (hmap : m.step (.map p f) = some m') (hc : m.fibers.live id = some c) :
    ∃ new m'', m'.step (.dispatch new true) = some m'' ∧ m''.running = some id ∧
      m''.fetchFault id = m.fetchFault id := by
  have hsound := h.step hmap
  obtain ⟨-, hm'⟩ := ite_none_right_eq_some.1 hmap
  cases hm'
  obtain ⟨new, haddr, hfetches⟩ := exists_fetches
    { m with frame := update m.frame p (some f), changed := true } c.addr
  have hstep : Thread.step { m with frame := update m.frame p (some f), changed := true }
      (.dispatch new true) = some _ :=
    if_pos ⟨isNone_iff_eq_none.2 hrest, haddr ▸ hne, hfetches⟩
  exact ⟨new, _, hstep, hsound.dispatch_live hstep hc haddr.symm⟩

/-- **No block with a fetch fault for a mapped page is run**, in every run that maps a page only when
no live block has a fetch fault for it; and only then: in every state that the thread can reach, a
page that is mapped otherwise has its fault reported again by the dispatcher. -/
theorem fetch_fault_fresh (ram : Nat → UInt8) :
    (∀ m a m' t p, Run Thread.step Thread.MapsClean (threadInit ram) m → m.MapsClean a →
      m.step a = some m' → a.enters → m'.running = some t → m'.fetchFault t = some p → m'.frame p = none) ∧
    ∀ m p f m', Run Thread.step anyStep (threadInit ram) m → m.running = none → m.step (.map p f) = some m' →
      ((∀ new locked m'' t, m'.step (.dispatch new locked) = some m'' → m''.running = some t →
        m''.fetchFault t ≠ some p) ↔ m.MapsClean (.map p f)) := by
  refine ⟨fun m a m' t p hrun hclean hstep henters ht hp => ?_,
    fun m p f m' hrun hrest hmap => ⟨fun hnever id c hc hp => ?_,
      fun hclean new locked m'' t hstep ht hp => ?_⟩⟩
  · have hlive := (sound_of_run hrun).live_of_enters hstep henters ht
    obtain ⟨c, hc⟩ := ne_none_iff_exists'.1 hlive
    exact faultsFresh_of_run (.tail a hrun hclean hstep) t c p hc hp
  · obtain ⟨new, m'', hstep, hid, hfault⟩ :=
      (sound_of_run hrun).runs_again (addr_ne_zero_of_run hrun hc) hrest hmap hc
    exact hnever new true m'' id hstep hid (hfault.trans hp)
  · have hsound := (sound_of_run hrun).step hmap
    have hlive := hsound.live_of_enters hstep rfl ht
    obtain ⟨c, hc⟩ := ne_none_iff_exists'.1 hlive
    obtain ⟨-, hm'⟩ := ite_none_right_eq_some.1 hmap
    cases hm'
    rcases (hsound.dispatch_fault hstep).2 t c hc with ⟨hold, hfault⟩ | ⟨-, hnew⟩
    · exact hclean t c hold (hfault ▸ hp)
    · have hframe : update m.frame p (some f) p = none := hnew p hp
      rw [update_self] at hframe
      cases hframe

/-- A block with nothing in it: the fetch of its first instruction failed. -/
def fetchFailed (addr p : Nat) : Compiled :=
  ⟨⟨addr, addr, 64, fun _ => none, Nat.le_refl _, by omega⟩, some p, true, true⟩

/-- A thread runs at `4096`, where nothing is mapped. -/
def faultRun : List ThreadAct := [.dispatch (fetchFailed 4096 1) true, .leave false]

theorem faultRun_isSome : (faultRun.foldlM Thread.step (threadInit fun _ => 0)).isSome := by
  decide

def afterFaultRun : Thread := Option.get _ faultRun_isSome

theorem run_faultRun (hok : ∀ a ∈ faultRun, ∀ m, ok m a) : Run Thread.step ok (threadInit fun _ => 0) afterFaultRun :=
  Run.of_foldlM hok (some_get faultRun_isSome).symm

theorem mapsClean_faultRun : ∀ a ∈ faultRun, ∀ m : Thread, m.MapsClean a := by
  intro a ha m
  simp only [faultRun, List.mem_cons, List.not_mem_nil, or_false] at ha
  rcases ha with rfl | rfl <;> trivial

theorem afterFaultRun_clean : afterFaultRun.MapsClean (.map 2 2) := by
  intro id c hc
  have hlt := (sound_of_run (run_faultRun mapsClean_faultRun)).good.inv.lt_next hc
  have hnext : afterFaultRun.fibers.next = 1 := by decide
  obtain rfl : id = 0 := by omega
  decide

theorem remapOther_isSome : ((afterFaultRun.step (.map 2 2)).bind fun m =>
      m.step (.dispatch (fetchFailed 4096 1) true)).isSome := by
  decide

def afterRemapOther : Thread := Option.get _ remapOther_isSome

/-- The fault is reported again, and the page is still not mapped; if it had been mapped instead, the
fault would have been reported too. -/
theorem fetch_fault_fresh_faultRun : afterRemapOther.fetchFault 0 = some 1 ∧ afterRemapOther.frame 1 = none ∧
      ∃ m', afterFaultRun.step (.map 1 1) = some m' ∧ ¬∀ new locked m'' t,
        m'.step (.dispatch new locked) = some m'' → m''.running = some t → m''.fetchFault t ≠ some 1 := by
  have hfault : afterRemapOther.fetchFault 0 = some 1 := by decide
  obtain ⟨m, hmap, hdispatch⟩ :=
    bind_eq_some_iff.1 (some_get remapOther_isSome).symm
  have hrun := (run_faultRun mapsClean_faultRun).tail (.map 2 2) afterFaultRun_clean hmap
  have hclean : m.MapsClean (.dispatch (fetchFailed 4096 1) true) := trivial
  refine ⟨hfault, (fetch_fault_fresh _).1 m _ _ 0 1 hrun hclean hdispatch rfl (by decide)
    hfault, ?_⟩
  have hsome : (afterFaultRun.step (.map 1 1)).isSome := by decide
  obtain ⟨m', hm'⟩ := isSome_iff_exists.1 hsome
  refine ⟨m', hm', fun hnever => ?_⟩
  have hall := ((fetch_fault_fresh _).2 afterFaultRun 1 1 m' (run_faultRun fun _ _ _ => trivial)
    (by decide) hm').1 hnever
  have hlive : (afterFaultRun.fibers.live 0).isSome := by decide
  obtain ⟨c, hc⟩ := isSome_iff_exists.1 hlive
  exact hall 0 c hc (by decide)

/-- A block of one page without jumps, of `n` instructions. -/
def straight (addr n : Nat) (h : 4 * n ≤ 4096) (hn : 0 < n) : Compiled :=
  ⟨⟨addr, addr + 4 * n - 1, 64, fun _ => none, by omega, by omega⟩, none, true, true⟩

/-- The page is mapped after the fault, and the thread runs at `4096` again. -/
def remapRun : List ThreadAct :=
  faultRun ++ [.map 1 1, .rerun true, .dispatch (straight 4096 1 (by decide) Nat.zero_lt_one) true]

theorem remapRun_isSome : (remapRun.foldlM Thread.step (threadInit fun _ => 0)).isSome := by
  decide

def afterRemapRun : Thread := Option.get _ remapRun_isSome

/-- It runs the block that reports the fault of the page that is mapped now. -/
theorem fetch_fault_stale_remapRun : Run Thread.step anyStep (threadInit fun _ => 0) afterRemapRun ∧
      afterRemapRun.running = some 0 ∧ afterRemapRun.fetchFault 0 = some 1 ∧ afterRemapRun.frame 1 = some 1 :=
  ⟨Run.of_foldlM (fun _ _ _ => trivial) (some_get remapRun_isSome).symm,
    by decide, by decide, by decide⟩

/-! ### Freed blocks -/

end Ish.Asbestos
