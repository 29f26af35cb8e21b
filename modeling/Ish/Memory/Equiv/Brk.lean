import Ish.Memory.Equiv.Anonymous

/-!
# `brk`

`sys_brk` adds or removes exactly the pages between the two rounded-up breaks, or changes nothing
(`BrkExact`), on a host that refuses to map more than `2^47` bytes at once. The exceptions are
breaks beyond the page table: page numbers are taken modulo `2^36` there, and `PAGE_ROUND_UP` of
one of the last 4095 addresses is page 0. `brk_exact_iff` says when this happens.
-/

namespace Ish

open Lib

/-- The first page not below an address, without overflow. -/
def ceilPage (brk : BitVec 64) : Nat := (brk.toNat + 4095) / pageSize

/-- `PAGE_ROUND_UP` is exact up to the last page of addresses, where it gives 0. -/
theorem pageRoundUp_eq_ceilPage (b : BitVec 64) :
    pageRoundUp b = ceilPage b ∧ ceilPage b < 2 ^ 52 ∨ pageRoundUp b = 0 ∧ ceilPage b = 2 ^ 52 := by
  have hlt := b.isLt
  unfold pageRoundUp ceilPage pageSize
  rw [BitVec.toNat_add, BitVec.toNat_ofNat]
  omega

theorem ceilPage_mono {a b : BitVec 64} (h : a ≤ b) : ceilPage a ≤ ceilPage b := by
  have hle := BitVec.le_def.mp h
  unfold ceilPage pageSize
  omega

def ZeroAt (s : Kernel × Mem) (p : Nat) : Prop :=
  ∃ e R, memPt s.2 p = some e ∧ s.1.host.regions (regionOf s.1 e) = some R ∧
    ∀ i < pageSize, R.bytes (e.offset + i) = 0

theorem MapsAnon.zeroAt {s s' : Kernel × Mem} {start pages : Nat} {flags : Flags} (h : MapsAnon s s' start pages flags)
    {p : Nat} (hlow : start ≤ p) (hhigh : p < start + pages) : ZeroAt s' p := by
  refine ⟨_, ⟨pages * pageSize % wordMod, fun _ => ptMapNothing.hostProt flags, fun _ => 0⟩, h.entry p hlow hhigh, ?_,
    fun _ _ => rfl⟩
  unfold regionOf
  rw [h.object, h.host]
  exact Function.update_self ..

/-! ### The statement -/

/-- The break is the new one, and the pages between the breaks are added or removed. -/
def BrkMoves (mm : Mm) (newBrk : BitVec 64) (r : Kernel × Mm) : Prop :=
  r.2.brk = newBrk ∧ ∀ q < memPages,
    if ceilPage mm.brk ≤ q ∧ q < ceilPage newBrk then
      memPt mm.mem q = none ∧ memFindReservation mm.mem q = none ∧ ZeroAt (r.1, r.2.mem) q
    else if ceilPage newBrk ≤ q ∧ q < ceilPage mm.brk then memPt r.2.mem q = none
    else memPt r.2.mem q = memPt mm.mem q

/-- The break is the old one, and no page, reservation or accounting value has changed. -/
def BrkStays (k : Kernel) (mm : Mm) (r : Kernel × Mm) : Prop :=
  r.2.brk = mm.brk ∧ (∀ q, memPt r.2.mem q = memPt mm.mem q) ∧ r.2.mem.reservations = mm.mem.reservations ∧
    r.1.anonPageCount = k.anonPageCount

/-- `sys_brk` is exact and all-or-nothing, and the break does not drop below `start_brk`. -/
def BrkExact (env : HostEnv) (k : Kernel) (mm : Mm) (newBrk : BitVec 64) : Prop :=
  mm.startBrk ≤ (sysBrk env k mm newBrk).2.brk ∧
    (BrkMoves mm newBrk (sysBrk env k mm newBrk) ∨ BrkStays k mm (sysBrk env k mm newBrk))

/-- The number of bytes `sys_brk` asks the host for. -/
def sysBrk.bytes (brk newBrk : BitVec 64) : Nat := size brk newBrk * pageSize % wordMod

/-- The host refuses to map more than `2^47` bytes at once. -/
def HostEnv.Limited (env : HostEnv) (mm : Mm) (newBrk : BitVec 64) : Prop :=
  env.mmap → sysBrk.bytes mm.brk newBrk ≤ 2 ^ 47

/-- The tests of `sys_brk` and of such a host before the heap grows. -/
def sysBrk.Accepts (k : Kernel) (mm : Mm) (newBrk : BitVec 64) : Prop :=
  ptIsHole mm.mem (pageRoundUp mm.brk) (size mm.brk newBrk) ∧
    k.anonPageCount + asLong (size mm.brk newBrk) ≤ anonMmapLimitPages ∧ bytes mm.brk newBrk ≤ 2 ^ 47

/-- When `sys_brk` is exact: a heap that grows past the page table is refused, and a heap that shrinks from beyond it
leaves no mapped page in the slot of a page between the breaks. -/
def BrkSafe (k : Kernel) (mm : Mm) (newBrk : BitVec 64) : Prop :=
  if newBrk < mm.startBrk then True
  else if mm.brk < newBrk then
    ceilPage newBrk ≤ memPages ∨ ceilPage newBrk = ceilPage mm.brk ∨ ¬ sysBrk.Accepts k mm newBrk
  else ∀ q < memPages, (memPt mm.mem q).isSome →
    (Touches (pageRoundUp newBrk) (pageRoundUp mm.brk - pageRoundUp newBrk) q ↔
      ceilPage newBrk ≤ q ∧ q < ceilPage mm.brk)

/-! ### Growing -/

section

variable {env : HostEnv} {k : Kernel} {mm : Mm} {newBrk : BitVec 64}

theorem sysBrk_grow (hlow : ¬ newBrk < mm.startBrk) (hgrow : mm.brk < newBrk)
    (hhole : ptIsHole mm.mem (pageRoundUp mm.brk) (sysBrk.size mm.brk newBrk)) {r : Except Errno Unit} {s : Kernel × Mem}
    (hmap : mapCounted env (k, mm.mem) (pageRoundUp mm.brk) (sysBrk.size mm.brk newBrk) pWrite true = (r, s)) :
    sysBrk env k mm newBrk = (s.1, { mm with mem := s.2, brk := if r.isOk then newBrk else mm.brk }) := by
  unfold sysBrk
  rw [if_neg hlow, if_pos hgrow]
  simp only [hhole, not_true_eq_false, if_false, hmap]
  cases r <;> rfl

theorem sysBrk_of_not_hole (hlow : ¬ newBrk < mm.startBrk) (hgrow : mm.brk < newBrk)
    (hhole : ¬ ptIsHole mm.mem (pageRoundUp mm.brk) (sysBrk.size mm.brk newBrk)) :
    sysBrk env k mm newBrk = (k, mm) := by
  unfold sysBrk
  rw [if_neg hlow, if_pos hgrow]
  dsimp only
  rw [if_pos hhole]

theorem brkStays_self (k : Kernel) (mm : Mm) : BrkStays k mm (k, mm) := ⟨rfl, fun _ => rfl, rfl, rfl⟩

theorem brkStays_of_refused (hlow : ¬ newBrk < mm.startBrk) (hgrow : mm.brk < newBrk)
    (hsize : sysBrk.size mm.brk newBrk ≠ 0) (h : ptIsHole mm.mem (pageRoundUp mm.brk) (sysBrk.size mm.brk newBrk) →
      ¬ env.CanMap ∨ k.anonPageCount + asLong (sysBrk.size mm.brk newBrk) > anonMmapLimitPages) :
    BrkStays k mm (sysBrk env k mm newBrk) := by
  by_cases hhole : ptIsHole mm.mem (pageRoundUp mm.brk) (sysBrk.size mm.brk newBrk)
  · obtain ⟨err, k', heq, hk⟩ := mapCounted_refused env (k, mm.mem) (pageRoundUp mm.brk) hsize pWrite true
      ((h hhole).imp id fun hlimit => ⟨rfl, hlimit⟩)
    rw [sysBrk_grow hlow hgrow hhole heq]
    refine ⟨rfl, fun _ => rfl, rfl, ?_⟩
    rcases hk with rfl | rfl <;> rfl
  · rw [sysBrk_of_not_hole hlow hgrow hhole]
    exact brkStays_self k mm

theorem ptIsHole_zero (m : Mem) (start : Nat) : ptIsHole m start 0 := by
  have hmod := Nat.mod_le start wordMod
  simp [ptIsHole, memRangeHasReservation, Nat.sub_eq_zero_of_le hmod]

theorem sysBrk_of_size_zero (env : HostEnv) (k : Kernel) (hlow : ¬ newBrk < mm.startBrk) (hgrow : mm.brk < newBrk)
    (hsize : sysBrk.size mm.brk newBrk = 0) : sysBrk env k mm newBrk =
      (k, { mm with brk := if k.anonPageCount ≤ anonMmapLimitPages then newBrk else mm.brk }) := by
  have hhole : ptIsHole mm.mem (pageRoundUp mm.brk) (sysBrk.size mm.brk newBrk) := by
    rw [hsize]
    exact ptIsHole_zero mm.mem (pageRoundUp mm.brk)
  have hmap := mapCounted_zero env (k, mm.mem) (pageRoundUp mm.brk) pWrite true
  rw [← hsize] at hmap
  split_ifs at hmap with hlimit
  · rw [sysBrk_grow hlow hgrow hhole hmap, if_neg (not_le.mpr hlimit.2)]
    rfl
  · rw [sysBrk_grow hlow hgrow hhole hmap, if_pos (not_lt.mp fun h => hlimit ⟨rfl, h⟩)]
    rfl

theorem mapsAnon_sysBrk (hlow : ¬ newBrk < mm.startBrk) (hgrow : mm.brk < newBrk)
    (hsize : sysBrk.size mm.brk newBrk ≠ 0) (henv : env.CanMap)
    (hhole : ptIsHole mm.mem (pageRoundUp mm.brk) (sysBrk.size mm.brk newBrk))
    (hlimit : k.anonPageCount + asLong (sysBrk.size mm.brk newBrk) ≤ anonMmapLimitPages)
    (hv : Vacant mm.mem (pageRoundUp mm.brk) (sysBrk.size mm.brk newBrk)) : (sysBrk env k mm newBrk).2.brk = newBrk ∧
      MapsAnon (k.count (asLong (sysBrk.size mm.brk newBrk)), mm.mem)
        ((sysBrk env k mm newBrk).1, (sysBrk env k mm newBrk).2.mem) (pageRoundUp mm.brk)
        (sysBrk.size mm.brk newBrk) pWrite := by
  obtain ⟨s', heq, hmap⟩ := mapsAnon_mapCounted (s := (k, mm.mem)) henv hsize hv pWrite true fun _ => hlimit
  rw [sysBrk_grow hlow hgrow hhole heq]
  exact ⟨rfl, hmap⟩

theorem size_eq_zero_of_ceilPage (h : ceilPage newBrk = ceilPage mm.brk) : sysBrk.size mm.brk newBrk = 0 := by
  have hold := pageRoundUp_eq_ceilPage mm.brk
  have hnew := pageRoundUp_eq_ceilPage newBrk
  have heq : pageRoundUp newBrk = pageRoundUp mm.brk := by omega
  unfold sysBrk.size wordMod
  rw [heq]
  omega

/-- The number of pages between the breaks, when the new one is not in the last page of addresses. -/
theorem size_eq_sub (hgrow : mm.brk < newBrk) (hnew : ceilPage newBrk < 2 ^ 52) :
    pageRoundUp mm.brk = ceilPage mm.brk ∧ sysBrk.size mm.brk newBrk = ceilPage newBrk - ceilPage mm.brk := by
  have hle := ceilPage_mono (BitVec.le_of_lt hgrow)
  have hold := pageRoundUp_eq_ceilPage mm.brk
  have hnew := pageRoundUp_eq_ceilPage newBrk
  unfold sysBrk.size wordMod
  omega

theorem moves_or_stays_of_size_zero (hlow : ¬ newBrk < mm.startBrk) (hgrow : mm.brk < newBrk)
    (hsize : sysBrk.size mm.brk newBrk = 0) (hceil : ceilPage newBrk = ceilPage mm.brk) :
    BrkMoves mm newBrk (sysBrk env k mm newBrk) ∨ BrkStays k mm (sysBrk env k mm newBrk) := by
  rw [sysBrk_of_size_zero env k hlow hgrow hsize]
  split_ifs
  · refine .inl ⟨rfl, fun q _ => ?_⟩
    rw [if_neg (by omega), if_neg (by omega)]
  · exact .inr (brkStays_self k mm)

/-- **A heap that grows inside the page table.** -/
theorem brkMoves_or_stays_of_inside (hlow : ¬ newBrk < mm.startBrk) (hgrow : mm.brk < newBrk)
    (hinside : ceilPage newBrk ≤ memPages) :
    BrkMoves mm newBrk (sysBrk env k mm newBrk) ∨ BrkStays k mm (sysBrk env k mm newBrk) := by
  have hmem : memPages = 2 ^ 36 := rfl
  have hword : wordMod = 2 ^ 64 := rfl
  have hle := ceilPage_mono (BitVec.le_of_lt hgrow)
  obtain ⟨hold, hsize⟩ := size_eq_sub hgrow (by omega)
  by_cases hzero : sysBrk.size mm.brk newBrk = 0
  · exact moves_or_stays_of_size_zero hlow hgrow hzero (by omega)
  by_cases hok : ptIsHole mm.mem (pageRoundUp mm.brk) (sysBrk.size mm.brk newBrk) ∧ env.CanMap ∧
      k.anonPageCount + asLong (sysBrk.size mm.brk newBrk) ≤ anonMmapLimitPages
  · obtain ⟨hhole, henv, hlimit⟩ := hok
    have hv := vacant_of_ptIsHole (by omega) (by omega) hhole
    have hres := unreserved_of_ptIsHole (by omega) hhole
    obtain ⟨hbrk, hmap⟩ := mapsAnon_sysBrk hlow hgrow hzero henv hhole hlimit hv
    refine .inl ⟨hbrk, fun q hq => ?_⟩
    split_ifs with hbetween hbelow
    · exact ⟨hv.unmapped q (by omega) (by omega), hres q (by omega) (by omega), hmap.zeroAt (by omega) (by omega)⟩
    · omega
    · refine hmap.other q fun ht => hbetween ?_
      rw [touches_iff_of_le (by omega) hq] at ht
      omega
  · refine .inr (brkStays_of_refused hlow hgrow hzero fun hhole => ?_)
    by_cases henv : env.CanMap
    · exact .inr (not_le.mp fun hlimit => hok ⟨hhole, henv, hlimit⟩)
    · exact .inl henv

theorem brkStays_of_not_accepts (hlow : ¬ newBrk < mm.startBrk) (hgrow : mm.brk < newBrk)
    (henv : env.Limited mm newBrk) (hno : ¬ sysBrk.Accepts k mm newBrk) : BrkStays k mm (sysBrk env k mm newBrk) := by
  by_cases hzero : sysBrk.size mm.brk newBrk = 0
  · rw [sysBrk_of_size_zero env k hlow hgrow hzero]
    split_ifs with hlimit
    · refine absurd ⟨?_, ?_, ?_⟩ hno
      · rw [hzero]
        exact ptIsHole_zero mm.mem (pageRoundUp mm.brk)
      · rw [hzero]
        simpa [asLong] using hlimit
      · unfold sysBrk.bytes
        rw [hzero]
        decide
    · exact brkStays_self k mm
  · refine brkStays_of_refused hlow hgrow hzero fun hhole => ?_
    by_cases hlimit : k.anonPageCount + asLong (sysBrk.size mm.brk newBrk) ≤ anonMmapLimitPages
    · exact .inl fun hmap => hno ⟨hhole, hlimit, henv hmap.1⟩
    · exact .inr (not_le.mp hlimit)

/-- **A heap that grows past the page table** when nothing refuses it: the pages beyond it are put in the slots of other
pages, or none is mapped although the break has moved. -/
theorem not_moves_of_accepts (env : HostEnv) (hlow : ¬ newBrk < mm.startBrk) (hgrow : mm.brk < newBrk)
    (hpast : memPages < ceilPage newBrk) (hne : ceilPage newBrk ≠ ceilPage mm.brk)
    (hok : sysBrk.Accepts k mm newBrk) (henv : env.CanMap) :
    ¬ BrkMoves mm newBrk (sysBrk env k mm newBrk) ∧ ¬ BrkStays k mm (sysBrk env k mm newBrk) := by
  obtain ⟨hhole, hlimit, hbytes⟩ := hok
  have hmem : memPages = 2 ^ 36 := rfl
  have hle := ceilPage_mono (BitVec.le_of_lt hgrow)
  have hold := pageRoundUp_eq_ceilPage mm.brk
  have hnew := pageRoundUp_eq_ceilPage newBrk
  have hmoved : (sysBrk env k mm newBrk).2.brk = newBrk → ¬ BrkStays k mm (sysBrk env k mm newBrk) :=
    fun hbrk hstays => BitVec.ne_of_lt hgrow (hbrk.symm.trans hstays.1).symm
  have hbytes' : (pageRoundUp newBrk + (wordMod - pageRoundUp mm.brk)) % wordMod * 4096 % wordMod ≤ 2 ^ 47 := hbytes
  by_cases hzero : sysBrk.size mm.brk newBrk = 0
  · -- the new break has been rounded up to page 0, where the old one is
    have hbrk : ceilPage mm.brk = 0 := by
      unfold sysBrk.size wordMod at hzero
      omega
    rw [hzero] at hlimit
    rw [sysBrk_of_size_zero env k hlow hgrow hzero, if_pos (by simpa [asLong] using hlimit)] at hmoved ⊢
    refine ⟨fun hmoves => ?_, hmoved rfl⟩
    have hpage := hmoves.2 0 (by omega)
    rw [if_pos (by omega)] at hpage
    obtain ⟨hnone, -, e, R, hsome, -⟩ := hpage
    exact absurd (hnone.symm.trans hsome) nofun
  · have hstart := lt_memPages_of_ptIsHole hzero hhole
    have hfirst : ceilPage newBrk < 2 ^ 52 := by
      unfold wordMod at hbytes'
      unfold sysBrk.size wordMod at hzero
      omega
    obtain ⟨hround, hsize⟩ := size_eq_sub hgrow hfirst
    have hsmall : sysBrk.size mm.brk newBrk ≤ 2 ^ 35 := by
      have hbytes'' : sysBrk.size mm.brk newBrk * 4096 % 2 ^ 64 ≤ 2 ^ 47 := hbytes
      omega
    have hword : wordMod = 2 ^ 64 := rfl
    have hv := vacant_of_ptIsHole (by omega) (by omega) hhole
    obtain ⟨hbrk, hmap⟩ := mapsAnon_sysBrk hlow hgrow hzero henv hhole hlimit hv
    refine ⟨fun hmoves => ?_, hmoved hbrk⟩
    -- page `2^36` has the slot of page 0
    have hpage := hmoves.2 0 (by omega)
    rw [if_neg (by omega), if_neg (by omega)] at hpage
    have hslot : ∀ m, memPt m 0 = memPt m memPages := fun m => memPt_congr m (by rw [Nat.mod_self, Nat.zero_mod])
    rw [hslot, hslot, hv.unmapped memPages (by omega) (by omega), hmap.entry memPages (by omega) (by omega)] at hpage
    cases hpage

/-! ### Shrinking -/

theorem memPt_sysBrk_shrink (env : HostEnv) (k : Kernel) (hlow : ¬ newBrk < mm.startBrk) (hgrow : ¬ mm.brk < newBrk)
    (q : Nat) : (sysBrk env k mm newBrk).2.brk = newBrk ∧ memPt (sysBrk env k mm newBrk).2.mem q = open Classical in
      if Touches (pageRoundUp newBrk) (pageRoundUp mm.brk - pageRoundUp newBrk) q then none else memPt mm.mem q := by
  unfold sysBrk
  rw [if_neg hlow, if_neg hgrow]
  dsimp only
  refine ⟨rfl, ?_⟩
  have hlast := pageRoundUp_eq_ceilPage mm.brk
  by_cases hlt : pageRoundUp newBrk < pageRoundUp mm.brk
  · have hword : wordMod = 2 ^ 64 := rfl
    rw [if_pos hlt, memPt_ptUnmapAlways, loopCount_eq (by omega)]
  · rw [if_neg hlt, Nat.sub_eq_zero_of_le (not_lt.mp hlt), if_neg (touches_zero _ q)]

/-- The pages after the heap has shrunk are the ones below the new break, if the loop of `pt_unmap_always` comes to the
same mapped pages. -/
theorem brkMoves_shrink_iff (env : HostEnv) (k : Kernel) (hlow : ¬ newBrk < mm.startBrk) (hgrow : ¬ mm.brk < newBrk) :
    BrkMoves mm newBrk (sysBrk env k mm newBrk) ↔ ∀ q < memPages, (memPt mm.mem q).isSome →
        (Touches (pageRoundUp newBrk) (pageRoundUp mm.brk - pageRoundUp newBrk) q ↔
          ceilPage newBrk ≤ q ∧ q < ceilPage mm.brk) := by
  classical
  have hle := ceilPage_mono (BitVec.not_lt.mp hgrow)
  have hpages := memPt_sysBrk_shrink env k hlow hgrow
  unfold BrkMoves
  rw [and_iff_right (hpages 0).1]
  refine forall_congr' fun q => imp_congr_right fun _ => ?_
  rw [if_neg (by omega), (hpages q).2]
  cases memPt mm.mem q with
  | none => simp
  | some e =>
    simp only [Option.isSome_some, forall_const]
    split_ifs with h₁ h₂ h₂ <;> simp [h₁, h₂]

end

/-- **`brk`** is exact and all-or-nothing exactly on the condition, whatever a host answers that refuses to map more
than `2^47` bytes at once. -/
theorem brk_exact_iff (k : Kernel) (mm : Mm) (newBrk : BitVec 64) (hstart : mm.startBrk ≤ mm.brk) :
    (∀ env : HostEnv, env.Limited mm newBrk → BrkExact env k mm newBrk) ↔ BrkSafe k mm newBrk := by
  unfold BrkSafe
  split_ifs with hlow hgrow
  · refine iff_true_intro fun env _ => ?_
    have heq : sysBrk env k mm newBrk = (k, mm) := by
      unfold sysBrk
      rw [if_pos hlow]
    unfold BrkExact
    rw [heq]
    exact ⟨hstart, .inr (brkStays_self k mm)⟩
  · constructor
    · intro h
      by_contra hcond
      obtain ⟨hpast, hne, hok⟩ : memPages < ceilPage newBrk ∧ ceilPage newBrk ≠ ceilPage mm.brk ∧
          sysBrk.Accepts k mm newBrk := by
        push Not at hcond
        exact hcond
      have hno := not_moves_of_accepts HostEnv.good hlow hgrow hpast hne hok ⟨rfl, rfl⟩
      exact (h HostEnv.good fun _ => hok.2.2).2.elim hno.1 hno.2
    · intro hcond env henv
      have houtcome : BrkMoves mm newBrk (sysBrk env k mm newBrk) ∨ BrkStays k mm (sysBrk env k mm newBrk) := by
        rcases hcond with hinside | hceil | hno
        · exact brkMoves_or_stays_of_inside hlow hgrow hinside
        · exact moves_or_stays_of_size_zero hlow hgrow (size_eq_zero_of_ceilPage hceil) hceil
        · exact .inr (brkStays_of_not_accepts hlow hgrow henv hno)
      refine ⟨?_, houtcome⟩
      rcases houtcome with hmoves | hstays
      · rw [hmoves.1]
        exact BitVec.not_lt.mp hlow
      · rw [hstays.1]
        exact hstart
  · constructor
    · intro h
      have hno : ({ HostEnv.good with mmap := false } : HostEnv).Limited mm newBrk := nofun
      rcases (h _ hno).2 with hmoves | hstays
      · exact (brkMoves_shrink_iff _ k hlow hgrow).mp hmoves
      · -- the break stays only if it is the old one
        have hbrk : newBrk = mm.brk := (memPt_sysBrk_shrink _ k hlow hgrow 0).1.symm.trans hstays.1
        intro q _ _
        rw [hbrk, Nat.sub_self]
        exact iff_of_false (touches_zero _ q) (by omega)
    · intro hcond env _
      have hmoves := (brkMoves_shrink_iff env k hlow hgrow).mpr hcond
      refine ⟨?_, .inl hmoves⟩
      rw [hmoves.1]
      exact BitVec.not_lt.mp hlow

/-- An empty address space whose heap starts at `brk`. -/
def heapAt (brk : BitVec 64) : Mm := ⟨memInit, brk, brk⟩

/-- A heap that grows by two pages. -/
theorem brk_exact_heapAt : BrkExact HostEnv.good kernelInit (heapAt 0x10000#64) 0x12000#64 := by
  refine (brk_exact_iff kernelInit (heapAt 0x10000#64) 0x12000#64 (by decide)).mpr ?_ HostEnv.good fun _ => by decide
  unfold BrkSafe
  rw [if_neg (by decide), if_pos (by decide)]
  exact .inl (by decide)

/-- **Breaks beyond the page table**: the second page of a heap at the end of the table is put in the slot of page 0;
and from break 0 the last address is accepted as a break with no page mapped. -/
theorem brk_past_table : ¬ BrkExact HostEnv.good kernelInit (heapAt 0xfffffffff000#64) 0x1000000001000#64 ∧
    ¬ BrkExact HostEnv.good kernelInit (heapAt 0#64) 0xffffffffffffffff#64 := by
  refine ⟨fun h => ?_, fun h => ?_⟩
  · have hok : sysBrk.Accepts kernelInit (heapAt 0xfffffffff000#64) 0x1000000001000#64 :=
      ⟨by decide, by decide, by decide⟩
    have hno := not_moves_of_accepts HostEnv.good (by decide) (by decide) (by decide) (by decide) hok ⟨rfl, rfl⟩
    exact h.2.elim hno.1 hno.2
  · have hok : sysBrk.Accepts kernelInit (heapAt 0#64) 0xffffffffffffffff#64 := ⟨by decide, by decide, by decide⟩
    have hno := not_moves_of_accepts HostEnv.good (by decide) (by decide) (by decide) (by decide) hok ⟨rfl, rfl⟩
    exact h.2.elim hno.1 hno.2

end Ish
