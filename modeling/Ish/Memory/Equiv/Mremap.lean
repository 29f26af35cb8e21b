import Ish.Memory.Equiv.Lifetime
import Ish.Memory.Equiv.Madvise
import Ish.Memory.Equiv.Pages

/-!
# What `mremap` keeps

`Remapped` says what a successful `mremap` should do to the pages of an address space, `Untouched` what a failed one
should leave as it is. `sys_mremap` has three ways to succeed, and each of them is right under a condition of its own:
it shrinks the range (`ShrinkFits`), it maps pages behind it (`GrowFits`), or it moves it to a new mapping
(`MoveFits`). `mremap_keeps_iff` puts them together.

Three things go wrong. The lengths arrive as 32-bit numbers; a range without rights is moved without its bytes; and a
shared range is moved to an object of its own.
-/

namespace Ish

open Lib Function List Option

/-! ### What is to be kept -/

/-- The `old` pages of a range at `start` became the `new` pages of a range at `newStart`. -/
structure Remapped (pages pages' : Nat → Page) (start newStart old new : Nat) : Prop where
  kept : ∀ i, i < min old new → pages' (newStart + i) = pages (start + i)
  zero : ∀ i, old ≤ i → i < new → (pages' (newStart + i)).ReadsZero
  gone : ∀ q, start ≤ q → q < start + old → (newStart = start → start + new ≤ q) → pages' q = .unmapped
  other : ∀ q, ¬ (start ≤ q ∧ q < start + old) → ¬ (newStart ≤ q ∧ q < newStart + new) → pages' q = pages q

/-- Nothing has changed but the hint for the next search, and mappings of the host that no object has. -/
structure Untouched (s s' : Kernel × Mem) : Prop where
  entries : ∀ q, memPt s'.2 q = memPt s.2 q
  reservations : s'.2.reservations = s.2.reservations
  objects : s'.1.datas = s.1.datas
  regions : ∀ r, r < s.1.host.next → s'.1.host.regions r = s.1.host.regions r
  count : s'.1.anonPageCount = s.1.anonPageCount

def pagesOf (len : BitVec 64) : Nat := (len.toNat + 4095) / pageSize

section

variable {ι : Type}

/-- **What `mremap` is to keep**, for the caller `i` and for the other processes. -/
def MremapKeeps (w : World ι) (i : ι) (addr oldLen newLen : BitVec 64) : Except Errno Nat × Kernel × Mem → Prop
  | (.error _, s') => Untouched (w.at i) s'
  | (.ok result, s') =>
    Remapped (pageAt (w.at i)) (pageAt s') (pageOfAddr addr) (result / pageSize) (pagesOf oldLen) (pagesOf newLen) ∧
      ∀ j, j ≠ i → ∀ q, pageAt (s'.1, w.mems j) q = pageAt (w.at j) q

end

/-! ### When it is kept -/

section

variable (env : HostEnv) (s : Kernel × Mem) (start old new oldPages newPages : Nat)

/-- The range that is unmapped is the one behind the new pages, and nothing else is between the pages and their old or
new end. -/
structure ShrinkFits : Prop where
  cut : newPages < oldPages → new = newPages ∧ start + oldPages ≤ memPages ∧
    SplitsSucceed env s.2 (start + newPages) (oldPages - newPages)
  rest : ∀ q, start + max new oldPages ≤ q → q < start + old → pageAt s q = .unmapped
  zero : ∀ q, start + old ≤ q → q < start + new → (pageAt s q).ReadsZero

/-- The pages are mapped behind the old ones. -/
structure GrowFits : Prop where
  old_eq : old = oldPages
  inside : start + newPages ≤ memPages
  zero : ∀ q, start + newPages ≤ q → q < start + new → (pageAt s q).ReadsZero

/-- The range moves to `newStart`: it is not shared, and has rights or holds zeros. -/
structure MoveFits (newStart : Nat) (ptFlags : Flags) : Prop where
  old_eq : old = oldPages
  inside : start + oldPages ≤ memPages
  notShared : hasAny ptFlags pShared = false
  contents : hasAny ptFlags pRwx = true ∨ ∀ i, i < oldPages → (pageAt s (start + i)).ReadsZero
  zero : ∀ q, newStart + newPages ≤ q → q < newStart + new →
    ¬ (start ≤ q ∧ q < start + oldPages) ∧ (pageAt s q).ReadsZero
  split : SplitsSucceed env s.2 start oldPages

variable {env s start old new oldPages newPages} in
theorem MoveFits.congr {newStart : Nat} {ptFlags : Flags} {s' : Kernel × Mem} (hpages : pageAt s = pageAt s')
    (hres : s.2.reservations = s'.2.reservations)
    (h : MoveFits env s start old new oldPages newPages newStart ptFlags) :
    MoveFits env s' start old new oldPages newPages newStart ptFlags := by
  refine ⟨h.old_eq, h.inside, h.notShared, hpages ▸ h.contents, hpages ▸ h.zero, ?_⟩
  unfold SplitsSucceed
  rw [← hres]
  exact h.split

def CanMapCounted (pages : Nat) (ptFlags : Flags) : Prop :=
  env.CanMap ∧ (hasAny ptFlags pRwx = true → s.1.anonPageCount + asLong pages ≤ anonMmapLimitPages)

/-- The checks at the beginning of `sys_mremap`. -/
def sysMremap.Accepts (addr : BitVec 64) (oldLen newLen flags : BitVec 32) : Prop :=
  misaligned addr = false ∧ oldLen ≠ 0#32 ∧ newLen ≠ 0#32 ∧
    flags &&& ~~~(mremapMaymove ||| mremapFixed) = 0#32 ∧ hasAny flags mremapFixed = false

def GrowthFits (flags : BitVec 32) : Prop :=
  ∀ e, memPt s.2 start = some e → sysMremap.uniform s.2 start oldPages e.flags = true →
    hasAny e.flags pAnonymous = true →
    if ptIsHole s.2 (start + oldPages) (newPages - oldPages) then
      CanMapCounted env s (newPages - oldPages) e.flags → GrowFits s start old new oldPages newPages
    else
      hasAny flags mremapMaymove = true → (ptFindHole s.2 newPages).1 ≠ badPage →
      CanMapCounted env s newPages e.flags →
      MoveFits env s start old new oldPages newPages (ptFindHole s.2 newPages).1 e.flags

/-- **The condition**: the way in which the call succeeds, if it does, is right. -/
def MremapFits (addr oldLen newLen : BitVec 64) (flags : BitVec 32) : Prop :=
  let start := pageOfAddr addr
  let oldPages := pageRoundUp32 (oldLen.setWidth 32)
  let newPages := pageRoundUp32 (newLen.setWidth 32)
  sysMremap.Accepts addr (oldLen.setWidth 32) (newLen.setWidth 32) flags →
    if newPages ≤ oldPages then
      (∀ p, start + newPages ≤ p → p < start + oldPages → (memPt s.2 p).isSome) →
        ShrinkFits env s start (pagesOf oldLen) (pagesOf newLen) oldPages newPages
    else GrowthFits env s start (pagesOf oldLen) (pagesOf newLen) oldPages newPages flags

end

/-! ### Lengths -/

theorem pageRoundUp32_lt (len : BitVec 32) : pageRoundUp32 len < 2 ^ 20 := by
  have hlen := (len + 4095#32).isLt
  unfold pageRoundUp32 pageSize
  omega

theorem pageRoundUp32_le (len : BitVec 64) : pageRoundUp32 (len.setWidth 32) ≤ pagesOf len := by
  unfold pageRoundUp32 pagesOf pageSize
  rw [BitVec.toNat_add, BitVec.toNat_setWidth]
  have h4095 : (4095#32).toNat = 4095 := rfl
  omega

theorem pagesOf_pos {len : BitVec 64} (h : len.setWidth 32 ≠ 0#32) : 0 < pagesOf len := by
  have hne : len.toNat ≠ 0 := by
    intro h0
    have hzero : len = 0#64 := BitVec.eq_of_toNat_eq h0
    exact h (by rw [hzero]; rfl)
  unfold pagesOf pageSize
  omega

/-- The last page of a range that leaves the table has a slot below the range. -/
theorem touches_wrapped (start : Nat) {n : Nat} (hn : 0 < n) (hsmall : n ≤ 2 ^ 20) (hwrap : memPages < start + n) :
    ∃ q, Touches start n q ∧ q < memPages ∧ q < start := by
  have hslot : (start + n - 1) % memPages < memPages := Nat.mod_lt _ (by decide)
  refine ⟨(start + n - 1) % memPages, ⟨start + n - 1, by omega, by omega, Nat.mod_mod ..⟩, hslot, ?_⟩
  unfold memPages at *
  omega

theorem not_touches_of_le {start n q : Nat} (hmem : n = 0 ∨ start + n ≤ memPages)
    (hq : q < memPages → q < start ∨ start + n ≤ q) (hlt : q < memPages) : ¬ Touches start n q := by
  rcases hmem with rfl | hmem
  · exact touches_zero start q
  · rw [touches_iff_of_le hmem hlt]
    have := hq hlt
    omega

/-! ### Shrinking -/

theorem Remapped.range_of_ne {pages pages' : Nat → Page} {start old new q : Nat}
    (h : Remapped pages pages' start start old new) (hne : pages' q ≠ pages q) :
    start + min old new ≤ q ∧ q < start + max old new := by
  refine ⟨?_, ?_⟩
  · by_contra hlow
    by_cases hstart : start ≤ q
    · have hkept := h.kept (q - start) (by omega)
      rw [Nat.add_sub_cancel' hstart] at hkept
      exact hne hkept
    · exact hne (h.other q (by omega) (by omega))
  · by_contra hhigh
    exact hne (h.other q (by omega) (by omega))

section

variable {ι : Type} [DecidableEq ι] [Finite ι] {ms : ι → Mem} {i : ι} {s : Kernel × Mem}
  {start old new oldPages newPages : Nat}

/-- **Shrinking** the range is right exactly if `ShrinkFits`. -/
theorem shrink_iff (hc : CountedAt ms i s) (env : HostEnv) (hle : newPages ≤ oldPages) (hsmall : oldPages ≤ 2 ^ 20)
    (hstart : start < 2 ^ 52) (hold : oldPages ≤ old) (hnew : newPages ≤ new)
    (hpresent : ∀ p, start + newPages ≤ p → p < start + oldPages → (memPt s.2 p).isSome) :
    Remapped (pageAt s) (pageAt (ptUnmapAlways env s (start + newPages) (oldPages - newPages))) start start old new ↔
      ShrinkFits env s start old new oldPages newPages := by
  have hword : start + newPages + (oldPages - newPages) < wordMod := by
    unfold wordMod
    omega
  have hend : start + newPages + (oldPages - newPages) = start + oldPages := by omega
  have hkeep := fun q => (pageAt_ptUnmapAlways (q := q) hc env hword).2
  have htaken := fun q => (pageAt_ptUnmapAlways (q := q) hc env hword).1
  have hiff := @reservedFlags_unmapped_iff (oldPages - newPages) env s (start + newPages)
  have hne : ∀ q, q < memPages → Touches (start + newPages) (oldPages - newPages) q →
      pageAt (ptUnmapAlways env s (start + newPages) (oldPages - newPages)) q ≠ pageAt s q := by
    intro q hq ht
    obtain ⟨p, hlow, hhigh, hslot⟩ := ht
    obtain ⟨e, he⟩ := isSome_iff_exists.1 (hpresent p hlow (by omega))
    rw [htaken q ⟨p, hlow, hhigh, hslot⟩ hq, pageAt_of_entry hq ((memPt_congr _ hslot).trans he)]
    exact (page_ne_reservedPage _ _ _).symm
  generalize hs' : ptUnmapAlways env s (start + newPages) (oldPages - newPages) = s' at *
  constructor
  · intro h
    have hcut : newPages < oldPages → new = newPages ∧ start + oldPages ≤ memPages := by
      intro hlt
      have hinside : start + oldPages ≤ memPages := by
        by_contra hwrap
        obtain ⟨q, ht, hq, hbelow⟩ := touches_wrapped (start + newPages) (n := oldPages - newPages) (by omega)
          (by omega) (by omega)
        have hrange := h.range_of_ne (hne q hq ht)
        by_cases hmem : start < memPages
        · obtain ⟨p, hp, hp', hslot⟩ := ht
          unfold memPages at *
          omega
        · omega
      have ht : Touches (start + newPages) (oldPages - newPages) (start + newPages) := ⟨_, le_rfl, by omega, rfl⟩
      have hrange := h.range_of_ne (hne _ (by omega) ht)
      exact ⟨by omega, hinside⟩
    refine ⟨fun hlt => ?_, fun q hlow hhigh => ?_, fun q hlow hhigh => ?_⟩
    · obtain ⟨hnp, hinside⟩ := hcut hlt
      refine ⟨hnp, hinside, (hiff (by omega) (by omega)).2 fun q hlow hhigh => ?_⟩
      have hgone := h.gone q (by omega) (by omega) fun _ => by omega
      rw [htaken q ⟨q, hlow, hhigh, rfl⟩ (by omega)] at hgone
      exact reservedPage_eq_unmapped_iff.1 hgone
    · by_cases hq : q < memPages
      · have hnot : ¬ Touches (start + newPages) (oldPages - newPages) q :=
          not_touches_of_le (by omega) (by omega) hq
        rw [← hkeep q hnot]
        exact h.gone q (by omega) hhigh fun _ => by omega
      · exact pageAt_of_le (not_lt.1 hq)
    · have hzero := h.zero (q - start) (by omega) (by omega)
      rw [Nat.add_sub_cancel' (by omega)] at hzero
      rwa [hkeep q (not_touches_of_le (by omega) (by omega) hzero.lt)] at hzero
  · intro h
    have hnot : ∀ q, (q < start + new ∨ start + oldPages ≤ q) → pageAt s' q = pageAt s q := by
      intro q hq
      by_cases hmem : q < memPages
      · refine hkeep q (not_touches_of_le ?_ ?_ hmem)
        · rcases Nat.lt_or_ge newPages oldPages with hlt | hge
          · have := (h.cut hlt).2.1
            omega
          · omega
        · intro _
          rcases Nat.lt_or_ge newPages oldPages with hlt | hge
          · have := (h.cut hlt).1
            omega
          · omega
      · rw [pageAt_of_le (not_lt.1 hmem), pageAt_of_le (not_lt.1 hmem)]
    refine ⟨fun j hj => hnot _ (by omega), fun j hlow hhigh => ?_, fun q hlow hhigh hout => ?_, fun q hout hout' => ?_⟩
    · rw [hnot _ (by omega)]
      exact h.zero _ (by omega) (by omega)
    · have hout := hout rfl
      rcases Nat.lt_or_ge q (start + oldPages) with hin | hbehind
      · have hlt : newPages < oldPages := by omega
        obtain ⟨hnp, hinside, hsplit⟩ := h.cut hlt
        rw [htaken q ⟨q, by omega, by omega, rfl⟩ (by omega), reservedPage_eq_unmapped_iff]
        exact (hiff (by omega) (by omega)).1 hsplit q (by omega) (by omega)
      · rw [hnot q (.inr hbehind)]
        exact h.rest q (by omega) hhigh
    · exact hnot q (by omega)

/-! ### Growing in place -/

/-- **Mapping pages behind the range** is right exactly if `GrowFits`. -/
theorem grow_iff (hc : CountedAt ms i s) {s' : Kernel × Mem} {flags : Flags} {n : Int}
    (hmap : MapsAnon (s.1.count n, s.2) s' (start + oldPages) (newPages - oldPages) flags) (hc' : CountedAt ms i s')
    (hp : s.1.Preserves s'.1) (hv : Vacant s.2 (start + oldPages) (newPages - oldPages)) (hlt : oldPages < newPages)
    (hsmall : newPages ≤ 2 ^ 20) (hmem : start + oldPages < memPages) (hold : oldPages ≤ old) (hnew : newPages ≤ new) :
    Remapped (pageAt s) (pageAt s') start start old new ↔ GrowFits s start old new oldPages newPages := by
  have hkeep : ∀ q, ¬ Touches (start + oldPages) (newPages - oldPages) q → pageAt s' q = pageAt s q :=
    fun q => hmap.pageAt_kept hc hc' hp
  have hne : ∀ q, q < memPages → Touches (start + oldPages) (newPages - oldPages) q → pageAt s' q ≠ pageAt s q := by
    intro q hq ht
    obtain ⟨off, hnewPage⟩ := hmap.pageAt_new ht hq
    obtain ⟨p, hlow, hhigh, hslot⟩ := ht
    rw [pageAt_of_none hq ((memPt_congr _ hslot).trans (hv.unmapped p hlow hhigh)), hnewPage]
    unfold reservedPage
    cases reservedFlags s.2 q with
    | none => exact nofun
    | some flags => exact nofun
  constructor
  · intro h
    have hfirst : Touches (start + oldPages) (newPages - oldPages) (start + oldPages) := ⟨_, le_rfl, by omega, rfl⟩
    have hrange := h.range_of_ne (hne _ hmem hfirst)
    have hold' : old = oldPages := by omega
    have hinside : start + newPages ≤ memPages := by
      by_contra hwrap
      obtain ⟨q, ht, hq, hbelow⟩ := touches_wrapped (start + oldPages) (n := newPages - oldPages) (by omega) (by omega)
        (by omega)
      have := h.range_of_ne (hne q hq ht)
      omega
    refine ⟨hold', hinside, fun q hlow hhigh => ?_⟩
    have hzero := h.zero (q - start) (by omega) (by omega)
    rw [Nat.add_sub_cancel' (by omega)] at hzero
    rwa [hkeep q (not_touches_of_le (by omega) (by omega) hzero.lt)] at hzero
  · intro h
    have hold' := h.old_eq
    have hinside := h.inside
    have hstay : ∀ q, q < start + oldPages ∨ start + newPages ≤ q → pageAt s' q = pageAt s q := by
      intro q hq
      by_cases hlt : q < memPages
      · exact hkeep q (not_touches_of_le (by omega) (by omega) hlt)
      · rw [pageAt_of_le (not_lt.1 hlt), pageAt_of_le (not_lt.1 hlt)]
    refine ⟨fun j hj => hstay _ (by omega), fun j hlow hhigh => ?_, fun q hlow hhigh hout => ?_, fun q hout hout' => ?_⟩
    · rcases Nat.lt_or_ge j newPages with hj | hj
      · obtain ⟨off, hpage⟩ := hmap.pageAt_new (q := start + j) ⟨start + j, by omega, by omega, rfl⟩ (by omega)
        rw [hpage]
        exact fun _ => rfl
      · rw [hstay _ (by omega)]
        exact h.zero _ (by omega) (by omega)
    · have := hout rfl
      omega
    · exact hstay q (by omega)

end

/-! ### Copying -/

/-- The state of the copying loop before page `j`: only the bytes of the mapping `r` have changed, and its first `j`
pages are those of the old range. -/
structure CopyLoop (s : Kernel × Mem) (r : RegionId) (start j : Nat) (t : Kernel × Mem) : Prop where
  mem : t.2 = s.2
  datas : t.1.datas = s.1.datas
  nextData : t.1.nextData = s.1.nextData
  hostNext : t.1.host.next = s.1.host.next
  regions : ∀ r', r' ≠ r → t.1.host.regions r' = s.1.host.regions r'
  new : ∃ R, t.1.host.regions r = some R ∧
    (∀ n e off, n < j → off < pageSize → memPt s.2 (start + n) = some e →
      R.bytes (n * pageSize + off) = memPtr.pageBytes s.1 e off) ∧
    ∀ n off, j ≤ n → off < pageSize → R.bytes (n * pageSize + off) = 0

variable {r : RegionId}

/-- One `memcpy` of the loop. -/
theorem CopyLoop.step {s t : Kernel × Mem} {start newStart j : Nat} (h : CopyLoop s r start j t)
    {e e' : PtEntry} (hsrc : memPt s.2 (start + j) = some e) (hdst : memPt s.2 (newStart + j) = some e')
    (hr : regionOf s.1 e' = r) (hoff : e'.offset = j * pageSize) (hother : regionOf s.1 e ≠ r) :
    CopyLoop s r start (j + 1) (sysMremap.copyPage start newStart j t) := by
  obtain ⟨R, hR, hcopied, hzero⟩ := h.new
  have hregion : (t.1.datas e'.data).data = r := by
    rw [h.datas]
    exact hr
  have hbytes : memPtr.pageBytes t.1 e = memPtr.pageBytes s.1 e := by
    refine pageBytes_congr ?_ (h.regions _ hother)
    unfold regionOf
    rw [h.datas]
  unfold sysMremap.copyPage
  rw [h.mem, hsrc, hdst]
  dsimp only
  rw [hregion, hbytes, hR, map_some]
  refine ⟨rfl, h.datas, h.nextData, h.hostNext, fun r' hr' => ?_, _, update_self .., ?_, ?_⟩
  · exact (update_of_ne hr' _ _).trans (h.regions r' hr')
  · intro n e₁ off hn hlt he₁
    dsimp only
    rw [hoff]
    rcases Nat.lt_or_ge n j with hbefore | hnow
    · -- a page that was copied before
      rw [if_neg, hcopied n e₁ off hbefore hlt he₁]
      have := Nat.mul_le_mul_right pageSize (Nat.succ_le_of_lt hbefore)
      rw [Nat.succ_mul] at this
      omega
    · obtain rfl : n = j := by omega
      cases hsrc.symm.trans he₁
      rw [if_pos ⟨by omega, by omega⟩, Nat.add_sub_cancel_left]
  · intro n off hn hlt
    dsimp only
    rw [hoff, if_neg, hzero n off (by omega) hlt]
    have := Nat.mul_le_mul_right pageSize hn
    rw [Nat.succ_mul] at this
    omega

theorem CopyLoop.pageAt_eq {s t : Kernel × Mem} {start j : Nat} (h : CopyLoop s r start j t) (m : Mem)
    {q : Nat} (hother : ∀ e, memPt m q = some e → regionOf s.1 e ≠ r) : pageAt (t.1, m) q = pageAt (s.1, m) q := by
  by_cases hq : q < memPages
  swap
  · rw [pageAt_of_le (not_lt.1 hq), pageAt_of_le (not_lt.1 hq)]
  cases he : memPt m q with
  | none => rw [pageAt_of_none hq he, pageAt_of_none hq he]
  | some e =>
    rw [pageAt_of_entry hq he, pageAt_of_entry hq he]
    have hbytes : memPtr.pageBytes t.1 e = memPtr.pageBytes s.1 e := by
      refine pageBytes_congr ?_ (h.regions _ (hother e he))
      unfold regionOf
      rw [h.datas]
    unfold PtEntry.page
    rw [hbytes]

theorem CopyLoop.quiet {s t : Kernel × Mem} {start j : Nat} (h : CopyLoop s r start j t)
    (hr : (s.1.host.regions r).isSome) : s.1.Quiet t.1 := by
  refine .of_host h.datas h.nextData h.hostNext.ge fun d _ => ?_
  by_cases hd : (s.1.datas d).data = r
  · obtain ⟨R, hR, -⟩ := h.new
    rw [hd, hR, hr]
    rfl
  · rw [h.regions _ hd]

/-! ### Moving -/

section

variable {ι : Type} [DecidableEq ι] [Finite ι] {ms : ι → Mem} {i : ι} {s : Kernel × Mem}
  {start old new oldPages newPages : Nat}

/-- What moving the range does: the old slots lose their entries, the new pages have the rights of the old ones, their
bytes if there are rights, and never their object. -/
structure Moves (ms : ι → Mem) (i : ι) (s s' : Kernel × Mem) (start newStart oldPages newPages : Nat) (flags : Flags) :
    Prop where
  new : ∀ n, n < newPages → ∃ bytes off, pageAt s' (newStart + n) = .mapped bytes (flags &&& pRwx)
      (if hasAny flags pShared then some (s.1.nextData, off) else none) ∧
    (n < oldPages → hasAny flags pRwx = true → ∀ e, memPt s.2 (start + n) = some e →
      ∀ off, bytes off = memPtr.pageBytes s.1 e off) ∧
    (oldPages ≤ n ∨ hasAny flags pRwx = false → ∀ off, bytes off = 0)
  taken : ∀ q, Touches start oldPages q → q < memPages → pageAt s' q = reservedPage s'.2 q
  kept : ∀ q, ¬ Touches start oldPages q → ¬ (newStart ≤ q ∧ q < newStart + newPages) → pageAt s' q = pageAt s q
  others : ∀ j, j ≠ i → ∀ q, pageAt (s'.1, ms j) q = pageAt (s.1, ms j) q

/-- The copying loop of `sys_mremap`, if it runs. -/
def sysMremap.copied (start newStart oldPages : Nat) (flags : Flags) (s : Kernel × Mem) : Kernel × Mem :=
  if hasAny flags pRwx then forRange (sysMremap.copyPage start newStart) oldPages 0 s else s

variable {s₁ : Kernel × Mem} {newStart : Nat} {flags : Flags} {n : Int}

/-- An old page is not one of the new ones, and its mapping is not the new one. -/
theorem MapsAnon.old_entry (hc : CountedAt ms i s) (hmap : MapsAnon (s.1.count n, s.2) s₁ newStart newPages flags)
    (hv : Vacant s.2 newStart newPages) {q : Nat} {e : PtEntry} (he : memPt s.2 q = some e) :
    ¬ Touches newStart newPages q ∧ memPt s₁.2 q = some e ∧ regionOf s₁.1 e ≠ s.1.host.next ∧
      e.data < s.1.nextData := by
  have hnot : ¬ Touches newStart newPages q := by
    rintro ⟨p, hlow, hhigh, hslot⟩
    have hnone := (memPt_congr s.2 hslot).trans (hv.unmapped p hlow hhigh)
    exact absurd (he.symm.trans hnone) (by simp)
  have hdata : e.data < s.1.nextData := by
    refine Counted.lt_of_memPt (i := i) (q := q) hc ?_
    rw [update_self]
    exact he
  refine ⟨hnot, (hmap.other q hnot).trans he, ?_, hdata⟩
  unfold regionOf
  rw [hmap.data e.data (Nat.ne_of_lt hdata)]
  exact Nat.ne_of_lt (hc.region_lt e.data hdata)

theorem copyLoop_copied (hc : CountedAt ms i s) (hmap : MapsAnon (s.1.count n, s.2) s₁ newStart newPages flags)
    (hv : Vacant s.2 newStart newPages) (hle : oldPages ≤ newPages) (hsmall : newPages ≤ 2 ^ 20)
    (hpresent : ∀ k, k < oldPages → ∃ e, memPt s.2 (start + k) = some e ∧ e.flags = flags) :
    CopyLoop s₁ s.1.host.next start (if hasAny flags pRwx then oldPages else 0)
      (sysMremap.copied start newStart oldPages flags s₁) := by
  have hinit : CopyLoop s₁ s.1.host.next start 0 s₁ := by
    have hnew : s₁.1.host.regions s.1.host.next =
        some ⟨newPages * pageSize % wordMod, fun _ => ptMapNothing.hostProt flags, fun _ => 0⟩ := by
      rw [hmap.host]
      exact update_self ..
    refine ⟨rfl, rfl, rfl, rfl, fun _ _ => rfl, _, hnew, fun _ _ _ hlt => ?_, fun _ _ _ _ => rfl⟩
    exact absurd hlt (Nat.not_lt_zero _)
  unfold sysMremap.copied
  split_ifs with hrwx
  swap
  · exact hinit
  have hloop := forRange_induct (f := sysMremap.copyPage start newStart) (n := oldPages)
    (CopyLoop s₁ s.1.host.next start) hinit fun j t _ hj ht => by
      obtain ⟨e, he, -⟩ := hpresent j (by omega)
      obtain ⟨-, he₁, hregion, -⟩ := hmap.old_entry hc hv he
      refine ht.step he₁ (hmap.entry (newStart + j) (by omega) (by omega)) ?_ ?_ hregion
      · exact hmap.object
      · dsimp only
        rw [Nat.add_sub_cancel_left, Nat.mod_eq_of_lt]
        unfold pageSize wordMod
        omega
  rwa [Nat.zero_add] at hloop

/-- **Moving** the range, from the new mapping to the unmapping of the old one. -/
theorem moves_ptUnmapAlways (hc : CountedAt ms i s) (hc₁ : CountedAt ms i s₁) (hp₁ : s.1.Preserves s₁.1)
    (hmap : MapsAnon (s.1.count n, s.2) s₁ newStart newPages flags) (hv : Vacant s.2 newStart newPages)
    (hle : oldPages ≤ newPages) (hsmall : newPages ≤ 2 ^ 20) (hstart : start < 2 ^ 52)
    (hmem : newStart + newPages ≤ memPages)
    (hpresent : ∀ k, k < oldPages → ∃ e, memPt s.2 (start + k) = some e ∧ e.flags = flags) (env : HostEnv) :
    Moves ms i s (ptUnmapAlways env (sysMremap.copied start newStart oldPages flags s₁) start oldPages) start newStart
      oldPages newPages flags := by
  have hloop := copyLoop_copied hc hmap hv hle hsmall hpresent
  have hregion : (s₁.1.host.regions s.1.host.next).isSome := by
    rw [hmap.host]
    exact isSome_of_eq_some (update_self ..)
  generalize sysMremap.copied start newStart oldPages flags s₁ = t at *
  have hct : CountedAt ms i t := by
    unfold CountedAt
    rw [hloop.mem]
    exact Counted.quiet hc₁ (hloop.quiet hregion)
  have hword : start + oldPages < wordMod := by
    unfold wordMod
    omega
  have hpage := fun q => pageAt_ptUnmapAlways (q := q) hct env hword
  refine ⟨fun k hk => ?_, fun q => (hpage q).1, fun q hnot hout => ?_, fun j hj q => ?_⟩
  · -- a page of the new mapping
    have hnone := hv.unmapped (newStart + k) (by omega) (by omega)
    have hnot : ¬ Touches start oldPages (newStart + k) := by
      rintro ⟨p, hlow, hhigh, hslot⟩
      obtain ⟨e, he, -⟩ := hpresent (p - start) (by omega)
      rw [Nat.add_sub_cancel' hlow, ← memPt_congr s.2 hslot, hnone] at he
      cases he
    have he : memPt t.2 (newStart + k) = some ⟨s.1.nextData, k * pageSize, flags ||| pAnonymous⟩ := by
      have hoff : k * pageSize % wordMod = k * pageSize := Nat.mod_eq_of_lt (by unfold pageSize wordMod; omega)
      rw [hloop.mem, hmap.entry (newStart + k) (by omega) (by omega), Nat.add_sub_cancel_left, hoff]
      rfl
    obtain ⟨R, hR, hcopied, hzero⟩ := hloop.new
    have hbytes : ∀ off, memPtr.pageBytes t.1 ⟨s.1.nextData, k * pageSize, flags ||| pAnonymous⟩ off =
        R.bytes (k * pageSize + off) := by
      have hdata : (t.1.datas s.1.nextData).data = s.1.host.next := by
        rw [hloop.datas]
        exact hmap.object
      intro off
      unfold memPtr.pageBytes
      rw [hdata, hR]
    refine ⟨fun off => R.bytes (k * pageSize + off), k * pageSize, ?_, fun hold hrwx e hsrc off => ?_,
      fun hzeros off => ?_⟩
    · rw [(hpage _).2 hnot, pageAt_of_entry (by omega) he, page_anonymous]
      simp only [hbytes]
    · obtain ⟨-, hsrc₁, -⟩ := hmap.old_entry hc hv hsrc
      refine (hcopied k e off (by rwa [if_pos hrwx]) off.isLt hsrc₁).trans ?_
      refine congrFun (hc.pageBytes_eq (j := i) (q := start + k) hc₁ hp₁ ?_ ?_) _
      · rwa [update_self]
      · rwa [update_self]
    · refine hzero k off ?_ off.isLt
      rcases hzeros with hlow | hnone
      · split_ifs
        · exact hlow
        · exact Nat.zero_le _
      · rw [if_neg (by simp [hnone])]
        exact Nat.zero_le _
  · -- a page of neither range
    by_cases hq : q < memPages
    swap
    · rw [pageAt_of_le (not_lt.1 hq), pageAt_of_le (not_lt.1 hq)]
    have hnew : ¬ Touches newStart newPages q := by
      rw [touches_iff_of_le hmem hq]
      exact hout
    have hmem' : t = (t.1, s₁.2) := Prod.ext rfl hloop.mem
    have hcopy : pageAt t q = pageAt s₁ q := by
      rw [hmem']
      refine hloop.pageAt_eq s₁.2 fun e he => ?_
      rw [hmap.other q hnew] at he
      exact (hmap.old_entry hc hv he).2.2.1
    rw [(hpage q).2 hnot, hcopy]
    exact hmap.pageAt_kept hc hc₁ hp₁ hnew
  · -- another process
    rw [pageAt_other hct (countedAt_ptUnmapAlways hct env start oldPages)
      (kernelOrder_preserves.ptUnmapAlways env t start oldPages) hj, hloop.pageAt_eq, pageAt_other hc hc₁ hp₁ hj]
    intro e he
    have hdata : e.data < s.1.nextData := by
      refine Counted.lt_of_memPt (i := j) (q := q) hc ?_
      rwa [update_of_ne hj]
    unfold regionOf
    rw [hmap.data e.data (Nat.ne_of_lt hdata)]
    exact Nat.ne_of_lt (hc.region_lt e.data hdata)

/-- **Moving the range** is right exactly if `MoveFits`. -/
theorem move_iff (env : HostEnv) (hc : CountedAt ms i s) {s' : Kernel × Mem}
    (hmoves : Moves ms i s s' start newStart oldPages newPages flags) (hv : Vacant s.2 newStart newPages)
    (hsplit : 0 < oldPages → start + oldPages ≤ memPages → (SplitsSucceed env s.2 start oldPages ↔
      ∀ q, start ≤ q → q < start + oldPages → reservedFlags s'.2 q = none))
    (hfirst : (memPt s.2 start).isSome) (hlt : oldPages < newPages)
    (hpresent : ∀ k, k < oldPages → ∃ e, memPt s.2 (start + k) = some e ∧ e.flags = flags)
    (hpos : 0 < old) (hold : oldPages ≤ old) (hnew : newPages ≤ new) :
    Remapped (pageAt s) (pageAt s') start newStart old new ↔
      MoveFits env s start old new oldPages newPages newStart flags := by
  have hmoved : newStart ≠ start := by
    rintro rfl
    rw [hv.unmapped newStart le_rfl (by omega)] at hfirst
    exact absurd hfirst (by decide)
  constructor
  · intro h
    have hgone := fun q hlow hhigh => h.gone q hlow hhigh fun heq => absurd heq hmoved
    have hold' : old = oldPages := by
      by_contra hne
      -- the page behind the old ones is mapped, and stays where it is
      obtain ⟨bytes, off, hpage, -⟩ := hmoves.new oldPages hlt
      have hkept := h.kept oldPages (by omega)
      rw [hpage] at hkept
      have hq : start + oldPages < memPages := by
        by_contra hq
        rw [pageAt_of_le (not_lt.1 hq)] at hkept
        cases hkept
      have hout : ¬ (newStart ≤ start + oldPages ∧ start + oldPages < newStart + newPages) := by
        rintro ⟨hlow, hhigh⟩
        rw [pageAt_of_none hq (hv.unmapped _ hlow hhigh)] at hkept
        unfold reservedPage at hkept
        cases hres : reservedFlags s.2 (start + oldPages) with
        | none | some _ => rw [hres] at hkept; cases hkept
      have hstays := hmoves.kept (start + oldPages) (not_touches_of_le (by omega) (by omega) hq) hout
      rw [hgone _ (by omega) (by omega), ← hkept] at hstays
      cases hstays
    have hinside : start + oldPages ≤ memPages := by
      by_contra hwrap
      obtain ⟨bytes, off, hpage, -⟩ := hmoves.new (oldPages - 1) (by omega)
      have hkept := h.kept (oldPages - 1) (by omega)
      rw [hpage, pageAt_of_le (by omega)] at hkept
      cases hkept
    -- each new page is the old one
    have hsame : ∀ k, k < oldPages → ∃ e, memPt s.2 (start + k) = some e ∧ e.flags = flags ∧
        pageAt s' (newStart + k) = e.page s.1 := by
      intro k hk
      obtain ⟨e, he, hflags⟩ := hpresent k hk
      refine ⟨e, he, hflags, ?_⟩
      rw [h.kept k (by omega), pageAt_of_entry (by omega) he]
    refine ⟨hold', hinside, ?_, ?_, fun q hlow hhigh => ?_, (hsplit (by omega) hinside).2 fun q hlow hhigh => ?_⟩
    · by_contra hshared
      obtain ⟨bytes, off, hpage, -⟩ := hmoves.new 0 (by omega)
      obtain ⟨e, he, hflags, hsame⟩ := hsame 0 (by omega)
      rw [hpage] at hsame
      unfold PtEntry.page at hsame
      rw [hflags, if_pos (by simpa using hshared), if_pos (by simpa using hshared)] at hsame
      have hdata : e.data < s.1.nextData := by
        refine Counted.lt_of_memPt (i := i) (q := start + 0) hc ?_
        rwa [update_self]
      simp only [Page.mapped.injEq, Option.some.injEq, Prod.mk.injEq] at hsame
      exact absurd hsame.2.2.1 (Nat.ne_of_gt hdata)
    · by_cases hrwx : hasAny flags pRwx = true
      · exact .inl hrwx
      · refine .inr fun k hk => ?_
        obtain ⟨bytes, off, hpage, -, hzero⟩ := hmoves.new k (by omega)
        rw [← h.kept k (by omega), hpage]
        exact hzero (.inr (by simpa using hrwx))
    · have hzero := h.zero (q - newStart) (by omega) (by omega)
      rw [Nat.add_sub_cancel' (by omega)] at hzero
      have hout : ¬ (start ≤ q ∧ q < start + oldPages) := by
        rintro ⟨hlow', hhigh'⟩
        rw [hgone q hlow' (by omega)] at hzero
        exact hzero
      refine ⟨hout, ?_⟩
      rwa [hmoves.kept q (not_touches_of_le (by omega) (by omega) hzero.lt) (by omega)] at hzero
    · have hpage := hmoves.taken q ⟨q, hlow, hhigh, rfl⟩ (by omega)
      rw [hgone q hlow (by omega)] at hpage
      exact reservedPage_eq_unmapped_iff.1 hpage.symm
  · intro h
    have hold' := h.old_eq
    have hinside := h.inside
    have hstays : ∀ q, ¬ (start ≤ q ∧ q < start + oldPages) → ¬ (newStart ≤ q ∧ q < newStart + newPages) →
        pageAt s' q = pageAt s q := by
      intro q hout hout'
      by_cases hq : q < memPages
      · exact hmoves.kept q (not_touches_of_le (by omega) (by omega) hq) hout'
      · rw [pageAt_of_le (not_lt.1 hq), pageAt_of_le (not_lt.1 hq)]
    refine ⟨fun k hk => ?_, fun k hlow hhigh => ?_, fun q hlow hhigh _ => ?_, fun q hout hout' => ?_⟩
    · obtain ⟨e, he, hflags⟩ := hpresent k (by omega)
      obtain ⟨bytes, off, hpage, hcopied, hzero⟩ := hmoves.new k (by omega)
      have hbytes : bytes = fun off : Fin pageSize => memPtr.pageBytes s.1 e off := by
        funext off
        by_cases hrwx : hasAny flags pRwx = true
        · exact hcopied (by omega) hrwx e he off
        · have hz := h.contents.resolve_left hrwx k (by omega)
          rw [pageAt_of_entry (by omega) he] at hz
          rw [hzero (.inr (by simpa using hrwx)) off]
          exact (hz off).symm
      rw [hpage, pageAt_of_entry (by omega) he, hbytes]
      unfold PtEntry.page
      rw [hflags, h.notShared]
      rfl
    · rcases Nat.lt_or_ge k newPages with hk | hk
      · obtain ⟨bytes, off, hpage, -, hzero⟩ := hmoves.new k hk
        rw [hpage]
        exact hzero (.inl (by omega))
      · obtain ⟨hout, hzero⟩ := h.zero (newStart + k) (by omega) (by omega)
        rwa [hstays _ hout (by omega)]
    · rw [hmoves.taken q ⟨q, hlow, by omega, rfl⟩ (by omega), reservedPage_eq_unmapped_iff]
      exact (hsplit (by omega) hinside).1 h.split q hlow (by omega)
    · exact hstays q (by omega) (by omega)

end

/-! ### Failing -/

theorem Untouched.refl (s : Kernel × Mem) : Untouched s s := ⟨fun _ => rfl, rfl, rfl, fun _ _ => rfl, rfl⟩

theorem untouched_refused {s : Kernel × Mem} {k : Kernel} {m : Mem} (pages : Nat) (flags : Flags)
    (hk : k = s.1 ∨ k = ptMapNothing.mmapped s.1 pages flags) (hpgdir : m.pgdir = s.2.pgdir)
    (hres : m.reservations = s.2.reservations) : Untouched s (k, m) := by
  have hentries : ∀ q, memPt m q = memPt s.2 q := memPt_eq_of_pgdir hpgdir
  rcases hk with rfl | rfl
  · exact ⟨hentries, hres, rfl, fun _ _ => rfl, rfl⟩
  · exact ⟨hentries, hres, rfl, fun r hr => update_of_ne (Nat.ne_of_lt hr) _ _, rfl⟩

/-! ### `mremap` -/

variable {addr : BitVec 64}

theorem sysMremap_of_not_accepts (env : HostEnv) (s : Kernel × Mem) {oldLen newLen flags : BitVec 32}
    (h : ¬ sysMremap.Accepts addr oldLen newLen flags) :
    sysMremap env s addr oldLen newLen flags = (.error .einval, s) := by
  unfold sysMremap
  unfold sysMremap.Accepts at h
  split_ifs with h1 h2 h3 h4
  iterate 4 rfl
  exact absurd ⟨by simpa using h1, fun h0 => h2 (.inl h0), fun h0 => h2 (.inr h0), by simpa using h3,
    by simpa using h4⟩ h

theorem sysMremap_of_accepts (env : HostEnv) (s : Kernel × Mem) {oldLen newLen flags : BitVec 32}
    (h : sysMremap.Accepts addr oldLen newLen flags) : sysMremap env s addr oldLen newLen flags =
      if pageRoundUp32 newLen ≤ pageRoundUp32 oldLen then
        match ptUnmap env s (pageOfAddr addr + pageRoundUp32 newLen) (pageRoundUp32 oldLen - pageRoundUp32 newLen) with
        | (true, s) => (.ok (pageOfAddr addr * pageSize), s)
        | (false, s) => (.error .efault, s)
      else sysMremap.grow env s (pageOfAddr addr) (pageRoundUp32 oldLen) (pageRoundUp32 newLen) flags := by
  obtain ⟨h1, h2, h3, h4, h5⟩ := h
  unfold sysMremap
  refine (if_neg ?_).trans ((if_neg ?_).trans ((if_neg ?_).trans ((if_neg ?_).trans rfl)))
  · simp [h1]
  · simp [h2, h3]
  · simp [h4]
  · simp [h5]

section

variable {ι : Type} [DecidableEq ι] [Finite ι] {w : World ι} {i : ι}

omit [Finite ι] in
theorem countedAt_world (hw : w.Counted) (i : ι) : CountedAt w.mems i (w.at i) := by
  unfold CountedAt World.at
  rw [update_eq_self]
  exact hw

omit [DecidableEq ι] [Finite ι] in
theorem mremapKeeps_ok_iff {oldLen newLen : BitVec 64} {page : Nat} {s' : Kernel × Mem}
    (hothers : ∀ j, j ≠ i → ∀ q, pageAt (s'.1, w.mems j) q = pageAt (w.kernel, w.mems j) q) :
    MremapKeeps w i addr oldLen newLen (.ok (page * pageSize), s') ↔
      Remapped (pageAt (w.at i)) (pageAt s') (pageOfAddr addr) page (pagesOf oldLen) (pagesOf newLen) := by
  unfold MremapKeeps
  dsimp only
  rw [Nat.mul_div_cancel _ (by decide)]
  exact and_iff_left hothers

theorem mremap_shrink_iff (hw : w.Counted) (env : HostEnv) {oldLen newLen : BitVec 64} {oldPages newPages : Nat}
    (hle : newPages ≤ oldPages) (hsmall : oldPages ≤ 2 ^ 20) (hstart : pageOfAddr addr < 2 ^ 52)
    (hold : oldPages ≤ pagesOf oldLen) (hnew : newPages ≤ pagesOf newLen) : MremapKeeps w i addr oldLen newLen
        (match ptUnmap env (w.at i) (pageOfAddr addr + newPages) (oldPages - newPages) with
        | (true, s) => (.ok (pageOfAddr addr * pageSize), s)
        | (false, s) => (.error .efault, s)) ↔
      ((∀ p, pageOfAddr addr + newPages ≤ p → p < pageOfAddr addr + oldPages → (memPt (w.at i).2 p).isSome) →
        ShrinkFits env (w.at i) (pageOfAddr addr) (pagesOf oldLen) (pagesOf newLen) oldPages newPages) := by
  have hc := countedAt_world hw i
  have hword : pageOfAddr addr + newPages + (oldPages - newPages) < wordMod := by
    unfold wordMod
    omega
  have hall : ((List.range' (pageOfAddr addr + newPages) (loopCount (pageOfAddr addr + newPages) (oldPages - newPages))).all
      fun page => (memPt (w.at i).2 page).isSome) = true ↔
      ∀ p, pageOfAddr addr + newPages ≤ p → p < pageOfAddr addr + oldPages → (memPt (w.at i).2 p).isSome := by
    rw [List.all_eq_true, loopCount_eq hword]
    refine forall_congr' fun p => ?_
    rw [mem_range'_1, and_imp, show pageOfAddr addr + newPages + (oldPages - newPages) =
      pageOfAddr addr + oldPages by omega]
  unfold ptUnmap
  by_cases hpresent : ∀ p, pageOfAddr addr + newPages ≤ p → p < pageOfAddr addr + oldPages →
      (memPt (w.at i).2 p).isSome
  · rw [if_pos (hall.2 hpresent)]
    rw [mremapKeeps_ok_iff fun j hj q => pageAt_other hc (countedAt_ptUnmapAlways hc env _ _)
      (kernelOrder_preserves.ptUnmapAlways env (w.at i) _ _) hj q]
    rw [shrink_iff hc env hle hsmall hstart hold hnew hpresent]
    exact ⟨fun h _ => h, fun h => h hpresent⟩
  · rw [if_neg fun h => hpresent (hall.1 h)]
    exact iff_of_true (Untouched.refl _) fun h => absurd h hpresent

theorem sysMremap.uniform_iff {m : Mem} {start oldPages : Nat} (hword : start + oldPages < wordMod) (flags : Flags) :
    sysMremap.uniform m start oldPages flags = true ↔
      ∀ k, k < oldPages → ∃ e, memPt m (start + k) = some e ∧ e.flags = flags := by
  unfold sysMremap.uniform
  rw [List.all_eq_true, loopCount_eq hword]
  constructor
  · intro h k hk
    obtain ⟨e, he, hflags⟩ := (any_eq_true _ _).1 (h (start + k) (by rw [mem_range'_1]; omega))
    exact ⟨e, he, by simpa using hflags⟩
  · intro h p hp
    rw [mem_range'_1] at hp
    obtain ⟨e, he, hflags⟩ := h (p - start) (by omega)
    rw [Nat.add_sub_cancel' hp.1] at he
    exact (any_eq_true _ _).2 ⟨e, he, by simpa using hflags⟩

theorem mapCounted_of_not_can {env : HostEnv} {s : Kernel × Mem} (m : Mem) (start : Nat) {pages : Nat}
    (hpages : pages ≠ 0) {flags : Flags} (h : ¬ CanMapCounted env s pages flags) :
    ∃ err k, mapCounted env (s.1, m) start pages flags (hasAny flags pRwx) = (.error err, k, m) ∧
      (k = s.1 ∨ k = ptMapNothing.mmapped s.1 pages flags) := by
  refine mapCounted_refused env (s.1, m) start hpages flags _ ?_
  unfold CanMapCounted at h
  by_cases henv : env.CanMap
  · right
    by_contra hlimit
    exact h ⟨henv, fun hrwx => not_lt.1 fun hover => hlimit ⟨hrwx, hover⟩⟩
  · exact .inl henv

section

variable {env : HostEnv} {s t : Kernel × Mem} {m : Mem} {start newStart oldPages newPages : Nat} {flags : Flags}
  (hfound : ptFindHole s.2 newPages = (newStart, m))
include hfound

theorem sysMremap.move_of_bad (h : newStart = badPage) :
    move env s start oldPages newPages flags = (.error .enomem, s.1, m) := by
  unfold move
  rw [hfound]
  exact if_pos h

theorem sysMremap.move_of_error (h : newStart ≠ badPage) {err : Errno}
    (hmap : mapCounted env (s.1, m) newStart newPages flags (hasAny flags pRwx) = (.error err, t)) :
    move env s start oldPages newPages flags = (.error err, t) := by
  unfold move
  rw [hfound]
  rw [if_neg h, hmap]

theorem sysMremap.move_of_ok (h : newStart ≠ badPage)
    (hmap : mapCounted env (s.1, m) newStart newPages flags (hasAny flags pRwx) = (.ok (), t)) :
    move env s start oldPages newPages flags =
      (.ok (newStart * pageSize), ptUnmapAlways env (copied start newStart oldPages flags t) start oldPages) := by
  unfold move
  rw [hfound]
  rw [if_neg h, hmap]
  rfl

end

theorem mremap_move_iff (hw : w.Counted) (hin : ReservationsInside (w.at i).2) (env : HostEnv)
    {oldLen newLen : BitVec 64} {oldPages newPages : Nat} {flags : Flags} (hlt : oldPages < newPages)
    (hsmall : newPages ≤ 2 ^ 20) (hstart : pageOfAddr addr < 2 ^ 52) (hpos : 0 < pagesOf oldLen)
    (hold : oldPages ≤ pagesOf oldLen) (hnew : newPages ≤ pagesOf newLen)
    (hfirst : (memPt (w.at i).2 (pageOfAddr addr)).isSome)
    (hpresent : ∀ k, k < oldPages → ∃ e, memPt (w.at i).2 (pageOfAddr addr + k) = some e ∧ e.flags = flags) :
    MremapKeeps w i addr oldLen newLen (sysMremap.move env (w.at i) (pageOfAddr addr) oldPages newPages flags) ↔
      ((ptFindHole (w.at i).2 newPages).1 ≠ badPage → CanMapCounted env (w.at i) newPages flags →
        MoveFits env (w.at i) (pageOfAddr addr) (pagesOf oldLen) (pagesOf newLen) oldPages newPages
          (ptFindHole (w.at i).2 newPages).1 flags) := by
  have hsound := (ptFindHole_sound (w.at i).2 newPages (by omega) hin).1
  obtain ⟨hint, hhint⟩ := (ptFindHole_cases (w.at i).2 newPages).2
  rcases hfound : ptFindHole (w.at i).2 newPages with ⟨newStart, m⟩
  rw [hfound] at hsound hhint
  dsimp only at hsound hhint ⊢
  by_cases hbad : newStart = badPage
  · rw [sysMremap.move_of_bad hfound hbad, hhint]
    exact iff_of_true (untouched_refused 0 0 (.inl rfl) rfl rfl) fun h => absurd hbad h
  by_cases hcan : CanMapCounted env (w.at i) newPages flags
  swap
  · obtain ⟨err, k, heq, hk⟩ := mapCounted_of_not_can m newStart (by omega) hcan
    rw [sysMremap.move_of_error hfound hbad heq]
    exact iff_of_true (untouched_refused _ _ hk (by rw [hhint]) (by rw [hhint])) fun _ h => absurd h hcan
  obtain ⟨hunmapped, -, hwindow⟩ := hsound hbad
  have hmem : newStart + newPages ≤ memPages := by
    rcases hwindow with ⟨-, hend⟩ | ⟨-, hend⟩
    · unfold mmapHoleStart at hend
      unfold memPages
      omega
    · unfold userAddrMaxPage at hend
      unfold memPages
      omega
  -- the search changes nothing but the hint
  have hc : CountedAt w.mems i ((w.at i).1, m) := by
    have hrefs : refs (update w.mems i m) = refs (update w.mems i (w.mems i)) :=
      refs_congr w.mems i fun q => by rw [hhint]; rfl
    unfold CountedAt
    rw [hrefs, update_eq_self]
    exact hw
  have hv : Vacant m newStart newPages := by
    refine ⟨?_, by omega, fun p hlow hhigh => ?_⟩
    · exact lt_of_le_of_lt hmem (by decide)
    · rw [hhint]
      exact hunmapped p hlow hhigh
  have hpages : pageAt ((w.at i).1, m) = pageAt (w.at i) := by
    rw [hhint]
    rfl
  obtain ⟨t, heq, hmap, hct, hpt⟩ :=
    mapCounted_spec hc hcan.1 (by omega) (lt_of_le_of_lt hsmall (by decide)) hv flags (hasAny flags pRwx) hcan.2
  have hmoves := moves_ptUnmapAlways hc hct hpt hmap hv hlt.le hsmall hstart hmem
    (by rw [hhint]; exact hpresent) env
  rw [sysMremap.move_of_ok hfound hbad heq, mremapKeeps_ok_iff hmoves.others, ← hpages,
    move_iff env hc hmoves hv ?_ (by rw [hhint]; exact hfirst) hlt (by rw [hhint]; exact hpresent) hpos hold hnew]
  · have hres : m.reservations = (w.at i).2.reservations := by rw [hhint]
    exact ⟨fun h _ _ => h.congr hpages hres, fun h => (h hbad hcan).congr hpages.symm hres.symm⟩
  · intro hpos hinside
    have hres := reservedFlags_unmapped_iff env (sysMremap.copied (pageOfAddr addr) newStart oldPages flags t)
      (pageOfAddr addr) hpos hinside
    rw [← hres]
    unfold SplitsSucceed
    rw [(copyLoop_copied hc hmap hv hlt.le hsmall (by rw [hhint]; exact hpresent)).mem, hmap.reservations]

theorem mremap_grow_iff (hw : w.Counted) (hin : ReservationsInside (w.at i).2) (env : HostEnv)
    {addr oldLen newLen : BitVec 64} {oldPages newPages : Nat} (flags : BitVec 32) (hlt : oldPages < newPages)
    (hsmall : newPages ≤ 2 ^ 20) (hstart : pageOfAddr addr < 2 ^ 52) (hpos : 0 < pagesOf oldLen)
    (hold : oldPages ≤ pagesOf oldLen) (hnew : newPages ≤ pagesOf newLen) :
    MremapKeeps w i addr oldLen newLen (sysMremap.grow env (w.at i) (pageOfAddr addr) oldPages newPages flags) ↔
      GrowthFits env (w.at i) (pageOfAddr addr) (pagesOf oldLen) (pagesOf newLen) oldPages newPages flags := by
  have hc := countedAt_world hw i
  have hword : pageOfAddr addr + newPages < wordMod := by
    unfold wordMod
    omega
  unfold sysMremap.grow GrowthFits
  cases he : memPt (w.at i).2 (pageOfAddr addr) with
  | none => exact iff_of_true (Untouched.refl _) nofun
  | some e =>
    dsimp only
    by_cases huniform : sysMremap.uniform (w.at i).2 (pageOfAddr addr) oldPages e.flags = true
    swap
    · rw [if_pos huniform]
      refine iff_of_true (Untouched.refl _) ?_
      rintro _ ⟨⟩ h
      exact absurd h huniform
    rw [if_neg (not_not.2 huniform)]
    by_cases hanon : hasAny e.flags pAnonymous = true
    swap
    · rw [if_pos hanon]
      refine iff_of_true (Untouched.refl _) ?_
      rintro _ ⟨⟩ _ h
      exact absurd h hanon
    rw [if_neg (not_not.2 hanon)]
    have hpresent := (sysMremap.uniform_iff (by omega) e.flags).1 huniform
    have hfits : ∀ {P : PtEntry → Prop}, (∀ e', some e = some e' →
        sysMremap.uniform (w.at i).2 (pageOfAddr addr) oldPages e'.flags = true → hasAny e'.flags pAnonymous = true →
        P e') ↔ P e := by
      intro P
      refine ⟨fun h => h e rfl huniform hanon, ?_⟩
      rintro h _ ⟨⟩ _ _
      exact h
    rw [hfits]
    by_cases hhole : ptIsHole (w.at i).2 (pageOfAddr addr + oldPages) (newPages - oldPages) = true
    · rw [if_pos hhole, if_pos hhole]
      by_cases hcan : CanMapCounted env (w.at i) (newPages - oldPages) e.flags
      · have hv := vacant_of_ptIsHole (by omega) (by unfold memPages; omega) hhole
        obtain ⟨t, heq, hmap, hct, hpt⟩ := mapCounted_spec hc hcan.1 (by omega)
          (lt_of_le_of_lt (Nat.sub_le _ _) (lt_of_le_of_lt hsmall (by decide))) hv e.flags (hasAny e.flags pRwx) hcan.2
        rw [heq]
        unfold doMmap.finish
        rw [mremapKeeps_ok_iff fun j hj q => pageAt_other hc hct hpt hj q, grow_iff hc hmap hct hpt hv hlt hsmall
          (lt_memPages_of_ptIsHole (by omega) hhole) hold hnew]
        exact ⟨fun h _ => h, fun h => h hcan⟩
      · obtain ⟨err, k, heq, hk⟩ := mapCounted_of_not_can (w.at i).2 (pageOfAddr addr + oldPages) (by omega) hcan
        change MremapKeeps w i addr oldLen newLen (doMmap.finish _ (mapCounted env ((w.at i).1, (w.at i).2) _ _ _ _)) ↔ _
        rw [heq]
        exact iff_of_true (untouched_refused _ _ hk rfl rfl) fun h => absurd h hcan
    · rw [if_neg hhole, if_neg hhole]
      by_cases hmay : hasAny flags mremapMaymove = true
      · rw [if_neg (not_not.2 hmay), mremap_move_iff hw hin env hlt hsmall hstart hpos hold hnew
          (isSome_of_eq_some he) hpresent]
        exact ⟨fun h _ => h, fun h => h hmay⟩
      · rw [if_pos hmay]
        exact iff_of_true (Untouched.refl _) fun h => absurd h hmay

/-- **`mremap` preserves contents**: what it should keep is kept exactly if the way in which it succeeds, if it does, is
right. -/
theorem mremap_keeps_iff (w : World ι) (hw : w.Counted) (i : ι) (hin : ReservationsInside (w.mems i)) (env : HostEnv)
    (addr oldLen newLen : BitVec 64) (flags : BitVec 32) : MremapKeeps w i addr oldLen newLen
        (sysMremap env (w.at i) addr (oldLen.setWidth 32) (newLen.setWidth 32) flags) ↔
      MremapFits env (w.at i) addr oldLen newLen flags := by
  have hstart : pageOfAddr addr < 2 ^ 52 := by
    have := addr.isLt
    unfold pageOfAddr pageSize
    omega
  have hold := pageRoundUp32_le oldLen
  have hnew := pageRoundUp32_le newLen
  have hsmall := (pageRoundUp32_lt (oldLen.setWidth 32)).le
  have hsmall' := (pageRoundUp32_lt (newLen.setWidth 32)).le
  unfold MremapFits
  by_cases haccepts : sysMremap.Accepts addr (oldLen.setWidth 32) (newLen.setWidth 32) flags
  swap
  · rw [sysMremap_of_not_accepts env _ haccepts]
    exact iff_of_true (Untouched.refl _) fun h => absurd h haccepts
  rw [sysMremap_of_accepts env _ haccepts, forall_prop_of_true haccepts]
  by_cases hle : pageRoundUp32 (newLen.setWidth 32) ≤ pageRoundUp32 (oldLen.setWidth 32)
  · rw [if_pos hle, if_pos hle]
    exact mremap_shrink_iff hw env hle hsmall hstart hold hnew
  · rw [if_neg hle, if_neg hle]
    exact mremap_grow_iff hw hin env flags (not_le.1 hle) hsmall' hstart (pagesOf_pos haccepts.2.1) hold hnew

end

/-- A page that grows in place to two. -/
theorem mremap_keeps_writablePage : MremapKeeps writablePage () 0x100000#64 0x1000#64 0x2000#64
      (sysMremap HostEnv.good (writablePage.at ()) 0x100000#64 0x1000#32 0x2000#32 0#32) := by
  refine (mremap_keeps_iff writablePage counted_writablePage () (forall_mem_nil _) HostEnv.good 0x100000#64
    0x1000#64 0x2000#64 0#32).2 fun _ => ?_
  rw [if_neg (by decide)]
  intro e he _ _
  rw [if_pos (by decide)]
  refine fun _ => ⟨rfl, by decide, fun q hlow hhigh => ?_⟩
  change 0x100 + 2 ≤ q at hlow
  change q < 0x100 + 2 at hhigh
  omega

/-- One process with two pages at `0x100000`, of which the first has no rights any more. -/
def rightless : World Unit :=
  (worldInit Unit).put () (ptSetFlags 4096 HostEnv.good
    (ptMapNothing HostEnv.good (kernelInit, memInit) 0x100 2 (pRead ||| pWrite)).2 0x100 1 0#32).2

theorem counted_rightless : rightless.Counted := by
  have hmap : Run (World.step 4096) World.Fits (worldInit Unit) ((worldInit Unit).put ()
      (ptMapNothing HostEnv.good (kernelInit, memInit) 0x100 2 (pRead ||| pWrite)).2) :=
    .tail (.mapNothing HostEnv.good () 0x100 2 (pRead ||| pWrite)) (.refl _) (by decide : loopCount 0x100 2 < refMod) rfl
  have hrun : Run (World.step 4096) World.Fits (worldInit Unit) rightless :=
    .tail (.setFlags HostEnv.good () 0x100 1 0#32) hmap trivial rfl
  exact counted_of_run hrun

/-- The search finds two pages below the top of the low window. -/
theorem ptFindHole_rightless : (ptFindHole (rightless.mems ()) 2).1 = 0xefffc := by
  have hstart : ptFindHole.start (rightless.mems ()) 2 = mmapHoleStart := by decide
  have hfrom : ptFindHoleFrom (rightless.mems ()) 2 mmapHoleStart = 0xefffc := by
    rw [ptFindHoleFrom, ptFindHoleFrom.go, if_pos (by decide)]
    rfl
  have hatt : ptFindHole.attempts (rightless.mems ()) 2 10 mmapHoleStart = (some 0xefffc, mmapHoleStart) := by
    unfold ptFindHole.attempts
    rw [hfrom, if_neg (by decide), if_neg (by decide)]
  unfold ptFindHole
  rw [hstart, hatt]

/-- **A page without rights is moved without its bytes.** -/
theorem mremap_loses_bytes : ¬ MremapKeeps (rightless.withBytes fun _ _ => 1) () 0x100000#64 0x1000#64 0x2000#64
      (sysMremap HostEnv.good ((rightless.withBytes fun _ _ => 1).at ()) 0x100000#64 0x1000#32 0x2000#32
        mremapMaymove) := by
  have hcounted : (rightless.withBytes fun _ _ => 1).Counted :=
    Counted.quiet counted_rightless (.of_host rfl rfl (le_refl _) fun _ _ => isSome_map)
  have hin : ReservationsInside ((rightless.withBytes fun _ _ => 1).at ()).2 := forall_mem_nil _
  intro h
  have hgrow := (@mremap_grow_iff _ _ _ _ () hcounted hin HostEnv.good 0x100000#64 0x1000#64 0x2000#64 1 2 mremapMaymove
    (by decide) (by decide) (by decide) (by decide) (by decide) (by decide)).1 h
  have hmove := hgrow ⟨0, 0, pAnonymous⟩ rfl (by decide) (by decide)
  rw [if_neg (by decide)] at hmove
  have hhole : (ptFindHole ((rightless.withBytes fun _ _ => 1).at ()).2 2).1 = 0xefffc := ptFindHole_rightless
  rw [hhole] at hmove
  have hfits := hmove (by decide) (by decide) ⟨⟨rfl, rfl⟩, fun h => absurd h (by decide)⟩
  rcases hfits.contents with hrwx | hzero
  · exact absurd hrwx (by decide)
  · have hfirst := hzero 0 (by decide) ⟨0, by decide⟩
    exact absurd hfirst (by decide)

end Ish
