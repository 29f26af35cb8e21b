import Ish.Memory.Process
import Ish.Memory.Equiv.LazyPage

/-!
# Anonymous mappings in a hole

What `pt_map_nothing` does to pages that are not mapped, as a whole: either nothing but what the
host keeps (`ptMapNothing_of_not_canMap`), or the pages of the range are those of one new zeroed
host mapping, in order, and nothing else changes (`mapsAnon_ptMapNothing`). `mapCounted` is the
same between the test and the correction of `anon_page_count`.
-/

namespace Ish

open Lib

/-- No page of the range is mapped; the range does not wrap around and has every slot at most once. -/
structure Vacant (m : Mem) (start pages : Nat) : Prop where
  word : start + pages < wordMod
  small : pages ≤ memPages
  unmapped : ∀ p, start ≤ p → p < start + pages → memPt m p = none

/-- The state of the loop of `pt_map` over a vacant range, before page `j`. -/
structure MapLoop (s : Kernel × Mem) (r : RegionId) (start : Nat) (flags : Flags) (j : Nat) (t : Kernel × Mem) :
    Prop where
  host : t.1.host = s.1.host
  nextData : t.1.nextData = s.1.nextData + 1
  anon : t.1.anonPageCount = s.1.anonPageCount
  data : ∀ d, d ≠ s.1.nextData → t.1.datas d = s.1.datas d
  object : (t.1.datas s.1.nextData).data = r
  reservations : t.2.reservations = s.2.reservations
  nextReservation : t.2.nextReservation = s.2.nextReservation
  entry : ∀ p, start ≤ p → p < j → memPt t.2 p = some ⟨s.1.nextData, (p - start) * pageSize % wordMod, flags⟩
  other : ∀ q, ¬ Touches start (j - start) q → memPt t.2 q = memPt s.2 q

/-- Before the first page. -/
theorem mapLoop_start (s : Kernel × Mem) (pages : Nat) (r : RegionId) (start : Nat) (flags : Flags) :
    MapLoop s r start flags start (ptMap.newData s.1 pages r 0, s.2) where
  host := rfl
  nextData := rfl
  anon := rfl
  data d hd := Function.update_of_ne hd _ _
  object := by simp [ptMap.newData]
  reservations := rfl
  nextReservation := rfl
  entry p hlow hhigh := absurd hlow (not_le.mpr hhigh)
  other _ _ := rfl

variable {env : HostEnv} {pages start : Nat}

theorem MapLoop.body {s t : Kernel × Mem} {r : RegionId} {j : Nat} {flags : Flags}
    (hv : Vacant s.2 start pages) (hlow : start ≤ j) (hhigh : j < start + pages) (h : MapLoop s r start flags j t) :
    MapLoop s r start flags (j + 1) (ptMap.body env s.1.nextData start 0 flags j t) := by
  have hsmall := hv.small
  have hnot : ¬ Touches start (j - start) j := not_touches_next hlow (by omega)
  have hnone : memPt t.2 j = none := (h.other j hnot).trans (hv.unmapped j hlow hhigh)
  have hturn := touches_succ start (j - start)
  rw [← Nat.sub_add_comm hlow, Nat.add_sub_cancel' hlow] at hturn
  rw [ptMap.body_eq_of_none _ _ _ _ _ hnone]
  refine ⟨h.host, h.nextData, h.anon, fun d hd => ?_, ?_, h.reservations, h.nextReservation, fun p hp hlt => ?_,
    fun q hq => ?_⟩
  · exact (Function.update_of_ne hd _ _).trans (h.data d hd)
  · exact (dataRetain_data t.1 _ _).trans h.object
  · -- the page of this turn, or one of an earlier turn, which has another slot
    rw [memPt_memPtNew]
    rcases Nat.lt_succ_iff_lt_or_eq.mp hlt with hlt | rfl
    · rw [if_neg fun hslot => hnot ⟨p, hp, by omega, hslot.symm⟩]
      exact h.entry p hp hlt
    · rw [if_pos rfl, Nat.add_zero]
  · rw [memPt_memPtNew, if_neg fun hslot => hq ((hturn q).mpr (.inr hslot))]
    exact h.other q fun ht => hq ((hturn q).mpr (.inl ht))

/-- The pages of the range are those of a new object over a new zeroed host mapping. -/
structure MapsAnon (s s' : Kernel × Mem) (start pages : Nat) (flags : Flags) : Prop where
  host : s'.1.host = (s.1.host.mmap (pages * pageSize % wordMod) (ptMapNothing.hostProt flags) fun _ => 0).2
  nextData : s'.1.nextData = s.1.nextData + 1
  anon : s'.1.anonPageCount = s.1.anonPageCount
  data : ∀ d, d ≠ s.1.nextData → s'.1.datas d = s.1.datas d
  object : (s'.1.datas s.1.nextData).data = s.1.host.next
  reservations : s'.2.reservations = s.2.reservations
  nextReservation : s'.2.nextReservation = s.2.nextReservation
  entry : ∀ p, start ≤ p → p < start + pages →
    memPt s'.2 p = some ⟨s.1.nextData, (p - start) * pageSize % wordMod, flags ||| pAnonymous⟩
  other : ∀ q, ¬ Touches start pages q → memPt s'.2 q = memPt s.2 q

/-- **An anonymous mapping in a hole.** -/
theorem mapsAnon_ptMapNothing (henv : env.CanMap) {s : Kernel × Mem}
    (hpages : pages ≠ 0) (hv : Vacant s.2 start pages) (flags : Flags) :
    ∃ s', ptMapNothing env s start pages flags = (.ok (), s') ∧ MapsAnon s s' start pages flags := by
  set k := ptMapNothing.mmapped s.1 pages flags
  have hmap : ptMapNothing env s start pages flags =
      ptMap env (k, s.2) start pages (some s.1.host.next) 0 (flags ||| pAnonymous) := by
    unfold ptMapNothing
    rw [if_neg hpages, if_pos henv.1]
    rfl
  have hloop : MapLoop (k, s.2) s.1.host.next start (flags ||| pAnonymous) (start + pages)
      (ptMap.loop env (k, s.2) start pages s.1.host.next 0 (flags ||| pAnonymous)) := by
    unfold ptMap.loop
    rw [loopCount_eq hv.word]
    exact forRange_induct (MapLoop (k, s.2) s.1.host.next start (flags ||| pAnonymous))
      (mapLoop_start _ _ _ _ _) fun j t hlow hhigh ht => MapLoop.body hv hlow hhigh ht
  refine ⟨(_, memChanged _), ?_, hloop.host, hloop.nextData, hloop.anon, hloop.data, hloop.object, hloop.reservations,
    hloop.nextReservation, hloop.entry, fun q hq => hloop.other q ?_⟩
  · rw [hmap]
    unfold ptMap
    simp only [henv.2, if_true]
    rfl
  · rwa [Nat.add_sub_cancel_left]

/-! ### Counted mappings -/

theorem count_count (k : Kernel) (a : Int) : (k.count a).count (-a) = k := by
  unfold Kernel.count
  simp

theorem mapsAnon_mapCounted (henv : env.CanMap) {s : Kernel × Mem}
    (hpages : pages ≠ 0) (hv : Vacant s.2 start pages) (flags : Flags) (counted : Bool)
    (hlimit : counted → s.1.anonPageCount + asLong pages ≤ anonMmapLimitPages) :
    ∃ s', mapCounted env s start pages flags counted = (.ok (), s') ∧
      MapsAnon (s.1.count (if counted then asLong pages else 0), s.2) s' start pages flags := by
  unfold mapCounted
  cases counted with
  | false =>
    obtain ⟨s', heq, hmap⟩ := mapsAnon_ptMapNothing henv hpages hv flags
    refine ⟨s', heq, ?_⟩
    have hcount : s.1.count (if false = true then asLong pages else 0) = s.1 := by simp [Kernel.count]
    rwa [hcount]
  | true =>
    rw [if_pos rfl, if_neg (not_lt.mpr (hlimit rfl)), if_pos rfl]
    obtain ⟨s', heq, hmap⟩ := mapsAnon_ptMapNothing henv hpages
      (show Vacant (s.1.count (asLong pages), s.2).2 start pages from hv) flags
    exact ⟨s', by rw [heq], hmap⟩

theorem mapCounted_refused (env : HostEnv) (s : Kernel × Mem) (start : Nat) (hpages : pages ≠ 0)
    (flags : Flags) (counted : Bool)
    (h : ¬ env.CanMap ∨ counted ∧ s.1.anonPageCount + asLong pages > anonMmapLimitPages) :
    ∃ err k, mapCounted env s start pages flags counted = (.error err, k, s.2) ∧
      (k = s.1 ∨ k = ptMapNothing.mmapped s.1 pages flags) := by
  unfold mapCounted
  cases counted with
  | false =>
    have henv : ¬ env.CanMap := h.resolve_right (by simp)
    exact ptMapNothing_of_not_canMap henv s start hpages flags
  | true =>
    rw [if_pos rfl]
    split_ifs with hover
    · exact ⟨_, _, rfl, .inl rfl⟩
    · have henv : ¬ env.CanMap := h.resolve_right fun hlimit => hover hlimit.2
      obtain ⟨err, k, heq, hk⟩ :=
        ptMapNothing_of_not_canMap henv (s.1.count (asLong pages), s.2) start hpages flags
      rw [heq]
      refine ⟨err, _, rfl, ?_⟩
      rcases hk with rfl | rfl
      · exact .inl (count_count _ _)
      · exact .inr (count_count (ptMapNothing.mmapped s.1 pages flags) _)

theorem mapCounted_zero (env : HostEnv) (s : Kernel × Mem) (start : Nat) (flags : Flags) (counted : Bool) :
    mapCounted env s start 0 flags counted =
      if counted ∧ s.1.anonPageCount > anonMmapLimitPages then (.error .enomem, s) else (.ok (), s) := by
  have hzero : asLong 0 = 0 := rfl
  have hcount : s.1.count 0 = s.1 := by simp [Kernel.count]
  unfold mapCounted
  rw [hzero, Int.add_zero, hcount]
  cases counted with
  | false => rfl
  | true =>
    simp only [if_true, true_and]
    rfl

theorem vacant_of_ptIsHole {m : Mem} (hword : start + pages < wordMod) (hsmall : pages ≤ memPages)
    (h : ptIsHole m start pages) : Vacant m start pages := by
  refine ⟨hword, hsmall, fun p hp hlt => ?_⟩
  unfold ptIsHole at h
  rw [Nat.mod_eq_of_lt hword, Bool.and_eq_true, List.all_eq_true] at h
  have hpage := h.1 p (by rw [List.mem_range'_1]; omega)
  simpa using hpage

theorem unreserved_of_ptIsHole {m : Mem} (hmem : start + pages ≤ memPages)
    (h : ptIsHole m start pages) : Unreserved m start pages := by
  unfold ptIsHole at h
  rw [Bool.and_eq_true, Bool.not_eq_true'] at h
  exact unreserved_of_memRangeHasReservation hmem h.2

theorem lt_memPages_of_ptIsHole {m : Mem} (hpages : pages ≠ 0) (h : ptIsHole m start pages) : start < memPages := by
  by_contra hstart
  have hend := pageRangeEnd_eq_min start hpages
  have hres : memRangeHasReservation m start pages = true := by
    unfold memRangeHasReservation
    rw [if_neg hpages, if_pos (by omega)]
  unfold ptIsHole at h
  rw [hres] at h
  simp at h

end Ish
