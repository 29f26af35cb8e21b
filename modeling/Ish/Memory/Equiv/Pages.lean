import Ish.Memory.Equiv.Anonymous
import Ish.Memory.Equiv.Contents
import Ish.Memory.Equiv.ReservationMap

/-!
# The pages of an address space

`pageAt s q` is what a process has at the page `q`: nothing, a reservation that reads as zero when it is touched, or a
page with its bytes, its protection and, if it is shared, the object it shares. `pt_unmap_always` and
`pt_map_nothing` are described by what they do to these pages (`pageAt_ptUnmapAlways`, `MapsAnon.pageAt_new`); pages whose
entry stays keep all that is said of them (`pageAt_congr`).
-/

namespace Ish

open Lib Function

/-! ### Pages -/

/-- What a process sees of a page. -/
inductive Page where
  | unmapped
  | reserved (flags : Flags)
  | mapped (bytes : Fin pageSize → UInt8) (prot : Flags) (object : Option (DataId × Nat))

/-- The page is there and holds zeros. -/
def Page.ReadsZero : Page → Prop
  | unmapped => False
  | reserved _ => True
  | mapped bytes _ _ => ∀ off, bytes off = 0

def PtEntry.page (k : Kernel) (e : PtEntry) : Page :=
  .mapped (fun off => memPtr.pageBytes k e off) (e.flags &&& pRwx)
    (if hasAny e.flags pShared then some (e.data, e.offset) else none)

/-- The page where there is no entry. -/
def reservedPage (m : Mem) (q : Nat) : Page :=
  match reservedFlags m q with
  | none => .unmapped
  | some flags => .reserved flags

/-- The page `q`. There are no pages outside the table. -/
def pageAt (s : Kernel × Mem) (q : Nat) : Page :=
  if q < memPages then
    match memPt s.2 q with
    | some e => e.page s.1
    | none => reservedPage s.2 q
  else .unmapped

section

variable {s : Kernel × Mem} {q : Nat}

theorem pageAt_of_le (hq : memPages ≤ q) : pageAt s q = .unmapped := if_neg (not_lt.2 hq)

theorem pageAt_of_entry (hq : q < memPages) {e : PtEntry} (he : memPt s.2 q = some e) : pageAt s q = e.page s.1 := by
  unfold pageAt
  rw [if_pos hq, he]

theorem pageAt_of_none (hq : q < memPages) (he : memPt s.2 q = none) : pageAt s q = reservedPage s.2 q := by
  unfold pageAt
  rw [if_pos hq, he]

theorem Page.ReadsZero.lt (h : (pageAt s q).ReadsZero) : q < memPages := by
  by_contra hq
  rw [pageAt_of_le (not_lt.1 hq)] at h
  exact h

theorem page_ne_reservedPage (k : Kernel) (e : PtEntry) (m : Mem) : e.page k ≠ reservedPage m q := by
  unfold reservedPage
  cases reservedFlags m q with
  | none => exact nofun
  | some flags => exact nofun

theorem reservedPage_eq_unmapped_iff {m : Mem} : reservedPage m q = .unmapped ↔ reservedFlags m q = none := by
  unfold reservedPage
  cases reservedFlags m q with
  | none => simp
  | some flags => simp

theorem pageBytes_congr {k k' : Kernel} {e : PtEntry} (hregion : regionOf k' e = regionOf k e)
    (hbytes : k'.host.regions (regionOf k e) = k.host.regions (regionOf k e)) :
    memPtr.pageBytes k' e = memPtr.pageBytes k e := by
  have hregions : k'.host.regions (k'.datas e.data).data = k.host.regions (k.datas e.data).data := by
    show k'.host.regions (regionOf k' e) = k.host.regions (regionOf k e)
    rw [hregion, hbytes]
  unfold memPtr.pageBytes
  rw [hregions]

end

/-! ### Pages that stay -/

section

variable {ι : Type} [DecidableEq ι] [Finite ι] {ms : ι → Mem} {i : ι} {s s' : Kernel × Mem}

theorem CountedAt.pageBytes_eq (hc : CountedAt ms i s) (hc' : CountedAt ms i s') (hp : s.1.Preserves s'.1) {j : ι}
    {q : Nat} {e : PtEntry} (he : memPt (update ms i s.2 j) q = some e)
    (he' : memPt (update ms i s'.2 j) q = some e) : memPtr.pageBytes s'.1 e = memPtr.pageBytes s.1 e := by
  have hlt := Counted.lt_of_memPt hc he
  obtain ⟨hregion, hbytes⟩ := hp.regions_eq hc' hlt (hc.region_lt _ hlt) he' rfl
  exact pageBytes_congr hregion hbytes

/-- **A page whose entry stays** keeps all that is said of it. -/
theorem pageAt_congr (hc : CountedAt ms i s) (hc' : CountedAt ms i s') (hp : s.1.Preserves s'.1) (j : ι) {q : Nat}
    (hpt : memPt (update ms i s'.2 j) q = memPt (update ms i s.2 j) q)
    (hres : memPt (update ms i s.2 j) q = none → q < memPages →
      reservedFlags (update ms i s'.2 j) q = reservedFlags (update ms i s.2 j) q) :
    pageAt (s'.1, update ms i s'.2 j) q = pageAt (s.1, update ms i s.2 j) q := by
  have hbytes : ∀ e, memPt (update ms i s.2 j) q = some e →
      memPt (update ms i s'.2 j) q = some e → memPtr.pageBytes s'.1 e = memPtr.pageBytes s.1 e :=
    fun e he he' => hc.pageBytes_eq hc' hp he he'
  generalize update ms i s.2 j = m at hpt hres hbytes ⊢
  generalize update ms i s'.2 j = m' at hpt hres hbytes ⊢
  by_cases hq : q < memPages
  swap
  · rw [pageAt_of_le (not_lt.1 hq), pageAt_of_le (not_lt.1 hq)]
  cases he : memPt m q with
  | none =>
    have he' := hpt.trans he
    rw [pageAt_of_none hq he', pageAt_of_none hq he]
    unfold reservedPage
    rw [hres he hq]
  | some e =>
    have he' := hpt.trans he
    rw [pageAt_of_entry hq he', pageAt_of_entry hq he]
    unfold PtEntry.page
    rw [hbytes e he he']

theorem pageAt_other (hc : CountedAt ms i s) (hc' : CountedAt ms i s') (hp : s.1.Preserves s'.1) {j : ι} (hj : j ≠ i)
    (q : Nat) : pageAt (s'.1, ms j) q = pageAt (s.1, ms j) q := by
  have hcongr := @pageAt_congr _ _ _ _ _ _ _ hc hc' hp j q
  rw [update_of_ne hj, update_of_ne hj] at hcongr
  exact hcongr rfl fun _ _ => rfl

theorem pageAt_kept (hc : CountedAt ms i s) (hc' : CountedAt ms i s') (hp : s.1.Preserves s'.1) {q : Nat}
    (hpt : memPt s'.2 q = memPt s.2 q)
    (hres : memPt s.2 q = none → q < memPages → reservedFlags s'.2 q = reservedFlags s.2 q) :
    pageAt s' q = pageAt s q := by
  have hcongr := @pageAt_congr _ _ _ _ _ _ _ hc hc' hp i q
  rw [update_self, update_self] at hcongr
  exact hcongr hpt hres

/-! ### Unmapping -/

/-- `mem_remove_reservations` can allocate what it needs to split nodes around the range. -/
def SplitsSucceed (env : HostEnv) (m : Mem) (start pages : Nat) : Prop :=
  ∀ r ∈ m.reservations, r.start < start → start + pages < r.rangeEnd → env.mallocRes start r = true

theorem countedAt_ptUnmapAlways (hc : CountedAt ms i s) (env : HostEnv) (start pages : Nat) :
    CountedAt ms i (ptUnmapAlways env s start pages) :=
  (OpTracks.unmapAlways (Counted.tracks hc) env start pages).counted

variable {start pages q : Nat}

/-- **Unmapping**: the slots of the range lose their entries, the other pages stay. -/
theorem pageAt_ptUnmapAlways (hc : CountedAt ms i s) (env : HostEnv) (hword : start + pages < wordMod) :
    (Touches start pages q → q < memPages →
      pageAt (ptUnmapAlways env s start pages) q = reservedPage (ptUnmapAlways env s start pages).2 q) ∧
    (¬ Touches start pages q → pageAt (ptUnmapAlways env s start pages) q = pageAt s q) := by
  have hpt := memPt_ptUnmapAlways env s start pages q
  rw [loopCount_eq hword] at hpt
  constructor
  · intro ht hq
    rw [if_pos ht] at hpt
    exact pageAt_of_none hq hpt
  · intro ht
    rw [if_neg ht] at hpt
    refine pageAt_kept hc (countedAt_ptUnmapAlways hc env start pages)
      (kernelOrder_preserves.ptUnmapAlways env s start pages) hpt
      fun _ hq => ?_
    refine reservedFlags_ptUnmapAlways env s ?_ hq
    by_contra hin
    exact ht ⟨q, by omega, by omega, rfl⟩

theorem reservedFlags_unmapped_iff (env : HostEnv) (s : Kernel × Mem) (start : Nat) (hpages : 0 < pages)
    (hmem : start + pages ≤ memPages) : SplitsSucceed env s.2 start pages ↔
      ∀ q, start ≤ q → q < start + pages → reservedFlags (ptUnmapAlways env s start pages).2 q = none := by
  have hend : pageRangeEnd start pages = start + pages := by
    rw [pageRangeEnd_eq_min start hpages.ne', min_eq_left hmem]
  constructor
  · intro hsplit q hlow hhigh
    rw [reservedFlags_ptUnmapAlways_eq s (by rw [hend]; exact hsplit) q, if_pos ⟨hlow, hhigh⟩]
  · intro hnone r hr hlow hhigh
    by_contra hfail
    -- the node is still there, and covers the first page
    have hmem' : r ∈ (ptUnmapAlways env s start pages).2.reservations := by
      rw [ptUnmapAlways_reservations]
      unfold ptUnmapAlways.enter
      rw [memRemoveReservations_reservations, if_neg hpages.ne', hend]
      exact mem_memRemoveReservations_go (Bool.eq_false_iff.2 hfail) hlow hhigh hr _
    have hcov : r.covers start := by
      rw [MemReservation.covers_iff_rangeEnd]
      omega
    have hfirst := hnone start le_rfl (by omega)
    unfold reservedFlags memFindReservation at hfirst
    rw [Option.map_eq_none_iff, List.find?_eq_none] at hfirst
    exact hfirst r hmem' hcov

/-! ### Mapping -/

variable {flags : Flags}

theorem MapsAnon.entry_of_touches (h : MapsAnon s s' start pages flags)
    (hq : Touches start pages q) : ∃ off, memPt s'.2 q = some ⟨s.1.nextData, off, flags ||| pAnonymous⟩ := by
  obtain ⟨p, hlow, hhigh, hslot⟩ := hq
  exact ⟨_, (memPt_congr _ hslot).trans (h.entry p hlow hhigh)⟩

theorem MapsAnon.pageBytes_eq (h : MapsAnon s s' start pages flags) (off : Nat)
    (eflags : Flags) : memPtr.pageBytes s'.1 ⟨s.1.nextData, off, eflags⟩ = fun _ => 0 := by
  unfold memPtr.pageBytes
  dsimp only
  rw [h.object, h.host]
  unfold Host.mmap
  dsimp only
  rw [update_self]

theorem page_anonymous (k : Kernel) (d : DataId) (off : Nat) (flags : Flags) :
    (⟨d, off, flags ||| pAnonymous⟩ : PtEntry).page k =
      .mapped (fun o => memPtr.pageBytes k ⟨d, off, flags ||| pAnonymous⟩ o) (flags &&& pRwx)
        (if hasAny flags pShared then some (d, off) else none) := by
  have hprot : (flags ||| pAnonymous) &&& pRwx = flags &&& pRwx := by
    have h0 : pAnonymous &&& pRwx = 0#32 := by decide
    rw [BitVec.and_comm, BitVec.and_or_distrib_left, BitVec.and_comm pRwx pAnonymous, h0, BitVec.or_zero,
      BitVec.and_comm]
  have hshared : hasAny (flags ||| pAnonymous) pShared = hasAny flags pShared := by
    have h0 : pAnonymous &&& pShared = 0#32 := by decide
    unfold hasAny
    rw [BitVec.and_comm, BitVec.and_or_distrib_left, BitVec.and_comm pShared pAnonymous, h0, BitVec.or_zero,
      BitVec.and_comm]
  unfold PtEntry.page
  rw [hprot, hshared]

theorem MapsAnon.pageAt_new (h : MapsAnon s s' start pages flags) (ht : Touches start pages q) (hq : q < memPages) :
    ∃ off, pageAt s' q = .mapped (fun _ => 0) (flags &&& pRwx)
      (if hasAny flags pShared then some (s.1.nextData, off) else none) := by
  obtain ⟨off, he⟩ := h.entry_of_touches ht
  refine ⟨off, ?_⟩
  rw [pageAt_of_entry hq he, page_anonymous, h.pageBytes_eq]

theorem MapsAnon.pageAt_kept {n : Int}
    (h : MapsAnon (s.1.count n, s.2) s' start pages flags) (hc : CountedAt ms i s) (hc' : CountedAt ms i s')
    (hp : s.1.Preserves s'.1) (hnot : ¬ Touches start pages q) : pageAt s' q = pageAt s q := by
  refine Ish.pageAt_kept hc hc' hp (h.other q hnot) fun _ _ => ?_
  unfold reservedFlags memFindReservation
  rw [h.reservations]

theorem ptMapNothing_of_mapCounted {env : HostEnv} {counted : Bool}
    (h : mapCounted env s start pages flags counted = (.ok (), s')) :
    ptMapNothing env (s.1.count (if counted then asLong pages else 0), s.2) start pages flags = (.ok (), s') := by
  unfold mapCounted at h
  cases counted with
  | false =>
    have hcount : s.1.count (if false = true then asLong pages else 0) = s.1 := by simp [Kernel.count]
    rw [hcount]
    exact h
  | true =>
    rw [if_pos rfl] at h ⊢
    split_ifs at h
    · cases h
    · rcases hmap : ptMapNothing env (s.1.count (asLong pages), s.2) start pages flags with ⟨_ | _, k, m⟩
      · rw [hmap] at h
        cases h
      · rw [hmap] at h
        exact h

/-- **A counted mapping in a hole**, with what it keeps. -/
theorem mapCounted_spec (hc : CountedAt ms i s) {env : HostEnv} (henv : env.CanMap)
    (hpages : pages ≠ 0) (hfit : pages < refMod) (hv : Vacant s.2 start pages) (flags : Flags) (counted : Bool)
    (hlimit : counted → s.1.anonPageCount + asLong pages ≤ anonMmapLimitPages) :
    ∃ s', mapCounted env s start pages flags counted = (.ok (), s') ∧
      MapsAnon (s.1.count (if counted then asLong pages else 0), s.2) s' start pages flags ∧
      CountedAt ms i s' ∧ s.1.Preserves s'.1 := by
  obtain ⟨s', heq, hmap⟩ := mapsAnon_mapCounted henv hpages hv flags counted hlimit
  have hnothing := ptMapNothing_of_mapCounted heq
  have hcounted : CountedAt ms i (s.1.count (if counted then asLong pages else 0), s.2) :=
    Counted.quiet hc (quiet_anon s.1 _)
  have htracks := OpTracks.mapNothing (Counted.tracks hcounted) env start pages flags
    (lt_of_le_of_lt (loopCount_le start pages) hfit)
  have hpreserves := preserves_ptMapNothing env (s.1.count (if counted then asLong pages else 0), s.2) start pages flags
  rw [hnothing] at htracks hpreserves
  exact ⟨s', heq, hmap, htracks.counted, (preserves_anon s.1 _).trans hpreserves⟩

end

end Ish
