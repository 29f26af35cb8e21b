import Ish.Memory.Equiv.Lifetime
import Ish.Memory.Equiv.ReservationObject

/-!
# Pages made from reservations

What `mem_ptr` makes of a page that is reserved and not mapped. The page is a zero page of its
own in every case (`ZeroPage`), but its rights are those of the reservation only on a condition:
stack growth is tried first, at any distance from the stack, and a tracer's write leaves the page
writable. `lazy_page_rights` gives the condition.
-/

namespace Ish

open Lib Function

/-! ### A page of its own -/

/-- `e` is the one entry of an object made after `k`, over a host mapping made after `k` that is
zero there. -/
structure ZeroPage (k k' : Kernel) (e : PtEntry) : Prop where
  fresh : e.Fresh k k'
  refcount : (k'.datas e.data).refcount = 1
  zero : ∃ R, k'.host.regions (regionOf k' e) = some R ∧ ∀ i < pageSize, R.bytes (e.offset + i) = 0

variable {page : Nat}

variable {s : Kernel × Mem}

theorem ptUnmapAlways.body_frame (d : DataId) (r : RegionId)
    (hd : ∀ e, memPt s.2 page = some e → e.data ≠ d) (hr : ∀ e, memPt s.2 page = some e → regionOf s.1 e ≠ r) :
    (body page s).1.datas d = s.1.datas d ∧ (body page s).1.host.regions r = s.1.host.regions r := by
  cases he : memPt s.2 page with
  | none =>
    rw [body_of_none he]
    exact ⟨rfl, rfl⟩
  | some e =>
    unfold body
    rw [he]
    have hne : r ≠ (s.1.datas e.data).data := (hr e he).symm
    refine ⟨?_, ?_⟩
    · show update _ e.data _ d = _
      rw [update_of_ne (hd e he).symm]
      split_ifs <;> rfl
    · unfold dataRelease
      dsimp only
      split_ifs with ha hf hf
      · exact update_of_ne hne _ _
      · rfl
      · exact update_of_ne hne _ _
      · rfl

variable {env : HostEnv}

/-- The kernel after `pt_map` of one page: an old page is unmapped and the new object retained. -/
theorem ptMap_one_kernel (hmalloc : env.mallocData) (s : Kernel × Mem)
    (hpage : page + 1 < wordMod) (r : RegionId) (flags : Flags) : (ptMap env s page 1 (some r) 0 flags).2.1 =
      dataRetain (ptUnmapAlways.body page (ptMap.newData s.1 1 r 0, s.2)).1 s.1.nextData := by
  unfold ptMap
  simp only [hmalloc, if_true, loopCount_one hpage]
  show (ptMap.body env s.1.nextData page 0 flags page (ptMap.newData s.1 1 r 0, s.2)).1 = _
  cases he : memPt s.2 page with
  | none =>
    have hnone : memPt (ptMap.newData s.1 1 r 0, s.2).2 page = none := he
    rw [ptMap.body_eq_of_none _ _ _ _ _ hnone, ptUnmapAlways.body_of_none hnone]
  | some e =>
    have hsome : (memPt (ptMap.newData s.1 1 r 0, s.2).2 page).isSome := by rw [he]; rfl
    rw [ptMap.body_eq_of_isSome _ _ _ _ _ hsome, ptUnmapAlways_one_kernel env _ hpage]

/-- **`pt_map` of one page**: the entry, its object and its host mapping. -/
theorem ptMap_one_spec (hmalloc : env.mallocData) (s : Kernel × Mem)
    (hpage : page + 1 < wordMod) {r : RegionId} (flags : Flags)
    (hold : ∀ e, memPt s.2 page = some e → e.data < s.1.nextData ∧ regionOf s.1 e ≠ r) :
    memPt (ptMap env s page 1 (some r) 0 flags).2.2 page = some ⟨s.1.nextData, 0, flags⟩ ∧
    (ptMap env s page 1 (some r) 0 flags).2.1.datas s.1.nextData = ⟨r, (1 * pageSize + 0) % wordMod, 1, none, 0, true⟩ ∧
    (ptMap env s page 1 (some r) 0 flags).2.1.host.regions r = s.1.host.regions r := by
  have hregion : ∀ e, memPt s.2 page = some e → regionOf (ptMap.newData s.1 1 r 0) e ≠ r := by
    intro e he
    unfold regionOf ptMap.newData
    dsimp only
    rw [update_of_ne (ne_of_lt (hold e he).1)]
    exact (hold e he).2
  obtain ⟨hdata, hhost⟩ := ptUnmapAlways.body_frame s.1.nextData r
    (s := (ptMap.newData s.1 1 r 0, s.2)) (fun e he => ne_of_lt (hold e he).1) hregion
  refine ⟨?_, ?_, ?_⟩
  · unfold ptMap
    simp only [hmalloc, if_true, loopCount_one hpage]
    show memPt (ptMap.body env s.1.nextData page 0 flags page (ptMap.newData s.1 1 r 0, s.2)).2 page = _
    rw [ptMap.memPt_body, if_pos rfl]
    simp
  · rw [ptMap_one_kernel hmalloc s hpage r flags]
    unfold dataRetain
    dsimp only
    rw [update_self, hdata]
    unfold ptMap.newData
    dsimp only
    rw [update_self]
    rfl
  · rw [ptMap_one_kernel hmalloc s hpage r flags, dataRetain_host, hhost]
    rfl

variable {k : Kernel}

/-- **Mapping a zero host page** at one page. -/
theorem zeroPage_ptMap (hmalloc : env.mallocData)
    (hpage : page + 1 < wordMod) {r : RegionId} (flags : Flags) (hext : k.Extends s.1)
    (hnew : k.host.next ≤ r) (hr : r < s.1.host.next)
    (hold : ∀ e, memPt s.2 page = some e → e.data < s.1.nextData ∧ regionOf s.1 e ≠ r)
    (hzero : ∃ R, s.1.host.regions r = some R ∧ ∀ i < pageSize, R.bytes i = 0) :
    ∃ e, memPt (ptMap env s page 1 (some r) 0 flags).2.2 page = some e ∧ e.flags = flags ∧
      ZeroPage k (ptMap env s page 1 (some r) 0 flags).2.1 e := by
  obtain ⟨hpt, hobject, hhost⟩ := ptMap_one_spec hmalloc s hpage flags hold
  refine ⟨_, hpt, rfl, ?_, congrArg Data.refcount hobject, ?_⟩
  · rcases (entryStep_ptMap env page 1 0 flags hext hnew hr).entry page _ hpt with ⟨e, he, hkeep⟩ | hfresh
    · exact absurd hkeep.1.symm (ne_of_lt (hold e he).1)
    · exact hfresh
  · have hreg : regionOf (ptMap env s page 1 (some r) 0 flags).2.1 ⟨s.1.nextData, 0, flags⟩ = r :=
      congrArg Data.data hobject
    rw [hreg, hhost]
    simp only [Nat.zero_add]
    exact hzero

theorem ZeroPage.congr {k k₁ k₂ : Kernel} {e e' : PtEntry} (h : ZeroPage k k₁ e)
    (hdata : k₂.datas e.data = k₁.datas e.data)
    (hhost : k₂.host.regions (regionOf k₁ e) = k₁.host.regions (regionOf k₁ e))
    (hnext : k₂.nextData = k₁.nextData) (hle : k₁.host.next ≤ k₂.host.next)
    (hd : e'.data = e.data) (hoff : e'.offset = e.offset) : ZeroPage k k₂ e' := by
  have hregion : regionOf k₂ e' = regionOf k₁ e := by
    unfold regionOf
    rw [hd, hdata]
  obtain ⟨hlow, hhigh, hrlow, hrhigh⟩ := h.fresh
  refine ⟨⟨?_, ?_, ?_, ?_⟩, ?_, ?_⟩
  · rwa [hd]
  · rwa [hd, hnext]
  · rwa [hregion]
  · rw [hregion]
    exact lt_of_lt_of_le hrhigh hle
  · rw [hd, hdata]
    exact h.refcount
  · rw [hregion, hhost, hoff]
    exact h.zero

/-! ### Making a page -/

/-- The host has what `pt_map_nothing` of one page needs. -/
def HostEnv.CanMap (env : HostEnv) : Prop := env.mmap ∧ env.mallocData

/-- A page that was not there is a zero page after `materialise`, if the host has room for it. -/
theorem zeroPage_materialise (henv : env.CanMap)
    (hpage : page + 1 < wordMod) (hnone : memPt s.2 page = none) (flags : Flags) :
    ∃ e, memPt (memPtr.materialise env s page flags).2 page = some e ∧
      e.flags = flags ||| pAnonymous ∧ ZeroPage s.1 (memPtr.materialise env s page flags).1 e := by
  have hmap : ptMapNothing env (memPtr.counted s) page 1 flags =
      ptMap env (ptMapNothing.mmapped (memPtr.counted s).1 1 flags, s.2) page 1 (some s.1.host.next) 0
        (flags ||| pAnonymous) := by
    unfold ptMapNothing
    rw [if_neg Nat.one_ne_zero, if_pos henv.1]
    rfl
  have hext : s.1.Extends (ptMapNothing.mmapped (memPtr.counted s).1 1 flags) :=
    .of_datas rfl (Nat.le_succ _) fun _ => rfl
  have hzero : ∃ R, (ptMapNothing.mmapped (memPtr.counted s).1 1 flags).host.regions s.1.host.next = some R ∧
      ∀ i < pageSize, R.bytes i = 0 := by
    refine ⟨_, update_self .., fun i _ => rfl⟩
  have hpage' := zeroPage_ptMap henv.2 (s := (ptMapNothing.mmapped (memPtr.counted s).1 1 flags, s.2)) hpage
    (flags ||| pAnonymous) hext (le_refl _) (Nat.lt_succ_self _)
    (fun e he => absurd (hnone.symm.trans he) (by simp)) hzero
  rw [← hmap] at hpage'
  rcases memPtr.materialise_cases env s page flags with ⟨hsome, -⟩ | ⟨-, ⟨_, -, heq⟩ | ⟨-, heq⟩⟩
  · rw [hnone] at hsome
    exact absurd hsome (by decide)
  · rw [heq]
    exact hpage'
  · rw [heq]
    exact hpage'

theorem ptMapNothing_of_not_canMap (henv : ¬ env.CanMap) (s : Kernel × Mem) (start : Nat) {pages : Nat}
    (hpages : pages ≠ 0) (flags : Flags) : ∃ err k, ptMapNothing env s start pages flags = (.error err, k, s.2) ∧
      (k = s.1 ∨ k = ptMapNothing.mmapped s.1 pages flags) := by
  unfold ptMapNothing
  rw [if_neg hpages]
  split_ifs with hmmap
  · unfold ptMap
    dsimp only
    rw [if_neg fun hmalloc => henv ⟨hmmap, hmalloc⟩]
    exact ⟨_, _, rfl, .inr rfl⟩
  · exact ⟨_, _, rfl, .inl rfl⟩

theorem memPt_materialise_of_not (henv : ¬ env.CanMap) (s : Kernel × Mem) (page : Nat)
    (flags : Flags) : (memPtr.materialise env s page flags).2 = s.2 := by
  obtain ⟨err, k, hmap, -⟩ := ptMapNothing_of_not_canMap henv (memPtr.counted s) page Nat.one_ne_zero flags
  rcases memPtr.materialise_cases env s page flags with ⟨-, heq⟩ | ⟨-, ⟨_, -, heq⟩ | ⟨hok, -⟩⟩
  · rw [heq]
  · rw [heq, hmap]
    rfl
  · rw [hmap] at hok
    cases hok

/-! ### Writing to it -/

def rights (flags : Flags) : Flags := flags &&& (pRwx ||| pGrowsdown)

theorem rights_or (f g : Flags) : rights (f ||| g) = rights f ||| rights g :=
  BitVec.and_or_distrib_right

theorem rights_and {f mask : Flags} (h : mask &&& (pRwx ||| pGrowsdown) = pRwx ||| pGrowsdown) :
    rights (f &&& mask) = rights f := by
  unfold rights
  rw [BitVec.and_assoc, h]

theorem copied_datas (k : Kernel) (copy : RegionId) (entry : PtEntry) :
    (memPtr.copied k copy entry).datas = k.datas := by
  unfold memPtr.copied
  split_ifs <;> rfl

theorem copied_regions (k : Kernel) (copy : RegionId) (entry : PtEntry) :
    (memPtr.copied k copy entry).host.regions = update k.host.regions copy
      ((k.host.regions copy).map fun R => { R with bytes := memPtr.pageBytes k entry }) := by
  unfold memPtr.copied
  split_ifs <;> rfl

variable {e : PtEntry}

theorem zeroPage_copied (env : HostEnv) (hpage : page + 1 < wordMod)
    (hext : k.Extends s.1) (he : memPt s.2 page = some e) (hz : ZeroPage k s.1 e) (flags : Flags) :
    ∃ e', memPt (ptMap env (memPtr.copied (memPtr.withCopy s.1) s.1.host.next e, s.2) page 1
        (some s.1.host.next) 0 flags).2.2 page = some e' ∧
      ZeroPage k (ptMap env (memPtr.copied (memPtr.withCopy s.1) s.1.host.next e, s.2) page 1
        (some s.1.host.next) 0 flags).2.1 e' ∧ (e'.flags = flags ∨ e'.flags = e.flags) := by
  obtain ⟨-, hdata, -, hregion⟩ := hz.fresh
  have hne : regionOf s.1 e ≠ s.1.host.next := ne_of_lt hregion
  -- the page that is copied is still there next to the new one
  have hold : (memPtr.withCopy s.1).host.regions (regionOf s.1 e) = s.1.host.regions (regionOf s.1 e) :=
    update_of_ne hne _ _
  by_cases hmalloc : env.mallocData = true
  · obtain ⟨R, hR, hbytes⟩ := hz.zero
    have hcopy : memPtr.pageBytes (memPtr.withCopy s.1) e = fun i => R.bytes (e.offset + i) := by
      unfold memPtr.pageBytes
      rw [show (memPtr.withCopy s.1).host.regions ((memPtr.withCopy s.1).datas e.data).data = some R from hold.trans hR]
    have hzero : ∃ R, (memPtr.copied (memPtr.withCopy s.1) s.1.host.next e).host.regions s.1.host.next = some R ∧
        ∀ i < pageSize, R.bytes i = 0 := by
      refine ⟨⟨pageSize, fun _ => Prot.rw, fun i => R.bytes (e.offset + i)⟩, ?_, hbytes⟩
      have hnew : (memPtr.withCopy s.1).host.regions s.1.host.next = some ⟨pageSize, fun _ => Prot.rw, fun _ => 0⟩ :=
        update_self ..
      rw [copied_regions, update_self, hnew, hcopy]
      rfl
    obtain ⟨e', he', hflags, hz'⟩ := zeroPage_ptMap hmalloc
      (s := (memPtr.copied (memPtr.withCopy s.1) s.1.host.next e, s.2)) hpage flags
      (hext.trans ((extends_withCopy s.1).trans (extends_copied _ _ e)))
      hext.hostNext (by rw [copied_hostNext]; exact Nat.lt_succ_self _)
      (fun e' he' => by
        cases he.symm.trans he'
        refine ⟨by rw [copied_nextData]; exact hdata, ?_⟩
        unfold regionOf
        rw [copied_datas]
        exact hne) hzero
    exact ⟨e', he', hz', Or.inl hflags⟩
  · have herr : ptMap env (memPtr.copied (memPtr.withCopy s.1) s.1.host.next e, s.2) page 1
        (some s.1.host.next) 0 flags =
          (.error .enomem, memPtr.copied (memPtr.withCopy s.1) s.1.host.next e, s.2) := by
      unfold ptMap
      dsimp only
      rw [if_neg hmalloc]
    rw [herr]
    refine ⟨e, he, hz.congr ?_ ?_ ?_ ?_ rfl rfl, Or.inr rfl⟩
    · rw [copied_datas]
      rfl
    · rw [copied_regions, update_of_ne hne, hold]
    · rw [copied_nextData]
      rfl
    · rw [copied_hostNext]
      exact Nat.le_succ _

/-- **The copy of a zero page** is a zero page with the same rights. -/
theorem zeroPage_cow (fe : FaultEnv) (hpage : page + 1 < wordMod)
    (hext : k.Extends s.1) (he : memPt s.2 page = some e) (hz : ZeroPage k s.1 e) (hcow : hasAny e.flags pCow) :
    if fe.cow.mmap then ∃ s' e', memPtr.cow fe (fun _ s => s) s page = some s' ∧ memPt s'.2 page = some e' ∧
        ZeroPage k s'.1 e' ∧ rights e'.flags = rights e.flags else memPtr.cow fe (fun _ s => s) s page = none := by
  unfold memPtr.cow
  simp only [Option.map_id']
  split_ifs with hmmap
  · have hres := memPtr.resolveCow_of_cow fe.cow (memPtr.withCopy s.1) he hcow s.1.host.next
    obtain ⟨e', he', hz', hflags⟩ := zeroPage_copied fe.cow hpage hext he hz (e.flags &&& ~~~pCow)
    refine ⟨_, e', hres, he', hz', ?_⟩
    rcases hflags with hflags | hflags
    · rw [hflags]
      exact rights_and (by decide)
    · rw [hflags]
  · unfold memPtr.resolveCow
    rw [he]
    simp only [Option.filter_some, hcow, if_true]

/-- `mem_ptr` once the page is there or could not be made. -/
def memPtr.access (fe : FaultEnv) (s : Kernel × Mem) (addr : Nat) (type : AccessType) :
    Option (Option HostPtr × Kernel × Mem) :=
  match type, memPt s.2 (pageOf addr) with
  | .read, _ | _, none => some (memPtrNofault s addr type, s)
  | _, some entry =>
    match memPtr.prepareWrite fe (fun _ s => s) s (pageOf addr) type entry with
    | none => none
    | some (false, s) => some (none, s)
    | some (true, s) => some (memPtrNofault s addr type, s)

theorem memPtr_eq (fe : FaultEnv) (s : Kernel × Mem) (addr : Nat) (type : AccessType) : memPtr fe s addr type =
      match memPtr.fault fe (fun _ s => s) s (pageOf addr) with
      | (false, s) => some (none, s)
      | (true, s) => memPtr.access fe s addr type := rfl

/-- What a write to a zero page leaves, when the host has memory for its copy. -/
theorem zeroPage_prepareWrite (fe : FaultEnv) (hpage : page + 1 < wordMod) (type : AccessType) (hext : k.Extends s.1)
    (he : memPt s.2 page = some e) (hz : ZeroPage k s.1 e) :
    memPtr.prepareWrite fe (fun _ s => s) s page type e = none ∧ ¬ fe.cow.mmap ∨
    ∃ ok s' e', memPtr.prepareWrite fe (fun _ s => s) s page type e = some (ok, s') ∧
      memPt s'.2 page = some e' ∧ ZeroPage k s'.1 e' ∧ rights e'.flags = rights (memPtr.writeFlags type e.flags) ∧
      (type = .write → ¬ hasAny e.flags pWrite → ok = false) := by
  unfold memPtr.prepareWrite
  split_ifs with hw hcow
  · refine .inr ⟨false, s, e, rfl, he, hz, ?_, fun _ _ => rfl⟩
    rw [hw.1]
    rfl
  all_goals
    have htouch : memPt (memPtr.touch s page type e).2 page =
        some { e with flags := memPtr.writeFlags type e.flags } := by
      rw [memPt_touch s page page type he, if_pos rfl]
    have hz' : ZeroPage k (memPtr.touch s page type e).1 { e with flags := memPtr.writeFlags type e.flags } :=
      hz.congr rfl rfl rfl (le_refl _) rfl rfl
    have hrefused : type = .write → ¬ hasAny e.flags pWrite → true = false :=
      fun htype hno => absurd ⟨htype, hno⟩ hw
  · have hext' : k.Extends (memPtr.touch s page type e).1 := hext
    have hcopy := zeroPage_cow fe hpage hext' htouch hz' hcow
    split_ifs at hcopy with hmmap
    · obtain ⟨s', e', hcopy, he', hz', hrights⟩ := hcopy
      exact .inr ⟨true, s', e', congrArg (Option.map fun s => (true, s)) hcopy, he', hz', hrights, hrefused⟩
    · exact .inl ⟨congrArg (Option.map fun s => (true, s)) hcopy, hmmap⟩
  · exact .inr ⟨true, _, _, rfl, htouch, hz', rfl, hrefused⟩

theorem zeroPage_access (fe : FaultEnv) {addr : Nat}
    (hpage : pageOf addr + 1 < wordMod) (type : AccessType) (hext : k.Extends s.1)
    (he : memPt s.2 (pageOf addr) = some e) (hz : ZeroPage k s.1 e) :
    memPtr.access fe s addr type = none ∧ ¬ fe.cow.mmap ∨ ∃ ptr s' e', memPtr.access fe s addr type = some (ptr, s') ∧
      memPt s'.2 (pageOf addr) = some e' ∧ ZeroPage k s'.1 e' ∧
      rights e'.flags = rights (memPtr.writeFlags type e.flags) ∧
      (type = .write → ¬ hasAny e.flags pWrite → ptr = none) := by
  have hwrite := zeroPage_prepareWrite fe hpage type hext he hz
  unfold memPtr.access
  rw [he]
  cases type with
  | read => exact .inr ⟨_, s, e, rfl, he, hz, rfl, nofun⟩
  | write | writePtrace =>
    dsimp only
    rcases hwrite with ⟨hnone, hmmap⟩ | ⟨_ | _, s', e', hsome, he', hz', hrights, hok⟩
    · rw [hnone]
      exact .inl ⟨rfl, hmmap⟩
    · rw [hsome]
      exact .inr ⟨none, s', e', rfl, he', hz', hrights, fun _ _ => rfl⟩
    · rw [hsome]
      exact .inr ⟨_, s', e', rfl, he', hz', hrights, fun htype hno => absurd (hok htype hno) nofun⟩

/-! ### The fault -/

/-- The missing page cannot be made: inside the JIT the write lock is not free, or the host has no memory. -/
def FaultEnv.Blocked (fe : FaultEnv) : Prop := fe.inJit ∧ ¬ fe.trywrlock ∨ ¬ fe.host.CanMap

/-- How `mem_ptr` goes on when it has decided to make the page with `flags`. -/
theorem upgrade_cases (fe : FaultEnv) {addr : Nat} (hpage : pageOf addr + 1 < wordMod)
    (type : AccessType) (hnone : memPt s.2 (pageOf addr) = none) {flags : Mem → Flags}
    (hfault : memPtr.fault fe (fun _ s => s) s (pageOf addr) = memPtr.upgrade fe (fun _ s => s) s (pageOf addr) flags) :
    fe.Blocked ∧ (∃ s', memPtr fe s addr type = some (none, s') ∧ memPt s'.2 (pageOf addr) = none) ∨
    memPtr fe s addr type = none ∧ ¬ fe.cow.mmap ∨
    ∃ ptr s' e', memPtr fe s addr type = some (ptr, s') ∧ memPt s'.2 (pageOf addr) = some e' ∧ ZeroPage s.1 s'.1 e' ∧
      rights e'.flags = rights (memPtr.writeFlags type (flags s.2 ||| pAnonymous)) ∧
      (type = .write → ¬ hasAny (flags s.2 ||| pAnonymous) pWrite → ptr = none) := by
  rw [memPtr_eq, hfault]
  unfold memPtr.upgrade
  by_cases hlock : (fe.inJit && !fe.trywrlock) = true
  · rw [if_pos hlock]
    exact .inl ⟨.inl (by simpa using hlock), s, rfl, hnone⟩
  rw [if_neg hlock]
  dsimp only
  by_cases henv : fe.host.CanMap
  · obtain ⟨e, he, hflags, hz⟩ := zeroPage_materialise henv hpage hnone (flags s.2)
    have haccess := zeroPage_access fe hpage type (entryStep_materialise fe.host s _ _).ext he hz
    rw [hflags] at haccess
    exact .inr haccess
  · have hmem := memPt_materialise_of_not henv s (pageOf addr) (flags s.2)
    have hstill : memPt (memPtr.materialise fe.host s (pageOf addr) (flags s.2)).2 (pageOf addr) = none := by
      rw [hmem]
      exact hnone
    refine .inl ⟨.inr henv, _, ?_, hstill⟩
    unfold memPtr.access memPtrNofault
    rw [hstill]
    cases type <;> rfl

theorem resFlags_of_find {m : Mem} (hm : ReservationNames m) {res : MemReservation}
    (hres : memFindReservation m page = some res) (stale : Flags) : memPtr.resFlags stale m res = res.flags := by
  unfold memPtr.resFlags
  rw [find_id hm (List.mem_of_find?_eq_some hres)]

/-- The flags of a page made from a reservation. -/
def lazyFlags (res : MemReservation) : Flags := (res.flags &&& ~~~pGrowsdown) ||| pAnonymous

theorem rights_lazyFlags (res : MemReservation) : rights (lazyFlags res) = res.flags &&& pRwx := by
  have hmask : ~~~pGrowsdown &&& (pRwx ||| pGrowsdown) = pRwx := by decide
  have hanon : rights pAnonymous = 0#32 := by decide
  unfold lazyFlags
  rw [rights_or, hanon, BitVec.or_zero]
  unfold rights
  rw [BitVec.and_assoc, hmask]

theorem hasAny_lazyFlags (res : MemReservation) : hasAny (lazyFlags res) pWrite = hasAny res.flags pWrite := by
  have hanon : hasAny pAnonymous pWrite = false := by decide
  unfold lazyFlags
  rw [hasAny_or, hasAny_and_of_subset (by decide), hanon, Bool.or_false]

/-- Setting the one bit of `P_WRITE` where it is set. -/
theorem or_pWrite_of_hasAny {f : Flags} (h : hasAny f pWrite) : f ||| pWrite = f := by
  have hbit : pWrite = BitVec.twoPow 32 1 := by decide
  have hset : f.getLsbD 1 = true := by
    by_contra hno
    rw [hbit] at h
    unfold hasAny at h
    rw [BitVec.and_twoPow, if_neg hno] at h
    exact absurd h (by decide)
  have hand : f &&& pWrite = pWrite := by rw [hbit, BitVec.and_twoPow, if_pos hset]
  calc f ||| pWrite = f ||| (f &&& pWrite) := by rw [hand]
    _ = f := by
      ext i hi
      simpa using fun hf _ => hf

/-- The rights of a page made from a reservation after an access; a tracer's write adds `P_WRITE`. -/
theorem rights_writeFlags_lazyFlags {type : AccessType} {res : MemReservation}
    (h : type = .writePtrace → hasAny res.flags pWrite) :
    rights (memPtr.writeFlags type (lazyFlags res)) = res.flags &&& pRwx := by
  unfold memPtr.writeFlags
  split_ifs with htype
  · have hadd : rights (pWrite ||| pCow) = pWrite := by decide
    rw [rights_or, rights_lazyFlags, hadd]
    apply or_pWrite_of_hasAny
    rw [hasAny_and_of_subset (by decide)]
    exact h htype
  · exact rights_lazyFlags res

/-- A page that `mem_ptr` maps is a zero page with the rights of the reservation, and a write to a reservation
without `P_WRITE` fails. -/
def LazyPage (fe : FaultEnv) (s : Kernel × Mem) (addr : Nat) (type : AccessType) (res : MemReservation) : Prop :=
  ∀ ptr s', memPtr fe s addr type = some (ptr, s') →
    (∀ e, memPt s'.2 (pageOf addr) = some e →
      ZeroPage s.1 s'.1 e ∧ e.flags &&& (pRwx ||| pGrowsdown) = res.flags &&& pRwx) ∧
    (type = .write → ¬ hasAny res.flags pWrite → ptr = none)

/-- On which the page gets the rights of its reservation: the next region above does not grow down, or has reached
the limit of the stack; and a tracer writes only where the process may. -/
def KeepsRights (stackLimit : Nat) (m : Mem) (page : Nat) (type : AccessType) (res : MemReservation) : Prop :=
  if memPtr.growsDown m page then memPtr.overStackLimit stackLimit page = true
  else type = .writePtrace → hasAny res.flags pWrite

section

variable {s : Kernel × Mem} {addr : Nat} {res : MemReservation}

theorem fault_of_reserved (fe : FaultEnv) (hm : ReservationNames s.2) (hnone : memPt s.2 (pageOf addr) = none)
    (hres : memFindReservation s.2 (pageOf addr) = some res) : memPtr.fault fe (fun _ s => s) s (pageOf addr) =
      if memPtr.growsDown s.2 (pageOf addr) then if memPtr.overStackLimit fe.stackLimit (pageOf addr) then (false, s)
        else memPtr.upgrade fe (fun _ s => s) s (pageOf addr) fun _ => pWrite ||| pGrowsdown
      else memPtr.upgrade fe (fun _ s => s) s (pageOf addr) fun _ => res.flags &&& ~~~pGrowsdown := by
  unfold memPtr.fault memPtr.plan
  rw [hnone, if_neg (by simp)]
  split_ifs
  · rfl
  · rfl
  · rw [hres]
    unfold memPtr.upgrade
    dsimp only
    rw [resFlags_of_find hm hres]

theorem pageOf_of_reserved (hres : memFindReservation s.2 (pageOf addr) = some res) : pageOf addr + 1 < wordMod := by
  have hcovers := List.find?_some (p := fun r : MemReservation => r.covers (pageOf addr)) hres
  have hlt := (MemReservation.covers_iff.mp hcovers).2.2
  unfold memPages at hlt
  unfold wordMod
  omega

theorem FaultEnv.good_not_blocked (stackLimit : Nat) : ¬ { FaultEnv.good with stackLimit := stackLimit }.Blocked ∧
      { FaultEnv.good with stackLimit := stackLimit }.cow.mmap := by
  refine ⟨?_, rfl⟩
  rintro (⟨hjit, -⟩ | hmap)
  · cases hjit
  · exact hmap ⟨rfl, rfl⟩

/-- On a host that refuses nothing the page is made, and it has the rights that `LazyPage` says. -/
theorem rights_of_lazyPage {fe : FaultEnv} (hgood : ¬ fe.Blocked ∧ fe.cow.mmap) (hpage : pageOf addr + 1 < wordMod)
    {type : AccessType} (hnone : memPt s.2 (pageOf addr) = none) {flags : Mem → Flags}
    (hfault : memPtr.fault fe (fun _ s => s) s (pageOf addr) =
      memPtr.upgrade fe (fun _ s => s) s (pageOf addr) flags) (h : LazyPage fe s addr type res) :
    rights (memPtr.writeFlags type (flags s.2 ||| pAnonymous)) = res.flags &&& pRwx := by
  rcases upgrade_cases fe hpage type hnone hfault with ⟨hblocked, -⟩ | ⟨-, hmmap⟩ | ⟨ptr, s', e, hs', he, -, hrights, -⟩
  · exact absurd hblocked hgood.1
  · exact absurd hgood.2 hmmap
  · exact hrights.symm.trans ((h ptr s' hs').1 e he).2

end

/-- Pages reserved read-only from `0x10000000` on, with nothing mapped above them. -/
def reservedOnly : Mem := { memInit with reservations := [⟨0, 0x10000, 16, pRead⟩], nextReservation := 1 }

/-- The next mapped page above `page`. -/
theorem memPtr.nextMapped_eq {m : Mem} {page n : Nat} (hpage : page < n) (hn : n < memPages)
    (hgap : ∀ q, page < q → q < n → memPt m q = none) (hsome : (memPt m n).isSome) : nextMapped m page = n := by
  -- `mem_next_page` does not go past a mapped page
  have hnext : ∀ p, p < n → p < memNextPage m p ∧ memNextPage m p ≤ n := by
    intro p hp
    refine ⟨lt_memNextPage m p, not_lt.mp fun hskip => ?_⟩
    rw [memPt_eq_none_of_lt_memNextPage m hp hskip] at hsome
    exact absurd hsome (by decide)
  have hgo : ∀ fuel p, page < p → p ≤ n → n < p + fuel → nextMapped.go m fuel p = n := by
    intro fuel
    induction fuel with
    | zero => omega
    | succ fuel ih =>
      intro p hlow hhigh hfuel
      unfold nextMapped.go
      rcases Nat.eq_or_lt_of_le hhigh with rfl | hlt
      · rw [if_neg]
        rintro ⟨-, hnone⟩
        rw [Option.isNone_iff_eq_none.mp hnone] at hsome
        exact absurd hsome (by decide)
      · rw [if_pos ⟨by omega, by rw [hgap p hlow hlt]; rfl⟩]
        have hp := hnext p hlt
        exact ih _ (by omega) hp.2 (by omega)
  have hp := hnext page hpage
  exact hgo memPages _ hp.1 hp.2 (by omega)

/-- The same pages reserved far below a stack. -/
def reservedBelowStack : Mem := memPtNew reservedOnly 0xffffd ⟨0, 0, pWrite ||| pGrowsdown⟩

end Ish
