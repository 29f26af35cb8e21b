import Ish.Memory.Equiv.RefCount
import Ish.Memory.Equiv.World

/-!
# Entries keep their objects alive

The number of entries that point to an object, over all address spaces, and the proof that every
operation keeps the counts of the kernel equal to it. A 32-bit counter cannot tell `2^32` entries
from none, so the operations are held to fewer.
-/

namespace Ish

open Lib Function

variable {ι : Type}

/-! ### Entries and their numbers -/

def slots (m : Mem) (q : Fin memPages) : Option DataId := (memPt m q).map PtEntry.data

def allSlots (ms : ι → Mem) (p : ι × Fin memPages) : Option DataId := slots (ms p.1) p.2

/-- The number of entries, over all address spaces, that point to `d`. -/
noncomputable def refs (ms : ι → Mem) (d : DataId) : Nat := tally (allSlots ms) d

def slotOf (page : Nat) : Fin memPages := ⟨page % memPages, Nat.mod_lt page (by decide)⟩

theorem eq_slotOf_iff (q : Fin memPages) (page : Nat) : q = slotOf page ↔ (q : Nat) % memPages = page % memPages := by
  rw [Fin.ext_iff, Nat.mod_eq_of_lt q.isLt]
  rfl

theorem slots_slotOf (m : Mem) (page : Nat) : slots m (slotOf page) = (memPt m page).map PtEntry.data :=
  congrArg (Option.map PtEntry.data) (memPt_congr m (Nat.mod_mod page memPages))

theorem refs_ne_zero [Finite ι] {ms : ι → Mem} {i : ι} {page : Nat} {e : PtEntry}
    (h : memPt (ms i) page = some e) : refs ms e.data ≠ 0 := by
  apply tally_ne_zero (x := (i, slotOf page))
  change slots (ms i) (slotOf page) = _
  rw [slots_slotOf, h]
  rfl

variable [DecidableEq ι]

/-- Only the objects behind the entries matter. -/
theorem refs_congr (ms : ι → Mem) (i : ι) {m m' : Mem}
    (h : ∀ q, (memPt m' q).map PtEntry.data = (memPt m q).map PtEntry.data) :
    refs (update ms i m') = refs (update ms i m) := by
  have hslots : allSlots (update ms i m') = allSlots (update ms i m) := by
    funext p
    unfold allSlots slots
    by_cases hp : p.1 = i
    · rw [hp, update_self, update_self]
      exact h p.2
    · rw [update_of_ne hp, update_of_ne hp]
  unfold refs
  rw [hslots]

theorem allSlots_update (ms : ι → Mem) (i : ι) {m m' : Mem} {page : Nat} {x : Option PtEntry}
    (h : ∀ q, memPt m' q = if q % memPages = page % memPages then x else memPt m q) : allSlots (update ms i m') =
      update (allSlots (update ms i m)) (i, slotOf page) (x.map PtEntry.data) := by
  funext p
  obtain ⟨j, q⟩ := p
  unfold allSlots slots
  by_cases hj : j = i
  · subst hj
    by_cases hq : q = slotOf page
    · rw [hq, update_self, update_self, h, if_pos ((eq_slotOf_iff _ _).1 rfl)]
    · have hne : (j, q) ≠ (j, slotOf page) := fun heq => hq (Prod.mk.inj heq).2
      rw [update_of_ne hne, update_self, update_self, h,
        if_neg fun hmod => hq ((eq_slotOf_iff q page).2 hmod)]
  · have hne : (j, q) ≠ (i, slotOf page) := fun heq => hj (Prod.mk.inj heq).1
    rw [update_of_ne hne, update_of_ne hj, update_of_ne hj]

/-- The state of an operation on address space `i` keeps track of all objects. -/
def OpTracks (n : DataId) (k₀ : Kernel) (f₀ : DataId → Nat) (ms : ι → Mem) (i : ι) (s : Kernel × Mem) : Prop :=
  Tracks n k₀ f₀ s.1 (refs (Function.update ms i s.2))

theorem quiet_anon (k : Kernel) (n : Int) : k.Quiet { k with anonPageCount := n } :=
  .of_host rfl rfl (le_refl _) fun _ _ => rfl

theorem OpTracks.congr {n : DataId} {k₀ : Kernel} {f₀ : DataId → Nat} {ms : ι → Mem} {i : ι}
    {s s' : Kernel × Mem} (h : OpTracks n k₀ f₀ ms i s) (hq : s.1.Quiet s'.1)
    (hm : ∀ q, (memPt s'.2 q).map PtEntry.data = (memPt s.2 q).map PtEntry.data) : OpTracks n k₀ f₀ ms i s' := by
  unfold OpTracks
  rw [refs_congr ms i hm]
  exact h.quiet hq

variable [Finite ι]

/-- An entry that is cleared. -/
theorem refs_clear (ms : ι → Mem) (i : ι) {m m' : Mem} {page : Nat} {e : PtEntry} (he : memPt m page = some e)
    (h : ∀ q, memPt m' q = if q % memPages = page % memPages then none else memPt m q) :
    refs (update ms i m') = update (refs (update ms i m)) e.data (refs (update ms i m) e.data - 1) := by
  unfold refs
  rw [allSlots_update ms i h]
  apply tally_clear
  change slots (update ms i m i) (slotOf page) = _
  rw [slots_slotOf, update_self, he]
  rfl

theorem refs_fill (ms : ι → Mem) (i : ι) {m m' : Mem} {page : Nat} (e : PtEntry) (he : memPt m page = none)
    (h : ∀ q, memPt m' q = if q % memPages = page % memPages then some e else memPt m q) :
    refs (update ms i m') = update (refs (update ms i m)) e.data (refs (update ms i m) e.data + 1) := by
  unfold refs
  rw [allSlots_update ms i h]
  apply tally_fill
  change slots (update ms i m i) (slotOf page) = _
  rw [slots_slotOf, update_self, he]
  rfl

/-! ### Unmapping -/

section Operations

variable {n : DataId} {k₀ : Kernel} {f₀ : DataId → Nat} {ms : ι → Mem} {i : ι}

variable {s : Kernel × Mem}

theorem OpTracks.unmapBody (h : OpTracks n k₀ f₀ ms i s) (page : Nat) :
    OpTracks n k₀ f₀ ms i (ptUnmapAlways.body page s) := by
  have hpt := fun q => ptUnmapAlways.memPt_body page q s
  unfold ptUnmapAlways.body at hpt ⊢
  cases he : memPt s.2 page with
  | none => exact h
  | some e =>
    rw [he] at hpt
    dsimp only at hpt ⊢
    unfold OpTracks
    rw [refs_clear ms i he hpt]
    have hne : refs (update ms i s.2) e.data ≠ 0 :=
      @refs_ne_zero _ _ _ i page _ (by rw [update_self, he])
    split_ifs
    · exact (h.quiet (quiet_anon s.1 _)).release hne
    · exact h.release hne

theorem OpTracks.unmapAlways (h : OpTracks n k₀ f₀ ms i s) (env : HostEnv)
    (start pages : Nat) : OpTracks n k₀ f₀ ms i (ptUnmapAlways env s start pages) := by
  rw [ptUnmapAlways_eq]
  refine OpTracks.congr (s := forRange ptUnmapAlways.body (loopCount start pages) start
    (s.1, ptUnmapAlways.enter env s.2 start pages)) ?_ (.refl _) fun _ => rfl
  refine forRange_inv (OpTracks n k₀ f₀ ms i) ?_ fun page t _ _ ht => ht.unmapBody page
  refine h.congr (.refl _) fun q => ?_
  rw [memPt_eq_of_pgdir (ptUnmapAlways.enter_pgdir env s.2 start pages) q]

/-! ### Mapping -/

variable {page : Nat}

theorem OpTracks.put (h : OpTracks n k₀ f₀ ms i s) {e : PtEntry}
    (hnone : memPt s.2 page = none) (hlive : (s.1.datas e.data).live)
    (hfit : refs (update ms i (memPtNew s.2 page e)) e.data < refMod)
    (hold : e.data < n → refs (update ms i s.2) e.data ≠ 0) :
    OpTracks n k₀ f₀ ms i (dataRetain s.1 e.data, memPtNew s.2 page e) := by
  have hfill := refs_fill ms i e hnone fun q => memPt_memPtNew s.2 page q e
  rw [hfill, update_self] at hfit
  unfold OpTracks
  rw [hfill]
  exact Tracks.retain h hlive hfit hold

variable {start : Nat}

theorem refs_le_of_touches {m m' : Mem} {d : DataId} {N : Nat} (h0 : refs (update ms i m) d = 0)
    (h : ∀ q e, memPt m' q = some e → e.data = d → Touches start N q) : refs (update ms i m') d ≤ N := by
  have hle : refs (update ms i m') d ≤
      refs (update ms i m) d + tally (fun _ : Fin N => some d) d := by
    apply tally_le_add fun y : Fin N => (i, slotOf (start + y))
    rintro ⟨j, q⟩ hq
    by_cases hj : j = i
    · subst hj
      unfold allSlots slots at hq
      rw [update_self] at hq
      obtain ⟨e, he, hd⟩ := Option.map_eq_some_iff.1 hq
      obtain ⟨p, h1, h2, h3⟩ := h q e he hd
      refine Or.inr ⟨⟨p - start, by omega⟩, ?_, rfl⟩
      rw [Nat.add_sub_cancel' h1, (eq_slotOf_iff q p).2 h3]
    · left
      unfold allSlots at hq ⊢
      rwa [update_of_ne hj] at hq ⊢
  have htally := tally_le (fun _ : Fin N => some d) d
  omega

theorem succ_lt_of_loop {pages j : Nat} (h : j < start + loopCount start pages)
    (hle : start ≤ j) : j + 1 < wordMod := by
  have hstop : loopStop start pages < wordMod := Nat.mod_lt _ (by decide)
  unfold loopCount at h
  omega

theorem ptUnmapAlways_one_kernel (env : HostEnv) (s : Kernel × Mem) (hpage : page + 1 < wordMod) :
    (ptUnmapAlways env s page 1).1 = (ptUnmapAlways.body page s).1 := by
  rw [ptUnmapAlways_eq, loopCount_one hpage]
  change (ptUnmapAlways.body page (s.1, ptUnmapAlways.enter env s.2 page 1)).1 = _
  unfold ptUnmapAlways.body
  rw [memPt_eq_of_pgdir (ptUnmapAlways.enter_pgdir env s.2 page 1) page]
  cases memPt s.2 page with
  | none => rfl
  | some e => rfl

theorem memPt_ptUnmapAlways_one (env : HostEnv) (s : Kernel × Mem)
    (hpage : page + 1 < wordMod) : memPt (ptUnmapAlways env s page 1).2 page = none := by
  rw [memPt_ptUnmapAlways, if_pos]
  rw [loopCount_one hpage, touches_one]

theorem not_touches_next {j : Nat} (hle : start ≤ j) (hlt : j - start < memPages) :
    ¬ Touches start (j - start) j := by
  rintro ⟨p, h1, h2, h3⟩
  unfold memPages at hlt h3
  omega

/-- The state of the loop of `pt_map` before page `j`: the new object is there, with entries for
the pages before `j` only. -/
structure MapTracks (n : DataId) (k₀ : Kernel) (f₀ : DataId → Nat) (ms : ι → Mem) (i : ι)
    (data : DataId) (start j : Nat) (s : Kernel × Mem) : Prop where
  tracks : OpTracks n k₀ f₀ ms i s
  live : (s.1.datas data).live
  only : ∀ q e, memPt s.2 q = some e → e.data = data → Touches start (j - start) q

/-- An old page goes, the object of the new one stays. -/
theorem MapTracks.unmap {data : DataId} {j : Nat}
    (h : MapTracks n k₀ f₀ ms i data start j s) (env : HostEnv) (hle : start ≤ j)
    (hlt : j - start < memPages) (hword : j + 1 < wordMod) :
    MapTracks n k₀ f₀ ms i data start j (ptUnmapAlways env s j 1) := by
  refine ⟨h.tracks.unmapAlways env j 1, ?_, fun q e he => h.only q e ?_⟩
  · rw [ptUnmapAlways_one_kernel env s hword]
    unfold ptUnmapAlways.body
    cases he : memPt s.2 j with
    | none => exact h.live
    | some e =>
      have hne : data ≠ e.data :=
        fun heq => not_touches_next hle hlt (h.only j e he heq.symm)
      dsimp only
      split_ifs
      · simpa [dataRelease, hne] using h.live
      · simpa [dataRelease, hne] using h.live
  · rw [memPt_ptUnmapAlways] at he
    split_ifs at he
    exact he

theorem MapTracks.body {data : DataId} {N j : Nat} {m₀ : Mem}
    (h : MapTracks n k₀ f₀ ms i data start j s) (env : HostEnv) (offset : Nat) (flags : Flags)
    (hnew : refs (update ms i m₀) data = 0) (hn : n ≤ data) (hfit : N < refMod)
    (hle : start ≤ j) (hlt : j < start + N) (hword : j + 1 < wordMod) :
    MapTracks n k₀ f₀ ms i data start (j + 1) (ptMap.body env data start offset flags j s) := by
  have hN : N < memPages := lt_trans hfit (by decide)
  -- the entry goes into an empty slot
  have hput : ∀ t off, MapTracks n k₀ f₀ ms i data start j t → memPt t.2 j = none →
      MapTracks n k₀ f₀ ms i data start (j + 1)
        (dataRetain t.1 data, memPtNew t.2 j ⟨data, off, flags⟩) := by
    intro t off ht hnone
    have honly : ∀ q e', memPt (memPtNew t.2 j ⟨data, off, flags⟩) q = some e' → e'.data = data →
        Touches start (j + 1 - start) q := by
      intro q e' he' hd'
      rw [Nat.sub_add_comm hle, touches_succ, Nat.add_sub_cancel' hle]
      rw [memPt_memPtNew] at he'
      split_ifs at he' with hq
      · exact Or.inr hq
      · exact Or.inl (ht.only q e' he' hd')
    refine ⟨ht.tracks.put (e := ⟨data, off, flags⟩) hnone ht.live ?_ fun hlt' => ?_, ?_, honly⟩
    · have hcount := refs_le_of_touches hnew honly
      exact lt_of_le_of_lt hcount (by omega)
    · exact absurd hlt' (Nat.not_lt.2 hn)
    · simpa [dataRetain] using ht.live
  cases he : memPt s.2 j with
  | none =>
    rw [ptMap.body_eq_of_none env data start offset flags he]
    exact hput s _ h he
  | some e =>
    rw [ptMap.body_eq_of_isSome env data start offset flags (by simp [he])]
    exact hput _ _ (h.unmap env hle (by omega) hword) (memPt_ptUnmapAlways_one env s hword)

theorem OpTracks.map (h : OpTracks n k₀ f₀ ms i s) (env : HostEnv)
    (start pages : Nat) (memory : Option RegionId) (offset : Nat) (flags : Flags)
    (hfit : loopCount start pages < refMod) (hr : ∀ r, memory = some r → r < s.1.host.next)
    (hown : ∀ r, memory = some r → r ≠ vdsoData →
      (s.1.host.regions r).isSome ∧ ∀ d, d < s.1.nextData → (s.1.datas d).data ≠ r) :
    OpTracks n k₀ f₀ ms i (ptMap env s start pages memory offset flags).2 := by
  rcases ptMap_cases env s start pages memory offset flags with ⟨err, heq⟩ | ⟨r, hmem, -, heq⟩
  · rw [heq]
    exact h
  rw [heq]
  have hzero : refs (update ms i s.2) s.1.nextData = 0 := by
    cases hlive : (s.1.datas s.1.nextData).live with
    | true => exact absurd (h.counted.live_lt _ hlive) (Nat.lt_irrefl _)
    | false => exact h.counted.dead _ hlive
  have hinit : MapTracks n k₀ f₀ ms i s.1.nextData start start
      (ptMap.newData s.1 pages r offset, s.2) := by
    refine ⟨Tracks.newData h pages offset (hr r hmem) (hown r hmem), by simp [ptMap.newData], ?_⟩
    intro q e he hd
    refine absurd hzero ?_
    rw [← hd]
    exact @refs_ne_zero _ _ _ i q _ (by rw [update_self, he])
  have hloop := forRange_induct (f := ptMap.body env s.1.nextData start offset flags)
    (n := loopCount start pages) (MapTracks n k₀ f₀ ms i s.1.nextData start) hinit
    fun j t hle hlt ht =>
      ht.body env offset flags hzero h.next hfit hle hlt (succ_lt_of_loop hlt hle)
  exact hloop.tracks.congr (.refl _) fun _ => rfl

variable {k : Kernel}

theorem Counted.mmap_unowned {f : DataId → Nat} (h : Counted k f) {d : DataId}
    (hd : d < k.nextData) : (k.datas d).data ≠ k.host.next :=
  Nat.ne_of_lt (h.region_lt d hd)

theorem Counted.quiet_mmap {f : DataId → Nat} (h : Counted k f) (size : Nat)
    (prot : Prot) (bytes : Nat → UInt8) : k.Quiet { k with host := (k.host.mmap size prot bytes).2 } := by
  refine .of_host rfl rfl (Nat.le_succ _) fun d hd => ?_
  simp [Host.mmap, h.mmap_unowned hd]

theorem OpTracks.mapNothing (h : OpTracks n k₀ f₀ ms i s) (env : HostEnv)
    (start pages : Nat) (flags : Flags) (hfit : loopCount start pages < refMod) :
    OpTracks n k₀ f₀ ms i (ptMapNothing env s start pages flags).2 := by
  have hmmap : OpTracks n k₀ f₀ ms i (ptMapNothing.mmapped s.1 pages flags, s.2) :=
    h.congr (h.counted.quiet_mmap _ _ _) fun _ => rfl
  refine ptMapNothing_inv env start pages flags h (hmmap.map env start pages _ 0 _ hfit ?_ ?_)
  · rintro r ⟨⟩
    exact Nat.lt_succ_self _
  · rintro r ⟨⟩ -
    exact ⟨by simp [ptMapNothing.mmapped, Host.mmap], fun d hd => h.counted.mmap_unowned hd⟩

/-! ### Protecting -/

theorem isSome_mprotect (h : Host) (r r' : RegionId) (hostPage : Nat) (prot : Prot) :
    ((h.mprotect r hostPage prot).regions r').isSome = (h.regions r').isSome := by
  unfold Host.mprotect
  by_cases hr : r' = r
  · simp [hr]
  · simp [hr]

theorem quiet_ptSetFlags (realPageSize : Nat) (env : HostEnv) (s : Kernel × Mem) (start pages : Nat) (flags : Flags) :
    s.1.Quiet (ptSetFlags realPageSize env s start pages flags).2.1 :=
  ptSetFlags_inv realPageSize env start pages flags (P := fun t => s.1.Quiet t.1) (.refl _) (fun _ _ _ h => h)
    (fun _ _ h => h.trans (.of_host rfl rfl (le_refl _) fun _ _ => isSome_mprotect _ _ _ _ _)) (fun _ h => h) fun _ h => h

omit [Finite ι] in
theorem OpTracks.setFlags (h : OpTracks n k₀ f₀ ms i s) (realPageSize : Nat)
    (env : HostEnv) (start pages : Nat) (flags : Flags) :
    OpTracks n k₀ f₀ ms i (ptSetFlags realPageSize env s start pages flags).2 := by
  refine h.congr (quiet_ptSetFlags realPageSize env s start pages flags) fun q => ?_
  obtain ⟨N, -, -, -, hpt⟩ := memPt_ptSetFlags realPageSize env s start pages flags
  rw [hpt q]
  split_ifs
  · cases memPt s.2 q <;> rfl
  · rfl

/-! ### Faults -/

theorem loopCount_one_lt_refMod (page : Nat) : loopCount page 1 < refMod := by
  have hmod := Nat.mod_le (page + 1) wordMod
  unfold loopCount loopStop refMod
  omega

theorem OpTracks.materialise (h : OpTracks n k₀ f₀ ms i s) (env : HostEnv) (page : Nat) (flags : Flags) :
    OpTracks n k₀ f₀ ms i (memPtr.materialise env s page flags) := by
  have hcount : OpTracks n k₀ f₀ ms i (memPtr.counted s) :=
    h.congr (quiet_anon _ _) fun _ => rfl
  exact memPtr.materialise_inv env h (fun _ => hcount.mapNothing env page 1 flags (loopCount_one_lt_refMod page))
    fun _ ht => ht.congr (.refl _) fun _ => rfl

omit [Finite ι] in
theorem OpTracks.touch (h : OpTracks n k₀ f₀ ms i s)
    (type : AccessType) {entry : PtEntry} (hentry : memPt s.2 page = some entry) :
    OpTracks n k₀ f₀ ms i (memPtr.touch s page type entry) := by
  refine h.congr (.refl _) fun q => ?_
  rw [memPt_touch s page q type hentry]
  split_ifs with hq
  · rw [memPt_congr s.2 hq, hentry]
    rfl
  · rfl

theorem isSome_copied (k : Kernel) (copy r : RegionId) (entry : PtEntry) :
    ((memPtr.copied k copy entry).host.regions r).isSome = (k.host.regions r).isSome := by
  unfold memPtr.copied memPtr.fill
  dsimp only
  by_cases hr : r = copy
  · split_ifs <;> simp [hr]
  · split_ifs <;> simp [hr]

theorem quiet_copied (k : Kernel) (copy : RegionId) (entry : PtEntry) : k.Quiet (memPtr.copied k copy entry) := by
  have hdatas : (memPtr.copied k copy entry).datas = k.datas := by
    unfold memPtr.copied memPtr.fill
    dsimp only
    split_ifs <;> rfl
  exact .of_host hdatas (copied_nextData k copy entry) (copied_hostNext k copy entry).ge
    fun _ _ => isSome_copied _ _ _ _

theorem OpTracks.resolveCow {s s' : Kernel × Mem} (h : OpTracks n k₀ f₀ ms i s) {env : HostEnv}
    {copy : Option RegionId} (hres : memPtr.resolveCow env s page copy = some s')
    (hcopy : ∀ r, copy = some r → r < s.1.host.next ∧ (s.1.host.regions r).isSome ∧
      ∀ d, d < s.1.nextData → (s.1.datas d).data ≠ r) : OpTracks n k₀ f₀ ms i s' := by
  rcases memPtr.resolveCow_cases hres with
    ⟨entry, r, -, -, hr, rfl⟩ | ⟨-, ⟨r, hr, rfl⟩ | ⟨-, rfl⟩⟩
  · obtain ⟨hlt, hsome, hown⟩ := hcopy r hr
    have hq := quiet_copied s.1 r entry
    have hfill : OpTracks n k₀ f₀ ms i (memPtr.copied s.1 r entry, s.2) :=
      h.congr hq fun _ => rfl
    have hmap := hfill.map env page 1 (some r) 0 (entry.flags &&& ~~~pCow)
      (loopCount_one_lt_refMod page)
      (by
        rintro r' ⟨⟩
        exact lt_of_lt_of_le hlt hq.hostNext)
      (by
        rintro r' ⟨⟩ -
        refine ⟨(isSome_copied s.1 r r entry).trans hsome, fun d hd => ?_⟩
        rw [hq.nextData] at hd
        rw [hq.data]
        exact hown d hd)
    exact hmap.congr (.refl _) fun _ => rfl
  · have hown := (hcopy r hr).2.2
    refine h.congr (.of_host rfl rfl (le_refl _) fun d hd => ?_) fun _ => rfl
    simp [Host.munmap, hown d hd]
  · exact h

theorem OpTracks.cow {s s' : Kernel × Mem} (h : OpTracks n k₀ f₀ ms i s) {fe : FaultEnv}
    (hcow : memPtr.cow fe (fun _ s => s) s page = some s') : OpTracks n k₀ f₀ ms i s' := by
  rcases memPtr.cow_cases hcow with hres | hres
  · have hcopy : OpTracks n k₀ f₀ ms i (memPtr.withCopy s.1, s.2) :=
      h.congr (h.counted.quiet_mmap _ _ _) fun _ => rfl
    refine hcopy.resolveCow hres ?_
    rintro r ⟨⟩
    exact ⟨Nat.lt_succ_self _, by simp [memPtr.withCopy, Host.mmap],
      fun d hd => h.counted.mmap_unowned hd⟩
  · exact h.resolveCow hres (by simp)

theorem OpTracks.memPtr {s s' : Kernel × Mem} (h : OpTracks n k₀ f₀ ms i s) {fe : FaultEnv}
    {addr : Nat} {type : AccessType} {ptr : Option HostPtr}
    (hptr : memPtr fe s addr type = some (ptr, s')) : OpTracks n k₀ f₀ ms i s' :=
  memPtrWith_rel (fun s s' => OpTracks n k₀ f₀ ms i s → OpTracks n k₀ f₀ ms i s') (fun _ => id)
    (fun _ _ _ h h' hs => h' (h hs)) (fun _ _ => id)
    (fun _ flags hs => hs.materialise fe.host _ flags)
    (fun _ _ hentry hs => hs.touch type hentry) (fun _ _ hc hs => hs.cow hc) hptr h

/-! ### Copying -/

/-- The state of the loop of `pt_copy_on_write` from `i` to `j`: the source points to the same
objects as before, the copy to those it had or to those of the source. -/
structure CopyTracks (n : DataId) (k₀ : Kernel) (f₀ : DataId → Nat) (ms : ι → Mem) (i j : ι)
    (s : CopyState) : Prop where
  tracks : OpTracks n k₀ f₀ (Function.update ms i s.src) j (s.kernel, s.dst)
  src : ∀ q, (memPt s.src q).map PtEntry.data = (memPt (ms i) q).map PtEntry.data
  dst : ∀ q, (memPt s.dst q).map PtEntry.data = (memPt (ms j) q).map PtEntry.data ∨
    (memPt s.dst q).map PtEntry.data = (memPt (ms i) q).map PtEntry.data

variable {j : ι}

/-- A copy adds at most the entries of the source. -/
theorem refs_le_add_slots (hij : i ≠ j) {src dst : Mem}
    (hsrc : ∀ q, (memPt src q).map PtEntry.data = (memPt (ms i) q).map PtEntry.data)
    (hdst : ∀ q, (memPt dst q).map PtEntry.data = (memPt (ms j) q).map PtEntry.data ∨
      (memPt dst q).map PtEntry.data = (memPt (ms i) q).map PtEntry.data) (d : DataId) :
    refs (update (update ms i src) j dst) d ≤ refs ms d + tally (slots (ms i)) d := by
  apply tally_le_add fun q => (j, q)
  rintro ⟨a, q⟩ hq
  unfold allSlots slots at hq ⊢
  dsimp only at hq ⊢
  by_cases haj : a = j
  · subst haj
    rw [update_self] at hq
    rcases hdst q with heq | heq
    · exact Or.inl (heq.symm.trans hq)
    · exact Or.inr ⟨q, rfl, heq.symm.trans hq⟩
  · rw [update_of_ne haj] at hq
    left
    by_cases hai : a = i
    · subst hai
      rw [update_self] at hq
      exact (hsrc q).symm.trans hq
    · rwa [update_of_ne hai] at hq

omit [Finite ι] in
theorem refs_congr_both (hij : i ≠ j) (ms : ι → Mem) {src src' dst dst' : Mem}
    (hsrc : ∀ q, (memPt src' q).map PtEntry.data = (memPt src q).map PtEntry.data)
    (hdst : ∀ q, (memPt dst' q).map PtEntry.data = (memPt dst q).map PtEntry.data) :
    refs (update (update ms i src') j dst') = refs (update (update ms i src) j dst) := by
  rw [refs_congr _ j hdst, update_comm hij, refs_congr _ i hsrc, update_comm hij]

theorem CopyTracks.body (hij : i ≠ j) {s : CopyState} (h : CopyTracks n k₀ f₀ ms i j s)
    (env : HostEnv) (hword : page + 1 < wordMod) (hfit : ∀ d, refs ms d + tally (slots (ms i)) d < refMod) :
    CopyTracks n k₀ f₀ ms i j (ptCopyOnWrite.body env page s) := by
  have hsrc : ∀ q, (memPt (ptCopyOnWrite.body env page s).src q).map PtEntry.data =
      (memPt (ms i) q).map PtEntry.data := by
    intro q
    rw [ptCopyOnWrite.memPt_body_src, ← h.src q]
    split_ifs
    · cases memPt s.src q <;> rfl
    · rfl
  have hdst : ∀ q, (memPt (ptCopyOnWrite.body env page s).dst q).map PtEntry.data =
        (memPt (ms j) q).map PtEntry.data ∨
      (memPt (ptCopyOnWrite.body env page s).dst q).map PtEntry.data =
        (memPt (ms i) q).map PtEntry.data := by
    intro q
    rw [ptCopyOnWrite.memPt_body_dst]
    split_ifs
    · right
      rw [← h.src q]
      cases memPt s.src q <;> rfl
    · exact h.dst q
  refine ⟨?_, hsrc, hdst⟩
  have hcount := refs_le_add_slots hij hsrc hdst
  cases he : memPt s.src page with
  | none =>
    rw [ptCopyOnWrite.body_of_none env he]
    exact h.tracks
  | some e =>
    -- the old page of the copy goes; the source still refers to the object
    have hunmap := h.tracks.unmapAlways env page 1
    have hpage : memPt (update (update ms i s.src) j
        (ptUnmapAlways env (s.kernel, s.dst) page 1).2 i) page = some e := by
      rw [update_of_ne hij, update_self]
      exact he
    have hne := refs_ne_zero hpage
    -- the flags of the source do not matter for the counts
    have hflags : ∀ m, refs (update (update ms i (ptCopyOnWrite.body env page s).src) j m) =
        refs (update (update ms i s.src) j m) := by
      intro m
      exact refs_congr_both hij ms (fun q => (hsrc q).trans (h.src q).symm) fun _ => rfl
    have hbody : ((ptCopyOnWrite.body env page s).kernel, (ptCopyOnWrite.body env page s).dst) =
        (dataRetain (ptUnmapAlways env (s.kernel, s.dst) page 1).1 e.data,
          memPtNew (ptUnmapAlways env (s.kernel, s.dst) page 1).2 page (ptCopyOnWrite.share e)) := by
      simp only [ptCopyOnWrite.body, he]
      rfl
    unfold OpTracks
    rw [hflags, hbody]
    refine hunmap.put (e := ptCopyOnWrite.share e) (memPt_ptUnmapAlways_one env _ hword)
      (hunmap.counted.live_of_ne_zero hne) ?_ fun _ => hne
    have hlt := lt_of_le_of_lt (hcount e.data) (hfit e.data)
    rw [hflags, (Prod.mk.inj hbody).2] at hlt
    exact hlt

omit [Finite ι] in
theorem CopyTracks.of_mems (h : Tracks n k₀ f₀ k (refs ms)) :
    CopyTracks n k₀ f₀ ms i j ⟨k, ms i, ms j, 0⟩ := by
  refine ⟨?_, fun _ => rfl, fun _ => Or.inl rfl⟩
  unfold OpTracks
  simpa using h

theorem Tracks.copyOnWrite (hij : i ≠ j) (h : Tracks n k₀ f₀ k (refs ms))
    (env : HostEnv) (start pages : Nat) (hfit : ∀ d, refs ms d + tally (slots (ms i)) d < refMod) :
    Tracks n k₀ f₀ (ptCopyOnWrite env k (ms i) (ms j) start pages).1 (refs (update
        (update ms i (ptCopyOnWrite env k (ms i) (ms j) start pages).2.1) j
        (ptCopyOnWrite env k (ms i) (ms j) start pages).2.2)) := by
  have hloop : CopyTracks n k₀ f₀ ms i j (ptCopyOnWrite.loop env k (ms i) (ms j) start pages) :=
    forRange_inv (CopyTracks n k₀ f₀ ms i j) (.of_mems h) fun page t hle hlt ht =>
      ht.body hij env (succ_lt_of_loop hlt hle) hfit
  have hrefs : refs (update (update ms i (ptCopyOnWrite env k (ms i) (ms j) start pages).2.1) j
        (ptCopyOnWrite env k (ms i) (ms j) start pages).2.2) =
      refs (update (update ms i (ptCopyOnWrite.loop env k (ms i) (ms j) start pages).src) j
        (ptCopyOnWrite.loop env k (ms i) (ms j) start pages).dst) := by
    rw [ptCopyOnWrite_eq]
    refine refs_congr_both hij ms (fun _ => rfl) fun q => ?_
    rw [memPt_memChanged, memPt_eq_of_pgdir (ptCopyOnWrite.copyReservations_pgdir env _ _) q]
  rw [hrefs, ptCopyOnWrite_eq]
  exact hloop.tracks.quiet (quiet_anon _ _)

end Operations

/-! ### Every step -/

/-- The step takes no object to `2^32` entries: a mapping has fewer pages, and a copy has room for
one more entry for each entry of the source. -/
def World.Fits (w : World ι) : Op ι → Prop
  | .map _ _ start pages _ _ _ => loopCount start pages < refMod
  | .mapNothing _ _ start pages _ => loopCount start pages < refMod
  | .copyOnWrite _ i _ _ _ => ∀ d, refs w.mems d + tally (slots (w.mems i)) d < refMod
  | _ => True

def World.Counted (w : World ι) : Prop := Ish.Counted w.kernel (refs w.mems)

omit [Finite ι] in
theorem World.Counted.opTracks {w : World ι} (hw : w.Counted) (i : ι) :
    OpTracks w.kernel.nextData w.kernel (refs w.mems) w.mems i (w.at i) := by
  have h := Ish.Counted.tracks hw
  unfold OpTracks World.at
  rw [update_eq_self]
  exact h

omit [DecidableEq ι] in
theorem counted_worldInit : (worldInit ι).Counted := by
  have hzero : refs (worldInit ι).mems = fun _ => 0 := by
    funext d
    exact tally_eq_zero_iff.2 fun _ h => by cases h
  unfold World.Counted
  rw [hzero]
  exact counted_kernelInit

theorem MapSource.unowned {k : Kernel} {f : DataId → Nat} (h : Counted k f) (src : MapSource) :
    ∀ r, (src.memory k).1 = some r → r ≠ vdsoData → ((src.memory k).2.host.regions r).isSome ∧
        ∀ d, d < (src.memory k).2.nextData → ((src.memory k).2.datas d).data ≠ r := by
  cases src with
  | failed => simp [memory]
  | vdso =>
    rintro r ⟨⟩ hv
    exact absurd rfl hv
  | fresh size prot bytes =>
    rintro r ⟨⟩ -
    exact ⟨by simp [memory, Host.mmap], fun d hd => h.mmap_unowned hd⟩

theorem MapSource.quiet {k : Kernel} {f : DataId → Nat} (h : Counted k f) (src : MapSource) :
    k.Quiet (src.memory k).2 := by
  cases src with
  | failed => exact .refl k
  | vdso => exact .refl k
  | fresh size prot bytes => exact h.quiet_mmap size prot bytes

/-- A record is stored that differs from the old one only in what the counts do not look at. -/
theorem quiet_update (k : Kernel) (d : DataId) {x : Data} (hlive : x.live = (k.datas d).live)
    (hcount : x.refcount = (k.datas d).refcount) (hdata : x.data = (k.datas d).data) :
    k.Quiet { k with datas := update k.datas d x } := by
  have hsame : ∀ d', (update k.datas d x d').live = (k.datas d').live ∧
      (update k.datas d x d').refcount = (k.datas d').refcount ∧
      (update k.datas d x d').data = (k.datas d').data := by
    intro d'
    by_cases hd : d' = d
    · subst hd
      rw [update_self]
      exact ⟨hlive, hcount, hdata⟩
    · rw [update_of_ne hd]
      exact ⟨rfl, rfl, rfl⟩
  exact ⟨rfl, fun d => (hsame d).1, fun d => (hsame d).2.1, fun d => (hsame d).2.2, le_refl _,
    fun _ _ => rfl⟩

theorem quiet_setFile (s : Kernel × Mem) (page fd offset : Nat) : s.1.Quiet (setFile s page fd offset).1 := by
  unfold setFile
  cases memPt s.2 page with
  | none => exact .refl _
  | some entry =>
    exact quiet_update s.1 entry.data rfl rfl rfl

/-- **One step** keeps the counts right and frees the objects that lose their last entry. -/
theorem tracks_step (realPageSize : Nat) {w w' : World ι} (op : Op ι) (hw : w.Counted)
    (hfit : w.Fits op) (h : w.step realPageSize op = some w') :
    Tracks w.kernel.nextData w.kernel (refs w.mems) w'.kernel (refs w'.mems) := by
  cases op with
  | map env i start pages memory offset flags =>
    cases h
    have hmem : OpTracks w.kernel.nextData w.kernel (refs w.mems) w.mems i
        ((memory.memory w.kernel).2, w.mems i) :=
      (hw.opTracks i).congr (memory.quiet hw) fun _ => rfl
    exact hmem.map env start pages _ offset flags hfit (memory.memory_lt (Ish.Counted.vdso_lt hw))
      (memory.unowned hw)
  | mapNothing env i start pages flags =>
    cases h
    exact (hw.opTracks i).mapNothing env start pages flags hfit
  | mapLazy ok i start pages flags =>
    cases h
    change OpTracks _ _ _ w.mems i (w.kernel, (ptMapLazy ok (w.mems i) start pages flags).2)
    refine (hw.opTracks i).congr (.refl _) fun q => ?_
    cases ok <;> rfl
  | unmap env i start pages =>
    cases h
    exact ptUnmap_inv env start pages (hw.opTracks i) ((hw.opTracks i).unmapAlways env start pages)
  | unmapAlways env i start pages =>
    cases h
    exact (hw.opTracks i).unmapAlways env start pages
  | setFlags env i start pages flags =>
    cases h
    exact (hw.opTracks i).setFlags realPageSize env start pages flags
  | copyOnWrite env i j start pages =>
    dsimp only [World.step] at h
    split_ifs at h with hij
    cases h
    exact Tracks.copyOnWrite hij (Ish.Counted.tracks hw) env start pages hfit
  | fault fe i addr type =>
    obtain ⟨⟨ptr, s⟩, hptr, rfl⟩ := Option.map_eq_some_iff.1 h
    exact (hw.opTracks i).memPtr hptr
  | findHole i size =>
    cases h
    change OpTracks _ _ _ w.mems i (w.kernel, (ptFindHole (w.mems i) size).2)
    exact (hw.opTracks i).congr (.refl _) fun q => by rw [memPt_ptFindHole]; rfl
  | setFile i page fd offset =>
    cases h
    refine (hw.opTracks i).congr (quiet_setFile (w.at i) page fd offset) fun q => ?_
    rw [setFile_mem]

theorem counted_of_run {realPageSize : Nat} {w : World ι}
    (hw : Run (World.step realPageSize) World.Fits (worldInit ι) w) : w.Counted :=
  hw.inv World.Counted (fun _ op _ h hfit hs => (tracks_step realPageSize op h hfit hs).counted)
    counted_worldInit

/-- **Lifetime of page backings.**  In every run whose steps fit the 32-bit counters, the count of a
live object is the number of entries that point to it; no entry points to a freed object; and a
step munmaps the host mapping of an object, unless it is the vdso image, exactly if the number of
its entries drops to zero. -/
theorem page_backing_lifetime (realPageSize : Nat) {w : World ι}
    (hw : Run (World.step realPageSize) World.Fits (worldInit ι) w) :
    (∀ d, (w.kernel.datas d).live → (w.kernel.datas d).refcount = refs w.mems d) ∧
    (∀ i q e, memPt (w.mems i) q = some e → (w.kernel.datas e.data).live) ∧
    (∀ op w', w.Fits op → w.step realPageSize op = some w' → ∀ d, d < w.kernel.nextData →
      (w.kernel.datas d).data ≠ vdsoData → ((w.kernel.host.regions (w.kernel.datas d).data).isSome ∧
          w'.kernel.host.regions (w.kernel.datas d).data = none ↔ 0 < refs w.mems d ∧ refs w'.mems d = 0)) := by
  have hc : Ish.Counted w.kernel (refs w.mems) := counted_of_run hw
  refine ⟨hc.count, fun i q e he => hc.live_of_ne_zero (refs_ne_zero he), ?_⟩
  intro op w' hfit hstep d hd hv
  have ht := tracks_step realPageSize op (counted_of_run hw) hfit hstep
  have hregion := ht.region d hd
  have hbefore := hc.mapped d hd hv
  have hafter := ht.counted.mapped d (lt_of_lt_of_le hd ht.next) (hregion ▸ hv)
  rw [hregion] at hafter
  have hlive := ht.live d hd
  rw [hbefore, ← Option.not_isSome_iff_eq_none, hafter, hlive, Nat.pos_iff_ne_zero]
  constructor
  · rintro ⟨h1, h2⟩
    simp only [h1, true_and, not_or, not_not] at h2
    exact h2
  · rintro ⟨h1, h2⟩
    exact ⟨hc.live_of_ne_zero h1, fun h => h.2.elim h1 fun h' => h' h2⟩

/-- One process with an anonymous page at `0x100000`. -/
def anonymousPage : World Unit :=
  (worldInit Unit).put () (ptMapNothing HostEnv.good (kernelInit, memInit) 0x100 1 pRead).2

theorem run_anonymousPage : Run (World.step 4096) World.Fits (worldInit Unit) anonymousPage :=
  .tail (.mapNothing HostEnv.good () 0x100 1 pRead) (.refl _) (loopCount_one_lt_refMod _) rfl

/-- The munmap of the page of `anonymousPage` unmaps its host mapping, and takes the last entry. -/
theorem page_backing_lifetime_anonymousPage :
    let w := anonymousPage.put () (ptUnmapAlways HostEnv.good (anonymousPage.at ()) 0x100 1)
    (w.kernel.host.regions 1).isNone ∧ 0 < refs anonymousPage.mems 0 ∧ refs w.mems 0 = 0 :=
  ⟨rfl, ((page_backing_lifetime 4096 run_anonymousPage).2.2
    (.unmapAlways HostEnv.good () 0x100 1) _ trivial rfl 0 (by decide) (by decide)).1 ⟨rfl, rfl⟩⟩

/-- One process with the vdso image at `0x100000`, as `exec` maps it. -/
def vdsoMapped : World Unit :=
  (worldInit Unit).put ()
    (ptMap HostEnv.good (kernelInit, memInit) 0x100 vdsoPages (some vdsoData) 0 0#32).2

theorem run_vdsoMapped : Run (World.step 4096) World.Fits (worldInit Unit) vdsoMapped :=
  .tail (.map HostEnv.good () 0x100 vdsoPages .vdso 0 0#32) (.refl _)
    (by unfold World.Fits; decide) rfl

/-- The vdso image stays when its last entry goes. -/
theorem vdso_stays_mapped :
    let w := vdsoMapped.put () (ptUnmapAlways HostEnv.good (vdsoMapped.at ()) 0x100 vdsoPages)
    vdsoMapped.step 4096 (.unmapAlways HostEnv.good () 0x100 vdsoPages) = some w ∧
    0 < refs vdsoMapped.mems 0 ∧ refs w.mems 0 = 0 ∧
    (w.kernel.datas 0).data = vdsoData ∧ (w.kernel.host.regions vdsoData).isSome := by
  have hw : Run (World.step 4096) World.Fits (worldInit Unit)
      (vdsoMapped.put () (ptUnmapAlways HostEnv.good (vdsoMapped.at ()) 0x100 vdsoPages)) :=
    .tail (.unmapAlways HostEnv.good () 0x100 vdsoPages) run_vdsoMapped trivial rfl
  have hentry : memPt (vdsoMapped.mems ()) 0x100 = some ⟨0, 0, 0#32⟩ := rfl
  exact ⟨rfl, Nat.pos_of_ne_zero (refs_ne_zero hentry),
    (counted_of_run hw).dead 0 (by decide +kernel),
    by decide +kernel, by decide +kernel⟩

end Ish
