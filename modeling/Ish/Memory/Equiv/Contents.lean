import Ish.Memory.Equiv.Fork
import Ish.Memory.Equiv.HostProt
import Ish.Memory.Equiv.LazyPage

/-!
# What processes see

`seen k m page off` is the byte at offset `off` of a page, read through the page table. Host mappings keep their bytes
or are unmapped (`Kernel.Preserves`), and one with an entry is not unmapped while the counts of the objects are right
(`Counted`): so a fault in one process, copy on write included, changes no byte that any process sees
(`shows_memPtr`), and neither does a fork, whose child sees what the parent sees (`fork_shows`).
-/

namespace Ish

open Lib Function

/-! ### Host mappings keep their bytes -/

/-- `k'` is a later state of `k` in which the host mappings of `k` are as they were or unmapped. -/
structure Kernel.Preserves (k k' : Kernel) : Prop where
  ext : k.Extends k'
  region : ∀ r, r < k.host.next →
    k'.host.regions r = k.host.regions r ∨ r ≠ vdsoData ∧ k'.host.regions r = none

theorem Kernel.Preserves.of_regions {k k' : Kernel} (hext : k.Extends k')
    (hregion : ∀ r, r < k.host.next → k'.host.regions r = k.host.regions r) : k.Preserves k' :=
  ⟨hext, fun r hr => .inl (hregion r hr)⟩

variable (env : HostEnv) (k : Kernel)

theorem Kernel.Preserves.refl : k.Preserves k := .of_regions (.refl k) fun _ _ => rfl

theorem Kernel.Preserves.trans {k k' k'' : Kernel} (h : k.Preserves k') (h' : k'.Preserves k'') : k.Preserves k'' := by
  refine ⟨h.ext.trans h'.ext, fun r hr => ?_⟩
  rcases h'.region r (lt_of_lt_of_le hr h.ext.hostNext) with heq' | hnone'
  · rw [heq']
    exact h.region r hr
  · exact .inr hnone'

theorem preserves_anon (n : Int) : k.Preserves { k with anonPageCount := n } :=
  .of_regions (extends_anon k n) fun _ _ => rfl

theorem preserves_dataRelease (d : DataId) : k.Preserves (dataRelease k d) := by
  refine ⟨extends_dataRelease k d, fun r _ => ?_⟩
  unfold dataRelease
  dsimp only
  split_ifs with hfreed
  · by_cases hr : r = (k.datas d).data
    · refine .inr ⟨?_, ?_⟩
      · rw [hr]
        simpa using (Bool.and_eq_true_iff.1 hfreed).2
      · rw [hr]
        exact update_self ..
    · exact .inl (update_of_ne hr _ _)
  · exact .inl rfl

theorem kernelOrder_preserves : KernelOrder Kernel.Preserves :=
  ⟨.refl, .trans, preserves_anon, fun k d => .of_regions (extends_dataRetain k d) fun _ _ => rfl,
    preserves_dataRelease⟩

theorem preserves_ptMap (s : Kernel × Mem) (start pages : Nat) {r : RegionId}
    (offset : Nat) (flags : Flags) (hr : r < s.1.host.next) :
    s.1.Preserves (ptMap env s start pages (some r) offset flags).2.1 := by
  refine kernelOrder_preserves.ptMap env s start pages (some r) offset flags ?_
  rintro r' ⟨⟩
  exact .of_regions (extends_newData pages offset hr) fun _ _ => rfl

theorem preserves_mmapped (pages : Nat) (flags : Flags) : k.Preserves (ptMapNothing.mmapped k pages flags) :=
  .of_regions (extends_mmapped k pages flags) fun _ hr => update_of_ne (ne_of_lt hr) _ _

theorem preserves_ptMapNothing (s : Kernel × Mem) (start pages : Nat)
    (flags : Flags) : s.1.Preserves (ptMapNothing env s start pages flags).2.1 :=
  ptMapNothing_inv env start pages flags (P := fun t => s.1.Preserves t.1) (.refl _)
    ((preserves_mmapped s.1 pages flags).trans
      (preserves_ptMap env (ptMapNothing.mmapped s.1 pages flags, s.2) start pages 0 _ (Nat.lt_succ_self _)))

theorem preserves_materialise (s : Kernel × Mem) (page : Nat) (flags : Flags) :
    s.1.Preserves (memPtr.materialise env s page flags).1 :=
  memPtr.materialise_inv env (P := fun t => s.1.Preserves t.1) (.refl _)
    (fun _ => (preserves_anon s.1 (s.1.anonPageCount + 1)).trans
      (preserves_ptMapNothing env (memPtr.counted s) page 1 flags)) fun _ h => h

theorem preserves_withCopy : k.Preserves (memPtr.withCopy k) :=
  .of_regions (extends_withCopy k) fun _ hr => update_of_ne (ne_of_lt hr) _ _

/-- The copy goes to a mapping made after `k`. -/
theorem preserves_copied {k k' : Kernel} (h : k.Preserves k') {copy : RegionId}
    (hcopy : k.host.next ≤ copy) (entry : PtEntry) : k.Preserves (memPtr.copied k' copy entry) := by
  refine ⟨h.ext.trans (extends_copied k' copy entry), fun r hr => ?_⟩
  rw [copied_regions, update_of_ne (ne_of_lt (lt_of_lt_of_le hr hcopy))]
  exact h.region r hr

variable {fe : FaultEnv} {page : Nat}

theorem preserves_cow {s s' : Kernel × Mem}
    (h : memPtr.cow fe (fun _ s => s) s page = some s') : s.1.Preserves s'.1 := by
  rcases memPtr.cow_cases h with h | h
  · rcases memPtr.resolveCow_cases h with ⟨entry, r, -, -, hr, rfl⟩ | ⟨-, ⟨r, hr, rfl⟩ | ⟨hr, -⟩⟩
    · cases hr
      have hlt : s.1.host.next < (memPtr.copied (memPtr.withCopy s.1) s.1.host.next entry).host.next := by
        rw [copied_hostNext]
        exact Nat.lt_succ_self _
      exact (preserves_copied (preserves_withCopy s.1) (le_refl _) entry).trans
        (preserves_ptMap fe.cow (memPtr.copied (memPtr.withCopy s.1) s.1.host.next entry, s.2) page 1 0 _ hlt)
    · cases hr
      refine .of_regions ⟨le_refl _, Nat.le_succ _, fun _ _ => rfl, fun d hd hd' => ?_⟩ fun r hr => ?_
      · exact absurd hd' (Nat.not_lt.2 hd)
      · have hne := ne_of_lt hr
        show update (memPtr.withCopy s.1).host.regions s.1.host.next none r = _
        rw [update_of_ne hne]
        exact update_of_ne hne _ _
    · cases hr
  · rcases memPtr.resolveCow_cases h with ⟨entry, r, -, -, hr, -⟩ | ⟨-, ⟨r, hr, -⟩ | ⟨-, rfl⟩⟩
    · cases hr
    · cases hr
    · exact .refl _

variable {addr : Nat} {type : AccessType} {ptr : Option HostPtr}

/-- **A fault** leaves the bytes of the host mappings. -/
theorem preserves_memPtr {s s' : Kernel × Mem}
    (h : memPtr fe s addr type = some (ptr, s')) : s.1.Preserves s'.1 :=
  memPtrWith_rel (fun s s' => s.1.Preserves s'.1) (fun _ => .refl _) (fun _ _ _ => .trans)
    (fun _ _ => .refl _) (fun s flags => preserves_materialise fe.host s _ flags)
    (fun _ _ _ => .refl _) (fun _ _ hc => preserves_cow hc) h

/-! ### Other pages of the table -/

variable {q : Nat}

theorem memPt_ptMap_one_of_ne (s : Kernel × Mem) (page : Nat) (memory : Option RegionId)
    (offset : Nat) (flags : Flags) (hq : q % memPages ≠ page % memPages) :
    memPt (ptMap env s page 1 memory offset flags).2.2 q = memPt s.2 q := by
  rcases ptMap_cases env s page 1 memory offset flags with ⟨err, heq⟩ | ⟨r, -, -, heq⟩
  · rw [heq]
  · rw [heq]
    exact (ptMap.memPt_loop env s page 1 r offset flags q).2 fun ht => hq (touches_loopCount_one ht)

theorem memPt_materialise_of_ne (s : Kernel × Mem) (page : Nat) (flags : Flags)
    (hq : q % memPages ≠ page % memPages) : memPt (memPtr.materialise env s page flags).2 q = memPt s.2 q := by
  have hmap : memPt (ptMapNothing env (memPtr.counted s) page 1 flags).2.2 q = memPt s.2 q :=
    ptMapNothing_inv env page 1 flags (P := fun t => memPt t.2 q = memPt s.2 q) rfl
      (memPt_ptMap_one_of_ne _ _ _ _ _ _ hq)
  exact memPtr.materialise_inv env (P := fun t => memPt t.2 q = memPt s.2 q) rfl (fun _ => hmap) fun _ h => h

theorem memPt_cow_of_ne {s s' : Kernel × Mem}
    (h : memPtr.cow fe (fun _ s => s) s page = some s') (hq : q % memPages ≠ page % memPages) :
    memPt s'.2 q = memPt s.2 q := by
  have hres : ∀ {env : HostEnv} {t t' : Kernel × Mem} {copy : Option RegionId},
      memPtr.resolveCow env t page copy = some t' → memPt t'.2 q = memPt t.2 q := by
    intro env t t' copy hres
    rcases memPtr.resolveCow_cases hres with ⟨entry, r, -, -, -, rfl⟩ | ⟨-, ⟨r, -, rfl⟩ | ⟨-, rfl⟩⟩
    · exact memPt_ptMap_one_of_ne _ _ _ _ _ _ hq
    · rfl
    · rfl
  rcases memPtr.cow_cases h with h | h
  · exact hres (t := (memPtr.withCopy s.1, s.2)) h
  · exact hres h

/-- **A fault** changes no entry but that of its page. -/
theorem memPt_memPtr_of_ne {s s' : Kernel × Mem}
    (h : memPtr fe s addr type = some (ptr, s'))
    (hq : q % memPages ≠ pageOf addr % memPages) : memPt s'.2 q = memPt s.2 q :=
  memPtrWith_rel (fun s s' => memPt s'.2 q = memPt s.2 q) (fun _ => rfl)
    (fun _ _ _ h h' => h'.trans h) (fun _ _ => rfl)
    (fun s flags => memPt_materialise_of_ne fe.host s _ flags hq)
    (fun s _ hentry => by rw [memPt_touch s _ q type hentry, if_neg hq])
    (fun _ _ hc => memPt_cow_of_ne hc hq) h

/-! ### The copy of a page -/

theorem ptMap_of_not_malloc {env : HostEnv} (hmalloc : ¬ env.mallocData) (s : Kernel × Mem) (start pages : Nat)
    (r : RegionId) (offset : Nat) (flags : Flags) :
    ptMap env s start pages (some r) offset flags = (.error .enomem, s) := by
  unfold ptMap
  dsimp only
  rw [if_neg hmalloc]

variable {e : PtEntry}

theorem ptMap_copy {env : HostEnv} (hmalloc : env.mallocData) (s : Kernel × Mem)
    (hpage : page + 1 < wordMod) (he : memPt s.2 page = some e) (hdata : e.data < s.1.nextData)
    (hregion : regionOf s.1 e < s.1.host.next) (flags : Flags) :
    let s' := (ptMap env (memPtr.copied (memPtr.withCopy s.1) s.1.host.next e, s.2) page 1
      (some s.1.host.next) 0 flags).2
    memPt s'.2 page = some ⟨s.1.nextData, 0, flags⟩ ∧
    regionOf s'.1 ⟨s.1.nextData, 0, flags⟩ = s.1.host.next ∧
    s'.1.host.regions s.1.host.next =
      some ⟨pageSize, fun _ => Prot.rw, memPtr.pageBytes s.1 e⟩ := by
  have hne : regionOf s.1 e ≠ s.1.host.next := ne_of_lt hregion
  have hold : ∀ e', memPt s.2 page = some e' →
      e'.data < (memPtr.copied (memPtr.withCopy s.1) s.1.host.next e).nextData ∧
      regionOf (memPtr.copied (memPtr.withCopy s.1) s.1.host.next e) e' ≠ s.1.host.next := by
    intro e' he'
    cases he.symm.trans he'
    refine ⟨by rw [copied_nextData]; exact hdata, ?_⟩
    unfold regionOf
    rw [copied_datas]
    exact hne
  obtain ⟨hpt, hobject, hhost⟩ := ptMap_one_spec hmalloc
    (memPtr.copied (memPtr.withCopy s.1) s.1.host.next e, s.2) hpage flags hold
  rw [copied_nextData] at hpt hobject
  refine ⟨hpt, congrArg Data.data hobject, ?_⟩
  have hbytes : memPtr.pageBytes (memPtr.withCopy s.1) e = memPtr.pageBytes s.1 e := by
    unfold memPtr.pageBytes
    rw [show (memPtr.withCopy s.1).host.regions ((memPtr.withCopy s.1).datas e.data).data =
      s.1.host.regions (s.1.datas e.data).data from update_of_ne hne _ _]
  have hnew : (memPtr.withCopy s.1).host.regions s.1.host.next = some ⟨pageSize, fun _ => Prot.rw, fun _ => 0⟩ :=
    update_self ..
  rw [hhost, copied_regions, update_self, hnew, hbytes]
  rfl

theorem memPtr_write_of_present (fe : FaultEnv) (s : Kernel × Mem) (addr : Nat)
    (he : memPt s.2 (pageOf addr) = some e) : memPtr fe s addr .write = if ¬ hasAny e.flags pWrite then some (none, s)
      else if hasAny e.flags pCow then
        (memPtr.cow fe (fun _ s => s) (memPtr.touch s (pageOf addr) .write e) (pageOf addr)).map fun s =>
          (memPtrNofault s addr .write, s)
      else some (memPtrNofault s addr .write, memPtr.touch s (pageOf addr) .write e) := by
  have hfault : memPtr.fault fe (fun _ s => s) s (pageOf addr) = (true, s) := by
    simp [memPtr.fault, memPtr.plan, he]
  have hflags : memPtr.writeFlags .write e.flags = e.flags := rfl
  rw [memPtr_eq, hfault]
  dsimp only
  unfold memPtr.access memPtr.prepareWrite
  rw [he]
  dsimp only
  rw [hflags]
  by_cases hwrite : hasAny e.flags pWrite
  · by_cases hcow : hasAny e.flags pCow
    · simp only [hwrite, hcow, not_true_eq_false, and_false, if_false, if_true]
      cases memPtr.cow fe (fun _ s => s) (memPtr.touch s (pageOf addr) .write e) (pageOf addr) <;> rfl
    · simp only [hwrite, hcow, not_true_eq_false, and_false, if_false]
      rfl
  · rw [if_pos ⟨rfl, hwrite⟩, if_pos hwrite]

/-- How a write to a page that waits for its copy can go: without host memory the emulator dies, without memory for
the object the page stays as it is, and else it is the copy. -/
theorem memPtr_write_copy (fe : FaultEnv) (s : Kernel × Mem) (haddr : addr < wordMod)
    (he : memPt s.2 (pageOf addr) = some e) (hwrite : hasAny e.flags pWrite) (hcow : hasAny e.flags pCow)
    (hdata : e.data < s.1.nextData) (hregion : regionOf s.1 e < s.1.host.next) :
    ¬ fe.cow.mmap ∧ memPtr fe s addr .write = none ∨
    ¬ fe.cow.mallocData ∧ (∃ s', memPtr fe s addr .write = some (none, s') ∧ ∀ q, memPt s'.2 q = memPt s.2 q) ∨
    (fe.cow.mmap ∧ fe.cow.mallocData) ∧ ∃ s', memPtr fe s addr .write = some (some ⟨s.1.host.next, pgOffset addr⟩, s') ∧
      memPt s'.2 (pageOf addr) = some ⟨s.1.nextData, 0, e.flags &&& ~~~pCow⟩ ∧
      regionOf s'.1 ⟨s.1.nextData, 0, e.flags &&& ~~~pCow⟩ = s.1.host.next := by
  rw [memPtr_write_of_present fe s addr he, if_neg (not_not.2 hwrite), if_pos hcow]
  have htouch : memPt (memPtr.touch s (pageOf addr) .write e).2 (pageOf addr) = some e := by
    rw [memPt_touch s (pageOf addr) (pageOf addr) .write he, if_pos rfl]
    rfl
  unfold memPtr.cow
  simp only [Option.map_id']
  by_cases hmmap : fe.cow.mmap = true
  · rw [if_pos hmmap]
    have hres := memPtr.resolveCow_of_cow fe.cow (memPtr.withCopy s.1) htouch hcow s.1.host.next
    by_cases hmalloc : fe.cow.mallocData = true
    · obtain ⟨hpt, hreg, -⟩ := ptMap_copy hmalloc (s.1, (memPtr.touch s (pageOf addr) .write e).2)
        (pageOf_lt haddr) htouch hdata hregion (e.flags &&& ~~~pCow)
      generalize ptMap fe.cow (memPtr.copied (memPtr.withCopy s.1) s.1.host.next e,
        (memPtr.touch s (pageOf addr) .write e).2) (pageOf addr) 1 (some s.1.host.next) 0
          (e.flags &&& ~~~pCow) = r at hres hpt hreg
      have hwritable : pWritable (e.flags &&& ~~~pCow) := by
        have h1 : hasAny (e.flags &&& ~~~pCow) pWrite = hasAny e.flags pWrite :=
          hasAny_and_of_subset (by decide)
        have h2 : hasAny (e.flags &&& ~~~pCow) pCow = false :=
          hasAny_and_of_disjoint (by decide)
        simp [pWritable, h1, h2, hwrite]
      have hptr := memPtrNofault_of_writable (s := (r.2.1, memChanged r.2.2)) hpt hwritable
      rw [show regionOf (r.2.1, memChanged r.2.2).1 _ = s.1.host.next from hreg, Nat.zero_add] at hptr
      refine .inr (.inr ⟨⟨hmmap, hmalloc⟩, (r.2.1, memChanged r.2.2), ?_, hpt, hreg⟩)
      rw [← hptr]
      exact congrArg _ hres
    · rw [ptMap_of_not_malloc hmalloc] at hres
      have hpt : memPt (memPtr.copied (memPtr.withCopy s.1) s.1.host.next e,
          memChanged (memPtr.touch s (pageOf addr) .write e).2).2 (pageOf addr) = some e := htouch
      have hptr : memPtrNofault (memPtr.copied (memPtr.withCopy s.1) s.1.host.next e,
          memChanged (memPtr.touch s (pageOf addr) .write e).2) addr .write = none := by
        simp [memPtrNofault, hpt, pWritable, hcow]
      refine .inr (.inl ⟨hmalloc, (memPtr.copied (memPtr.withCopy s.1) s.1.host.next e,
        memChanged (memPtr.touch s (pageOf addr) .write e).2), (congrArg _ hres).trans ?_, fun _ => rfl⟩)
      rw [← hptr]
      rfl
  · rw [if_neg hmmap]
    refine .inl ⟨hmmap, ?_⟩
    unfold memPtr.resolveCow
    rw [htouch]
    simp only [Option.filter_some, hcow, if_true]
    rfl

/-! ### What processes see -/

/-- The byte at the offset `off` of a page. -/
def seen (k : Kernel) (m : Mem) (page off : Nat) : Option UInt8 :=
  (memPt m page).bind fun e => k.host.byteAt ⟨regionOf k e, e.offset + off⟩

theorem seen_eq {k : Kernel} {m : Mem} (he : memPt m page = some e) (off : Nat) :
    seen k m page off = k.host.byteAt ⟨regionOf k e, e.offset + off⟩ := by
  unfold seen
  rw [he]
  rfl

section

variable {ι : Type} [DecidableEq ι] [Finite ι] {ms : ι → Mem} {i : ι} {s s' : Kernel × Mem}

/-- The counts of the objects are right when process `i` has the address space of `s`, and the others have theirs in
`ms`. -/
def CountedAt (ms : ι → Mem) (i : ι) (s : Kernel × Mem) : Prop := Counted s.1 (refs (Function.update ms i s.2))

/-- Whatever byte a process sees in `s` it still sees in `s'`. -/
def Shows (ms : ι → Mem) (i : ι) (s s' : Kernel × Mem) : Prop :=
  ∀ j q off b, off < pageSize → seen s.1 (Function.update ms i s.2 j) q off = some b →
    seen s'.1 (Function.update ms i s'.2 j) q off = some b

omit [DecidableEq ι] in
theorem Counted.isSome_region {k : Kernel} (h : Counted k (refs ms)) {j : ι}
    (he : memPt (ms j) q = some e) (hv : regionOf k e ≠ vdsoData) : (k.host.regions (regionOf k e)).isSome := by
  have hmapped := h.mapped e.data (h.lt_of_memPt he) hv
  rw [h.live_of_ne_zero (refs_ne_zero he)] at hmapped
  exact hmapped

omit [DecidableEq ι] in
theorem Kernel.Preserves.regions_eq {k k' : Kernel} (hp : k.Preserves k') {ms' : ι → Mem}
    (hc' : Counted k' (refs ms')) {e' : PtEntry} (hdata : e.data < k.nextData)
    (hregion : regionOf k e < k.host.next) {j : ι} (he' : memPt (ms' j) q = some e')
    (hsame : e'.data = e.data) :
    regionOf k' e' = regionOf k e ∧ k'.host.regions (regionOf k e) = k.host.regions (regionOf k e) := by
  have hreg : regionOf k' e' = regionOf k e := by
    unfold regionOf
    rw [hsame]
    exact hp.ext.data e.data hdata
  refine ⟨hreg, ?_⟩
  rcases hp.region (regionOf k e) hregion with heq | ⟨hv, hnone⟩
  · exact heq
  · -- its object has an entry, so the mapping is there
    have hsome := hc'.isSome_region he' (by rw [hreg]; exact hv)
    rw [hreg, hnone] at hsome
    exact absurd hsome (by simp)

section

variable (hc : CountedAt ms i s)
include hc

theorem shows_of_entries (hc' : CountedAt ms i s') (hp : s.1.Preserves s'.1)
    (hentry : ∀ q e, memPt s.2 q = some e → ∃ e', memPt s'.2 q = some e' ∧
      (e'.data = e.data ∧ e'.offset = e.offset ∨ ∀ off b, off < pageSize →
        s.1.host.byteAt ⟨regionOf s.1 e, e.offset + off⟩ = some b →
        s'.1.host.byteAt ⟨regionOf s'.1 e', e'.offset + off⟩ = some b)) : Shows ms i s s' := by
  intro j q off b hoff hb
  have hkept : ∀ e e', memPt (update ms i s.2 j) q = some e →
      memPt (update ms i s'.2 j) q = some e' → e'.data = e.data → e'.offset = e.offset →
      seen s'.1 (update ms i s'.2 j) q off = some b := by
    intro e e' he he' hdata hoffset
    have hlt := Counted.lt_of_memPt hc he
    obtain ⟨hreg, hbytes⟩ := hp.regions_eq hc' hlt (hc.region_lt _ hlt) he' hdata
    rw [seen_eq he] at hb
    rw [seen_eq he', hreg, hoffset, ← hb]
    unfold Host.byteAt
    rw [hbytes]
  cases he : memPt (update ms i s.2 j) q with
  | none =>
    unfold seen at hb
    rw [he] at hb
    cases hb
  | some e =>
    by_cases hj : j = i
    · subst hj
      have he₀ := he
      rw [update_self] at he₀
      obtain ⟨e', he', hcases⟩ := hentry q e he₀
      have hmem' : memPt (update ms j s'.2 j) q = some e' := by
        rw [update_self]
        exact he'
      rcases hcases with ⟨hdata, hoffset⟩ | hcopy
      · exact hkept e e' he hmem' hdata hoffset
      · rw [seen_eq hmem']
        rw [seen_eq he] at hb
        exact hcopy off b hoff hb
    · have hother : memPt (update ms i s'.2 j) q = some e := by
        rw [update_of_ne hj] at he ⊢
        exact he
      exact hkept e e he hother rfl rfl

theorem shows_materialise (env : HostEnv) (page : Nat) (flags : Flags) :
    CountedAt ms i (memPtr.materialise env s page flags) ∧ Shows ms i s (memPtr.materialise env s page flags) := by
  have hc' : CountedAt ms i (memPtr.materialise env s page flags) :=
    (OpTracks.materialise (Counted.tracks hc) env page flags).counted
  refine ⟨hc', shows_of_entries hc hc' (preserves_materialise env s page flags) fun q e he => ?_⟩
  refine ⟨e, ?_, .inl ⟨rfl, rfl⟩⟩
  rcases memPtr.materialise_cases env s page flags with ⟨-, heq⟩ | ⟨hnone, -⟩
  · rw [heq]
    exact he
  · have hq : q % memPages ≠ page % memPages := by
      intro hq
      rw [memPt_congr s.2 hq, hnone] at he
      cases he
    rw [memPt_materialise_of_ne env s page flags hq]
    exact he

theorem shows_touch (type : AccessType) {entry : PtEntry} (hentry : memPt s.2 page = some entry) :
    CountedAt ms i (memPtr.touch s page type entry) ∧ Shows ms i s (memPtr.touch s page type entry) := by
  have hc' : CountedAt ms i (memPtr.touch s page type entry) :=
    (OpTracks.touch (Counted.tracks hc) type hentry).counted
  refine ⟨hc', shows_of_entries hc hc' (.refl _) fun q e he => ?_⟩
  rw [memPt_touch s page q type hentry]
  split_ifs with hq
  · rw [memPt_congr s.2 hq, hentry] at he
    cases he
    exact ⟨_, rfl, .inl ⟨rfl, rfl⟩⟩
  · exact ⟨e, he, .inl ⟨rfl, rfl⟩⟩

theorem shows_cow (hpage : page + 1 < wordMod)
    (h : memPtr.cow fe (fun _ s => s) s page = some s') : CountedAt ms i s' ∧ Shows ms i s s' := by
  have hc' : CountedAt ms i s' := (OpTracks.cow (Counted.tracks hc) h).counted
  refine ⟨hc', shows_of_entries hc hc' (preserves_cow h) fun q e he => ?_⟩
  by_cases hq : q % memPages = page % memPages
  · rcases memPtr.cow_cases h with h | h
    · rcases memPtr.resolveCow_cases h with ⟨entry, r, hentry, -, hr, rfl⟩ | ⟨-, ⟨r, hr, rfl⟩ | ⟨hr, -⟩⟩
      · cases hr
        rw [memPt_congr s.2 hq] at he
        cases he.symm.trans hentry
        rw [memPt_congr _ hq]
        by_cases hmalloc : fe.cow.mallocData = true
        · have hmem : memPt (update ms i s.2 i) page = some e := by
            rw [update_self]
            exact he
          have hlt := Counted.lt_of_memPt hc hmem
          obtain ⟨hpt, hreg, hbytes⟩ := ptMap_copy hmalloc s hpage he hlt (hc.region_lt _ hlt) (e.flags &&& ~~~pCow)
          refine ⟨_, hpt, .inr fun off b _ hb => ?_⟩
          -- the bytes of the copy are those of the page
          obtain ⟨R, hR, rfl⟩ := Option.map_eq_some_iff.1 hb
          unfold Host.byteAt
          dsimp only
          rw [hreg, hbytes]
          unfold memPtr.pageBytes
          rw [show s.1.host.regions (s.1.datas e.data).data = some R from hR]
          simp
        · refine ⟨e, ?_, .inl ⟨rfl, rfl⟩⟩
          rw [ptMap_of_not_malloc hmalloc]
          exact he
      · exact ⟨e, he, .inl ⟨rfl, rfl⟩⟩
      · cases hr
    · rcases memPtr.resolveCow_cases h with ⟨entry, r, -, -, hr, -⟩ | ⟨-, ⟨r, hr, -⟩ | ⟨-, rfl⟩⟩
      · cases hr
      · cases hr
      · exact ⟨e, he, .inl ⟨rfl, rfl⟩⟩
  · exact ⟨e, (memPt_cow_of_ne h hq).trans he, .inl ⟨rfl, rfl⟩⟩

/-- **A fault changes no byte that a process sees.** -/
theorem shows_memPtr (haddr : addr < wordMod)
    (h : memPtr fe s addr type = some (ptr, s')) :
    CountedAt ms i s' ∧ Shows ms i s s' :=
  memPtrWith_rel (fun s s' => CountedAt ms i s → CountedAt ms i s' ∧ Shows ms i s s')
    (fun _ hc => ⟨hc, fun _ _ _ _ _ hb => hb⟩)
    (fun _ _ _ h h' hc =>
      ⟨(h' (h hc).1).1, fun j q off b hoff hb => (h' (h hc).1).2 j q off b hoff ((h hc).2 j q off b hoff hb)⟩)
    (fun _ _ hc => ⟨hc, fun _ _ _ _ _ hb => hb⟩)
    (fun _ flags hc => shows_materialise hc fe.host _ flags)
    (fun _ _ hentry hc => shows_touch hc type hentry)
    (fun _ _ hcow hc => shows_cow hc (pageOf_lt haddr) hcow) h hc

end

end

/-! ### A fork and the faults after it -/

section

variable {ι : Type} [DecidableEq ι] [Finite ι] {realPageSize q off : Nat} {b : UInt8} {i j l : ι} {w v u : World ι}
  {env : HostEnv}

/-- An access to an address of 64 bits. -/
def Op.isFault : Op ι → Prop
  | .fault _ _ addr _ => addr < wordMod
  | _ => False

theorem World.Counted.seen_of_faults (hw : w.Counted)
    (hrun : Run (World.step realPageSize) (fun _ op => op.isFault) w v) (hoff : off < pageSize)
    (hb : seen w.kernel (w.mems l) q off = some b) : seen v.kernel (v.mems l) q off = some b := by
  refine (hrun.inv (fun v => v.Counted ∧ seen v.kernel (v.mems l) q off = some b) (fun t op u ht hop hstep => ?_)
    ⟨hw, hb⟩).2
  cases op with
  | fault fe i addr type =>
    obtain ⟨⟨ptr, s⟩, hptr, rfl⟩ := Option.map_eq_some_iff.1 hstep
    have hself : update t.mems i (t.at i).2 = t.mems := update_eq_self i t.mems
    have hc : CountedAt t.mems i (t.at i) := by
      unfold CountedAt
      rw [hself]
      exact ht.1
    obtain ⟨hc', hshows⟩ := shows_memPtr hc hop hptr
    refine ⟨hc', hshows l q off b hoff ?_⟩
    rw [hself]
    exact ht.2
  | _ => exact hop.elim

omit [Finite ι] in
/-- The child has the pages of the parent, and all others have theirs. -/
theorem memPt_step_copyOnWrite {e : PtEntry}
    (hstep : w.step realPageSize (.copyOnWrite env i j 0 memPages) = some v)
    (he : memPt (w.mems (if l = j then i else l)) q = some e) :
    ∃ e', memPt (v.mems l) q = some e' ∧ e'.data = e.data ∧ e'.offset = e.offset := by
  have htouch := touches_memPages q
  obtain ⟨-, hv⟩ := Option.ite_none_left_eq_some.1 hstep
  cases hv
  by_cases hj : l = j
  · rw [if_pos hj] at he
    refine ⟨ptCopyOnWrite.share e, ?_, rfl, rfl⟩
    rw [hj, World.put_mems_self, memPt_ptCopyOnWrite_dst, he]
    simp [htouch]
  rw [if_neg hj] at he
  rw [World.put_mems_of_ne _ _ hj]
  by_cases hi : l = i
  · subst hi
    refine ⟨ptCopyOnWrite.share e, ?_, rfl, rfl⟩
    rw [World.put_mems_self, memPt_ptCopyOnWrite_src, if_pos htouch, he]
    rfl
  · exact ⟨e, by rw [World.put_mems_of_ne _ _ hi, he], rfl, rfl⟩

theorem World.Counted.seen_copyOnWrite (hw : w.Counted) (hfit : w.Fits (.copyOnWrite env i j 0 memPages))
    (hstep : w.step realPageSize (.copyOnWrite env i j 0 memPages) = some v)
    (hb : seen w.kernel (w.mems (if l = j then i else l)) q off = some b) :
    seen v.kernel (v.mems l) q off = some b := by
  have hp : w.kernel.Preserves v.kernel := by
    obtain ⟨-, hv⟩ := Option.ite_none_left_eq_some.1 hstep
    cases hv
    exact kernelOrder_preserves.ptCopyOnWrite ..
  obtain ⟨e, he, hbyte⟩ := Option.bind_eq_some_iff.1 hb
  obtain ⟨e', he', hdata, hoffset⟩ := memPt_step_copyOnWrite hstep he
  have hlt := Ish.Counted.lt_of_memPt hw he
  obtain ⟨hreg, hbytes⟩ := hp.regions_eq (tracks_step realPageSize _ hw hfit hstep).counted hlt (hw.region_lt _ hlt)
    he' hdata
  rw [seen_eq he', hreg, hoffset, ← hbyte]
  unfold Host.byteAt
  rw [hbytes]

/-- **Copy on write is invisible.** -/
theorem fork_shows (hw : Run (World.step realPageSize) World.Fits (worldInit ι) w)
    (hfit : w.Fits (.copyOnWrite env i j 0 memPages))
    (hfork : w.step realPageSize (.copyOnWrite env i j 0 memPages) = some v)
    (hfaults : Run (World.step realPageSize) (fun _ op => op.isFault) v u) (hoff : off < pageSize)
    (hb : seen w.kernel (w.mems (if l = j then i else l)) q off = some b) :
    seen u.kernel (u.mems l) q off = some b := by
  have hc := counted_of_run hw
  exact World.Counted.seen_of_faults (tracks_step realPageSize _ hc hfit hfork).counted hfaults hoff
    (hc.seen_copyOnWrite hfit hfork hb)

end

/-- A parent with a writable page at `0x100000`. -/
def parentPage : World Bool :=
  (worldInit Bool).put false (ptMapNothing HostEnv.good (kernelInit, memInit) 0x100 1 (pRead ||| pWrite)).2

theorem run_parentPage : Run (World.step 4096) World.Fits (worldInit Bool) parentPage :=
  .single (.mapNothing HostEnv.good false 0x100 1 (pRead ||| pWrite)) (loopCount_one_lt_refMod _) rfl

theorem fits_parentPage : parentPage.Fits (.copyOnWrite HostEnv.good false true 0 memPages) := by
  have hc : Counted parentPage.kernel (refs parentPage.mems) := counted_of_run run_parentPage
  intro d
  have hle : tally (slots (parentPage.mems false)) d ≤ refs parentPage.mems d :=
    Set.ncard_le_ncard_of_injOn (fun q => (false, q)) (fun q hq => hq) fun q _ q' _ h => (Prod.mk.inj h).2
  have hone : refs parentPage.mems d ≤ 1 := by
    cases hlive : (parentPage.kernel.datas d).live with
    | false => rw [hc.dead d hlive]; exact Nat.zero_le 1
    | true =>
      have hlt : d < 1 := hc.live_lt d hlive
      obtain rfl := Nat.lt_one_iff.1 hlt
      rw [← hc.count 0 hlive]
      exact le_refl 1
  have hmod : 2 < refMod := by decide
  omega

/-- The child writes to the page, and the parent sees the zero that it saw before. -/
theorem fork_shows_parentPage : ∃ v u, parentPage.step 4096 (.copyOnWrite HostEnv.good false true 0 memPages) = some v ∧
    v.step 4096 (.fault FaultEnv.good true 0x100008 .write) = some u ∧ seen u.kernel (u.mems false) 0x100 8 = some 0 := by
  obtain ⟨v, hv⟩ : ∃ v, parentPage.step 4096 (.copyOnWrite HostEnv.good false true 0 memPages) = some v := ⟨_, rfl⟩
  have hpt : memPt (v.mems true) 0x100 = some ⟨0, 0, pRead ||| pWrite ||| pAnonymous ||| pCow⟩ := by
    cases hv
    change memPt (ptCopyOnWrite HostEnv.good _ (parentPage.mems false) _ 0 memPages).2.2 0x100 = _
    rw [memPt_ptCopyOnWrite_dst, if_pos ⟨touches_memPages _, rfl⟩]
    rfl
  obtain ⟨ptr, s, -, hptr, -⟩ := memPtr_write_of_cow FaultEnv.good (v.at true) 0x100008 hpt (by decide) (by decide)
    rfl rfl (by decide)
  have hstep : v.step 4096 (.fault FaultEnv.good true 0x100008 .write) = some (v.put true s) :=
    congrArg (Option.map fun r : Option HostPtr × Kernel × Mem => v.put true r.2) hptr
  have haddr : 0x100008 < wordMod := by decide
  exact ⟨v, _, hv, hstep, fork_shows (l := false) run_parentPage fits_parentPage hv
    (.single (.fault FaultEnv.good true 0x100008 .write) haddr hstep) (by decide) rfl⟩

end Ish
