import Ish.Memory.Equiv.Lifetime

/-!
# Host protection covers guest protection

An entry with any right needs a readable host page behind it, and an entry that may be written to at
once needs a writable one. New mappings have it; `pt_set_flags` is the only function that changes
the rights of a host page, and it looks at one entry at a time: the conditions under which this is
enough are those of `World.ProtOk`.
-/

namespace Ish

open Lib Function Option

/-! ### The rights behind an entry -/

def protOf (k : Kernel) (r : RegionId) : Option (Nat → Prot) := (k.host.regions r).map Region.prot

/-- `e` starts at a page of its mapping, and the host page there has the rights that the flags of
`e` promise. -/
structure PtEntry.Backed (realPageSize : Nat) (k : Kernel) (e : PtEntry) : Prop where
  aligned : e.offset % pageSize = 0
  owned : regionOf k e ≠ vdsoData
  prot : ∃ prot, protOf k (regionOf k e) = some prot ∧
    (hasAny e.flags pRwx → (prot (e.offset / realPageSize)).read) ∧
    (pWritable e.flags → (prot (e.offset / realPageSize)).write)

/-- Every entry of every address space is backed. -/
def Guarded {ι : Type} (realPageSize : Nat) (k : Kernel) (ms : ι → Mem) : Prop :=
  ∀ i q e, memPt (ms i) q = some e → e.Backed realPageSize k

/-- `e'` points to the page of `e` and has no right that `e` has not. -/
structure PtEntry.Weakens (e e' : PtEntry) : Prop where
  data : e'.data = e.data
  offset : e'.offset = e.offset
  rwx : hasAny e'.flags pRwx → hasAny e.flags pRwx
  writable : pWritable e'.flags → pWritable e.flags

theorem PtEntry.Weakens.refl (e : PtEntry) : e.Weakens e := ⟨rfl, rfl, id, id⟩

/-! ### Steps that leave the rights of the mappings alone -/

/-- Mappings keep the rights of their pages, or go. -/
structure ProtStep (k k' : Kernel) : Prop where
  next : k.host.next ≤ k'.host.next
  prot : ∀ r, r < k.host.next → protOf k' r = none ∨ protOf k' r = protOf k r

variable {k : Kernel}

theorem ProtStep.of_regions {k' : Kernel} (hnext : k.host.next ≤ k'.host.next)
    (h : ∀ r, r < k.host.next → protOf k' r = protOf k r) : ProtStep k k' :=
  ⟨hnext, fun r hr => Or.inr (h r hr)⟩

theorem ProtStep.of_host {k' : Kernel} (h : k'.host = k.host) : ProtStep k k' :=
  .of_regions (by rw [h]) fun r _ => by rw [protOf, protOf, h]

theorem ProtStep.refl (k : Kernel) : ProtStep k k := .of_host rfl

theorem ProtStep.trans {k' k'' : Kernel} (h : ProtStep k k') (h' : ProtStep k' k'') : ProtStep k k'' := by
  refine ⟨le_trans h.next h'.next, fun r hr => ?_⟩
  rcases h'.prot r (lt_of_lt_of_le hr h.next) with hnone | heq
  · exact Or.inl hnone
  · rw [heq]
    exact h.prot r hr

theorem protStep_release (k : Kernel) (d : DataId) : ProtStep k (dataRelease k d) := by
  refine ⟨(dataRelease_hostNext k d).ge, fun r _ => ?_⟩
  unfold dataRelease protOf
  dsimp only
  split_ifs
  · by_cases hr : r = (k.datas d).data
    · left
      simp [Host.munmap, hr]
    · right
      simp [Host.munmap, hr]
  · exact Or.inr rfl

theorem protStep_munmap (k : Kernel) (r : RegionId) : ProtStep k { k with host := k.host.munmap r } := by
  refine ⟨le_refl _, fun r' _ => ?_⟩
  by_cases hr : r' = r
  · left
    simp [protOf, Host.munmap, hr]
  · right
    simp [protOf, Host.munmap, hr]

theorem protStep_mmap (k : Kernel) (size : Nat) (prot : Prot) (bytes : Nat → UInt8) :
    ProtStep k { k with host := (k.host.mmap size prot bytes).2 } := by
  refine .of_regions (Nat.le_succ _) fun r hr => ?_
  simp [protOf, Host.mmap, Nat.ne_of_lt hr]

theorem protOf_copied (k : Kernel) (copy r : RegionId) (entry : PtEntry) :
    protOf (memPtr.copied k copy entry) r = protOf k r := by
  unfold memPtr.copied memPtr.fill protOf
  by_cases hr : r = copy
  · split_ifs <;> simp [hr, comp_def]
  · split_ifs <;> simp [hr]

theorem protStep_copied (k : Kernel) (copy : RegionId) (entry : PtEntry) : ProtStep k (memPtr.copied k copy entry) :=
  .of_regions (copied_hostNext k copy entry).ge fun r _ => protOf_copied k copy r entry

theorem kernelOrder_protStep : KernelOrder ProtStep :=
  ⟨.refl, .trans, fun _ _ => .of_host rfl, fun _ _ => .of_host rfl, protStep_release⟩

/-! ### Entries keep their rights -/

section Guarded

variable {ι : Type} [DecidableEq ι] [Finite ι] {realPageSize : Nat}

variable {ms : ι → Mem} {i : ι}

omit [DecidableEq ι] in
theorem Counted.lt_of_memPt (h : Counted k (refs ms)) {q : Nat}
    {e : PtEntry} (he : memPt (ms i) q = some e) : e.data < k.nextData :=
  h.live_lt _ (h.live_of_ne_zero (refs_ne_zero he))

omit [DecidableEq ι] in
/-- The mapping of an entry is there. -/
theorem Counted.protOf_ne_none (h : Counted k (refs ms))
    {q : Nat} {e : PtEntry} (he : memPt (ms i) q = some e) (hv : regionOf k e ≠ vdsoData) :
    protOf k (regionOf k e) ≠ none := by
  have hmapped := h.mapped e.data (h.lt_of_memPt he) hv
  rw [h.live_of_ne_zero (refs_ne_zero he)] at hmapped
  intro hnone
  rw [protOf, map_eq_none_iff] at hnone
  unfold regionOf at hnone
  rw [hnone] at hmapped
  exact absurd hmapped (by simp)

omit [DecidableEq ι] in
theorem Guarded.step {k' : Kernel} {ms ms' : ι → Mem} (hg : Guarded realPageSize k ms)
    (hc : Counted k (refs ms)) (hc' : Counted k' (refs ms')) (hprot : ProtStep k k')
    (hdata : ∀ d, d < k.nextData → (k'.datas d).data = (k.datas d).data) (hentry : ∀ i q e', memPt (ms' i) q = some e' →
      (∃ j p e, memPt (ms j) p = some e ∧ e.Weakens e') ∨ e'.Backed realPageSize k') : Guarded realPageSize k' ms' := by
  intro i q e' he'
  rcases hentry i q e' he' with ⟨j, p, e, he, hweak⟩ | hnew
  · obtain ⟨haligned, howned, prot, hp, hread, hwrite⟩ := hg j p e he
    have hlt := hc.lt_of_memPt he
    have hregion : regionOf k' e' = regionOf k e := by
      unfold regionOf
      rw [hweak.data]
      exact hdata e.data hlt
    have hsome : protOf k' (regionOf k e) ≠ none := by
      rw [← hregion] at howned ⊢
      exact hc'.protOf_ne_none he' howned
    have hsame := (hprot.prot _ (hc.region_lt e.data hlt)).resolve_left hsome
    refine ⟨hweak.offset ▸ haligned, hregion ▸ howned, prot, ?_, fun h => ?_, fun h => ?_⟩
    · rw [hregion, ← hp]
      exact hsame
    · rw [hweak.offset]
      exact hread (hweak.rwx h)
    · rw [hweak.offset]
      exact hwrite (hweak.writable h)
  · exact hnew

/-- The counts and the rights, in the middle of an operation on address space `i`. -/
structure OpGuarded (realPageSize : Nat) (ms : ι → Mem) (i : ι) (s : Kernel × Mem) : Prop where
  counted : Counted s.1 (refs (Function.update ms i s.2))
  guarded : Guarded realPageSize s.1 (Function.update ms i s.2)

omit [Finite ι] in
theorem OpGuarded.opTracks {s : Kernel × Mem} (h : OpGuarded realPageSize ms i s) :
    OpTracks s.1.nextData s.1 (refs (update ms i s.2)) ms i s :=
  h.counted.tracks

variable {s s' : Kernel × Mem}

/-- A part of an operation that keeps the counts, leaves mappings alone, and weakens entries or
makes backed ones. -/
theorem OpGuarded.step (h : OpGuarded realPageSize ms i s)
    (ht : OpTracks s.1.nextData s.1 (refs (update ms i s.2)) ms i s') (hprot : ProtStep s.1 s'.1)
    (hentry : ∀ q e', memPt s'.2 q = some e' →
      (∃ e, memPt s.2 q = some e ∧ e.Weakens e') ∨ e'.Backed realPageSize s'.1) : OpGuarded realPageSize ms i s' := by
  refine ⟨ht.counted, h.guarded.step h.counted ht.counted hprot ht.region fun j q e' he' => ?_⟩
  by_cases hj : j = i
  · subst hj
    rw [update_self] at he'
    rcases hentry q e' he' with ⟨e, he, hweak⟩ | hnew
    · exact Or.inl ⟨j, q, e, by rwa [update_self], hweak⟩
    · exact Or.inr hnew
  · rw [update_of_ne hj] at he'
    exact Or.inl ⟨j, q, e', by rwa [update_of_ne hj], .refl e'⟩

/-! ### Unmapping, mapping, copying -/

theorem OpGuarded.unmapAlways (h : OpGuarded realPageSize ms i s) (env : HostEnv) (start pages : Nat) :
    OpGuarded realPageSize ms i (ptUnmapAlways env s start pages) := by
  refine h.step (h.opTracks.unmapAlways env start pages) (kernelOrder_protStep.ptUnmapAlways env s start pages)
    fun q e' he' => Or.inl ⟨e', ?_, .refl e'⟩
  rw [memPt_ptUnmapAlways] at he'
  split_ifs at he'
  exact he'

theorem offset_aligned (n : Nat) : (n * pageSize + 0) % wordMod % pageSize = 0 := by
  have hdvd : pageSize ∣ wordMod := ⟨0x10000000000000, rfl⟩
  rw [Nat.add_zero, Nat.mod_mod_of_dvd _ hdvd, Nat.mul_mod_left]

/-- `pt_map` of a mapping that no object owns and that has the rights the flags promise. -/
theorem OpGuarded.map (h : OpGuarded realPageSize ms i s)
    (env : HostEnv) (start pages : Nat) (flags : Flags) (hfit : loopCount start pages < refMod)
    {r : RegionId} (hr : r < s.1.host.next) (hv : r ≠ vdsoData)
    (hown : ∀ d, d < s.1.nextData → (s.1.datas d).data ≠ r) {prot : Prot}
    (hprot : protOf s.1 r = some fun _ => prot) (hread : hasAny flags pRwx → prot.read)
    (hwrite : pWritable flags → prot.write) :
    OpGuarded realPageSize ms i (ptMap env s start pages (some r) 0 flags).2 := by
  have hsome : (s.1.host.regions r).isSome := by
    unfold protOf at hprot
    obtain ⟨R, hR, -⟩ := map_eq_some_iff.1 hprot
    rw [hR]
    rfl
  have htracks := h.opTracks.map env start pages (some r) 0 flags hfit
    (by rintro r' ⟨⟩; exact hr) (by rintro r' ⟨⟩ -; exact ⟨hsome, hown⟩)
  have hstep := kernelOrder_protStep.ptMap env s start pages (some r) 0 flags fun _ _ => .of_host rfl
  refine h.step htracks hstep fun q e he => ?_
  rcases entry_ptMap env s start pages (some r) 0 flags he with hold | ⟨-, hflags, -, hreg, p, hoff⟩
  · exact Or.inl ⟨e, hold, .refl e⟩
  right
  generalize (ptMap env s start pages (some r) 0 flags).2 = t at *
  have hregion : r = regionOf t.1 e := Option.some.inj hreg
  have hentry : memPt (update ms i t.2 i) q = some e := by
    rw [update_self]
    exact he
  have hsome' := htracks.counted.protOf_ne_none hentry (hregion ▸ hv)
  have hp : protOf t.1 r = some fun _ => prot := by
    rw [← hprot]
    exact (hstep.prot r hr).resolve_left (hregion ▸ hsome')
  refine ⟨?_, hregion ▸ hv, _, hregion ▸ hp, fun hf => ?_, fun hf => ?_⟩
  · rw [hoff]
    exact offset_aligned _
  · exact hread (hflags ▸ hf)
  · exact hwrite (hflags ▸ hf)

theorem hasAny_rwx (flags : Flags) :
    hasAny flags pRwx = (hasAny flags pRead || hasAny flags pWrite || hasAny flags pExec) := by
  rw [pRwx, hasAny_or_right, hasAny_or_right]

theorem hasAny_rwx_of_writable {flags : Flags} (h : pWritable flags) : hasAny flags pRwx := by
  have hw := (Bool.and_eq_true_iff.1 h).1
  simp [hasAny_rwx, hw]

theorem hostProt_of_rwx {flags : Flags} (h : hasAny flags pRwx) : ptMapNothing.hostProt flags = Prot.rw := by
  rw [hasAny_rwx] at h
  unfold ptMapNothing.hostProt
  cases hr : hasAny flags pRead <;> cases hw : hasAny flags pWrite <;>
    cases hx : hasAny flags pExec <;> simp_all

theorem protOf_mmap (k : Kernel) (size : Nat) (prot : Prot) (bytes : Nat → UInt8) :
    protOf { k with host := (k.host.mmap size prot bytes).2 } k.host.next =
      some fun _ => prot := by
  simp [protOf, Host.mmap]

theorem OpGuarded.quiet (h : OpGuarded realPageSize ms i s) (hq : s.1.Quiet s'.1) (hprot : ProtStep s.1 s'.1)
    (hm : ∀ q, memPt s'.2 q = memPt s.2 q) : OpGuarded realPageSize ms i s' :=
  h.step (h.opTracks.congr hq fun q => by rw [hm]) hprot fun q e' he' =>
    Or.inl ⟨e', by rw [← hm, he'], .refl e'⟩

theorem Counted.next_ne_vdso {f : DataId → Nat} (h : Counted k f) : k.host.next ≠ vdsoData :=
  Nat.ne_of_gt h.vdso_lt

theorem OpGuarded.mapNothing (h : OpGuarded realPageSize ms i s) (env : HostEnv) (start pages : Nat) (flags : Flags)
    (hfit : loopCount start pages < refMod) : OpGuarded realPageSize ms i (ptMapNothing env s start pages flags).2 := by
  refine ptMapNothing_inv env start pages flags h ?_
  have hmmap : OpGuarded realPageSize ms i (ptMapNothing.mmapped s.1 pages flags, s.2) :=
    h.quiet (h.counted.quiet_mmap _ _ _) (protStep_mmap _ _ _ _) fun _ => rfl
  have hanon : hasAny (flags ||| pAnonymous) pRwx = hasAny flags pRwx := by
    have hno : hasAny pAnonymous pRwx = false := by decide
    rw [hasAny_or, hno, Bool.or_false]
  refine hmmap.map env start pages _ hfit (Nat.lt_succ_self _) h.counted.next_ne_vdso
    (fun d hd => h.counted.mmap_unowned hd) (protOf_mmap _ _ _ _) (fun hf => ?_) fun hf => ?_
  · rw [hostProt_of_rwx (hanon ▸ hf)]
    rfl
  · rw [hostProt_of_rwx (hanon ▸ hasAny_rwx_of_writable hf)]
    rfl

theorem weakens_share (e : PtEntry) : e.Weakens (ptCopyOnWrite.share e) := by
  refine ⟨rfl, rfl, ?_, ?_⟩
  · unfold ptCopyOnWrite.share ptCopyOnWrite.newFlags
    have hno : hasAny pCow pRwx = false := by decide
    split_ifs
    · exact id
    · rw [hasAny_or, hno, Bool.or_false]
      exact id
  · unfold ptCopyOnWrite.share ptCopyOnWrite.newFlags
    have hcow : hasAny pCow pCow = true := by decide
    split_ifs
    · exact id
    · intro h
      simp [pWritable, hcow] at h

theorem Guarded.copyOnWrite {i j : ι} (hij : i ≠ j)
    (hg : Guarded realPageSize k ms) (hc : Counted k (refs ms)) (env : HostEnv) (start pages : Nat)
    (hfit : ∀ d, refs ms d + tally (slots (ms i)) d < refMod) :
    Guarded realPageSize (ptCopyOnWrite env k (ms i) (ms j) start pages).1
      (update (update ms i (ptCopyOnWrite env k (ms i) (ms j) start pages).2.1) j
        (ptCopyOnWrite env k (ms i) (ms j) start pages).2.2) := by
  have ht := hc.tracks.copyOnWrite hij env start pages hfit
  refine hg.step hc ht.counted (kernelOrder_protStep.ptCopyOnWrite env k _ _ start pages) ht.region
    fun a q e' he' => Or.inl ?_
  have hshare : ∀ {e'}, (memPt (ms i) q).map ptCopyOnWrite.share = some e' →
      ∃ a p e, memPt (ms a) p = some e ∧ e.Weakens e' := by
    intro e' he'
    obtain ⟨e, he, rfl⟩ := map_eq_some_iff.1 he'
    exact ⟨i, q, e, he, weakens_share e⟩
  by_cases haj : a = j
  · subst haj
    rw [update_self, memPt_ptCopyOnWrite_dst] at he'
    split_ifs at he'
    · exact hshare he'
    · exact ⟨a, q, e', he', .refl e'⟩
  · rw [update_of_ne haj] at he'
    by_cases hai : a = i
    · subst hai
      rw [update_self, memPt_ptCopyOnWrite_src] at he'
      split_ifs at he'
      · exact hshare he'
      · exact ⟨a, q, e', he', .refl e'⟩
    · rw [update_of_ne hai] at he'
      exact ⟨a, q, e', he', .refl e'⟩

/-! ### Faults -/

theorem OpGuarded.materialise (h : OpGuarded realPageSize ms i s) (env : HostEnv) (page : Nat) (flags : Flags) :
    OpGuarded realPageSize ms i (memPtr.materialise env s page flags) := by
  have hcount : OpGuarded realPageSize ms i (memPtr.counted s) :=
    h.quiet (quiet_anon _ _) (.of_host rfl) fun _ => rfl
  exact memPtr.materialise_inv env h (fun _ => hcount.mapNothing env page 1 flags (loopCount_one_lt_refMod page))
    fun _ ht => ht.quiet (.refl _) (.refl _) fun _ => rfl

/-- The page has some right: what a tracer's write needs. -/
def RwxAt (page : Nat) (s : Kernel × Mem) : Prop :=
  ∃ e, memPt s.2 page = some e ∧ hasAny e.flags pRwx

variable {page : Nat}

theorem OpGuarded.touch (h : OpGuarded realPageSize ms i s) {type : AccessType} {entry : PtEntry}
    (hentry : memPt s.2 page = some entry) (hrwx : type = .writePtrace → RwxAt page s) :
    OpGuarded realPageSize ms i (memPtr.touch s page type entry) := by
  refine h.step (h.opTracks.touch type hentry) (.refl _) fun q e' he' => Or.inl ?_
  rw [memPt_touch s page q type hentry] at he'
  split_ifs at he' with hq
  · cases he'
    refine ⟨entry, (memPt_congr s.2 hq).trans hentry, rfl, rfl, ?_, ?_⟩
    · intro hf
      by_cases ht : type = .writePtrace
      · obtain ⟨e, he, hr⟩ := hrwx ht
        cases hentry.symm.trans he
        exact hr
      · simpa [memPtr.writeFlags, ht] using hf
    · intro hf
      by_cases ht : type = .writePtrace
      · -- a tracer's page waits for its copy
        have hcow : hasAny pCow pCow = true := by decide
        simp [memPtr.writeFlags, ht, pWritable, hcow] at hf
      · simpa [memPtr.writeFlags, ht] using hf
  · exact ⟨e', he', .refl e'⟩

theorem OpGuarded.resolveCow (h : OpGuarded realPageSize ms i s) {env : HostEnv} {copy : Option RegionId}
    (hres : memPtr.resolveCow env s page copy = some s')
    (hcopy : ∀ r, copy = some r → r < s.1.host.next ∧ r ≠ vdsoData ∧ (∀ d, d < s.1.nextData → (s.1.datas d).data ≠ r) ∧
      protOf s.1 r = some fun _ => Prot.rw) : OpGuarded realPageSize ms i s' := by
  rcases memPtr.resolveCow_cases hres with
    ⟨entry, r, -, -, hr, rfl⟩ | ⟨-, ⟨r, hr, rfl⟩ | ⟨-, rfl⟩⟩
  · obtain ⟨hlt, hv, hown, hprot⟩ := hcopy r hr
    have hq := quiet_copied s.1 r entry
    have hp := protStep_copied s.1 r entry
    have hfill : OpGuarded realPageSize ms i (memPtr.copied s.1 r entry, s.2) :=
      h.quiet hq hp fun _ => rfl
    have hmap := hfill.map env page 1 (entry.flags &&& ~~~pCow) (loopCount_one_lt_refMod page)
      (lt_of_lt_of_le hlt hq.hostNext) hv
      (fun d hd => by
        rw [hq.nextData] at hd
        rw [hq.data]
        exact hown d hd)
      ((protOf_copied s.1 r r entry).trans hprot) (fun _ => rfl) fun _ => rfl
    exact hmap.quiet (.refl _) (.refl _) fun _ => rfl
  · have hown := (hcopy r hr).2.2.1
    refine h.quiet (.of_host rfl rfl (le_refl _) fun d hd => ?_) (protStep_munmap s.1 r) fun _ => rfl
    simp [Host.munmap, hown d hd]
  · exact h

variable {fe : FaultEnv}

theorem OpGuarded.cow (h : OpGuarded realPageSize ms i s)
    (hcow : memPtr.cow fe (fun _ s => s) s page = some s') : OpGuarded realPageSize ms i s' := by
  rcases memPtr.cow_cases hcow with hres | hres
  · have hcopy : OpGuarded realPageSize ms i (memPtr.withCopy s.1, s.2) :=
      h.quiet (h.counted.quiet_mmap _ _ _) (protStep_mmap _ _ _ _) fun _ => rfl
    refine hcopy.resolveCow hres ?_
    rintro r ⟨⟩
    exact ⟨Nat.lt_succ_self _, h.counted.next_ne_vdso, fun d hd => h.counted.mmap_unowned hd,
      protOf_mmap _ _ _ _⟩
  · exact h.resolveCow hres (by simp)

theorem rwxAt_resolveCow {env : HostEnv} {copy : Option RegionId} (hres : memPtr.resolveCow env s page copy = some s')
    (h : RwxAt page s) : RwxAt page s' := by
  rcases memPtr.resolveCow_cases hres with
    ⟨entry, r, hentry, -, -, rfl⟩ | ⟨-, ⟨r, -, rfl⟩ | ⟨-, rfl⟩⟩
  · obtain ⟨e, he, hrwx⟩ := h
    cases hentry.symm.trans he
    have hkeep : hasAny (entry.flags &&& ~~~pCow) pRwx = hasAny entry.flags pRwx :=
      hasAny_and_of_subset (by decide)
    rcases ptMap_cases env (memPtr.copied s.1 r entry, s.2) page 1 (some r) 0
      (entry.flags &&& ~~~pCow) with ⟨err, heq⟩ | ⟨r', -, -, heq⟩
    · rw [heq]
      exact ⟨entry, he, hrwx⟩
    · rw [heq]
      obtain ⟨hin, hout⟩ := ptMap.memPt_loop env (memPtr.copied s.1 r entry, s.2) page 1 r' 0
        (entry.flags &&& ~~~pCow) page
      by_cases htouch : Touches page (loopCount page 1) page
      · obtain ⟨p, hp⟩ := hin htouch
        exact ⟨_, hp, hkeep.trans hrwx⟩
      · exact ⟨entry, (hout htouch).trans he, hrwx⟩
  · exact h
  · exact h

theorem rwxAt_cow (hcow : memPtr.cow fe (fun _ s => s) s page = some s') (h : RwxAt page s) : RwxAt page s' := by
  rcases memPtr.cow_cases hcow with hres | hres
  · exact rwxAt_resolveCow hres h
  · exact rwxAt_resolveCow hres h

/-- `mem_ptr`; a tracer writes only to pages with some right. -/
theorem OpGuarded.memPtr (h : OpGuarded realPageSize ms i s) {addr : Nat} {type : AccessType}
    {ptr : Option HostPtr} (hptr : memPtr fe s addr type = some (ptr, s'))
    (hrwx : type = .writePtrace → RwxAt (pageOf addr) s) : OpGuarded realPageSize ms i s' := by
  refine And.left (memPtrWith_rel (fun s s' =>
    OpGuarded realPageSize ms i s ∧ (type = .writePtrace → RwxAt (pageOf addr) s) →
      OpGuarded realPageSize ms i s' ∧ (type = .writePtrace → RwxAt (pageOf addr) s'))
    (fun _ => id) (fun _ _ _ h h' hs => h' (h hs)) (fun _ _ => id) (fun s flags hs => ?_)
    (fun s entry hentry hs => ?_) (fun s s' hc hs => ?_) hptr ⟨h, hrwx⟩)
  · refine ⟨hs.1.materialise fe.host _ flags, fun ht => ?_⟩
    obtain ⟨e, he, hr⟩ := hs.2 ht
    simp only [memPtr.materialise, he, isSome_some, if_true]
    exact ⟨e, he, hr⟩
  · refine ⟨hs.1.touch hentry hs.2, fun ht => ?_⟩
    refine ⟨_, (memPt_touch s _ _ type hentry).trans (if_pos rfl), ?_⟩
    have hw : hasAny (pWrite ||| pCow) pRwx = true := by decide
    simp only [memPtr.writeFlags, ht, if_true]
    rw [hasAny_or, hw, Bool.or_true]
  · exact ⟨hs.1.cow hc, fun ht => rwxAt_cow hc (hs.2 ht)⟩

end Guarded

/-! ### What `pt_set_flags` asks the host for -/

def protAt (k : Kernel) (r : RegionId) (hostPage : Nat) : Option Prot :=
  (k.host.regions r).map fun R => R.prot hostPage

namespace ptSetFlags

variable (realPageSize : Nat) (env : HostEnv) (s : Kernel × Mem) (start : Nat) (flags : Flags)

/-- Among the slots of the first `n` pages there is an entry over this host page whose protection
increases. -/
def Asks (n : Nat) (r : RegionId) (hostPage : Nat) : Prop :=
  ∃ q e, Touches start n q ∧ memPt s.2 q = some e ∧ increases flags e.flags ∧
    regionOf s.1 e = r ∧ e.offset / realPageSize = hostPage

theorem asks_zero (r : RegionId) (hostPage : Nat) : ¬ Asks realPageSize s start flags 0 r hostPage := by
  rintro ⟨q, e, htouch, -⟩
  exact touches_zero start q htouch

theorem asks_succ (n : Nat) (r : RegionId) (hostPage : Nat) : Asks realPageSize s start flags (n + 1) r hostPage ↔
      Asks realPageSize s start flags n r hostPage ∨
        ∃ e, memPt s.2 (start + n) = some e ∧ increases flags e.flags ∧ regionOf s.1 e = r ∧
          e.offset / realPageSize = hostPage := by
  constructor
  · rintro ⟨q, e, htouch, he, hrest⟩
    rcases (touches_succ start n q).1 htouch with hold | hq
    · exact Or.inl ⟨q, e, hold, he, hrest⟩
    · exact Or.inr ⟨e, (memPt_congr s.2 hq).symm.trans he, hrest⟩
  · rintro (⟨q, e, htouch, hrest⟩ | ⟨e, he, hrest⟩)
    · exact ⟨q, e, htouch.mono (Nat.le_succ n), hrest⟩
    · exact ⟨start + n, e, (touches_succ start n _).2 (Or.inr rfl), he, hrest⟩

theorem increases_newFlags (flags old : Flags) : increases flags (newFlags flags old) = false := by
  have hzero : flags &&& ~~~(flags ||| (old &&& pMetaFlags)) = 0#32 := by
    ext i
    simp only [BitVec.getElem_and, BitVec.getElem_not, BitVec.getElem_or, BitVec.getElem_zero]
    cases flags[i] <;> simp
  unfold increases newFlags
  rw [hzero]
  exact hasAny_zero_left _

theorem protAt_mprotected (k : Kernel) (entry : PtEntry) (r : RegionId) (hostPage : Nat) :
    protAt (mprotected realPageSize flags k entry) r hostPage =
      if regionOf k entry = r ∧ entry.offset / realPageSize = hostPage then
        (protAt k r hostPage).map fun _ => hostProt flags else protAt k r hostPage := by
  unfold protAt mprotected Host.mprotect regionOf
  dsimp only
  by_cases hr : r = (k.datas entry.data).data
  · subst hr
    rw [update_self]
    by_cases hp : entry.offset / realPageSize = hostPage
    · subst hp
      simp [comp_def]
    · have hp' : hostPage ≠ entry.offset / realPageSize := fun h => hp h.symm
      simp [comp_def, hp, hp']
  · rw [update_of_ne hr, if_neg fun h => hr h.1.symm]

variable {env} in
/-- When the host refuses nothing, a turn asks it for the rights of a page whose protection
increases. -/
theorem body_kernel (hacc : ∀ page, env.mprotect page) (page : Nat) (t : Kernel × Mem) :
    (body realPageSize env flags page t).2.1 =
      match memPt t.2 page with
      | none => t.1
      | some e => if increases flags e.flags then mprotected realPageSize flags t.1 e else t.1 := by
  unfold body
  cases memPt t.2 page with
  | none => rfl
  | some e =>
    dsimp only
    rw [hacc page, if_pos rfl]
    split_ifs <;> rfl

/-- The state of the second loop of `pt_set_flags` after `n` turns. -/
structure LoopState (n : Nat) (t : Kernel × Mem) : Prop where
  datas : t.1.datas = s.1.datas
  entry : ∀ q, memPt t.2 q =
    open Classical in
    if Touches start n q then (memPt s.2 q).map (reflag flags) else memPt s.2 q
  prot : ∀ r hostPage, protAt t.1 r hostPage =
    open Classical in
    if Asks realPageSize s start flags n r hostPage then
      (protAt s.1 r hostPage).map fun _ => hostProt flags
    else protAt s.1 r hostPage

variable {realPageSize env s start flags} in
theorem LoopState.body {n : Nat} {t : Kernel × Mem}
    (h : LoopState realPageSize s start flags n t) (hacc : ∀ page, env.mprotect page) :
    LoopState realPageSize s start flags (n + 1) (ptSetFlags.body realPageSize env flags (start + n) t).2 := by
  classical
  refine ⟨?_, fun q => ?_, fun r hostPage => ?_⟩
  · rw [← h.datas, body_kernel realPageSize flags hacc]
    cases memPt t.2 (start + n) with
    | none => rfl
    | some e =>
      dsimp only
      split_ifs <;> rfl
  · rw [memPt_body, h.entry q]
    simp only [touches_succ]
    by_cases hq : q % memPages = (start + n) % memPages
    · -- a slot reached twice is given the same flags again
      rw [if_pos hq, if_pos (Or.inr hq)]
      split_ifs
      · simp [comp_def, reflag_idem]
      · rfl
    · simp only [hq, or_false, if_false]
  · rw [body_kernel realPageSize flags hacc, h.entry (start + n), asks_succ]
    cases he : memPt s.2 (start + n) with
    | none =>
      simp only [map_none, ite_self, reduceCtorEq, false_and, exists_false, or_false]
      exact h.prot r hostPage
    | some e =>
      have hregion : regionOf t.1 e = regionOf s.1 e := by
        unfold regionOf
        rw [h.datas]
      by_cases htouch : Touches start n (start + n)
      · -- the slot has been reached before
        have hasks : (Asks realPageSize s start flags n r hostPage ∨
            ∃ e', some e = some e' ∧ increases flags e'.flags ∧ regionOf s.1 e' = r ∧
              e'.offset / realPageSize = hostPage) ↔
            Asks realPageSize s start flags n r hostPage := by
          refine or_iff_left_of_imp ?_
          rintro ⟨e', ⟨⟩, hrest⟩
          exact ⟨start + n, e, htouch, he, hrest⟩
        simp only [hasks, if_pos htouch, map_some, reflag, increases_newFlags, Bool.false_eq_true, if_false]
        exact h.prot r hostPage
      · simp only [if_neg htouch, Option.some.injEq, exists_eq_left']
        cases hinc : increases flags e.flags with
        | false =>
          simp only [Bool.false_eq_true, if_false, false_and, or_false]
          exact h.prot r hostPage
        | true =>
          simp only [if_true, true_and]
          rw [protAt_mprotected, hregion, h.prot r hostPage]
          by_cases hpage : regionOf s.1 e = r ∧ e.offset / realPageSize = hostPage
          · rw [if_pos hpage, if_pos (Or.inr hpage)]
            split_ifs
            · simp [comp_def]
            · rfl
          · simp only [hpage, if_false, or_false]

variable {realPageSize env s start flags} in
theorem loopState_loop (hacc : ∀ page, env.mprotect page) (pages : Nat) :
    LoopState realPageSize s start flags (loopCount start pages) (loop realPageSize env s start pages flags).2 := by
  classical
  obtain ⟨n, -, heq, hall⟩ := forUntil_eq_forRange (ptSetFlags.body realPageSize env flags)
    (loopCount start pages) start s
  have hnone : ∀ j t, (ptSetFlags.body realPageSize env flags j t).1 = none := by
    intro j t
    unfold ptSetFlags.body
    cases memPt t.2 j with
    | none => rfl
    | some e =>
      dsimp only
      rw [hacc j, if_pos rfl]
      split_ifs <;> rfl
  have hn := hall (forUntil_eq_none _ hnone _ _ _)
  unfold loop
  rw [heq, hn]
  have h := forRange_induct (f := fun j t => (ptSetFlags.body realPageSize env flags j t).2)
    (n := loopCount start pages) (i := start) (s := s)
    (fun j t => LoopState realPageSize s start flags (j - start) t)
    (by
      rw [Nat.sub_self]
      refine ⟨rfl, fun q => ?_, fun r hostPage => ?_⟩
      · rw [if_neg (touches_zero start q)]
      · rw [if_neg (asks_zero realPageSize s start flags r hostPage)])
    (fun j t hle _ ht => by
      have hbody := ht.body hacc
      rw [Nat.add_sub_cancel' hle] at hbody
      rw [Nat.sub_add_comm hle]
      exact hbody)
  rw [Nat.add_sub_cancel_left] at h
  exact h

end ptSetFlags

theorem protAt_of_protOf {r : RegionId} {prot : Nat → Prot}
    (h : protOf k r = some prot) (hostPage : Nat) : protAt k r hostPage = some (prot hostPage) := by
  unfold protOf at h
  obtain ⟨R, hR, rfl⟩ := map_eq_some_iff.1 h
  rw [protAt, hR]
  rfl

theorem protOf_of_protAt {r : RegionId} {hostPage : Nat} {x : Prot}
    (h : protAt k r hostPage = some x) : ∃ prot, protOf k r = some prot ∧ prot hostPage = x := by
  unfold protAt at h
  obtain ⟨R, hR, rfl⟩ := map_eq_some_iff.1 h
  exact ⟨R.prot, by rw [protOf, hR]; rfl, rfl⟩

/-! ### When `pt_set_flags` is safe -/

section SetFlags

variable {ι : Type} [DecidableEq ι] [Finite ι] {realPageSize : Nat}

/-- What a `pt_set_flags` on address space `i` must meet: the host refuses no `mprotect`; pages
without any right are not made executable only; and where the host page of a page is made readable
only, all writable pages over it are pages of the request. -/
structure ptSetFlags.Safe (realPageSize : Nat) (env : HostEnv) (k : Kernel) (ms : ι → Mem) (i : ι)
    (start pages : Nat) (flags : Flags) : Prop where
  accepts : ∀ page, env.mprotect page
  exec : ∀ q e, Touches start (loopCount start pages) q → memPt (ms i) q = some e →
    hasAny flags pExec → hasAny flags (pRead ||| pWrite) = false → hasAny e.flags pRwx
  shared : ∀ q e, Touches start (loopCount start pages) q → memPt (ms i) q = some e →
    increases flags e.flags → hasAny flags pWrite = false →
    ∀ j q' e', memPt (ms j) q' = some e' → regionOf k e' = regionOf k e →
      e'.offset / realPageSize = e.offset / realPageSize → pWritable e'.flags →
      j = i ∧ Touches start (loopCount start pages) q'

theorem hostProt_read (flags : Flags) : (ptSetFlags.hostProt flags).read := by
  unfold ptSetFlags.hostProt
  split_ifs <;> rfl

theorem hostProt_write {flags : Flags} (h : hasAny flags pWrite) : (ptSetFlags.hostProt flags).write := by
  unfold ptSetFlags.hostProt
  rw [if_pos h]
  rfl

/-- The entries after `pt_set_flags` on a host that refuses nothing, and the rights behind them. -/
theorem ptSetFlags.result_of_covered (realPageSize : Nat) {env : HostEnv} {s : Kernel × Mem}
    {start pages : Nat} (flags : Flags) (hacc : ∀ page, env.mprotect page) (hcov : covered s.2 start pages) :
    LoopState realPageSize s start flags (loopCount start pages)
      (ptSetFlags realPageSize env s start pages flags).2 := by
  have hloop : LoopState realPageSize s start flags (loopCount start pages)
      (loop realPageSize env s start pages flags).2 := loopState_loop hacc pages
  rcases ptSetFlags_cases realPageSize env s start pages flags with
    ⟨hno, -⟩ | ⟨-, ⟨err, -, heq⟩ | ⟨-, m, hm, heq⟩⟩
  · rw [hcov] at hno
    cases hno
  · rw [heq]
    exact hloop
  · have hpt : ∀ q, memPt m q = memPt (loop realPageSize env s start pages flags).2.2 q := by
      intro q
      rw [← hm]
      exact memPt_eq_of_pgdir (by simp) q
    rcases heq with heq | heq
    · rw [heq]
      exact ⟨hloop.datas, fun q => (hpt q).trans (hloop.entry q), hloop.prot⟩
    · rw [heq]
      exact ⟨hloop.datas, fun q => (hpt q).trans (hloop.entry q), hloop.prot⟩

theorem ptSetFlags.rights_reflag (flags : Flags) (e : PtEntry) :
    hasAny (reflag flags e).flags pRwx = hasAny flags pRwx ∧
      (pWritable (reflag flags e).flags → hasAny flags pWrite ∧ hasAny e.flags pCow = false) := by
  have hrwx : hasAny (e.flags &&& pMetaFlags) pRwx = false := hasAny_and_of_disjoint (by decide)
  have hw : hasAny (e.flags &&& pMetaFlags) pWrite = false := hasAny_and_of_disjoint (by decide)
  have hcow : hasAny (e.flags &&& pMetaFlags) pCow = hasAny e.flags pCow :=
    hasAny_and_of_subset (by decide)
  unfold reflag newFlags pWritable
  rw [hasAny_or, hasAny_or, hasAny_or, hrwx, hw, hcow]
  refine ⟨Bool.or_false _, fun h => ?_⟩
  simp only [Bool.or_false, Bool.and_eq_true, Bool.not_eq_true', Bool.or_eq_false_iff] at h
  exact ⟨h.1, h.2.2⟩

omit [DecidableEq ι] [Finite ι] in
theorem ptSetFlags.Safe.request {env : HostEnv} {ms : ι → Mem} {i : ι} {start pages : Nat} {flags : Flags}
    (h : Safe realPageSize env k ms i start pages flags) {q : Nat} {e : PtEntry}
    (htouch : Touches start (loopCount start pages) q) (he : memPt (ms i) q = some e)
    (hb : e.Backed realPageSize k) {x : Prot}
    (hx : x = hostProt flags ∨ protAt k (regionOf k e) (e.offset / realPageSize) = some x ∧
      increases flags e.flags = false) : (hasAny (reflag flags e).flags pRwx → x.read) ∧
      (pWritable (reflag flags e).flags → x.write) := by
  obtain ⟨hrwx, hwritable⟩ := rights_reflag flags e
  rcases hx with rfl | ⟨hold, hinc⟩
  · exact ⟨fun _ => hostProt_read flags, fun hw => hostProt_write (hwritable hw).1⟩
  -- the host page is as it was, and so are the rights to read and write
  obtain ⟨-, -, prot, hp, hread, hwrite⟩ := hb
  cases hold.symm.trans (protAt_of_protOf hp _)
  constructor
  · intro hr
    rw [hrwx] at hr
    apply hread
    cases hrw : hasAny flags (pRead ||| pWrite) with
    | true =>
      have hrw' := hasAny_of_not_added hinc (by decide) hrw
      rw [pRwx, hasAny_or_right, hrw', Bool.true_or]
    | false =>
      rw [pRwx, hasAny_or_right, hrw, Bool.false_or] at hr
      exact h.exec q e htouch he hr hrw
  · intro hw
    obtain ⟨hfw, hcow⟩ := hwritable hw
    have hew := hasAny_of_not_added hinc (by decide) hfw
    exact hwrite (by simp [pWritable, hew, hcow])

omit [Finite ι] in
/-- **`pt_set_flags` keeps the rights of the host pages**, if it is safe. -/
theorem OpGuarded.setFlags {ms : ι → Mem} {i : ι} {s : Kernel × Mem}
    (h : OpGuarded realPageSize ms i s) (env : HostEnv) (start pages : Nat) (flags : Flags)
    (hsafe : ptSetFlags.covered s.2 start pages →
      ptSetFlags.Safe realPageSize env s.1 (update ms i s.2) i start pages flags) :
    OpGuarded realPageSize ms i (ptSetFlags realPageSize env s start pages flags).2 := by
  classical
  have htracks := h.opTracks.setFlags realPageSize env start pages flags
  cases hcov : ptSetFlags.covered s.2 start pages with
  | false =>
    rcases ptSetFlags_cases realPageSize env s start pages flags with ⟨-, heq⟩ | ⟨hyes, -⟩
    · rw [heq]
      exact h
    · rw [hcov] at hyes
      cases hyes
  | true =>
    have hs := hsafe hcov
    have hres := ptSetFlags.result_of_covered realPageSize flags hs.accepts hcov
    generalize (ptSetFlags realPageSize env s start pages flags).2 = t at *
    have hregion : ∀ e, regionOf t.1 e = regionOf s.1 e := by
      intro e
      unfold regionOf
      rw [hres.datas]
    -- an entry is backed if the host page behind it has the rights of its flags
    have hbacked : ∀ (e : PtEntry) x, e.offset % pageSize = 0 → regionOf s.1 e ≠ vdsoData →
        protAt t.1 (regionOf s.1 e) (e.offset / realPageSize) = some x →
        (hasAny e.flags pRwx → x.read) ∧ (pWritable e.flags → x.write) →
        e.Backed realPageSize t.1 := by
      intro e x haligned howned hx hrights
      obtain ⟨prot, hp, rfl⟩ := protOf_of_protAt hx
      rw [← hregion e] at hp howned
      exact ⟨haligned, howned, prot, hp, hrights⟩
    refine ⟨htracks.counted, fun j q e' he' => ?_⟩
    by_cases hin : j = i ∧ Touches start (loopCount start pages) q
    · obtain ⟨rfl, htouch⟩ := hin
      rw [update_self, hres.entry q, if_pos htouch] at he'
      obtain ⟨e, he, rfl⟩ := map_eq_some_iff.1 he'
      have he' : memPt (update ms j s.2 j) q = some e := by
        rw [update_self]
        exact he
      have hb := h.guarded j q e he'
      obtain ⟨prot, hp, -⟩ := hb.prot
      have hold := protAt_of_protOf hp (e.offset / realPageSize)
      have hprot := hres.prot (regionOf s.1 e) (e.offset / realPageSize)
      rw [hold] at hprot
      by_cases hasks : ptSetFlags.Asks realPageSize s start flags (loopCount start pages)
          (regionOf s.1 e) (e.offset / realPageSize)
      · rw [if_pos hasks] at hprot
        exact hbacked _ _ hb.aligned hb.owned hprot (hs.request htouch he' hb (Or.inl rfl))
      · rw [if_neg hasks] at hprot
        have hinc : ptSetFlags.increases flags e.flags = false := by
          rw [← Bool.not_eq_true]
          exact fun hinc => hasks ⟨q, e, htouch, he, hinc, rfl, rfl⟩
        exact hbacked _ _ hb.aligned hb.owned hprot
          (hs.request htouch he' hb (Or.inr ⟨hold, hinc⟩))
    · -- an entry outside the request is what it was
      have he : memPt (update ms i s.2 j) q = some e' := by
        by_cases hj : j = i
        · subst hj
          rw [update_self, hres.entry q, if_neg fun htouch => hin ⟨rfl, htouch⟩] at he'
          rwa [update_self]
        · rw [update_of_ne hj] at he' ⊢
          exact he'
      have hb := h.guarded j q e' he
      obtain ⟨prot, hp, hread, hwrite⟩ := hb.prot
      have hprot := hres.prot (regionOf s.1 e') (e'.offset / realPageSize)
      rw [protAt_of_protOf hp (e'.offset / realPageSize)] at hprot
      by_cases hasks : ptSetFlags.Asks realPageSize s start flags (loopCount start pages)
          (regionOf s.1 e') (e'.offset / realPageSize)
      · rw [if_pos hasks] at hprot
        refine hbacked _ _ hb.aligned hb.owned hprot ⟨fun _ => hostProt_read flags, fun hw => ?_⟩
        apply hostProt_write
        obtain ⟨p, e, htouch, hpe, hinc, hr, hpage⟩ := hasks
        by_contra hno
        rw [Bool.not_eq_true] at hno
        have hpe' : memPt (update ms i s.2 i) p = some e := by
          rw [update_self]
          exact hpe
        exact hin (hs.shared p e htouch hpe' hinc hno j q e' he hr.symm hpage.symm hw)
      · rw [if_neg hasks] at hprot
        exact hbacked _ _ hb.aligned hb.owned hprot ⟨hread, hwrite⟩

end SetFlags

/-! ### Every run -/

section World

variable {ι : Type} [DecidableEq ι]

/-- The steps considered: no `pt_map` of foreign memory, every `pt_set_flags` that gets past its
check is safe, and a tracer writes only to pages with some right. -/
def World.ProtOk (realPageSize : Nat) (w : World ι) : Op ι → Prop
  | .map .. => False
  | .setFlags env i start pages flags => ptSetFlags.covered (w.mems i) start pages →
      ptSetFlags.Safe realPageSize env w.kernel w.mems i start pages flags
  | .fault _ i addr .writePtrace => RwxAt (pageOf addr) (w.at i)
  | _ => True

variable [Finite ι]

/-- The counts of a world are right and its entries are backed. -/
structure World.Guarded (realPageSize : Nat) (w : World ι) : Prop where
  counted : w.Counted
  guarded : Ish.Guarded realPageSize w.kernel w.mems

variable {realPageSize : Nat}

omit [Finite ι] in
theorem World.Guarded.opGuarded {w : World ι} (h : w.Guarded realPageSize)
    (i : ι) : OpGuarded realPageSize w.mems i (w.at i) := by
  constructor
  · unfold World.at
    rw [update_eq_self]
    exact h.counted
  · unfold World.at
    rw [update_eq_self]
    exact h.guarded

theorem guarded_step {w w' : World ι} (op : Op ι)
    (hw : w.Guarded realPageSize) (hfit : w.Fits op) (hok : w.ProtOk realPageSize op)
    (h : w.step realPageSize op = some w') : w'.Guarded realPageSize := by
  refine ⟨(tracks_step realPageSize op hw.counted hfit h).counted, ?_⟩
  cases op with
  | map env i start pages memory offset flags => exact absurd hok id
  | mapNothing env i start pages flags =>
    cases h
    exact ((hw.opGuarded i).mapNothing env start pages flags hfit).guarded
  | mapLazy ok i start pages flags =>
    cases h
    have hm : ∀ q, memPt (ptMapLazy ok (w.mems i) start pages flags).2 q = memPt (w.mems i) q := by
      cases ok <;> exact fun _ => rfl
    have hlazy : OpGuarded realPageSize w.mems i
        (w.kernel, (ptMapLazy ok (w.mems i) start pages flags).2) :=
      (hw.opGuarded i).quiet (.refl _) (.refl _) hm
    exact hlazy.guarded
  | unmap env i start pages =>
    cases h
    have hunmap : OpGuarded realPageSize w.mems i (ptUnmap env (w.at i) start pages).2 :=
      ptUnmap_inv env start pages (hw.opGuarded i) ((hw.opGuarded i).unmapAlways env start pages)
    exact hunmap.guarded
  | unmapAlways env i start pages =>
    cases h
    exact ((hw.opGuarded i).unmapAlways env start pages).guarded
  | setFlags env i start pages flags =>
    cases h
    refine ((hw.opGuarded i).setFlags env start pages flags fun hcov => ?_).guarded
    unfold World.at
    rw [update_eq_self]
    exact hok hcov
  | copyOnWrite env i j start pages =>
    dsimp only [World.step] at h
    split_ifs at h with hij
    cases h
    exact hw.guarded.copyOnWrite hij hw.counted env start pages hfit
  | fault fe i addr type =>
    obtain ⟨⟨ptr, s⟩, hptr, rfl⟩ := map_eq_some_iff.1 h
    have hrwx : type = .writePtrace → RwxAt (pageOf addr) (w.at i) := by
      rintro rfl
      exact hok
    exact ((hw.opGuarded i).memPtr hptr hrwx).guarded
  | findHole i size =>
    cases h
    have hhole : OpGuarded realPageSize w.mems i (w.kernel, (ptFindHole (w.mems i) size).2) :=
      (hw.opGuarded i).quiet (.refl _) (.refl _) (memPt_ptFindHole _ size)
    exact hhole.guarded
  | setFile i page fd offset =>
    cases h
    have hhost : (setFile (w.at i) page fd offset).1.host = w.kernel.host := by
      unfold setFile
      cases memPt (w.at i).2 page <;> rfl
    exact ((hw.opGuarded i).quiet (quiet_setFile (w.at i) page fd offset) (.of_host hhost)
      fun q => by rw [setFile_mem]).guarded

omit [DecidableEq ι] in
theorem guarded_worldInit (realPageSize : Nat) : (worldInit ι).Guarded realPageSize :=
  ⟨counted_worldInit, fun _ _ _ he => by cases he⟩

/-- A guest page lies on one host page. -/
theorem hostPage_eq {offset j : Nat} (hsize : pageSize ∣ realPageSize)
    (haligned : offset % pageSize = 0) (hj : j < pageSize) : (offset + j) / realPageSize = offset / realPageSize := by
  obtain ⟨b, rfl⟩ := hsize
  have hdiv : (offset + j) / pageSize = offset / pageSize := by
    unfold pageSize at *
    omega
  rw [← Nat.div_div_eq_div_mul, ← Nat.div_div_eq_div_mul, hdiv]

/-- **Host protection covers guest protection** in every run of safe steps: each byte of a page
whose entry has a right is readable, and writable if the page can be written to at once. -/
theorem host_protection_covers {realPageSize : Nat} (hsize : pageSize ∣ realPageSize) {w : World ι}
    (hw : Run (World.step realPageSize) (fun w op => w.Fits op ∧ w.ProtOk realPageSize op)
      (worldInit ι) w) {i : ι} {q : Nat} {e : PtEntry} (he : memPt (w.mems i) q = some e)
    {j : Nat} (hj : j < pageSize) : ∃ R, w.kernel.host.regions (regionOf w.kernel e) = some R ∧
      (hasAny e.flags pRwx → (R.prot ((e.offset + j) / realPageSize)).read) ∧
      (pWritable e.flags → (R.prot ((e.offset + j) / realPageSize)).write) := by
  have hg : w.Guarded realPageSize :=
    hw.inv (World.Guarded realPageSize)
      (fun _ op _ h hok hs => guarded_step op h hok.1 hok.2 hs) (guarded_worldInit realPageSize)
  obtain ⟨haligned, -, prot, hp, hread, hwrite⟩ := hg.guarded i q e he
  unfold protOf at hp
  obtain ⟨R, hR, rfl⟩ := map_eq_some_iff.1 hp
  rw [hostPage_eq hsize haligned hj]
  exact ⟨R, hR, hread, hwrite⟩

/-- `anonymousPage` after the page is made writable. -/
def unprotectedPage : World Unit :=
  anonymousPage.put () (ptSetFlags 4096 HostEnv.good (anonymousPage.at ()) 0x100 1 (pRead ||| pWrite)).2

/-- The page of `anonymousPage` can be written to in the host once the guest has made it writable. -/
theorem host_protection_covers_anonymousPage : ∃ R, unprotectedPage.kernel.host.regions 1 = some R ∧
      (hasAny (pRead ||| pWrite ||| pAnonymous) pRwx → (R.prot ((0 + 7) / 4096)).read) ∧
      (pWritable (pRead ||| pWrite ||| pAnonymous) → (R.prot ((0 + 7) / 4096)).write) := by
  have hsafe : ptSetFlags.Safe 4096 HostEnv.good anonymousPage.kernel anonymousPage.mems () 0x100 1
      (pRead ||| pWrite) :=
    ⟨fun _ => rfl, fun _ _ _ _ hexec => absurd hexec (by decide),
      fun _ _ _ _ _ hread => absurd hread (by decide)⟩
  have hrun : Run (World.step 4096) (fun w op => w.Fits op ∧ w.ProtOk 4096 op) (worldInit Unit)
      unprotectedPage :=
    .tail (.setFlags HostEnv.good () 0x100 1 (pRead ||| pWrite))
      (.tail (.mapNothing HostEnv.good () 0x100 1 pRead) (.refl _) ⟨loopCount_one_lt_refMod _, trivial⟩ rfl)
      ⟨trivial, fun _ => hsafe⟩ rfl
  have hentry : memPt (unprotectedPage.mems ()) 0x100 = some ⟨0, 0, pRead ||| pWrite ||| pAnonymous⟩ := rfl
  exact host_protection_covers ⟨1, rfl⟩ hrun hentry (j := 7) (by decide)

/-- Two ways to lose the rights. A page mapped without rights and then made executable only has
an unreadable host page. With host pages of 16 KiB, taking all rights from the second of two
writable pages and making it readable again makes the host page behind both read-only. -/
theorem host_protection_lost :
    (∃ w, [Op.mapNothing HostEnv.good () 0x100 1 0#32, .setFlags HostEnv.good () 0x100 1 pExec].foldlM
        (World.step 4096) (worldInit Unit) = some w ∧ memPt (w.mems ()) 0x100 = some ⟨0, 0, pExec ||| pAnonymous⟩ ∧
      (w.kernel.datas 0).data = 1 ∧ protAt w.kernel 1 0 = some Prot.none) ∧
    (∃ w, [Op.mapNothing HostEnv.good () 0x100 2 (pRead ||| pWrite),
        .setFlags HostEnv.good () 0x101 1 0#32, .setFlags HostEnv.good () 0x101 1 pRead].foldlM
        (World.step 16384) (worldInit Unit) = some w ∧
      memPt (w.mems ()) 0x100 = some ⟨0, 0, pRead ||| pWrite ||| pAnonymous⟩ ∧
      (w.kernel.datas 0).data = 1 ∧ protAt w.kernel 1 0 = some Prot.r) :=
  ⟨⟨_, rfl, rfl, rfl, rfl⟩, ⟨_, rfl, rfl, rfl, rfl⟩⟩

end World

end Ish
