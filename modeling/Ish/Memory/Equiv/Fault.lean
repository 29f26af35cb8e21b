import Ish.Memory.Fault
import Ish.Memory.Equiv.Map

/-!
# What a page fault does to the page table

`memPtrWith_rel` says once through which parts `mem_ptr` goes: a relation that holds across each
part, and across what other threads do in between, holds across the whole call.

`EntryStep` is the first such relation: whatever the operations on an address space do, an entry
found afterwards was there before, with its sharing flags, or it belongs to a `struct data` and a
host mapping made in the meantime.
-/

namespace Ish

open Lib

/-! ### The parts of `mem_ptr` -/

variable {gap : Nat → Kernel × Mem → Kernel × Mem} {fe : FaultEnv} {page : Nat}

variable (R : Kernel × Mem → Kernel × Mem → Prop) (k : Kernel) (env : HostEnv)

theorem memPtr.upgrade_rel (htrans : ∀ a b c, R a b → R b c → R a c) (hgap : ∀ i s, R s (gap i s))
    (hmat : ∀ s flags, R s (materialise fe.host s page flags)) (s : Kernel × Mem)
    (flags : Mem → Flags) : R s (upgrade fe gap s page flags).2 := by
  unfold upgrade
  dsimp only
  split_ifs
  · exact hgap 0 s
  · have hmid := htrans _ _ _ (hgap 0 s) (hmat (gap 0 s) (flags (gap 0 s).2))
    exact htrans _ _ _ hmid (hgap 1 _)

theorem memPtr.fault_rel (hrefl : ∀ s, R s s) (htrans : ∀ a b c, R a b → R b c → R a c) (hgap : ∀ i s, R s (gap i s))
    (hmat : ∀ s flags, R s (materialise fe.host s page flags)) (s : Kernel × Mem) : R s (fault fe gap s page).2 := by
  unfold fault
  cases plan fe.stackLimit s.2 page with
  | present => exact hrefl s
  | refuse => exact hrefl s
  | grow | reserve _ => exact upgrade_rel R htrans hgap hmat s _

variable {type : AccessType} {entry : PtEntry}

theorem memPtr.prepareWrite_rel (hrefl : ∀ s, R s s) (htrans : ∀ a b c, R a b → R b c → R a c)
    (htouch : ∀ s entry, memPt s.2 page = some entry → R s (touch s page type entry))
    (hcow : ∀ s s', cow fe gap s page = some s' → R s s') {s : Kernel × Mem}
    (hentry : memPt s.2 page = some entry) {b : Bool} {s' : Kernel × Mem}
    (h : prepareWrite fe gap s page type entry = some (b, s')) : R s s' := by
  unfold prepareWrite at h
  split_ifs at h with hw hc
  · cases h
    exact hrefl s
  · obtain ⟨t, ht, heq⟩ := Option.map_eq_some_iff.1 h
    cases heq
    exact htrans _ _ _ (htouch s entry hentry) (hcow _ _ ht)
  · cases h
    exact htouch s entry hentry

variable {s s' : Kernel × Mem} {addr : Nat} {ptr : Option HostPtr}

/-- **The parts of `mem_ptr`**, with the second half in one: a reflexive and transitive relation
that both halves respect holds between the states before and after the call. -/
theorem memPtrWith_rel_of_prepareWrite (hrefl : ∀ s, R s s)
    (htrans : ∀ a b c, R a b → R b c → R a c) (hgap : ∀ i s, R s (gap i s))
    (hmat : ∀ s flags, R s (memPtr.materialise fe.host s (pageOf addr) flags))
    (hprep : ∀ s s' entry b, memPt s.2 (pageOf addr) = some entry →
      memPtr.prepareWrite fe gap s (pageOf addr) type entry = some (b, s') → R s s')
    (h : memPtrWith fe gap s addr type = some (ptr, s')) : R s s' := by
  have hfault := memPtr.fault_rel R hrefl htrans hgap hmat s
  unfold memPtrWith at h
  rcases hf : memPtr.fault fe gap s (pageOf addr) with ⟨_ | _, t⟩
  · rw [hf] at h hfault
    cases h
    exact hfault
  rw [hf] at h hfault
  dsimp only at h hfault
  cases hentry : memPt t.2 (pageOf addr) with
  | none =>
    rw [hentry] at h
    cases type <;> cases h <;> exact hfault
  | some entry =>
    rw [hentry] at h
    -- a write goes on to `prepareWrite`, a read is done
    have hwrite : ∀ {b t'}, memPtr.prepareWrite fe gap t (pageOf addr) type entry = some (b, t') →
        R s t' := fun hp => htrans _ _ _ hfault (hprep _ _ _ _ hentry hp)
    cases type with
    | read =>
      cases h
      exact hfault
    | write | writePtrace =>
      dsimp only at h
      generalize hp : memPtr.prepareWrite fe gap t (pageOf addr) _ entry = r at h
      obtain _ | ⟨_ | _, t'⟩ := r
      · simp at h
      · cases h
        exact hwrite hp
      · cases h
        exact hwrite hp

/-- **The parts of `mem_ptr`.**  A reflexive and transitive relation that each part respects holds
between the states before and after the call. -/
theorem memPtrWith_rel (hrefl : ∀ s, R s s) (htrans : ∀ a b c, R a b → R b c → R a c) (hgap : ∀ i s, R s (gap i s))
    (hmat : ∀ s flags, R s (memPtr.materialise fe.host s (pageOf addr) flags))
    (htouch : ∀ s entry, memPt s.2 (pageOf addr) = some entry → R s (memPtr.touch s (pageOf addr) type entry))
    (hcow : ∀ s s', memPtr.cow fe gap s (pageOf addr) = some s' → R s s')
    (h : memPtrWith fe gap s addr type = some (ptr, s')) : R s s' :=
  memPtrWith_rel_of_prepareWrite R hrefl htrans hgap hmat
    (fun _ _ _ _ hentry hp => memPtr.prepareWrite_rel R hrefl htrans htouch hcow hentry hp) h

/-! ### Entries are kept or new -/

/-- `P_SHARED` or `P_COW` -/
def pSharing : Flags := pShared ||| pCow

/-- `e'` is the entry `e` with other flags, still shared if it was. -/
def PtEntry.Keeps (e e' : PtEntry) : Prop :=
  e'.data = e.data ∧ e'.offset = e.offset ∧ (hasAny e.flags pSharing → hasAny e'.flags pSharing)

def regionOf (k : Kernel) (e : PtEntry) : RegionId := (k.datas e.data).data

/-- `e` belongs to a `struct data` and a host mapping made between `k` and `k'`. -/
def PtEntry.Fresh (k k' : Kernel) (e : PtEntry) : Prop :=
  k.nextData ≤ e.data ∧ e.data < k'.nextData ∧ k.host.next ≤ regionOf k' e ∧
    regionOf k' e < k'.host.next

theorem PtEntry.Keeps.refl (e : PtEntry) : e.Keeps e := ⟨rfl, rfl, id⟩

theorem PtEntry.Keeps.trans {e e' e'' : PtEntry} (h : e.Keeps e') (h' : e'.Keeps e'') : e.Keeps e'' :=
  ⟨h'.1.trans h.1, h'.2.1.trans h.2.1, h'.2.2 ∘ h.2.2⟩

/-- What an operation on one address space does to its entries. -/
structure EntryStep (k : Kernel) (m : Mem) (k' : Kernel) (m' : Mem) : Prop where
  ext : k.Extends k'
  entry : ∀ q e', memPt m' q = some e' → (∃ e, memPt m q = some e ∧ e.Keeps e') ∨ e'.Fresh k k'

theorem EntryStep.of_memPt {k k' : Kernel} {m m' : Mem} (hext : k.Extends k')
    (h : ∀ q e, memPt m' q = some e → memPt m q = some e) : EntryStep k m k' m' :=
  ⟨hext, fun q e he => Or.inl ⟨e, h q e he, .refl e⟩⟩

theorem EntryStep.refl (m : Mem) : EntryStep k m k m :=
  .of_memPt (.refl k) fun _ _ h => h

theorem EntryStep.trans {k k' k'' : Kernel} {m m' m'' : Mem} (h : EntryStep k m k' m')
    (h' : EntryStep k' m' k'' m'') : EntryStep k m k'' m'' := by
  refine ⟨h.ext.trans h'.ext, fun q e'' he'' => ?_⟩
  rcases h'.entry q e'' he'' with ⟨e', he', hkeep'⟩ | ⟨hd, hd', hr, hr'⟩
  · rcases h.entry q e' he' with ⟨e, he, hkeep⟩ | ⟨hd, hd', hr, hr'⟩
    · exact Or.inl ⟨e, he, hkeep.trans hkeep'⟩
    · -- an entry made in the first step and kept in the second
      have hdata : e''.data = e'.data := hkeep'.1
      have hregion : regionOf k'' e'' = regionOf k' e' := by
        unfold regionOf
        rw [hdata, h'.ext.data e'.data hd']
      refine Or.inr ⟨hdata ▸ hd, ?_, hregion ▸ hr, ?_⟩
      · exact hdata ▸ lt_of_lt_of_le hd' h'.ext.nextData
      · exact hregion ▸ lt_of_lt_of_le hr' h'.ext.hostNext
  · exact Or.inr ⟨le_trans h.ext.nextData hd, hd', le_trans h.ext.hostNext hr, hr'⟩

/-! ### The operations -/

theorem entryStep_ptUnmapAlways (s : Kernel × Mem) (start pages : Nat) :
    EntryStep s.1 s.2 (ptUnmapAlways env s start pages).1 (ptUnmapAlways env s start pages).2 := by
  refine .of_memPt (kernelOrder_extends.ptUnmapAlways env s start pages) fun q e he => ?_
  rw [memPt_ptUnmapAlways] at he
  split_ifs at he
  exact he

theorem extends_ptMap (s : Kernel × Mem) (start pages : Nat) (memory : Option RegionId) (offset : Nat) (flags : Flags)
    (hr : ∀ r, memory = some r → r < s.1.host.next) : s.1.Extends (ptMap env s start pages memory offset flags).2.1 :=
  kernelOrder_extends.ptMap env s start pages memory offset flags fun r hmem =>
    extends_newData pages offset (hr r hmem)

/-- The entries after `pt_map`: the old ones, and those of the new object over `memory`. -/
theorem entry_ptMap (s : Kernel × Mem) (start pages : Nat)
    (memory : Option RegionId) (offset : Nat) (flags : Flags) {q : Nat} {e : PtEntry}
    (he : memPt (ptMap env s start pages memory offset flags).2.2 q = some e) : memPt s.2 q = some e ∨
      e.data = s.1.nextData ∧ e.flags = flags ∧
        s.1.nextData < (ptMap env s start pages memory offset flags).2.1.nextData ∧
        memory = some (regionOf (ptMap env s start pages memory offset flags).2.1 e) ∧
        ∃ p, e.offset = ((p - start) * pageSize + offset) % wordMod := by
  rcases ptMap_cases env s start pages memory offset flags with ⟨err, heq⟩ | ⟨r, hmem, -, heq⟩
  · rw [heq] at he
    exact Or.inl he
  rw [heq] at he ⊢
  obtain ⟨hin, hout⟩ := ptMap.memPt_loop env s start pages r offset flags q
  change memPt (ptMap.loop env s start pages r offset flags).2 q = some e at he
  by_cases htouch : Touches start (loopCount start pages) q
  · obtain ⟨off, hoff⟩ := hin htouch
    cases hoff.symm.trans he
    have hloop := kernelOrder_extends.mapLoop env s start pages r offset flags
    have hlt : s.1.nextData < (ptMap.newData s.1 pages r offset).nextData := Nat.lt_succ_self _
    refine Or.inr ⟨rfl, rfl, lt_of_lt_of_le hlt hloop.nextData, ?_, off, rfl⟩
    change memory = some ((ptMap.loop env s start pages r offset flags).1.datas s.1.nextData).data
    rw [hmem, hloop.data _ hlt]
    simp [ptMap.newData]
  · exact Or.inl ((hout htouch).symm.trans he)

theorem entryStep_ptMap {k : Kernel} (start pages : Nat)
    {r : RegionId} (offset : Nat) (flags : Flags) (hext : k.Extends s.1)
    (hnew : k.host.next ≤ r) (hr : r < s.1.host.next) :
    EntryStep k s.2 (ptMap env s start pages (some r) offset flags).2.1
      (ptMap env s start pages (some r) offset flags).2.2 := by
  have hmap := extends_ptMap env s start pages (some r) offset flags
    (by rintro r' ⟨⟩; exact hr)
  refine ⟨hext.trans hmap, fun q e he => ?_⟩
  rcases entry_ptMap env s start pages (some r) offset flags he with hold | ⟨hd, -, hlt, hreg, -⟩
  · exact Or.inl ⟨e, hold, .refl e⟩
  · have hregion := Option.some.inj hreg
    refine Or.inr ⟨hd ▸ hext.nextData, hd ▸ hlt, le_of_le_of_eq hnew hregion, ?_⟩
    exact lt_of_eq_of_lt hregion.symm (lt_of_lt_of_le hr hmap.hostNext)

theorem entryStep_ptMapNothing (s : Kernel × Mem) (start pages : Nat) (flags : Flags) :
    EntryStep s.1 s.2 (ptMapNothing env s start pages flags).2.1 (ptMapNothing env s start pages flags).2.2 :=
  ptMapNothing_inv env start pages flags (P := fun t => EntryStep s.1 s.2 t.1 t.2) (.refl _ _)
    (entryStep_ptMap env (s := (ptMapNothing.mmapped s.1 pages flags, s.2)) start pages 0 _
      (extends_mmapped s.1 pages flags) (le_refl _) (Nat.lt_succ_self _))

theorem keeps_reflag (flags : Flags) (e : PtEntry) : e.Keeps (ptSetFlags.reflag flags e) := by
  refine ⟨rfl, rfl, fun h => ?_⟩
  have hmeta : hasAny (e.flags &&& pMetaFlags) pSharing = hasAny e.flags pSharing :=
    hasAny_and_of_subset (by decide)
  simp [ptSetFlags.reflag, ptSetFlags.newFlags, hmeta, h]

theorem extends_ptSetFlags (realPageSize : Nat) (env : HostEnv) (s : Kernel × Mem) (start pages : Nat) (flags : Flags) :
    s.1.Extends (ptSetFlags realPageSize env s start pages flags).2.1 :=
  ptSetFlags_inv realPageSize env start pages flags (P := fun t => s.1.Extends t.1) (.refl _)
    (fun _ _ _ h => h) (fun _ _ h => h.trans (.of_datas rfl (le_refl _) fun _ => rfl)) (fun _ h => h) fun _ h => h

theorem entryStep_ptSetFlags (realPageSize : Nat) (env : HostEnv) (s : Kernel × Mem)
    (start pages : Nat) (flags : Flags) : EntryStep s.1 s.2 (ptSetFlags realPageSize env s start pages flags).2.1
      (ptSetFlags realPageSize env s start pages flags).2.2 := by
  refine ⟨extends_ptSetFlags realPageSize env s start pages flags, fun q e' he' => Or.inl ?_⟩
  obtain ⟨n, -, -, -, hpt⟩ := memPt_ptSetFlags realPageSize env s start pages flags
  rw [hpt q] at he'
  split_ifs at he'
  · obtain ⟨e, he, rfl⟩ := Option.map_eq_some_iff.1 he'
    exact ⟨e, he, keeps_reflag flags e⟩
  · exact ⟨e', he', .refl e'⟩

/-! ### The parts of a fault -/

/-- The state in which `materialise` calls `pt_map_nothing`. -/
def memPtr.counted (s : Kernel × Mem) : Kernel × Mem :=
  ({ s.1 with anonPageCount := s.1.anonPageCount + 1 }, s.2)

theorem memPtr.materialise_cases (s : Kernel × Mem) (page : Nat) (flags : Flags) :
    (memPt s.2 page).isSome ∧ materialise env s page flags = s ∨ memPt s.2 page = none ∧
      ((∃ err, (ptMapNothing env (counted s) page 1 flags).1 = .error err ∧
          materialise env s page flags = (ptMapNothing env (counted s) page 1 flags).2) ∨
        (ptMapNothing env (counted s) page 1 flags).1 = .ok () ∧
          materialise env s page flags = ((ptMapNothing env (counted s) page 1 flags).2.1,
            memChanged (ptMapNothing env (counted s) page 1 flags).2.2)) := by
  unfold materialise
  cases h : memPt s.2 page with
  | some e => exact Or.inl ⟨rfl, rfl⟩
  | none =>
    refine Or.inr ⟨rfl, ?_⟩
    unfold counted
    simp only [Option.isSome_none, Bool.false_eq_true, if_false]
    rcases ptMapNothing env ({ s.1 with anonPageCount := s.1.anonPageCount + 1 }, s.2) page 1
      flags with ⟨err | _, k, m⟩
    · exact Or.inl ⟨err, rfl, rfl⟩
    · exact Or.inr ⟨rfl, rfl⟩

theorem memPtr.materialise_inv {P : Kernel × Mem → Prop} (h : P s) {flags : Flags}
    (hmap : memPt s.2 page = none → P (ptMapNothing env (counted s) page 1 flags).2)
    (hchanged : ∀ t, P t → P (t.1, memChanged t.2)) : P (materialise env s page flags) := by
  rcases materialise_cases env s page flags with ⟨-, heq⟩ | ⟨hnone, ⟨_, -, heq⟩ | ⟨-, heq⟩⟩
  · rw [heq]
    exact h
  · rw [heq]
    exact hmap hnone
  · rw [heq]
    exact hchanged _ (hmap hnone)

theorem entryStep_materialise (s : Kernel × Mem) (page : Nat) (flags : Flags) :
    EntryStep s.1 s.2 (memPtr.materialise env s page flags).1 (memPtr.materialise env s page flags).2 := by
  have hcount : EntryStep s.1 s.2 (memPtr.counted s).1 (memPtr.counted s).2 :=
    .of_memPt (extends_anon _ _) fun _ _ h => h
  exact memPtr.materialise_inv env (P := fun t => EntryStep s.1 s.2 t.1 t.2) (.refl _ _)
    (fun _ => hcount.trans (entryStep_ptMapNothing env (memPtr.counted s) page 1 flags)) fun _ h => ⟨h.ext, h.entry⟩

theorem memPt_touch (s : Kernel × Mem) (page q : Nat) (type : AccessType) (hentry : memPt s.2 page = some entry) :
    memPt (memPtr.touch s page type entry).2 q = if q % memPages = page % memPages then
        some { entry with flags := memPtr.writeFlags type entry.flags }
      else memPt s.2 q := by
  cases type with
  | writePtrace =>
    change memPt (memPtSetFlags s.2 page (memPtr.writeFlags .writePtrace entry.flags)) q = _
    rw [memPt_memPtSetFlags, hentry]
    rfl
  | read | write =>
    change memPt s.2 q = _
    split_ifs with hq
    · exact (memPt_congr s.2 hq).trans hentry
    · rfl

theorem entryStep_touch (s : Kernel × Mem) (page : Nat) (type : AccessType) (hentry : memPt s.2 page = some entry) :
    EntryStep s.1 s.2 (memPtr.touch s page type entry).1 (memPtr.touch s page type entry).2 := by
  refine ⟨.refl _, fun q e' he' => Or.inl ?_⟩
  rw [memPt_touch s page q type hentry] at he'
  split_ifs at he' with hq
  · cases he'
    refine ⟨entry, (memPt_congr s.2 hq).trans hentry, rfl, rfl, fun h => ?_⟩
    unfold memPtr.writeFlags
    split_ifs
    · simp [h]
    · exact h
  · exact ⟨e', he', .refl e'⟩

/-- The kernel when the copied page is handed to `pt_map`. -/
def memPtr.copied (k : Kernel) (copy : RegionId) (entry : PtEntry) : Kernel :=
  let k := fill k copy (pageBytes k entry)
  if hasAny entry.flags pAnonymous then { k with anonPageCount := k.anonPageCount + 1 } else k

theorem memPtr.resolveCow_cases {env : HostEnv} {copy : Option RegionId} (h : resolveCow env s page copy = some s') :
    (∃ entry r, memPt s.2 page = some entry ∧ hasAny entry.flags pCow ∧ copy = some r ∧
      s' = ((ptMap env (copied s.1 r entry, s.2) page 1 (some r) 0 (entry.flags &&& ~~~pCow)).2.1, memChanged
          (ptMap env (copied s.1 r entry, s.2) page 1 (some r) 0 (entry.flags &&& ~~~pCow)).2.2)) ∨
    (∀ entry, memPt s.2 page = some entry → hasAny entry.flags pCow = false) ∧
      ((∃ r, copy = some r ∧ s' = ({ s.1 with host := s.1.host.munmap r }, s.2)) ∨
        copy = none ∧ s' = s) := by
  unfold resolveCow at h
  cases hf : (memPt s.2 page).filter fun entry => hasAny entry.flags pCow with
  | some entry =>
    obtain ⟨hentry, hcow⟩ := Option.filter_eq_some_iff.1 hf
    cases copy with
    | none => simp [hf] at h
    | some r =>
      simp only [hf, Option.some.injEq] at h
      exact Or.inl ⟨entry, r, hentry, hcow, rfl, h.symm⟩
  | none =>
    have hno : ∀ entry, memPt s.2 page = some entry → hasAny entry.flags pCow = false := by
      intro entry hentry
      simpa [hentry, Option.filter] using hf
    cases copy with
    | none =>
      simp only [hf, Option.some.injEq] at h
      exact Or.inr ⟨hno, Or.inr ⟨rfl, h.symm⟩⟩
    | some r =>
      simp only [hf, Option.some.injEq] at h
      exact Or.inr ⟨hno, Or.inl ⟨r, rfl, h.symm⟩⟩

theorem memPtr.resolveCow_of_cow (k : Kernel) {m : Mem}
    (hentry : memPt m page = some entry) (hcow : hasAny entry.flags pCow) (r : RegionId) :
    resolveCow env (k, m) page (some r) =
      some ((ptMap env (copied k r entry, m) page 1 (some r) 0 (entry.flags &&& ~~~pCow)).2.1, memChanged
          (ptMap env (copied k r entry, m) page 1 (some r) 0 (entry.flags &&& ~~~pCow)).2.2) := by
  simp only [resolveCow, hentry, Option.filter_some, hcow, if_true]
  rfl

theorem extends_copied (copy : RegionId) (entry : PtEntry) : k.Extends (memPtr.copied k copy entry) := by
  unfold memPtr.copied memPtr.fill
  dsimp only
  split_ifs
  · exact .of_datas rfl (le_refl _) fun _ => rfl
  · exact .of_datas rfl (le_refl _) fun _ => rfl

@[simp]
theorem copied_hostNext (copy : RegionId) (entry : PtEntry) : (memPtr.copied k copy entry).host.next = k.host.next := by
  unfold memPtr.copied memPtr.fill
  dsimp only
  split_ifs <;> rfl

@[simp]
theorem copied_nextData (copy : RegionId) (entry : PtEntry) : (memPtr.copied k copy entry).nextData = k.nextData := by
  unfold memPtr.copied memPtr.fill
  dsimp only
  split_ifs <;> rfl

/-- The copy lands in a mapping made for it. -/
theorem entryStep_resolveCow {env : HostEnv} {k : Kernel}
    {copy : Option RegionId} (h : memPtr.resolveCow env s page copy = some s') (hext : k.Extends s.1)
    (hnew : ∀ r, copy = some r → k.host.next ≤ r ∧ r < s.1.host.next) : EntryStep k s.2 s'.1 s'.2 := by
  rcases memPtr.resolveCow_cases h with ⟨entry, r, -, -, hcopy, rfl⟩ | ⟨-, ⟨r, -, rfl⟩ | ⟨-, rfl⟩⟩
  · obtain ⟨hlow, hhigh⟩ := hnew r hcopy
    have hmap := entryStep_ptMap env (s := (memPtr.copied s.1 r entry, s.2)) page 1 0
      (entry.flags &&& ~~~pCow) (hext.trans (extends_copied s.1 r entry)) hlow (by simpa using hhigh)
    exact ⟨hmap.ext, hmap.entry⟩
  · exact .of_memPt ⟨hext.nextData, hext.hostNext, hext.data, hext.region⟩ fun _ _ h => h
  · exact .of_memPt hext fun _ _ h => h

/-- The kernel after the host `mmap` of the copy. -/
def memPtr.withCopy (k : Kernel) : Kernel :=
  { k with host := (k.host.mmap pageSize Prot.rw fun _ => 0).2 }

theorem extends_withCopy : k.Extends (memPtr.withCopy k) :=
  .of_datas rfl (Nat.le_succ _) fun _ => rfl

theorem memPtr.cow_cases (h : cow fe (fun _ s => s) s page = some s') :
    resolveCow fe.cow (withCopy s.1, s.2) page (some s.1.host.next) = some s' ∨
      resolveCow fe.cow s page none = some s' := by
  unfold cow at h
  simp only [Option.map_id'] at h
  split_ifs at h
  · exact Or.inl h
  · exact Or.inr h

theorem entryStep_cow (h : memPtr.cow fe (fun _ s => s) s page = some s') : EntryStep s.1 s.2 s'.1 s'.2 := by
  rcases memPtr.cow_cases h with h | h
  · have hnew : ∀ r, some s.1.host.next = some r →
        s.1.host.next ≤ r ∧ r < (memPtr.withCopy s.1).host.next := by
      rintro r ⟨⟩
      exact ⟨le_refl _, Nat.lt_succ_self _⟩
    exact entryStep_resolveCow (s := (memPtr.withCopy s.1, s.2)) h (extends_withCopy s.1) hnew
  · exact entryStep_resolveCow h (.refl _) (by simp)

/-- **A fault keeps entries or makes new ones.** -/
theorem entryStep_memPtr (h : memPtr fe s addr type = some (ptr, s')) : EntryStep s.1 s.2 s'.1 s'.2 :=
  memPtrWith_rel (fun s s' => EntryStep s.1 s.2 s'.1 s'.2) (fun _ => .refl _ _)
    (fun _ _ _ => .trans) (fun _ _ => .refl _ _)
    (fun s flags => entryStep_materialise fe.host s _ flags)
    (fun s _ hentry => entryStep_touch s _ type hentry) (fun _ _ hc => entryStep_cow hc) h

/-! ### The pointer that is returned -/

theorem memPtrNofault_write {ptr : HostPtr} (h : memPtrNofault s addr .write = some ptr) :
    ∃ e, memPt s.2 (pageOf addr) = some e ∧ pWritable e.flags ∧ ptr = ⟨regionOf s.1 e, e.offset + pgOffset addr⟩ := by
  unfold memPtrNofault at h
  cases he : memPt s.2 (pageOf addr) with
  | none => simp [he] at h
  | some e =>
    by_cases hw : pWritable e.flags
    · simp only [he, hw, not_true_eq_false, and_false, if_false, Option.some.injEq] at h
      exact ⟨e, rfl, hw, h.symm⟩
    · simp [he, hw] at h

theorem memPtrNofault_of_writable {e : PtEntry} (he : memPt s.2 (pageOf addr) = some e) (hw : pWritable e.flags) :
    memPtrNofault s addr .write = some ⟨regionOf s.1 e, e.offset + pgOffset addr⟩ := by
  simp [memPtrNofault, he, hw, regionOf]

/-- A pointer that `mem_ptr` returns is the one the page table gives when it returns. -/
theorem memPtrNofault_of_memPtrWith {ptr : HostPtr} (h : memPtrWith fe gap s addr type = some (some ptr, s')) :
    memPtrNofault s' addr type = some ptr := by
  unfold memPtrWith at h
  generalize memPtr.fault fe gap s (pageOf addr) = r at h
  obtain ⟨_ | _, t⟩ := r
  · cases h
  dsimp only at h
  have hdone : ∀ {t' : Kernel × Mem},
      some (memPtrNofault t' addr type, t') = some (some ptr, s') →
      memPtrNofault s' addr type = some ptr := by
    intro t' ht
    obtain ⟨hptr, rfl⟩ := Prod.mk.inj (Option.some.inj ht)
    exact hptr
  cases hentry : memPt t.2 (pageOf addr) with
  | none =>
    rw [hentry] at h
    cases type <;> exact hdone h
  | some entry =>
    rw [hentry] at h
    cases type with
    | read => exact hdone h
    | write | writePtrace =>
      dsimp only at h
      generalize memPtr.prepareWrite fe gap t (pageOf addr) _ entry = r at h
      obtain _ | ⟨_ | _, t'⟩ := r
      · simp at h
      · simp at h
      · exact hdone h

theorem pageOf_lt (h : addr < wordMod) : pageOf addr + 1 < wordMod := by
  have hdiv : pageOf addr * 4096 ≤ addr := Nat.div_mul_le_self addr 4096
  have hword : wordMod = 18446744073709551616 := rfl
  omega

theorem memPt_ptMap_one {env : HostEnv} (henv : env.mallocData) (s : Kernel × Mem)
    (hpage : page + 1 < wordMod) (r : RegionId) (flags : Flags) :
    ∃ off, memPt (ptMap env s page 1 (some r) 0 flags).2.2 page = some ⟨s.1.nextData, off, flags⟩ := by
  rcases ptMap_cases env s page 1 (some r) 0 flags with ⟨err, heq⟩ | ⟨r', hr', -, heq⟩
  · simp [ptMap, henv] at heq
  · cases hr'
    rw [heq]
    have htouch : Touches page (loopCount page 1) page := by
      rw [loopCount_one hpage]
      exact (touches_one page page).2 rfl
    obtain ⟨p, hp⟩ := (ptMap.memPt_loop env s page 1 r 0 flags page).1 htouch
    exact ⟨_, hp⟩

/-- On a host with memory to spare, a write to a page that waits for its copy succeeds, and the page
then has its own copy. -/
theorem memPtr_write_of_cow (fe : FaultEnv) (s : Kernel × Mem) (addr : Nat)
    (hentry : memPt s.2 (pageOf addr) = some entry) (hw : hasAny entry.flags pWrite)
    (hc : hasAny entry.flags pCow) (hmmap : fe.cow.mmap) (hdata : fe.cow.mallocData) (haddr : addr < wordMod) :
    ∃ ptr s' off, memPtr fe s addr .write = some (some ptr, s') ∧
      memPt s'.2 (pageOf addr) = some ⟨s.1.nextData, off, entry.flags &&& ~~~pCow⟩ := by
  have hfault : memPtr.fault fe (fun _ s => s) s (pageOf addr) = (true, s) := by
    simp [memPtr.fault, memPtr.plan, hentry]
  -- the state in which the copy is mapped
  have hpt : memPt (memPtr.touch s (pageOf addr) .write entry).2 (pageOf addr) = some entry := by
    rw [memPt_touch s (pageOf addr) (pageOf addr) .write hentry, if_pos rfl]
    rfl
  obtain ⟨t, ht, off, hoff⟩ : ∃ t, memPtr.cow fe (fun _ s => s)
      (memPtr.touch s (pageOf addr) .write entry) (pageOf addr) = some t ∧
      ∃ off, memPt t.2 (pageOf addr) = some ⟨s.1.nextData, off, entry.flags &&& ~~~pCow⟩ := by
    obtain ⟨off, hoff⟩ := memPt_ptMap_one hdata
      (memPtr.copied (memPtr.withCopy s.1) s.1.host.next entry,
        (memPtr.touch s (pageOf addr) .write entry).2) (pageOf_lt haddr) s.1.host.next
      (entry.flags &&& ~~~pCow)
    rw [copied_nextData] at hoff
    have hcopy : memPtr.cow fe (fun _ s => s) (memPtr.touch s (pageOf addr) .write entry)
        (pageOf addr) = memPtr.resolveCow fe.cow
          (memPtr.withCopy s.1, (memPtr.touch s (pageOf addr) .write entry).2) (pageOf addr)
          (some s.1.host.next) := by
      simp only [memPtr.cow, hmmap, if_true, Option.map_id']
      rfl
    have hres := memPtr.resolveCow_of_cow fe.cow (memPtr.withCopy s.1) hpt hc s.1.host.next
    exact ⟨_, hcopy.trans hres, off, hoff⟩
  have hprep : memPtr.prepareWrite fe (fun _ s => s) s (pageOf addr) .write entry =
      some (true, t) := by
    simp [memPtr.prepareWrite, memPtr.writeFlags, hw, hc, ht]
  have hwrite : pWritable (entry.flags &&& ~~~pCow) := by
    have h1 : hasAny (entry.flags &&& ~~~pCow) pWrite = hasAny entry.flags pWrite :=
      hasAny_and_of_subset (by decide)
    have h2 : hasAny (entry.flags &&& ~~~pCow) pCow = false :=
      hasAny_and_of_disjoint (by decide)
    simp [pWritable, h1, h2, hw]
  have hmem : memPtr fe s addr .write = some (memPtrNofault t addr .write, t) := by
    simp only [memPtr, memPtrWith, hfault, hentry, hprep]
  rw [memPtrNofault_of_writable hoff hwrite] at hmem
  exact ⟨_, t, off, hmem, hoff⟩

end Ish
