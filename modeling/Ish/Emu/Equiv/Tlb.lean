import Ish.Emu.Tlb
import Ish.Memory.Equiv.World

/-!
# Coherence of the TLB

The change counter of an address space announces every change of a translation, with two
exceptions: a `pt_set_flags` that fails after it has taken rights away, and an `exec`, which counts from 0
again, if the new `struct mm` is where the old one was. Without such a failure, and if no TLB has the address
of a new `struct mm`, the TLB of a running guest agrees with the page table.
-/

namespace Ish

open Lib Function List Option

/-! ### What the change counter announces -/

/-- The step from `s` to `s'` announces what it does: if the counter stays, so do all
translations, and what could be written to still can. -/
structure Announces (s s' : Kernel × Mem) : Prop where
  ext : s.1.Extends s'.1
  mono : s.2.changes ≤ s'.2.changes
  same : s'.2.changes = s.2.changes → ∀ q e, memPt s.2 q = some e →
    ∃ e', memPt s'.2 q = some e' ∧ e'.data = e.data ∧ e'.offset = e.offset ∧
      (pWritable e.flags → pWritable e'.flags)

variable {s s' : Kernel × Mem}

theorem Announces.of_memPt (hext : s.1.Extends s'.1)
    (hmono : s.2.changes ≤ s'.2.changes) (hpt : ∀ q, memPt s'.2 q = memPt s.2 q) : Announces s s' :=
  ⟨hext, hmono, fun _ q e he => ⟨e, (hpt q).trans he, rfl, rfl, id⟩⟩

/-- A step that counts needs to say no more. -/
theorem Announces.of_lt (hext : s.1.Extends s'.1) (hlt : s.2.changes < s'.2.changes) : Announces s s' :=
  ⟨hext, le_of_lt hlt, fun h => absurd h (Nat.ne_of_gt hlt)⟩

theorem Announces.refl (s : Kernel × Mem) : Announces s s :=
  .of_memPt (.refl _) (le_refl _) fun _ => rfl

theorem Announces.trans {s s' s'' : Kernel × Mem} (h : Announces s s') (h' : Announces s' s'') : Announces s s'' := by
  refine ⟨h.ext.trans h'.ext, le_trans h.mono h'.mono, fun heq q e he => ?_⟩
  have hmono := h.mono
  have hmono' := h'.mono
  obtain ⟨e', he', hdata, hoff, hw⟩ := h.same (by omega) q e he
  obtain ⟨e'', he'', hdata', hoff', hw'⟩ := h'.same (by omega) q e' he'
  exact ⟨e'', he'', hdata'.trans hdata, hoff'.trans hoff, hw' ∘ hw⟩

theorem announces_ptMap (env : HostEnv) (s : Kernel × Mem) (start pages : Nat)
    (memory : Option RegionId) (offset : Nat) (flags : Flags) (hr : ∀ r, memory = some r → r < s.1.host.next) :
    Announces s (ptMap env s start pages memory offset flags).2 := by
  have hext := extends_ptMap env s start pages memory offset flags hr
  rcases ptMap_cases env s start pages memory offset flags with ⟨err, heq⟩ | ⟨r, -, -, heq⟩
  · rw [heq]
    exact .refl s
  · refine .of_lt hext ?_
    rw [heq]
    exact Nat.lt_succ_of_le (ptMap.changes_le_loop env s start pages r offset flags)

theorem announces_ptMapNothing (env : HostEnv) (s : Kernel × Mem) (start pages : Nat)
    (flags : Flags) : Announces s (ptMapNothing env s start pages flags).2 := by
  have hmmap : Announces s (ptMapNothing.mmapped s.1 pages flags, s.2) :=
    .of_memPt (extends_mmapped s.1 pages flags) (le_refl _) fun _ => rfl
  refine ptMapNothing_inv env start pages flags (.refl s) (hmmap.trans (announces_ptMap env _ start pages _ 0 _ ?_))
  rintro r ⟨⟩
  exact Nat.lt_succ_self _

theorem announces_ptUnmapAlways (env : HostEnv) (s : Kernel × Mem) (start pages : Nat) :
    Announces s (ptUnmapAlways env s start pages) := by
  refine .of_lt (kernelOrder_extends.ptUnmapAlways env s start pages) ?_
  rw [ptUnmapAlways_changes]
  exact Nat.lt_succ_self _

/-- The host does not refuse a `pt_set_flags` that takes write access away. -/
def HostEnv.Willing (env : HostEnv) (flags : Flags) : Prop :=
  pWritable flags ∨ (∀ page, env.mprotect page) ∧ ∀ start r, env.mallocRes start r

theorem pWritable_reflag {flags : Flags} {e : PtEntry} (hflags : pWritable flags)
    (h : pWritable e.flags) : pWritable (ptSetFlags.reflag flags e).flags := by
  unfold pWritable at *
  simp only [Bool.and_eq_true, Bool.not_eq_true'] at *
  have hmeta : hasAny (e.flags &&& pMetaFlags) pCow = hasAny e.flags pCow :=
    hasAny_and_of_subset (by decide)
  simp only [ptSetFlags.reflag, ptSetFlags.newFlags, hasAny_or, hmeta, hflags.1, hflags.2, h.2,
    Bool.true_or, Bool.or_self, and_self]

variable {env : HostEnv}

theorem announces_ptSetFlags (realPageSize : Nat) (s : Kernel × Mem)
    (start pages : Nat) {flags : Flags} (hw : env.Willing flags) :
    Announces s (ptSetFlags realPageSize env s start pages flags).2 := by
  have hext := extends_ptSetFlags realPageSize env s start pages flags
  have hloop := ptSetFlags.loop_changes realPageSize env s start pages flags
  obtain ⟨n, -, -, hcov, hpt⟩ := memPt_ptSetFlags realPageSize env s start pages flags
  have hmono : s.2.changes ≤ (ptSetFlags realPageSize env s start pages flags).2.2.changes :=
    ptSetFlags_inv realPageSize env start pages flags (P := fun t => s.2.changes ≤ t.2.changes) (le_refl _)
      (fun _ _ _ h => by simpa using h) (fun _ _ h => h) (fun _ h => by simpa using h) fun _ h => Nat.le_succ_of_le h
  rcases hw with hflags | ⟨hprot, hmalloc⟩
  · -- a failure leaves pages with flags that can be written to
    refine ⟨hext, hmono, fun _ q e he => ?_⟩
    have hq := hpt q
    split_ifs at hq
    · refine ⟨ptSetFlags.reflag flags e, ?_, rfl, rfl, pWritable_reflag hflags⟩
      rw [hq, he]
      rfl
    · exact ⟨e, hq.trans he, rfl, rfl, id⟩
  · cases hcovered : ptSetFlags.covered s.2 start pages with
    | false =>
      refine .of_memPt hext hmono fun q => ?_
      rw [hpt q, hcov hcovered, if_neg (touches_zero start q)]
    | true =>
      have hok := ptSetFlags_ok realPageSize hprot hmalloc s start pages flags hcovered
      refine .of_lt hext ?_
      rcases ptSetFlags_cases realPageSize env s start pages flags with
        ⟨hnot, -⟩ | ⟨-, ⟨err, -, heq⟩ | ⟨-, m, hm, heq | heq⟩⟩
      · rw [hcovered] at hnot
        cases hnot
      · rw [heq] at hok
        cases hok
      · rw [heq] at hok
        cases hok
      · rw [heq, ← hm]
        simp [memChanged, hloop]

/-! ### The parts of `mem_ptr` -/

theorem announces_materialise (env : HostEnv) (s : Kernel × Mem) (page : Nat) (flags : Flags) :
    Announces s (memPtr.materialise env s page flags) := by
  have hcount : Announces s (memPtr.counted s) :=
    .of_memPt (extends_anon _ _) (le_refl _) fun _ => rfl
  exact memPtr.materialise_inv env (.refl s)
    (fun _ => hcount.trans (announces_ptMapNothing env (memPtr.counted s) page 1 flags))
    fun _ h => h.trans (.of_memPt (.refl _) (Nat.le_succ _) fun _ => rfl)

variable {type : AccessType}

/-- An ordinary write to a present page changes no entry before the copy. -/
theorem announces_touch (s : Kernel × Mem) (page : Nat) (htype : type ≠ .writePtrace) (entry : PtEntry) :
    Announces s (memPtr.touch s page type entry) := by
  unfold memPtr.touch
  rw [if_neg htype]
  exact .of_memPt (.refl _) (le_refl _) fun _ => rfl

variable {page : Nat} {copy : Option RegionId}

theorem announces_resolveCow (h : memPtr.resolveCow env s page copy = some s')
    (hcopy : ∀ r, copy = some r → r < s.1.host.next) : Announces s s' := by
  rcases memPtr.resolveCow_cases h with ⟨entry, r, -, -, hr, rfl⟩ | ⟨-, ⟨r, -, rfl⟩ | ⟨-, rfl⟩⟩
  · have hmap := announces_ptMap env (memPtr.copied s.1 r entry, s.2) page 1 (some r) 0
      (entry.flags &&& ~~~pCow) (by
        rintro r' ⟨⟩
        rw [copied_hostNext]
        exact hcopy r hr)
    refine .of_lt ((extends_copied s.1 r entry).trans hmap.ext) ?_
    exact Nat.lt_succ_of_le hmap.mono
  · exact .of_memPt (.of_datas rfl (le_refl _) fun _ => rfl) (le_refl _) fun _ => rfl
  · exact .refl _

variable {entry : PtEntry}

theorem changes_resolveCow_of_cow (h : memPtr.resolveCow env s page copy = some s')
    (hentry : memPt s.2 page = some entry) (hcow : hasAny entry.flags pCow) : s.2.changes < s'.2.changes := by
  rcases memPtr.resolveCow_cases h with ⟨entry', r, -, -, -, rfl⟩ | ⟨hnot, -⟩
  · refine Nat.lt_succ_of_le ?_
    rcases ptMap_cases env (memPtr.copied s.1 r entry', s.2) page 1 (some r) 0
      (entry'.flags &&& ~~~pCow) with ⟨err, heq⟩ | ⟨r', -, -, heq⟩
    · rw [heq]
    · rw [heq]
      exact Nat.le_succ_of_le (ptMap.changes_le_loop env (memPtr.copied s.1 r entry', s.2) page 1 r'
        0 (entry'.flags &&& ~~~pCow))
  · rw [hnot entry hentry] at hcow
    cases hcow

def InOrder (s : Kernel × Mem) : Prop := (⟨s.1, fun _ => s.2⟩ : World Unit).Bounded

theorem InOrder.of_entries (h : InOrder s) (hext : s.1.Extends s'.1)
    (hentry : ∀ q e, memPt s'.2 q = some e → e.data < s'.1.nextData) : InOrder s' := by
  have hput : (⟨s.1, fun _ => s.2⟩ : World Unit).put () s' = ⟨s'.1, fun _ => s'.2⟩ := by
    unfold World.put
    congr 1
  have := World.Bounded.put h () hext hentry
  rwa [hput] at this

/-- From names in order, the step leaves them in order and announces what it does. -/
def Tracked (s s' : Kernel × Mem) : Prop := InOrder s → InOrder s' ∧ Announces s s'

theorem Tracked.refl (s : Kernel × Mem) : Tracked s s := fun h => ⟨h, .refl s⟩

theorem Tracked.trans {s s' s'' : Kernel × Mem} (h : Tracked s s') (h' : Tracked s' s'') : Tracked s s'' := fun hs =>
  ⟨(h' (h hs).1).1, (h hs).2.trans (h' (h hs).1).2⟩

theorem Tracked.of_entryStep (hstep : EntryStep s.1 s.2 s'.1 s'.2) (h : Announces s s') : Tracked s s' := by
  refine fun hs => ⟨hs.of_entries h.ext fun q e he => ?_, h⟩
  rcases hstep.entry q e he with ⟨e', he', hkeep⟩ | ⟨-, hlt, -⟩
  · exact hkeep.1 ▸ lt_of_lt_of_le (hs.entry () q e' he') h.ext.nextData
  · exact hlt

theorem tracked_resolveCow (h : memPtr.resolveCow env s page copy = some s')
    (hcopy : ∀ r, copy = some r → r < s.1.host.next) : Tracked s s' := by
  have hann := announces_resolveCow h hcopy
  refine fun hs => ⟨hs.of_entries hann.ext fun q e he => ?_, hann⟩
  have hold : ∀ e, memPt s.2 q = some e → e.data < s'.1.nextData := fun e he =>
    lt_of_lt_of_le (hs.entry () q e he) hann.ext.nextData
  rcases memPtr.resolveCow_cases h with ⟨entry, r, -, -, -, rfl⟩ | ⟨-, ⟨r, -, rfl⟩ | ⟨-, rfl⟩⟩
  · rcases entry_ptMap env _ page 1 _ 0 _ he with hsame | ⟨hd, -, hlt, -⟩
    · exact hold e hsame
    · exact hd ▸ hlt
  · exact hold e he
  · exact hold e he

variable {fe : FaultEnv}

theorem tracked_cow {gap : Nat → Kernel × Mem → Kernel × Mem} (hgap : ∀ j t, Tracked t (gap j t))
    (h : memPtr.cow fe gap s page = some s') : Tracked s s' := by
  intro hs
  unfold memPtr.cow at h
  split_ifs at h
  · obtain ⟨t, ht, rfl⟩ := map_eq_some_iff.1 h
    have hcopy : Announces s (memPtr.withCopy s.1, s.2) :=
      .of_memPt (extends_withCopy s.1) (le_refl _) fun _ => rfl
    have hcopied : InOrder (memPtr.withCopy s.1, s.2) :=
      hs.of_entries hcopy.ext fun q e he => hs.entry () q e he
    obtain ⟨hwaited, hwait⟩ := hgap 2 (memPtr.withCopy s.1, s.2) hcopied
    have hresolve : Tracked _ t := tracked_resolveCow ht (by
      rintro r ⟨⟩
      exact lt_of_lt_of_le (Nat.lt_succ_self _) hwait.ext.hostNext)
    obtain ⟨hend, hann⟩ := (hresolve.trans (hgap 3 t)) hwaited
    exact ⟨hend, (hcopy.trans hwait).trans hann⟩
  · obtain ⟨t, ht, rfl⟩ := map_eq_some_iff.1 h
    have hresolve : Tracked _ t := tracked_resolveCow ht (by rintro r ⟨⟩)
    exact ((hgap 2 s).trans (hresolve.trans (hgap 3 t))) hs

theorem tracked_materialise (env : HostEnv) (s : Kernel × Mem) (page : Nat) (flags : Flags) :
    Tracked s (memPtr.materialise env s page flags) :=
  .of_entryStep (entryStep_materialise env s page flags) (announces_materialise env s page flags)

theorem tracked_touch (htype : type ≠ .writePtrace) (hentry : memPt s.2 page = some entry) :
    Tracked s (memPtr.touch s page type entry) :=
  .of_entryStep (entryStep_touch s page type hentry) (announces_touch s page htype entry)

variable {addr : Nat}

/-- **`mem_ptr` announces what it does**, if the other threads do in its windows. -/
theorem tracked_memPtrWith {gap : Nat → Kernel × Mem → Kernel × Mem} (htype : type ≠ .writePtrace)
    {ptr : Option HostPtr} (hgap : ∀ j t, Tracked t (gap j t))
    (h : memPtrWith fe gap s addr type = some (ptr, s')) : Tracked s s' :=
  memPtrWith_rel Tracked .refl (fun _ _ _ => .trans) hgap
    (fun t flags => tracked_materialise fe.host t _ flags)
    (fun _ _ hentry => tracked_touch htype hentry) (fun _ _ hc => tracked_cow hgap hc) h

theorem tracked_prepareWrite {b : Bool} (hentry : memPt s.2 page = some entry)
    (h : memPtr.prepareWrite fe (fun _ s => s) s page type entry = some (b, s')) : Tracked s s' := by
  by_cases htype : type = .writePtrace
  · subst htype
    have hflag : hasAny (memPtr.writeFlags .writePtrace entry.flags) pCow := by
      have hcow : hasAny (pWrite ||| pCow) pCow := by decide
      simp [memPtr.writeFlags, hcow]
    unfold memPtr.prepareWrite at h
    rw [if_neg (by simp)] at h
    dsimp only at h
    rw [if_pos hflag] at h
    obtain ⟨t, ht, heq⟩ := map_eq_some_iff.1 h
    cases heq
    have htouched : memPt (memPtr.touch s page .writePtrace entry).2 page =
        some { entry with flags := memPtr.writeFlags .writePtrace entry.flags } := by
      rw [memPt_touch s page page _ hentry, if_pos rfl]
    have hentries := (entryStep_touch s page .writePtrace hentry).trans (entryStep_cow ht)
    have hchanges : (memPtr.touch s page .writePtrace entry).2.changes = s.2.changes := by
      simp [memPtr.touch]
    refine .of_entryStep hentries (.of_lt hentries.ext ?_)
    rw [← hchanges]
    rcases memPtr.cow_cases ht with hc | hc
    · exact changes_resolveCow_of_cow
        (s := (memPtr.withCopy _, (memPtr.touch s page .writePtrace entry).2)) hc htouched hflag
    · exact changes_resolveCow_of_cow hc htouched hflag
  · exact memPtr.prepareWrite_rel Tracked .refl (fun _ _ _ => .trans)
      (fun _ _ hentry => tracked_touch htype hentry)
      (fun _ _ hc => tracked_cow (fun _ t => .refl t) hc) hentry h

theorem tracked_memPtr {ptr : Option HostPtr} (h : memPtr fe s addr type = some (ptr, s')) : Tracked s s' :=
  memPtrWith_rel_of_prepareWrite Tracked .refl (fun _ _ _ => .trans) (fun _ s => .refl s)
    (fun t flags => tracked_materialise fe.host t _ flags)
    (fun _ _ _ _ hentry hp => tracked_prepareWrite hentry hp) h

/-! ### Whole steps -/

theorem ptCopyOnWrite_changes_src (env : HostEnv) (k : Kernel) (src dst : Mem) (start pages : Nat) :
    (ptCopyOnWrite env k src dst start pages).2.1.changes = src.changes + 1 := by
  rw [ptCopyOnWrite_eq]
  refine congrArg (· + 1) ?_
  refine forRange_inv (fun t : CopyState => t.src.changes = src.changes) rfl fun j t _ _ h => ?_
  unfold ptCopyOnWrite.body
  cases memPt t.src j with
  | none => exact h
  | some entry => simpa using h

theorem copyReservations_changes (env : HostEnv) (dst : Mem) (rs : List MemReservation) :
    (ptCopyOnWrite.copyReservations env dst rs).changes = dst.changes := by
  induction rs generalizing dst with
  | nil => rfl
  | cons r rs ih =>
    rw [ptCopyOnWrite.copyReservations, ih]
    split_ifs <;> rfl

theorem lt_ptCopyOnWrite_changes_dst (env : HostEnv) (k : Kernel) (src dst : Mem) (start pages : Nat) :
    dst.changes < (ptCopyOnWrite env k src dst start pages).2.2.changes := by
  rw [ptCopyOnWrite_eq]
  refine Nat.lt_succ_of_le ?_
  rw [copyReservations_changes]
  refine forRange_inv (fun t : CopyState => dst.changes ≤ t.dst.changes) (le_refl _)
    fun j t _ _ h => ?_
  unfold ptCopyOnWrite.body
  cases memPt t.src j with
  | none => exact h
  | some entry =>
    have hunmap := ptUnmapAlways_changes env (t.kernel, t.dst) j 1
    refine le_trans h ?_
    change t.dst.changes ≤ (ptUnmapAlways env (t.kernel, t.dst) j 1).2.changes
    rw [hunmap]
    exact Nat.le_succ _

/-- The host does not refuse to take rights away. -/
def Op.Willing {ι : Type} : Op ι → Prop
  | .setFlags env _ _ _ flags => env.Willing flags
  | _ => True

section World

variable {ι : Type} [DecidableEq ι]

omit [DecidableEq ι] in
theorem World.Bounded.inOrder {w : World ι} (hw : w.Bounded) (i : ι) : InOrder (w.at i) :=
  ⟨fun _ => hw.entry i, hw.region, hw.vdso⟩

theorem announces_put {w : World ι} {i : ι} (h : Announces (w.at i) s) (j : ι) :
    Announces (w.at j) ((w.put i s).at j) := by
  by_cases hj : j = i
  · subst hj
    unfold World.at
    rw [World.put_mems_self]
    exact h
  · refine .of_memPt h.ext ?_ fun q => ?_
    · unfold World.at
      rw [World.put_mems_of_ne w s hj]
    · unfold World.at
      rw [World.put_mems_of_ne w s hj]

/-- **Every function announces what it does** to every address space. -/
theorem announces_step {realPageSize : Nat} {w w' : World ι} (hw : w.Bounded) {op : Op ι}
    (hop : op.Willing) (h : w.step realPageSize op = some w') (j : ι) : Announces (w.at j) (w'.at j) := by
  cases op with
  | map env i start pages memory offset flags =>
    cases h
    have hmem : Announces (w.at i) ((memory.memory w.kernel).2, w.mems i) :=
      .of_memPt (memory.extends_memory w.kernel) (le_refl _) fun _ => rfl
    exact announces_put (hmem.trans (announces_ptMap env _ start pages _ offset flags (memory.memory_lt hw.vdso))) j
  | mapNothing env i start pages flags =>
    cases h
    exact announces_put (announces_ptMapNothing env (w.at i) start pages flags) j
  | mapLazy ok i start pages flags =>
    cases h
    have hlazy : Announces (w.at i) (w.kernel, (ptMapLazy ok (w.mems i) start pages flags).2) := by
      cases ok with
      | false => exact .refl _
      | true => exact .of_memPt (.refl _) (Nat.le_succ _) fun _ => rfl
    exact announces_put hlazy j
  | unmap env i start pages =>
    cases h
    exact announces_put (ptUnmap_inv env start pages (.refl _) (announces_ptUnmapAlways env (w.at i) start pages)) j
  | unmapAlways env i start pages =>
    cases h
    exact announces_put (announces_ptUnmapAlways env (w.at i) start pages) j
  | setFlags env i start pages flags =>
    cases h
    exact announces_put (announces_ptSetFlags realPageSize (w.at i) start pages hop) j
  | copyOnWrite env i i' start pages =>
    dsimp only [World.step] at h
    split_ifs at h with hne
    cases h
    have hext := kernelOrder_extends.ptCopyOnWrite env w.kernel (w.mems i) (w.mems i') start pages
    have hsrc := ptCopyOnWrite_changes_src env w.kernel (w.mems i) (w.mems i') start pages
    have hdst := lt_ptCopyOnWrite_changes_dst env w.kernel (w.mems i) (w.mems i') start pages
    generalize ptCopyOnWrite env w.kernel (w.mems i) (w.mems i') start pages = r at *
    have hfirst : Announces (w.at i) (r.1, r.2.1) :=
      .of_lt hext (hsrc ▸ Nat.lt_succ_self _)
    have hsecond : Announces ((w.put i (r.1, r.2.1)).at i') (r.1, r.2.2) := by
      refine .of_lt (.refl _) ?_
      unfold World.at
      rw [World.put_mems_of_ne _ _ (Ne.symm hne)]
      exact hdst
    exact (announces_put hfirst j).trans (announces_put hsecond j)
  | fault fe i addr type =>
    obtain ⟨⟨ptr, s⟩, hptr, rfl⟩ := map_eq_some_iff.1 h
    exact announces_put (tracked_memPtr hptr (hw.inOrder i)).2 j
  | findHole i size =>
    cases h
    obtain ⟨hint, hm⟩ := (ptFindHole_cases (w.mems i) size).2
    have hhole : Announces (w.at i) (w.kernel, (ptFindHole (w.mems i) size).2) := by
      rw [hm]
      exact .of_memPt (.refl _) (le_refl _) fun _ => rfl
    exact announces_put hhole j
  | setFile i page fd offset =>
    cases h
    refine announces_put (.of_memPt (extends_setFile (w.at i) page fd offset) ?_ fun q => ?_) j
    · rw [setFile_mem]
    · rw [setFile_mem]

theorem tracked_window {realPageSize : Nat} {ops : List (Op Bool)}
    (hops : ∀ op ∈ ops, op.Willing) (s : Kernel × Mem) : Tracked s (window realPageSize ops s) := by
  intro hs
  have hstart : (⟨s.1, fun b => if b then memInit else s.2⟩ : World Bool).Bounded := by
    refine ⟨fun i q e he => ?_, hs.region, hs.vdso⟩
    cases i with
    | false => exact hs.entry () q e he
    | true => cases he
  have hrun : ∀ (ops : List (Op Bool)), (∀ op ∈ ops, op.Willing) → ∀ w : World Bool, w.Bounded →
      (ops.foldl (fun w op => (w.step realPageSize op).getD w) w).Bounded ∧
        Announces (w.at false)
          ((ops.foldl (fun w op => (w.step realPageSize op).getD w) w).at false) := by
    intro ops
    induction ops with
    | nil => exact fun _ w hw => ⟨hw, .refl _⟩
    | cons op ops ih =>
      intro hops w hw
      obtain ⟨hop, hops⟩ := forall_mem_cons.1 hops
      rw [foldl_cons]
      cases hstep : w.step realPageSize op with
      | none => exact ih hops w hw
      | some w' =>
        obtain ⟨hend, hann⟩ := ih hops w' (bounded_step realPageSize op hw hstep)
        exact ⟨hend, (announces_step hw hop hstep false).trans hann⟩
  obtain ⟨hend, hann⟩ := hrun ops hops _ hstart
  exact ⟨hend.inOrder false, hann⟩

end World

/-! ### The TLB against the page table -/

theorem pageOf_tlbPage (addr : Nat) : pageOf (tlbPage addr) = pageOf addr := by
  unfold pageOf tlbPage pageSize
  omega

theorem pgOffset_tlbPage (addr : Nat) : pgOffset (tlbPage addr) = 0 := by
  unfold pgOffset tlbPage pageSize
  omega

theorem tlbPage_ne_empty (addr : Nat) : tlbPageEmpty ≠ tlbPage addr := by
  unfold tlbPageEmpty tlbPage pageSize
  omega

variable {ptr : HostPtr}

theorem memPtrNofault_add {addr' : Nat} (hpage : tlbPage addr = tlbPage addr')
    (h : memPtrNofault s (tlbPage addr) type = some ptr) :
    memPtrNofault s addr' type = some (ptr.add (pgOffset addr')) := by
  have hp : pageOf (tlbPage addr) = pageOf addr' := by rw [hpage, pageOf_tlbPage]
  unfold memPtrNofault at *
  rw [hp, pgOffset_tlbPage] at h
  cases he : memPt s.2 (pageOf addr') with
  | none =>
    rw [he] at h
    cases h
  | some e =>
    rw [he] at h
    dsimp only at h ⊢
    split_ifs at h ⊢
    cases h
    simp [HostPtr.add]

theorem memPtrNofault_read_of_write
    (h : memPtrNofault s addr .write = some ptr) : memPtrNofault s addr .read = some ptr := by
  obtain ⟨e, he, -, rfl⟩ := memPtrNofault_write h
  simp [memPtrNofault, he, regionOf]

theorem memPtrNofault_write_of_isSome
    (h : memPtrNofault s addr .read = some ptr) (hw : (memPtrNofault s addr .write).isSome) :
    memPtrNofault s addr .write = some ptr := by
  obtain ⟨ptr', hptr'⟩ := isSome_iff_exists.1 hw
  rw [hptr', ← h, memPtrNofault_read_of_write hptr']

namespace Tlb

variable {ι : Type}

/-- Every hit is the translation that the page table gives. -/
def Valid (tlb : Tlb ι) (s : Kernel × Mem) : Prop :=
  ∀ addr ptr, (tlb.readHit addr = some ptr → memPtrNofault s addr .read = some ptr) ∧
    (tlb.writeHit addr = some ptr → memPtrNofault s addr .write = some ptr)

variable {tlb : Tlb ι}

theorem Valid.of_entries {tlb' : Tlb ι} (h : tlb.Valid s) (heq : tlb'.entries = tlb.entries) : tlb'.Valid s := by
  unfold Valid readHit writeHit at *
  rw [heq]
  exact h

theorem valid_flush (tlb : Tlb ι) (changes : Nat) (s : Kernel × Mem) : (tlb.flush changes).Valid s := by
  intro addr ptr
  have hne := tlbPage_ne_empty addr
  constructor
  · intro h
    simp [readHit, flush, hne] at h
  · intro h
    simp [writeHit, flush, hne] at h

/-- A step that is not counted leaves the hits right. -/
theorem Valid.announces (h : tlb.Valid s) (hs : InOrder s)
    (hann : Announces s s') (heq : s'.2.changes = s.2.changes) : tlb.Valid s' := by
  have hregion : ∀ q e, memPt s.2 q = some e → (s'.1.datas e.data).data = (s.1.datas e.data).data :=
    fun q e he => hann.ext.data _ (hs.entry () q e he)
  intro addr ptr
  constructor
  · intro hhit
    have hold := (h addr ptr).1 hhit
    unfold memPtrNofault at hold ⊢
    cases he : memPt s.2 (pageOf addr) with
    | none =>
      rw [he] at hold
      cases hold
    | some e =>
      obtain ⟨e', he', hdata, hoff, -⟩ := hann.same heq _ e he
      rw [he] at hold
      simp only [he', hdata, hoff, hregion _ e he]
      exact hold
  · intro hhit
    obtain ⟨e, he, hw, rfl⟩ := memPtrNofault_write ((h addr ptr).2 hhit)
    obtain ⟨e', he', hdata, hoff, hkeep⟩ := hann.same heq _ e he
    rw [memPtrNofault_of_writable he' (hkeep hw)]
    unfold regionOf
    rw [hdata, hoff, hregion _ e he]

theorem Valid.fill (h : tlb.Valid s) (htype : type ≠ .writePtrace)
    (hptr : memPtrNofault s (tlbPage addr) type = some ptr) : (tlb.fill s addr type ptr).Valid s := by
  have hread : memPtrNofault s (tlbPage addr) .read = some ptr := by
    cases type with
    | read => exact hptr
    | write => exact memPtrNofault_read_of_write hptr
    | writePtrace => exact absurd rfl htype
  intro addr' ptr'
  by_cases hindex : tlbIndex addr' = tlbIndex addr
  · constructor
    · intro hhit
      simp only [readHit, Tlb.fill, hindex, update_self] at hhit
      split_ifs at hhit with hpage
      cases hhit
      exact memPtrNofault_add hpage hread
    · intro hhit
      simp only [writeHit, Tlb.fill, hindex, update_self] at hhit
      split_ifs at hhit with hpage
      cases hhit
      -- the tag is set only for a page that can be written to
      unfold writeTag at hpage
      split_ifs at hpage with htag
      · refine memPtrNofault_add hpage ?_
        rcases htag with rfl | hsome
        · exact hptr
        · exact memPtrNofault_write_of_isSome hread hsome
      · exact absurd hpage (tlbPage_ne_empty addr')
  · constructor
    · intro hhit
      simp only [readHit, Tlb.fill, update_of_ne hindex] at hhit
      exact (h addr' ptr').1 hhit
    · intro hhit
      simp only [writeHit, Tlb.fill, update_of_ne hindex] at hhit
      exact (h addr' ptr').2 hhit

/-- What an access leaves behind. -/
structure AccessOk (tlb : Tlb ι) (s : Kernel × Mem) (tlb' : Tlb ι) (s' : Kernel × Mem) :
    Prop where
  inOrder : InOrder s'
  announces : Announces s s'
  mmu : tlb'.mmu = tlb.mmu
  le : tlb'.memChanges ≤ s'.2.changes
  valid : tlb'.Valid s'

theorem memChanges_flush_le (tlb : Tlb ι) (changes : Nat) : (tlb.flush changes).memChanges ≤ changes :=
  Nat.mod_le _ _

theorem accessOk_finishMiss {tlb' : Tlb ι}
    (htype : type ≠ .writePtrace) {ptr : Option HostPtr} (h : AccessOk tlb s tlb' s')
    (hptr : ∀ p, ptr = some p → memPtrNofault s' (tlbPage addr) type = some p) :
    AccessOk tlb s (finishMiss tlb' s' addr type ptr).2.2 (finishMiss tlb' s' addr type ptr).2.1 := by
  cases ptr with
  | none => exact ⟨h.inOrder, h.announces, h.mmu, h.le, h.valid.of_entries rfl⟩
  | some p =>
    exact ⟨h.inOrder, h.announces, h.mmu, Nat.mod_le _ _, h.valid.fill htype (hptr p rfl)⟩

/-- **A miss** leaves the TLB right, whatever other threads do in its windows. -/
theorem accessOk_handleMiss {x y : Translation} (htype : type ≠ .writePtrace) (hx : ∀ j t, Tracked t (x.gap j t))
    (hy : ∀ j t, Tracked t (y.gap j t)) (hs : InOrder s) (hle : tlb.memChanges ≤ s.2.changes)
    (hvalid : tlb.Valid s) {r : Option HostPtr × (Kernel × Mem) × Tlb ι}
    (h : tlb.handleMiss x y s addr type = some r) : AccessOk tlb s r.2.2 r.2.1 := by
  unfold handleMiss mmuTranslate at h
  rcases hfirst : memPtrWith x.fe x.gap s (tlbPage addr) type with _ | ⟨ptr, t⟩
  · rw [hfirst] at h
    cases h
  rw [hfirst] at h
  dsimp only at h
  obtain ⟨ht, hann⟩ := tracked_memPtrWith htype hx hfirst hs
  split_ifs at h with hchanged
  · -- the counter has moved: the TLB is emptied before the page is translated again
    rcases hsecond : memPtrWith y.fe y.gap t (tlbPage addr) type with _ | ⟨ptr', u⟩
    · rw [hsecond] at h
      cases h
    rw [hsecond] at h
    cases h
    obtain ⟨hu, hann'⟩ := tracked_memPtrWith htype hy hsecond ht
    refine accessOk_finishMiss htype ⟨hu, hann.trans hann', rfl, ?_, valid_flush _ _ _⟩ ?_
    · exact le_trans (memChanges_flush_le tlb t.2.changes) hann'.mono
    · rintro p rfl
      exact memPtrNofault_of_memPtrWith hsecond
  · cases h
    rw [not_not] at hchanged
    have hmono := hann.mono
    have heq : t.2.changes = s.2.changes := by omega
    refine accessOk_finishMiss htype ⟨ht, hann, rfl, by omega, hvalid.announces hs hann heq⟩ ?_
    rintro p rfl
    exact memPtrNofault_of_memPtrWith hfirst

end Tlb

/-! ### Runs of a guest thread -/

/-- The host does not refuse to take rights away in the windows of the access. -/
def Access.Willing (x : Access) : Prop := ∀ j, ∀ op ∈ x.windows j, op.Willing

/-- The host does not refuse to take rights away, neither between guest runs nor in the windows of
the guest's own accesses. -/
def GuestAct.Willing {ι : Type} : GuestAct ι → Prop
  | .change op => op.Willing
  | .read x y _ => x.Willing ∧ y.Willing
  | .write x y _ => x.Willing ∧ y.Willing
  | .renew _ | .refresh _ | .flush | .stop => True

/-- The host is willing, and a new `struct mm` is not where one was that the TLB was filled from. -/
def Guest.Careful {ι : Type} (s : Guest ι) (act : GuestAct ι) : Prop :=
  act.Willing ∧ match act with
    | .renew i => s.tlb.mmu ≠ some i
    | _ => True

theorem Access.Willing.tracked {x : Access} (hx : x.Willing) (realPageSize : Nat) :
    ∀ j t, Tracked t ((x.translation realPageSize).gap j t) :=
  fun j t => tracked_window (hx j) t

namespace Guest

variable {ι : Type} [DecidableEq ι]

/-- No address space has a page, and the guest does not run. -/
def init (ι : Type) : Guest ι := ⟨worldInit ι, tlbInit ι, none⟩

/-- The TLB is right when the guest runs, and when the counter says so. -/
structure Inv (s : Guest ι) : Prop where
  bounded : s.world.Bounded
  le : ∀ i, s.tlb.mmu = some i → s.tlb.memChanges ≤ (s.world.mems i).changes
  fresh : ∀ i, s.tlb.mmu = some i → s.tlb.memChanges = (s.world.mems i).changes →
    s.tlb.Valid (s.world.at i)
  running : ∀ i, s.running = some i → s.tlb.mmu = some i ∧ s.tlb.Valid (s.world.at i)

omit [DecidableEq ι] in
theorem inv_init : (init ι).Inv where
  bounded := bounded_worldInit
  le _ h := by cases h
  fresh _ h := by cases h
  running _ h := by cases h

variable {realPageSize : Nat}

variable {i : ι}

theorem mems_step_of_not_mem {w w' : World ι} {op : Op ι}
    (h : w.step realPageSize op = some w') (hi : i ∉ op.spaces) : w'.mems i = w.mems i := by
  have hput : ∀ (w : World ι) (j : ι) s, i ≠ j → (w.put j s).mems i = w.mems i :=
    fun w j s hne => World.put_mems_of_ne w s hne
  cases op with
  | copyOnWrite env j j' start pages =>
    dsimp only [World.step] at h
    split_ifs at h
    cases h
    have hne : i ≠ j ∧ i ≠ j' := by simpa [Op.spaces] using hi
    rw [hput _ _ _ hne.2, hput _ _ _ hne.1]
  | fault fe j addr type =>
    obtain ⟨r, -, rfl⟩ := map_eq_some_iff.1 h
    exact hput _ _ _ (by simpa [Op.spaces] using hi)
  | map | mapNothing | mapLazy | unmap | unmapAlways | setFlags | findHole | setFile =>
    cases h
    exact hput _ _ _ (by simpa [Op.spaces] using hi)

variable {s : Guest ι}

theorem inv_change {t : Guest ι} {op : Op ι} (hs : s.Inv)
    (hop : op.Willing) (h : s.step realPageSize (.change op) = some t) : t.Inv := by
  dsimp only [step] at h
  split_ifs at h with hrun
  obtain ⟨w, hw, rfl⟩ := map_eq_some_iff.1 h
  have hann := announces_step hs.bounded hop hw
  refine ⟨bounded_step realPageSize op hs.bounded hw, fun i hi => ?_, fun i hi heq => ?_,
    fun i hi => ?_⟩
  · exact le_trans (hs.le i hi) (hann i).mono
  · have hmono := (hann i).mono
    have hle := hs.le i hi
    have hsame : (w.mems i).changes = (s.world.mems i).changes := by
      change (s.world.mems i).changes ≤ (w.mems i).changes at hmono
      dsimp only at heq hle
      omega
    exact (hs.fresh i hi (heq.trans hsame)).announces (hs.bounded.inOrder i) (hann i) hsame
  · have hnot : i ∉ op.spaces := by
      intro hmem
      refine hrun ?_
      dsimp only at hi
      rw [hi]
      simpa using hmem
    obtain ⟨hmmu, hvalid⟩ := hs.running i hi
    have hsame := mems_step_of_not_mem hw hnot
    exact ⟨hmmu, hvalid.announces (hs.bounded.inOrder i) (hann i) (congrArg Mem.changes hsame)⟩

theorem inv_renew {t : Guest ι} (hs : s.Inv) (hmmu : s.tlb.mmu ≠ some i)
    (h : s.step realPageSize (.renew i) = some t) : t.Inv := by
  dsimp only [step] at h
  split_ifs at h with hrun
  cases h
  have hsame : ∀ j, j ≠ i → (s.world.put i (s.world.kernel, memInit)).at j = s.world.at j := by
    intro j hne
    unfold World.at
    rw [World.put_mems_of_ne _ _ hne]
    rfl
  have hne : ∀ {j}, s.tlb.mmu = some j → j ≠ i := by
    rintro j hj rfl
    exact hmmu hj
  refine ⟨hs.bounded.put i (.refl _) fun q e he => ?_, fun j hj => ?_, fun j hj heq => ?_, fun j hj => ?_⟩
  · rw [show memPt memInit q = none from memPt_memInit q] at he
    cases he
  · show s.tlb.memChanges ≤ ((s.world.put i (s.world.kernel, memInit)).at j).2.changes
    rw [hsame j (hne hj)]
    exact hs.le j hj
  · have heq : s.tlb.memChanges = ((s.world.put i (s.world.kernel, memInit)).at j).2.changes := heq
    rw [hsame j (hne hj)] at heq ⊢
    exact hs.fresh j hj heq
  · obtain ⟨hj', hvalid⟩ := hs.running j hj
    exact ⟨hj', by rw [hsame j (hne hj')]; exact hvalid⟩

theorem inv_refresh {t : Guest ι} (hs : s.Inv) (h : s.step realPageSize (.refresh i) = some t) : t.Inv := by
  dsimp only [step] at h
  cases hrun : s.running with
  | some j => simp [hrun] at h
  | none =>
    rw [hrun] at h
    cases h
    have hvalid : (s.tlb.refresh i (s.world.mems i).changes).Valid (s.world.at i) ∧
        (s.tlb.refresh i (s.world.mems i).changes).mmu = some i ∧
        (s.tlb.refresh i (s.world.mems i).changes).memChanges ≤ (s.world.mems i).changes := by
      unfold Tlb.refresh
      split_ifs with hsame
      · exact ⟨hs.fresh i hsame.1 hsame.2, hsame.1, hs.le i hsame.1⟩
      · exact ⟨Tlb.valid_flush _ _ _, rfl, Tlb.memChanges_flush_le _ _⟩
    obtain ⟨hvalid, hmmu, hle⟩ := hvalid
    refine ⟨hs.bounded, fun j hj => ?_, fun j hj _ => ?_, fun j hj => ?_⟩
    · cases hmmu.symm.trans hj
      exact hle
    · cases hmmu.symm.trans hj
      exact hvalid
    · cases hj
      exact ⟨hmmu, hvalid⟩

theorem inv_flush {t : Guest ι} (hs : s.Inv) (h : s.step realPageSize .flush = some t) : t.Inv := by
  obtain ⟨i, hi, rfl⟩ := map_eq_some_iff.1 h
  obtain ⟨hmmu, -⟩ := hs.running i hi
  refine ⟨hs.bounded, fun j hj => ?_, fun j _ _ => Tlb.valid_flush _ _ _, fun j hj => ?_⟩
  · cases hmmu.symm.trans hj
    exact Tlb.memChanges_flush_le _ _
  · cases hi.symm.trans hj
    exact ⟨hmmu, Tlb.valid_flush _ _ _⟩

theorem Inv.put (hs : s.Inv) (hi : s.running = some i) {r : Option HostPtr × (Kernel × Mem) × Tlb ι}
    (h : Tlb.AccessOk s.tlb (s.world.at i) r.2.2 r.2.1) : (s.put i r).Inv := by
  obtain ⟨hmmu, -⟩ := hs.running i hi
  have hat : (s.world.put i r.2.1).at i = r.2.1 := by
    unfold World.at
    rw [World.put_mems_self]
    rfl
  refine ⟨?_, fun j hj => ?_, fun j hj _ => ?_, fun j hj => ?_⟩
  · exact hs.bounded.put i h.announces.ext fun q e he => h.inOrder.entry () q e he
  · cases (h.mmu.trans hmmu).symm.trans hj
    change r.2.2.memChanges ≤ ((s.world.put i r.2.1).at i).2.changes
    rw [hat]
    exact h.le
  · cases (h.mmu.trans hmmu).symm.trans hj
    change r.2.2.Valid ((s.world.put i r.2.1).at i)
    rw [hat]
    exact h.valid
  · cases hi.symm.trans hj
    refine ⟨h.mmu.trans hmmu, ?_⟩
    change r.2.2.Valid ((s.world.put i r.2.1).at i)
    rw [hat]
    exact h.valid

theorem inv_access (hs : s.Inv) (hi : s.running = some i)
    (htype : type ≠ .writePtrace) {realPageSize : Nat} {x y : Access}
    (hx : x.Willing) (hy : y.Willing) {r : Option HostPtr × (Kernel × Mem) × Tlb ι}
    (h : s.tlb.handleMiss (x.translation realPageSize) (y.translation realPageSize)
      (s.world.at i) addr type = some r) : (s.put i r).Inv :=
  hs.put hi (Tlb.accessOk_handleMiss htype (hx.tracked realPageSize) (hy.tracked realPageSize)
    (hs.bounded.inOrder i) (hs.le i (hs.running i hi).1) (hs.running i hi).2 h)

/-- A hit changes nothing but the page written last. -/
theorem inv_hit (hs : s.Inv) (hi : s.running = some i) (tlb : Tlb ι)
    (hentries : tlb.entries = s.tlb.entries) (hmmu : tlb.mmu = s.tlb.mmu)
    (hchanges : tlb.memChanges = s.tlb.memChanges) (ptr : Option HostPtr) : (s.put i (ptr, s.world.at i, tlb)).Inv := by
  refine hs.put hi ⟨hs.bounded.inOrder i, .refl _, hmmu, ?_, ?_⟩
  · rw [hchanges]
    exact hs.le i (hs.running i hi).1
  · exact (hs.running i hi).2.of_entries hentries

/-- **One careful step** keeps the TLB right. -/
theorem inv_step {t : Guest ι} (act : GuestAct ι) (hs : s.Inv)
    (hcare : s.Careful act) (h : s.step realPageSize act = some t) : t.Inv := by
  obtain ⟨hact, hmmu⟩ := hcare
  cases act with
  | change op => exact inv_change hs hact h
  | renew i => exact inv_renew hs hmmu h
  | refresh i => exact inv_refresh hs h
  | flush => exact inv_flush hs h
  | read x y addr =>
    dsimp only [step] at h
    cases hrun : s.running with
    | none => simp [hrun] at h
    | some i =>
      rw [hrun] at h
      obtain ⟨r, hr, rfl⟩ := map_eq_some_iff.1 h
      unfold Tlb.readPtr at hr
      cases hhit : s.tlb.readHit addr with
      | none =>
        rw [hhit] at hr
        exact inv_access hs hrun (by simp) hact.1 hact.2 hr
      | some ptr =>
        rw [hhit] at hr
        cases hr
        exact inv_hit hs hrun s.tlb rfl rfl rfl _
  | write x y addr =>
    dsimp only [step] at h
    cases hrun : s.running with
    | none => simp [hrun] at h
    | some i =>
      rw [hrun] at h
      obtain ⟨r, hr, rfl⟩ := map_eq_some_iff.1 h
      unfold Tlb.writePtr at hr
      cases hhit : s.tlb.writeHit addr with
      | none =>
        rw [hhit] at hr
        exact inv_access hs hrun (by simp) hact.1 hact.2 hr
      | some ptr =>
        rw [hhit] at hr
        cases hr
        exact inv_hit hs hrun { s.tlb with dirtyPage := tlbPage addr } rfl rfl rfl _
  | stop =>
    obtain ⟨i, -, rfl⟩ := map_eq_some_iff.1 h
    exact ⟨hs.bounded, hs.le, hs.fresh, fun _ hj => by cases hj⟩

/-- **TLB coherence**: on a host that does not refuse to take rights away, and with no new address space at an
address that the TLB has, whenever the guest runs a read hit is the translation of the page table, and a write
hit is too, of a page that can be written to at once. -/
theorem tlb_coherent {realPageSize : Nat} {s : Guest ι}
    (h : Run (step realPageSize) Careful (init ι) s) {i : ι}
    (hi : s.running = some i) (addr : Nat) (ptr : HostPtr) :
    (s.tlb.readHit addr = some ptr → memPtrNofault (s.world.at i) addr .read = some ptr) ∧
    (s.tlb.writeHit addr = some ptr → (∃ e, memPt (s.world.mems i) (pageOf addr) = some e ∧ hasAny e.flags pWrite ∧
        ¬ hasAny e.flags pCow) ∧ memPtrNofault (s.world.at i) addr .write = some ptr) := by
  have hinv := h.inv Inv (fun _ act _ hs hact hstep => inv_step act hs hact hstep) inv_init
  obtain ⟨hread, hwrite⟩ := (hinv.running i hi).2 addr ptr
  refine ⟨hread, fun hhit => ⟨?_, hwrite hhit⟩⟩
  obtain ⟨e, he, hw, -⟩ := memPtrNofault_write (hwrite hhit)
  unfold pWritable at hw
  simp only [Bool.and_eq_true, Bool.not_eq_true'] at hw
  exact ⟨e, he, hw.1, by simp [hw.2]⟩

end Guest

/-- An access that no other thread disturbs, on a host that refuses nothing. -/
def Access.alone : Access := ⟨FaultEnv.good, fun _ => []⟩

theorem Access.alone_willing : Access.alone.Willing := fun _ _ h => by cases h

/-- A page is mapped, and the guest writes to it. -/
def writeRun : List (GuestAct Unit) :=
  [.change (.mapNothing HostEnv.good () 0x100 1 (pRead ||| pWrite)), .refresh (),
    .write Access.alone Access.alone 0x100008]

theorem writeRun_isSome : (writeRun.foldlM (Guest.step 4096) (Guest.init Unit)).isSome := by
  decide

/-- The state that is reached. -/
def afterWriteRun : Guest Unit := Option.get _ writeRun_isSome

/-- The write of `writeRun` hits from then on, at the place the page table gives. -/
theorem tlb_coherent_writeRun : ∃ ptr, afterWriteRun.tlb.writeHit 0x100008 = some ptr ∧
      memPtrNofault (afterWriteRun.world.at ()) 0x100008 .write = some ptr := by
  have hrun : Run (Guest.step 4096) Guest.Careful (Guest.init Unit) afterWriteRun := by
    refine .of_foldlM (fun act hact s => ?_) (some_get writeRun_isSome).symm
    simp only [writeRun, mem_cons, not_mem_nil, or_false] at hact
    rcases hact with rfl | rfl | rfl
    · exact ⟨trivial, trivial⟩
    · exact ⟨trivial, trivial⟩
    · exact ⟨⟨Access.alone_willing, Access.alone_willing⟩, trivial⟩
  have hhit : (afterWriteRun.tlb.writeHit 0x100008).isSome := by decide
  have hrunning : afterWriteRun.running = some () := by decide
  obtain ⟨ptr, hptr⟩ := isSome_iff_exists.1 hhit
  exact ⟨ptr, hptr, ((Guest.tlb_coherent hrun hrunning 0x100008 ptr).2 hptr).2⟩

/-- A page is mapped with all rights and its neighbour with none, and the guest writes to the
first; then an `mprotect` of both is refused for the neighbour, and the guest goes on. -/
def refusedRun : List (GuestAct Unit) :=
  [.change (.mapNothing HostEnv.good () 0x100 1 (pRead ||| pWrite)),
    .change (.mapNothing HostEnv.good () 0x101 1 0#32), .refresh (),
    .write Access.alone Access.alone 0x100008, .stop,
    .change (.setFlags { HostEnv.good with mprotect := fun _ => false } () 0x100 2 pRead),
    .refresh ()]

theorem refusedRun_isSome : (refusedRun.foldlM (Guest.step 4096) (Guest.init Unit)).isSome := by
  decide

/-- The guest writes to a page; then an `exec` gets its `struct mm` where the old one was and maps another page, and the
guest goes on. -/
def renewRun : List (GuestAct Unit) :=
  [.change (.mapNothing HostEnv.good () 0x100 1 (pRead ||| pWrite)), .refresh (),
    .write Access.alone Access.alone 0x100008, .stop, .renew (),
    .change (.mapNothing HostEnv.good () 0x200 1 (pRead ||| pWrite)), .refresh ()]

theorem renewRun_isSome : (renewRun.foldlM (Guest.step 4096) (Guest.init Unit)).isSome := by
  decide

/-- The page has lost `P_WRITE`, or is not there any more, and a write to it still hits. -/
theorem tlb_write_hit_after_mprotect :
    (∃ s, refusedRun.foldlM (Guest.step 4096) (Guest.init Unit) = some s ∧ s.running = some () ∧
      (s.tlb.writeHit 0x100008).isSome ∧ memPt (s.world.mems ()) 0x100 = some ⟨0, 0, pRead ||| pAnonymous⟩) ∧
    ∃ s, renewRun.foldlM (Guest.step 4096) (Guest.init Unit) = some s ∧ s.running = some () ∧
      (s.tlb.writeHit 0x100008).isSome ∧ memPt (s.world.mems ()) 0x100 = none := by
  refine ⟨⟨_, (some_get refusedRun_isSome).symm, ?_, ?_, ?_⟩, ⟨_, (some_get renewRun_isSome).symm, ?_, ?_, ?_⟩⟩
  all_goals decide

end Ish
