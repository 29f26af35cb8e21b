import Ish.Memory.Equiv.World

/-!
# Fork isolation

After `mm_copy` the two address spaces share host mappings only through entries that are `P_SHARED`
or `P_COW`. Later calls on either side keep it so: they change the flags of an entry but not its
sharing, or they make entries over new mappings.
-/

namespace Ish

open Lib

/-! ### The invariant -/

/-- Entries of the two address spaces over the same host mapping are both shared. -/
structure World.Isolated (w : World Bool) : Prop where
  bounded : w.Bounded
  sharing : ∀ q q' e e', memPt (w.mems false) q = some e → memPt (w.mems true) q' = some e' →
    regionOf w.kernel e = regionOf w.kernel e' →
    hasAny e.flags pSharing ∧ hasAny e'.flags pSharing

/-- The invariant read from either side. -/
theorem World.Isolated.sharing_of {w : World Bool} (hw : w.Isolated) (b : Bool) {q q' : Nat}
    {e e' : PtEntry} (he : memPt (w.mems b) q = some e) (he' : memPt (w.mems (!b)) q' = some e')
    (hr : regionOf w.kernel e = regionOf w.kernel e') : hasAny e.flags pSharing ∧ hasAny e'.flags pSharing := by
  cases b with
  | false => exact hw.sharing q q' e e' he he' hr
  | true => exact (hw.sharing q' q e' e he' he hr.symm).symm

theorem isolated_of_sharing {w : World Bool} (hb : w.Bounded) (b : Bool)
    (h : ∀ q q' e e', memPt (w.mems b) q = some e → memPt (w.mems (!b)) q' = some e' →
      regionOf w.kernel e = regionOf w.kernel e' →
      hasAny e.flags pSharing ∧ hasAny e'.flags pSharing) : w.Isolated := by
  cases b with
  | false => exact ⟨hb, h⟩
  | true => exact ⟨hb, fun q q' e e' he he' hr => (h q' q e' e he' he hr.symm).symm⟩

/-! ### Fork establishes it -/

theorem hasAny_share (e : PtEntry) : hasAny (ptCopyOnWrite.share e).flags pSharing := by
  unfold ptCopyOnWrite.share ptCopyOnWrite.newFlags pSharing
  dsimp only
  rw [hasAny_or_right]
  split_ifs with h
  · simp [h]
  · have hcow : hasAny pCow pCow = true := by decide
    simp [hcow]

theorem touches_memPages (q : Nat) : Touches 0 (loopCount 0 memPages) q := by
  have hcount : loopCount 0 memPages = memPages := loopCount_eq (by decide)
  rw [hcount]
  refine ⟨q % memPages, Nat.zero_le _, ?_, (Nat.mod_mod q memPages).symm⟩
  rw [Nat.zero_add]
  exact Nat.mod_lt q (by decide)

variable {ι : Type}

/-- Every entry on either side of a fork is a shared entry of the source. -/
theorem memPt_fork (w : World ι) (env : HostEnv) (i : ι) (b : Bool) (q : Nat) :
    memPt ((w.fork env i).mems b) q = (memPt (w.mems i) q).map ptCopyOnWrite.share := by
  have htouch := touches_memPages q
  cases b with
  | false =>
    change memPt (ptCopyOnWrite env w.kernel (w.mems i) memInit 0 memPages).2.1 q = _
    rw [memPt_ptCopyOnWrite_src, if_pos htouch]
  | true =>
    change memPt (ptCopyOnWrite env w.kernel (w.mems i) memInit 0 memPages).2.2 q = _
    rw [memPt_ptCopyOnWrite_dst]
    cases h : memPt (w.mems i) q with
    | none => simp
    | some e => simp [htouch]

theorem isolated_fork {w : World ι} (hw : w.Bounded) (env : HostEnv) (i : ι) : (w.fork env i).Isolated := by
  have hext : w.kernel.Extends (w.fork env i).kernel :=
    kernelOrder_extends.ptCopyOnWrite env w.kernel (w.mems i) memInit 0 memPages
  have hshared : ∀ b q e, memPt ((w.fork env i).mems b) q = some e →
      e.data < w.kernel.nextData ∧ hasAny e.flags pSharing := by
    intro b q e he
    rw [memPt_fork] at he
    obtain ⟨e', he', rfl⟩ := Option.map_eq_some_iff.1 he
    exact ⟨hw.entry i q e' he', hasAny_share e'⟩
  refine ⟨⟨fun b q e he => ?_, fun d hd => ?_, ?_⟩, fun q q' e e' he he' _ => ?_⟩
  · exact lt_of_lt_of_le (hshared b q e he).1 hext.nextData
  · by_cases hold : d < w.kernel.nextData
    · rw [hext.data d hold]
      exact lt_of_lt_of_le (hw.region d hold) hext.hostNext
    · exact hext.region d (Nat.not_lt.1 hold) hd
  · exact lt_of_lt_of_le hw.vdso hext.hostNext
  · exact ⟨(hshared false q e he).2, (hshared true q' e' he').2⟩

/-! ### Every call keeps it -/

theorem World.Isolated.put {w : World Bool} (hw : w.Isolated) (b : Bool) {s : Kernel × Mem}
    (h : EntryStep w.kernel (w.mems b) s.1 s.2) : (w.put b s).Isolated := by
  refine isolated_of_sharing (hw.bounded.put_entryStep b h) b fun q q' e e' he he' hr => ?_
  rw [World.put_mems_self] at he
  rw [World.put_mems_of_ne w s (by cases b <;> simp)] at he'
  change regionOf s.1 e = regionOf s.1 e' at hr
  -- the other side's entry has not moved
  have hd' := hw.bounded.entry (!b) q' e' he'
  have hr' : regionOf s.1 e' = regionOf w.kernel e' := h.ext.data e'.data hd'
  rcases h.entry q e he with ⟨e₀, he₀, hdata, -, hkeep⟩ | ⟨-, -, hnew, -⟩
  · have hr₀ : regionOf s.1 e = regionOf w.kernel e₀ := by
      unfold regionOf
      rw [hdata]
      exact h.ext.data e₀.data (hw.bounded.entry b q e₀ he₀)
    obtain ⟨h1, h2⟩ := hw.sharing_of b he₀ he' (hr₀.symm.trans (hr.trans hr'))
    exact ⟨hkeep h1, h2⟩
  · -- a new mapping lies behind no entry of the other side
    have hlt : regionOf w.kernel e' < w.kernel.host.next := hw.bounded.region e'.data hd'
    rw [hr, hr'] at hnew
    exact absurd hlt (Nat.not_lt.2 hnew)

theorem isolated_step (realPageSize : Nat) {w w' : World Bool} (op : Op Bool) (hw : w.Isolated)
    (hop : op.isMemoryCall) (h : w.step realPageSize op = some w') : w'.Isolated := by
  cases op with
  | mapNothing env b start pages flags =>
    cases h
    exact hw.put b (entryStep_ptMapNothing env (w.at b) start pages flags)
  | unmapAlways env b start pages =>
    cases h
    exact hw.put b (entryStep_ptUnmapAlways env (w.at b) start pages)
  | setFlags env b start pages flags =>
    cases h
    exact hw.put b (entryStep_ptSetFlags realPageSize env (w.at b) start pages flags)
  | fault fe b addr type =>
    obtain ⟨⟨ptr, s⟩, hptr, rfl⟩ := Option.map_eq_some_iff.1 h
    exact hw.put b (entryStep_memPtr hptr)
  | _ => exact absurd hop id

/-! ### Isolation -/

theorem byteAt_store_of_ne (h : Host) {p p' : HostPtr} (v : UInt8) (hne : p'.region ≠ p.region) :
    (h.store p v).byteAt p' = h.byteAt p' := by
  unfold Host.byteAt Host.store
  dsimp only
  rw [Function.update_of_ne hne]

theorem World.Isolated.region_ne {w : World Bool} (hw : w.Isolated) {b : Bool} {fe : FaultEnv}
    {addr : Nat} {ptr : HostPtr} {s : Kernel × Mem} (h : memPtr fe (w.at b) addr .write = some (some ptr, s))
    (hprivate : ∀ e, memPt s.2 (pageOf addr) = some e → hasAny e.flags pShared = false)
    {q : Nat} {e' : PtEntry} (he' : memPt (w.mems (!b)) q = some e') : regionOf s.1 e' ≠ ptr.region := by
  have hput : (w.put b s).Isolated := hw.put b (entryStep_memPtr h)
  obtain ⟨e, he, hwritable, rfl⟩ := memPtrNofault_write (memPtrNofault_of_memPtrWith h)
  have hmem : memPt ((w.put b s).mems b) (pageOf addr) = some e := by
    rw [World.put_mems_self]
    exact he
  have hmem' : memPt ((w.put b s).mems (!b)) q = some e' := by
    rw [World.put_mems_of_ne w s (by cases b <;> simp)]
    exact he'
  intro hr
  -- the entry behind the pointer would be shared, but it is writable and not `P_SHARED`
  have hsharing := (hput.sharing_of b hmem hmem' hr.symm).1
  have hcow : hasAny e.flags pCow = false := by
    unfold pWritable at hwritable
    simpa using (Bool.and_eq_true_iff.1 hwritable).2
  rw [pSharing, hasAny_or_right, hprivate e he, hcow] at hsharing
  exact absurd hsharing (by simp)

variable [DecidableEq ι]

/-- **Fork isolation.**  After `mm_copy` of any reachable address space, and any calls on the two
address spaces after it, entries of the two sides for the same page of the same `struct data` are
`P_SHARED` or `P_COW`; and a store through a pointer that `mem_ptr` returned for a write to a page
that is not `P_SHARED` changes no byte that the other side can read. -/
theorem fork_isolation (realPageSize : Nat) {w : World ι}
    (hw : Run (World.step realPageSize) anyStep (worldInit ι) w) (env : HostEnv) (i : ι) {f : World Bool}
    (hf : Run (World.step realPageSize) (fun _ op => op.isMemoryCall) (w.fork env i) f) :
    (∀ q q' e e', memPt (f.mems false) q = some e → memPt (f.mems true) q' = some e' →
      e.data = e'.data → e.offset = e'.offset →
      hasAny e.flags (pShared ||| pCow) ∧ hasAny e'.flags (pShared ||| pCow)) ∧
    (∀ b fe addr ptr s, memPtr fe (f.at b) addr .write = some (some ptr, s) →
      (∀ e, memPt s.2 (pageOf addr) = some e → hasAny e.flags pShared = false) →
      ∀ q e', memPt (f.mems (!b)) q = some e' → ∀ off v j,
        (s.1.host.store ⟨ptr.region, off⟩ v).byteAt ⟨regionOf s.1 e', j⟩ = s.1.host.byteAt ⟨regionOf s.1 e', j⟩) := by
  have hbounded : w.Bounded :=
    hw.inv World.Bounded (fun _ op _ h _ hs => bounded_step realPageSize op h hs) bounded_worldInit
  have hiso : f.Isolated :=
    hf.inv World.Isolated (fun _ op _ h hop hs => isolated_step realPageSize op h hop hs)
      (isolated_fork hbounded env i)
  refine ⟨fun q q' e e' he he' hdata _ => ?_, fun b fe addr ptr s h hprivate q e' he' off v j => ?_⟩
  · exact hiso.sharing q q' e e' he he' (congrArg (fun d => (f.kernel.datas d).data) hdata)
  · exact byteAt_store_of_ne s.1.host v (hiso.region_ne h hprivate he')

/-- One process with a writable page at `0x100000`. -/
def writablePage : World Unit :=
  (worldInit Unit).put () (ptMapNothing HostEnv.good (kernelInit, memInit) 0x100 1 (pRead ||| pWrite)).2

theorem run_writablePage : Run (World.step 4096) anyStep (worldInit Unit) writablePage :=
  .tail (.mapNothing HostEnv.good () 0x100 1 (pRead ||| pWrite)) (.refl _) trivial rfl

/-- After a fork of `writablePage`, the write of the parent to its page does not show in the child. -/
theorem fork_isolation_writablePage : ∃ e ptr s, memPt ((writablePage.fork HostEnv.good ()).mems true) 0x100 = some e ∧
      memPtr FaultEnv.good ((writablePage.fork HostEnv.good ()).at false) 0x100008 .write = some (some ptr, s) ∧
      (s.1.host.store ptr 1).byteAt ⟨regionOf s.1 e, 8⟩ = s.1.host.byteAt ⟨regionOf s.1 e, 8⟩ := by
  have hpt : ∀ b, memPt ((writablePage.fork HostEnv.good ()).mems b) 0x100 =
      some ⟨0, 0, pRead ||| pWrite ||| pAnonymous ||| pCow⟩ := by
    intro b
    rw [memPt_fork]
    rfl
  obtain ⟨ptr, s, off, hptr, hs⟩ := memPtr_write_of_cow FaultEnv.good
    ((writablePage.fork HostEnv.good ()).at false) 0x100008 (hpt false) (by decide)
    (by decide) rfl rfl (by decide)
  refine ⟨_, ptr, s, hpt true, hptr, ?_⟩
  refine (fork_isolation 4096 run_writablePage HostEnv.good () (.refl _)).2 false FaultEnv.good _ ptr
    s hptr (fun e he => ?_) _ _ (hpt true) ptr.offset 1 8
  rw [hs] at he
  cases he
  exact (by decide :
    hasAny ((pRead ||| pWrite ||| pAnonymous ||| pCow) &&& ~~~pCow) pShared = false)

end Ish
