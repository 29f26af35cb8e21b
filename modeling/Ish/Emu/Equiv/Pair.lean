import Ish.Emu.Pair
import Ish.Emu.Equiv.Tlb
import Ish.Memory.Equiv.Grant
import Ish.Memory.Equiv.Madvise

/-!
# The bytes of a pair access

A pair access translates the first address of each element and reads or writes the whole element there. An element that
reaches into the next page is found at the right place only if the host pages lie side by side, and for the second
element the next page is not even translated. `pair_exact_iff` gives the condition.
-/

namespace Ish

open Lib List Option BitVec

/-! ### One translation through the TLB -/

theorem memPtrNofault_tlbPage (s : Kernel × Mem) (addr : Nat) (type : AccessType) :
    memPtrNofault s addr type = (memPtrNofault s (tlbPage addr) type).map (·.add (pgOffset addr)) := by
  unfold memPtrNofault
  rw [pageOf_tlbPage, pgOffset_tlbPage]
  cases memPt s.2 (pageOf addr) with
  | none => rfl
  | some e =>
    dsimp only
    split_ifs <;> rfl

theorem memPtr_tlbPage (fe : FaultEnv) (s : Kernel × Mem) (addr : Nat) (type : AccessType) : memPtr fe s addr type =
      (memPtr fe s (tlbPage addr) type).map fun x => (x.1.map (·.add (pgOffset addr)), x.2) := by
  have haccess : ∀ t, memPtr.access fe t addr type =
      (memPtr.access fe t (tlbPage addr) type).map fun x => (x.1.map (·.add (pgOffset addr)), x.2) := by
    intro t
    unfold memPtr.access
    rw [pageOf_tlbPage]
    cases memPt t.2 (pageOf addr) with
    | none => cases type <;> simp [memPtrNofault_tlbPage t addr]
    | some e =>
      cases type with
      | read => simp [memPtrNofault_tlbPage t addr]
      | write | writePtrace =>
        dsimp only
        rcases memPtr.prepareWrite fe (fun _ s => s) t (pageOf addr) _ e with _ | ⟨_ | _, t'⟩
        · rfl
        · rfl
        · simp [memPtrNofault_tlbPage t' addr]
  rw [memPtr_eq, memPtr_eq, pageOf_tlbPage]
  rcases memPtr.fault fe (fun _ s => s) s (pageOf addr) with ⟨_ | _, t⟩
  · rfl
  · exact haccess t

namespace Tlb

variable {κ : Type}

theorem mmuTranslate_alone (fe : FaultEnv) (s : Kernel × Mem) (addr : Nat) (type : AccessType) :
    mmuTranslate (alone fe) s addr type = memPtr fe s addr type := rfl

theorem finishMiss_eq (tlb : Tlb κ) (s : Kernel × Mem) (addr : Nat) (type : AccessType) (ptr : Option HostPtr) :
    (finishMiss tlb s addr type ptr).1 = ptr.map (·.add (pgOffset addr)) ∧
      (finishMiss tlb s addr type ptr).2.1 = s := by
  cases ptr <;> exact ⟨rfl, rfl⟩

/-- A miss calls `mem_ptr` once, or twice with the same answers of the host. -/
theorem handleMiss_cases {tlb tlb' : Tlb κ} {fe : FaultEnv} {s s' : Kernel × Mem} {addr : Nat} {type : AccessType}
    {r : Option HostPtr} (h : tlb.handleMiss (alone fe) (alone fe) s addr type = some (r, s', tlb')) :
    memPtr fe s addr type = some (r, s') ∨
    ∃ r₁ s₁, memPtr fe s addr type = some (r₁, s₁) ∧ memPtr fe s₁ addr type = some (r, s') := by
  have hdone : ∀ {t u : Kernel × Mem} {tlb₁ : Tlb κ} {ptr : Option HostPtr},
      memPtr fe t (tlbPage addr) type = some (ptr, u) → finishMiss tlb₁ u addr type ptr = (r, s', tlb') →
      memPtr fe t addr type = some (r, s') := by
    intro t u tlb₁ ptr hptr hfinish
    obtain ⟨hr, hu⟩ := finishMiss_eq tlb₁ u addr type ptr
    rw [hfinish] at hr hu
    rw [memPtr_tlbPage, hptr]
    dsimp only at hr hu
    rw [hr, hu]
    rfl
  unfold handleMiss at h
  rw [mmuTranslate_alone] at h
  rcases hfirst : memPtr fe s (tlbPage addr) type with _ | ⟨ptr, t⟩
  · rw [hfirst] at h
    cases h
  · rw [hfirst] at h
    dsimp only at h
    split_ifs at h with hchanged
    · rw [mmuTranslate_alone] at h
      rcases hsecond : memPtr fe t (tlbPage addr) type with _ | ⟨ptr', u⟩
      · rw [hsecond] at h
        cases h
      · rw [hsecond] at h
        refine .inr ⟨ptr.map (·.add (pgOffset addr)), t, ?_, hdone hsecond (Option.some.inj h)⟩
        rw [memPtr_tlbPage, hfirst]
        rfl
    · exact .inl (hdone hfirst (Option.some.inj h))

end Tlb

section

variable {ι κ : Type} [DecidableEq ι] [Finite ι] {ms : ι → Mem} {i : ι}

omit [DecidableEq ι] in
theorem Counted.entriesIn {k : Kernel} {ms : ι → Mem} (h : Counted k (refs ms)) (j : ι) : EntriesIn (k, ms j) :=
  fun _ _ he => ⟨h.lt_of_memPt he, h.region_lt _ (h.lt_of_memPt he)⟩

theorem CountedAt.entriesIn {s : Kernel × Mem} (h : CountedAt ms i s) : EntriesIn s := by
  have hin := Counted.entriesIn h i
  rwa [Function.update_self] at hin

theorem CountedAt.inOrder {s : Kernel × Mem} (h : CountedAt ms i s) : InOrder s :=
  ⟨fun _ q e he => (h.entriesIn q e he).1, h.region_lt, h.vdso_lt⟩

structure Tlb.Right (tlb : Tlb κ) (s : Kernel × Mem) : Prop where
  le : tlb.memChanges ≤ s.2.changes
  valid : tlb.Valid s

/-- What a translation of the page `page` leaves behind. -/
structure PointerStep (ms : ι → Mem) (i : ι) (page : Nat) (s s' : Kernel × Mem) : Prop where
  counted : CountedAt ms i s'
  shows : Shows ms i s s'
  ext : s.1.Extends s'.1
  other : ∀ q, q % memPages ≠ page % memPages → memPt s'.2 q = memPt s.2 q
  own : ∀ e', memPt s'.2 page = some e' → memPt s.2 page = some e' ∨ s.1.host.next ≤ regionOf s'.1 e'

omit [Finite ι] in
theorem PointerStep.refl {s : Kernel × Mem} (hc : CountedAt ms i s) (page : Nat) : PointerStep ms i page s s :=
  ⟨hc, fun _ _ _ _ _ hb => hb, .refl _, fun _ _ => rfl, fun _ he => .inl he⟩

theorem PointerStep.trans {page : Nat} {s s' s'' : Kernel × Mem} (h : PointerStep ms i page s s')
    (h' : PointerStep ms i page s' s'') : PointerStep ms i page s s'' := by
  refine ⟨h'.counted, fun j q off b hoff hb => h'.shows j q off b hoff (h.shows j q off b hoff hb), h.ext.trans h'.ext,
    fun q hq => (h'.other q hq).trans (h.other q hq), fun e'' he'' => ?_⟩
  rcases h'.own e'' he'' with he' | hnew
  · rcases h.own e'' he' with he | hnew
    · exact .inl he
    · have hregion : regionOf s''.1 e'' = regionOf s'.1 e'' := h'.ext.data _ (h.counted.entriesIn _ _ he').1
      rw [hregion]
      exact .inr hnew
  · exact .inr (le_trans h.ext.hostNext hnew)

variable {fe : FaultEnv} {type : AccessType} (htype : type ≠ .writePtrace) {addr : Nat} (haddr : addr < wordMod)
  {s s' : Kernel × Mem} (hc : CountedAt ms i s)
include htype haddr hc

theorem pointerStep_memPtr {r : Option HostPtr} (h : memPtr fe s addr type = some (r, s')) :
    PointerStep ms i (pageOf addr) s s' := by
  obtain ⟨hc', hshows⟩ := shows_memPtr hc haddr h
  exact ⟨hc', hshows, (preserves_memPtr h).ext, fun q hq => memPt_memPtr_of_ne h hq,
    fun e' he' => memPtr_own htype haddr hc.entriesIn h he'⟩

variable {tlb tlb' : Tlb κ} {r : Option HostPtr} (hright : tlb.Right s)
include hright

omit [DecidableEq ι] [Finite ι] haddr hc in
/-- A pointer comes from a hit or from `mem_ptr`. -/
theorem pointer_cases (h : tlb.pointer type fe s addr = some (r, s', tlb')) :
    (∃ p, memPtrNofault s addr type = some p ∧ r = some p ∧ s' = s ∧ tlb'.Right s) ∨
    tlb.handleMiss (Tlb.alone fe) (Tlb.alone fe) s addr type = some (r, s', tlb') := by
  cases type with
  | writePtrace => exact absurd rfl htype
  | read =>
    unfold Tlb.pointer Tlb.readPtr at h
    cases hhit : tlb.readHit addr with
    | none =>
      rw [hhit] at h
      exact .inr h
    | some p =>
      rw [hhit] at h
      cases h
      exact .inl ⟨p, (hright.valid addr p).1 hhit, rfl, rfl, hright⟩
  | write =>
    unfold Tlb.pointer Tlb.writePtr at h
    cases hhit : tlb.writeHit addr with
    | none =>
      rw [hhit] at h
      exact .inr h
    | some p =>
      rw [hhit] at h
      cases h
      exact .inl ⟨p, (hright.valid addr p).2 hhit, rfl, rfl, ⟨hright.le, hright.valid.of_entries rfl⟩⟩

omit [DecidableEq ι] [Finite ι] haddr hc in
theorem pointer_of_nofault {ptr : HostPtr} (hptr : memPtrNofault s addr type = some ptr)
    (h : tlb.pointer type fe s addr = some (r, s', tlb')) : s'.1 = s.1 ∧ s'.2.pgdir = s.2.pgdir := by
  rcases pointer_cases htype hright h with ⟨p, -, rfl, rfl, -⟩ | hmiss
  · exact ⟨rfl, rfl⟩
  · obtain ⟨s₁, hs₁, hkernel, hpgdir, -⟩ := memPtr_of_nofault fe htype hptr
    rcases Tlb.handleMiss_cases hmiss with hone | ⟨r₁, t, hfirst, hsecond⟩
    · cases hone.symm.trans hs₁
      exact ⟨hkernel, hpgdir⟩
    · cases hfirst.symm.trans hs₁
      obtain ⟨s₂, hs₂, hkernel₂, hpgdir₂, -⟩ :=
        memPtr_of_nofault fe htype (memPtrNofault_of_memPtrWith hfirst)
      cases hsecond.symm.trans hs₂
      exact ⟨hkernel₂.trans hkernel, hpgdir₂.trans hpgdir⟩

/-- **A translation through the TLB**: the state it leaves, and the call of `mem_ptr` behind it. -/
theorem pointer_spec (h : tlb.pointer type fe s addr = some (r, s', tlb')) :
    PointerStep ms i (pageOf addr) s s' ∧ tlb'.Right s' ∧ ∀ p, r = some p → memPtrNofault s' addr type = some p ∧
      ∃ p' s₁, memPtr fe s addr type = some (some p', s₁) ∧ CountedAt ms i s₁ ∧
        s'.2.pgdir = s₁.2.pgdir ∧ s'.2.reservations = s₁.2.reservations := by
  rcases pointer_cases htype hright h with ⟨p, hp, rfl, rfl, hright'⟩ | hmiss
  · refine ⟨.refl hc _, hright', ?_⟩
    rintro p' ⟨⟩
    obtain ⟨s₁, hs₁, hkernel, hpgdir, hres⟩ := memPtr_of_nofault fe htype hp
    exact ⟨hp, _, s₁, hs₁, (shows_memPtr hc haddr hs₁).1, hpgdir.symm, hres.symm⟩
  · have hok := Tlb.accessOk_handleMiss htype (fun _ t => .refl t) (fun _ t => .refl t) hc.inOrder hright.le
      hright.valid hmiss
    refine ⟨?_, ⟨hok.le, hok.valid⟩, ?_⟩
    · rcases Tlb.handleMiss_cases hmiss with hone | ⟨r₁, t, hfirst, hsecond⟩
      · exact pointerStep_memPtr htype haddr hc hone
      · have hstep := pointerStep_memPtr htype haddr hc hfirst
        exact hstep.trans (pointerStep_memPtr htype haddr hstep.counted hsecond)
    · rintro p rfl
      rcases Tlb.handleMiss_cases hmiss with hone | ⟨r₁, t, hfirst, hsecond⟩
      · exact ⟨memPtrNofault_of_memPtrWith hone, p, s', hone, (shows_memPtr hc haddr hone).1, rfl, rfl⟩
      · refine ⟨memPtrNofault_of_memPtrWith hsecond, ?_⟩
        have hct := (shows_memPtr hc haddr hfirst).1
        cases r₁ with
        | none => exact absurd ⟨p, s', hsecond⟩ (refuses_again htype haddr hc.entriesIn hct.entriesIn hfirst)
        | some p₁ =>
          obtain ⟨s₂, hs₂, -, hpgdir, hres⟩ :=
            memPtr_of_nofault fe htype (memPtrNofault_of_memPtrWith hfirst)
          cases hsecond.symm.trans hs₂
          exact ⟨_, t, hfirst, hct, hpgdir, hres⟩

omit [DecidableEq ι] [Finite ι] haddr hc hright in
theorem pointer_of_gives (tlb : Tlb κ) (h : Gives fe type s addr) :
    ∃ p s' tlb', tlb.pointer type fe s addr = some (some p, s', tlb') := by
  have hmiss : ∃ p s' tlb', tlb.handleMiss (Tlb.alone fe) (Tlb.alone fe) s addr type = some (some p, s', tlb') := by
    obtain ⟨p, s₁, hs₁⟩ := h
    rw [memPtr_tlbPage] at hs₁
    obtain ⟨⟨_ | p₀, t⟩, hfirst, hp⟩ := map_eq_some_iff.1 hs₁
    · cases hp
    obtain ⟨t', hsecond, -⟩ := memPtr_of_nofault fe htype (memPtrNofault_of_memPtrWith hfirst)
    unfold Tlb.handleMiss
    rw [Tlb.mmuTranslate_alone, hfirst]
    dsimp only
    split_ifs
    · rw [Tlb.mmuTranslate_alone, hsecond]
      exact ⟨_, _, _, rfl⟩
    · exact ⟨_, _, _, rfl⟩
  cases type with
  | writePtrace => exact absurd rfl htype
  | read =>
    unfold Tlb.pointer Tlb.readPtr
    cases tlb.readHit addr with
    | none => exact hmiss
    | some p => exact ⟨p, s, tlb, rfl⟩
  | write =>
    unfold Tlb.pointer Tlb.writePtr
    cases tlb.writeHit addr with
    | none => exact hmiss
    | some p => exact ⟨p, s, _, rfl⟩

end

/-! ### The bytes of one element -/

/-- Where the page `page` is in the host. -/
def pagePtr (s : Kernel × Mem) (type : AccessType) (page : Nat) : Option HostPtr :=
  memPtrNofault s (page * pageSize) type

theorem memPtrNofault_eq_pagePtr (s : Kernel × Mem) (addr : Nat) (type : AccessType) :
    memPtrNofault s addr type = (pagePtr s type (pageOf addr)).map (·.add (pgOffset addr)) := by
  have hpage : tlbPage addr = pageOf addr * pageSize := by
    unfold tlbPage pageOf pageSize
    omega
  rw [memPtrNofault_tlbPage, hpage]
  rfl

theorem pagePtr_eq (s : Kernel × Mem) (type : AccessType) (page : Nat) : pagePtr s type page = match memPt s.2 page with
      | none => none
      | some e => if type = .write ∧ ¬ pWritable e.flags then none else some ⟨regionOf s.1 e, e.offset⟩ := by
  have hpage : pageOf (page * pageSize) = page := by
    unfold pageOf pageSize
    omega
  have hoff : pgOffset (page * pageSize) = 0 := by
    unfold pgOffset pageSize
    omega
  unfold pagePtr memPtrNofault
  rw [hpage, hoff]
  rfl

/-- The page after that of `addr`; the last one of the 64-bit space is followed by the first. -/
def nextPage (addr : BitVec 64) : Nat := pageOf (addr + BitVec.ofNat 64 pageSize).toNat

theorem nextPage_ne (addr : BitVec 64) : nextPage addr % memPages ≠ pageOf addr.toNat % memPages := by
  have hlt := addr.isLt
  unfold nextPage pageOf pageSize memPages
  rw [toNat_add, toNat_ofNat]
  omega

section

variable {addr : BitVec 64} {n : Nat}

/-- An address in the page of `addr`. -/
theorem pageOf_add_low (h : pgOffset addr.toNat + n < pageSize) :
    pageOf (addr + BitVec.ofNat 64 n).toNat = pageOf addr.toNat ∧
      pgOffset (addr + BitVec.ofNat 64 n).toNat = pgOffset addr.toNat + n := by
  have hlt := addr.isLt
  unfold pgOffset pageSize at h
  unfold pageOf pgOffset pageSize
  rw [toNat_add, toNat_ofNat]
  omega

theorem pageOf_add_high (h : pageSize ≤ pgOffset addr.toNat + n) (hn : n ≤ pageSize) :
    pageOf (addr + BitVec.ofNat 64 n).toNat = nextPage addr ∧
      pgOffset (addr + BitVec.ofNat 64 n).toNat = pgOffset addr.toNat + n - pageSize := by
  have hlt := addr.isLt
  unfold pageSize at hn
  unfold pgOffset pageSize at h
  unfold nextPage pageOf pgOffset pageSize
  rw [toNat_add, toNat_add, toNat_ofNat, toNat_ofNat]
  omega

theorem nextPage_add_low (h : pgOffset addr.toNat + n < pageSize) :
    nextPage (addr + BitVec.ofNat 64 n) = nextPage addr := by
  have hlt := addr.isLt
  unfold pgOffset pageSize at h
  unfold nextPage pageOf pageSize
  rw [toNat_add, toNat_add, toNat_add, toNat_ofNat, toNat_ofNat]
  omega

theorem HostPtr.add_add (ptr : HostPtr) (a b : Nat) : (ptr.add a).add b = ptr.add (a + b) := by
  unfold HostPtr.add
  rw [Nat.add_assoc]

/-- The page of `addr` and the next one lie side by side in the host. -/
def Adjacent (s : Kernel × Mem) (type : AccessType) (addr : BitVec 64) : Prop :=
  ∃ p, pagePtr s type (pageOf addr.toNat) = some p ∧ pagePtr s type (nextPage addr) = some (p.add pageSize)

variable {s : Kernel × Mem} {type : AccessType}

/-- **The bytes of one element** are those from its pointer on if it stays in its page or the next page follows in the
host. -/
theorem element_iff {ptr : HostPtr} (hn : n ≤ pageSize) (hptr : memPtrNofault s addr.toNat type = some ptr) :
    (∀ i < n, some (ptr.add i) = memPtrNofault s (addr + BitVec.ofNat 64 i).toNat type) ↔
      pgOffset addr.toNat + n ≤ pageSize ∨ Adjacent s type addr := by
  have hoff : pgOffset addr.toNat < pageSize := Nat.mod_lt _ (by decide)
  rw [memPtrNofault_eq_pagePtr] at hptr
  obtain ⟨p, hp, rfl⟩ := map_eq_some_iff.1 hptr
  have hlow : ∀ i, pgOffset addr.toNat + i < pageSize →
      some ((p.add (pgOffset addr.toNat)).add i) = memPtrNofault s (addr + BitVec.ofNat 64 i).toNat type := by
    intro i hi
    obtain ⟨hpage, hpos⟩ := pageOf_add_low hi
    rw [memPtrNofault_eq_pagePtr, hpage, hpos, hp, HostPtr.add_add]
    rfl
  constructor
  · intro hall
    by_cases hfit : pgOffset addr.toNat + n ≤ pageSize
    · exact .inl hfit
    -- the first byte of the next page
    have hle : pageSize ≤ pgOffset addr.toNat + (pageSize - pgOffset addr.toNat) := by omega
    obtain ⟨hpage, hpos⟩ := pageOf_add_high hle (by omega)
    have hbyte := hall (pageSize - pgOffset addr.toNat) (by omega)
    have hzero : pgOffset addr.toNat + (pageSize - pgOffset addr.toNat) = pageSize := by omega
    rw [memPtrNofault_eq_pagePtr, hpage, hpos, HostPtr.add_add, hzero, Nat.sub_self] at hbyte
    obtain ⟨p', hp', hadd⟩ := map_eq_some_iff.1 hbyte.symm
    exact .inr ⟨p, hp, hp'.trans (congrArg some hadd)⟩
  · rintro (hfit | ⟨p', hp', hnext⟩) i hi
    · exact hlow i (by omega)
    · cases hp.symm.trans hp'
      by_cases hin : pgOffset addr.toNat + i < pageSize
      · exact hlow i hin
      · obtain ⟨hpage, hpos⟩ := pageOf_add_high (not_lt.1 hin) (by omega)
        have hsum : pageSize + (pgOffset addr.toNat + i - pageSize) = pgOffset addr.toNat + i := by omega
        rw [memPtrNofault_eq_pagePtr, hpage, hpos, hnext, HostPtr.add_add, map_some, HostPtr.add_add, hsum]

/-! ### The bytes of both elements -/

/-- `touched` are the host bytes of the guest bytes from `addr` to `addr + 2n`. -/
def TouchesGuest (type : AccessType) (n : Nat) (addr : BitVec 64) (s : Kernel × Mem) (touched : List HostPtr) : Prop :=
  touched.map some = (List.range (n + n)).map fun i => memPtrNofault s (addr + BitVec.ofNat 64 i).toNat type

instance (type : AccessType) (n : Nat) (addr : BitVec 64) (s : Kernel × Mem) (touched : List HostPtr) :
    Decidable (TouchesGuest type n addr s touched) :=
  inferInstanceAs (Decidable (_ = _))

theorem touchesGuest_iff {ptr1 ptr2 : HostPtr} : TouchesGuest type n addr s (ptr1.range n ++ ptr2.range n) ↔
      (∀ i < n, some (ptr1.add i) = memPtrNofault s (addr + BitVec.ofNat 64 i).toNat type) ∧
      ∀ i < n, some (ptr2.add i) = memPtrNofault s (addr + BitVec.ofNat 64 n + BitVec.ofNat 64 i).toNat type := by
  have hadd : ∀ i, addr + BitVec.ofNat 64 n + BitVec.ofNat 64 i = addr + BitVec.ofNat 64 (n + i) := by
    intro i
    rw [BitVec.add_assoc, ofNat_add]
  unfold TouchesGuest HostPtr.range
  rw [range_add, map_append, map_append, List.map_map, List.map_map, List.map_map]
  constructor
  · intro h
    obtain ⟨hfirst, hsecond⟩ := append_inj h (by simp)
    refine ⟨fun i hi => map_inj_left.1 hfirst i (mem_range.2 hi), fun i hi => ?_⟩
    rw [hadd]
    exact map_inj_left.1 hsecond i (mem_range.2 hi)
  · rintro ⟨hfirst, hsecond⟩
    refine congrArg₂ _ (map_inj_left.2 fun i hi => hfirst i (mem_range.1 hi))
      (map_inj_left.2 fun i hi => ?_)
    have hbyte := hsecond i (mem_range.1 hi)
    rw [hadd] at hbyte
    exact hbyte

/-- Neither element reaches over the end of a page. -/
def PairInside (n : Nat) (addr : BitVec 64) : Prop :=
  pgOffset addr.toNat + 2 * n ≤ pageSize ∨ pgOffset addr.toNat + n = pageSize

theorem pair_iff {ptr1 ptr2 : HostPtr} (hn : 2 * n ≤ pageSize) (hptr1 : memPtrNofault s addr.toNat type = some ptr1)
    (hptr2 : memPtrNofault s (addr + BitVec.ofNat 64 n).toNat type = some ptr2) :
    TouchesGuest type n addr s (ptr1.range n ++ ptr2.range n) ↔ PairInside n addr ∨ Adjacent s type addr := by
  have hoff : pgOffset addr.toNat < pageSize := Nat.mod_lt _ (by decide)
  rw [touchesGuest_iff, element_iff (by omega) hptr1, element_iff (by omega) hptr2]
  unfold PairInside
  rcases lt_or_ge (pgOffset addr.toNat + n) pageSize with hlow | hhigh
  · -- the second element starts in the page of the first
    obtain ⟨hpage, hpos⟩ := pageOf_add_low hlow
    have hadj : Adjacent s type (addr + BitVec.ofNat 64 n) ↔ Adjacent s type addr := by
      unfold Adjacent
      rw [hpage, nextPage_add_low hlow]
    rw [hpos, hadj]
    constructor
    · rintro ⟨-, hfit | hadjacent⟩
      · exact .inl (.inl (by omega))
      · exact .inr hadjacent
    · rintro ((hfit | hend) | hadjacent)
      · exact ⟨.inl (by omega), .inl (by omega)⟩
      · omega
      · exact ⟨.inr hadjacent, .inr hadjacent⟩
  · -- it starts in the next page and ends there
    obtain ⟨-, hpos⟩ := pageOf_add_high hhigh (by omega)
    rw [hpos]
    constructor
    · rintro ⟨hfit | hadjacent, -⟩
      · exact .inl (.inr (by omega))
      · exact .inr hadjacent
    · rintro ((hfit | hend) | hadjacent)
      · exact ⟨.inl (by omega), .inl (by omega)⟩
      · exact ⟨.inl (by omega), .inl (by omega)⟩
      · exact ⟨.inr hadjacent, .inl (by omega)⟩

end

/-! ### Translations keep host pages apart -/

section

variable {ι κ : Type} [DecidableEq ι] [Finite ι] {ms : ι → Mem} {i : ι} {type : AccessType} {s s' : Kernel × Mem}

theorem EntriesIn.region_lt (h : EntriesIn s) {page : Nat} {p : HostPtr} (hp : pagePtr s type page = some p) :
    p.region < s.1.host.next := by
  rw [pagePtr_eq] at hp
  cases he : memPt s.2 page with
  | none =>
    rw [he] at hp
    cases hp
  | some e =>
    rw [he] at hp
    dsimp only at hp
    split_ifs at hp
    cases hp
    exact (h page e he).2

/-- The other pages stay where they are. -/
theorem PointerStep.pagePtr_other {page q : Nat} (hstep : PointerStep ms i page s s') (hc : CountedAt ms i s)
    (hq : q % memPages ≠ page % memPages) : pagePtr s' type q = pagePtr s type q := by
  rw [pagePtr_eq, pagePtr_eq, hstep.other q hq]
  cases he : memPt s.2 q with
  | none => rfl
  | some e =>
    have hregion : regionOf s'.1 e = regionOf s.1 e := hstep.ext.data _ (hc.entriesIn q e he).1
    dsimp only
    rw [hregion]

theorem PointerStep.pagePtr_own {page : Nat} {p : HostPtr} (hstep : PointerStep ms i page s s') (hc : CountedAt ms i s)
    (hp : pagePtr s' type page = some p) : pagePtr s type page = some p ∨ s.1.host.next ≤ p.region := by
  rw [pagePtr_eq] at hp
  cases he' : memPt s'.2 page with
  | none =>
    rw [he'] at hp
    cases hp
  | some e' =>
    rw [he'] at hp
    dsimp only at hp
    split_ifs at hp with hflags
    cases hp
    rcases hstep.own e' he' with he | hnew
    · have hregion : regionOf s'.1 e' = regionOf s.1 e' := hstep.ext.data _ (hc.entriesIn page e' he).1
      rw [pagePtr_eq, he, hregion]
      exact .inl (if_neg hflags)
    · exact .inr hnew

variable {addr : BitVec 64} {page : Nat} (hpage : page = pageOf addr.toNat ∨ page = nextPage addr)
include hpage

theorem PointerStep.adjacent (hstep : PointerStep ms i page s s') (hc : CountedAt ms i s)
    (h : Adjacent s' type addr) : Adjacent s type addr := by
  obtain ⟨p, hfirst, hnext⟩ := h
  rcases hpage with rfl | rfl
  · rw [hstep.pagePtr_other hc (nextPage_ne addr)] at hnext
    rcases hstep.pagePtr_own hc hfirst with hold | hnew
    · exact ⟨p, hold, hnext⟩
    · exact absurd (hc.entriesIn.region_lt hnext) (not_lt.2 hnew)
  · rw [hstep.pagePtr_other hc (nextPage_ne addr).symm] at hfirst
    rcases hstep.pagePtr_own hc hnext with hold | hnew
    · exact ⟨p, hfirst, hold⟩
    · exact absurd (hc.entriesIn.region_lt hfirst) (not_lt.2 hnew)

variable (htype : type ≠ .writePtrace) (hc : CountedAt ms i s) {tlb tlb' : Tlb κ} (hright : tlb.Right s)
  {fe : FaultEnv} {b : BitVec 64} (hb : pageOf b.toNat = page) {r : Option HostPtr}
  (h : tlb.pointer type fe s b.toNat = some (r, s', tlb'))
include htype hc hright hb h

theorem adjacent_pointer : Adjacent s' type addr ↔ Adjacent s type addr := by
  subst hb
  obtain ⟨hstep, -⟩ := pointer_spec htype b.isLt hc hright h
  refine ⟨hstep.adjacent hpage hc, ?_⟩
  rintro ⟨p, hfirst, hnext⟩
  have hptr : ∃ ptr, memPtrNofault s b.toNat type = some ptr := by
    rw [memPtrNofault_eq_pagePtr]
    rcases hpage with hpage | hpage
    · rw [hpage, hfirst]
      exact ⟨_, rfl⟩
    · rw [hpage, hnext]
      exact ⟨_, rfl⟩
  obtain ⟨ptr, hptr⟩ := hptr
  obtain ⟨hkernel, hpgdir⟩ := pointer_of_nofault htype hright hptr h
  have hsame : ∀ q, pagePtr s' type q = pagePtr s type q := by
    intro q
    rw [pagePtr_eq, pagePtr_eq, hkernel, memPt_eq_of_pgdir hpgdir]
  exact ⟨p, (hsame _).trans hfirst, (hsame _).trans hnext⟩

theorem memPtrNofault_pointer {ptr : HostPtr} (hptr : memPtrNofault s addr.toNat type = some ptr) :
    memPtrNofault s' addr.toNat type = some ptr := by
  subst hb
  rcases hpage with hpage | hpage
  · have hown : ∃ ptr', memPtrNofault s b.toNat type = some ptr' := by
      rw [memPtrNofault_eq_pagePtr] at hptr ⊢
      obtain ⟨p, hp, -⟩ := map_eq_some_iff.1 hptr
      rw [hpage, hp]
      exact ⟨_, rfl⟩
    obtain ⟨ptr', hown⟩ := hown
    obtain ⟨hkernel, hpgdir⟩ := pointer_of_nofault htype hright hown h
    rw [← hptr]
    unfold memPtrNofault
    rw [hkernel, memPt_eq_of_pgdir hpgdir]
  · obtain ⟨hstep, -⟩ := pointer_spec htype b.isLt hc hright h
    rw [hpage] at hstep
    rw [memPtrNofault_eq_pagePtr] at hptr ⊢
    rw [hstep.pagePtr_other hc (nextPage_ne addr).symm]
    exact hptr

end

/-! ### The pair -/

/-- `mem_ptr` gives a pointer for both elements. -/
def PairGives (type : AccessType) (n : Nat) (fe₁ fe₂ : FaultEnv) (s : Kernel × Mem) (addr : BitVec 64) : Prop :=
  ∃ ptr s₁, memPtr fe₁ s addr.toNat type = some (some ptr, s₁) ∧ Gives fe₂ type s₁ (addr + BitVec.ofNat 64 n).toNat

/-- The pages of the pair suit the access: no element reaches over the end of its page, or the host pages lie side by
side, or the access faults. -/
def PairFits (type : AccessType) (n : Nat) (fe₁ fe₂ : FaultEnv) (s : Kernel × Mem) (addr : BitVec 64) : Prop :=
  PairInside n addr ∨ Adjacent s type addr ∨ ¬ PairGives type n fe₁ fe₂ s addr

section

variable {ι κ : Type} [DecidableEq ι] [Finite ι] {ms : ι → Mem} {i : ι} {type : AccessType}
  (htype : type ≠ .writePtrace) {n : Nat} (hn : 2 * n ≤ pageSize) {fe₁ fe₂ : FaultEnv} {tlb : Tlb κ}
  {s : Kernel × Mem} (hc : CountedAt ms i s) (hright : tlb.Right s) {addr : BitVec 64}
include htype hn hc hright

/-- **What a pair access does**: on a fault it touches nothing, and if it succeeds it touches the right bytes unless an
element reaches over the end of a page whose host page is not followed by the next. -/
theorem pairTouch_spec {o : PairOutcome κ} (h : pairTouch type n fe₁ fe₂ tlb s addr = some o) :
    Shows ms i s o.s ∧ (o.ok = false → o.touched = []) ∧ (o.ok = true → PairGives type n fe₁ fe₂ s addr ∧
      (TouchesGuest type n addr o.s o.touched ↔ PairInside n addr ∨ Adjacent s type addr)) := by
  have hsecond : pageOf (addr + BitVec.ofNat 64 n).toNat = pageOf addr.toNat ∨
      pageOf (addr + BitVec.ofNat 64 n).toNat = nextPage addr := by
    rcases lt_or_ge (pgOffset addr.toNat + n) pageSize with hlow | hhigh
    · exact .inl (pageOf_add_low hlow).1
    · exact .inr (pageOf_add_high hhigh (by omega)).1
  unfold pairTouch at h
  rcases h1 : tlb.pointer type fe₁ s addr.toNat with _ | ⟨r1, s₁, tlb₁⟩
  · rw [h1] at h
    cases h
  obtain ⟨hstep1, hright1, hgives1⟩ := pointer_spec htype addr.isLt hc hright h1
  cases r1 with
  | none =>
    rw [h1] at h
    cases h
    exact ⟨hstep1.shows, fun _ => rfl, nofun⟩
  | some ptr1 =>
    rw [h1] at h
    dsimp only at h
    rcases h2 : tlb₁.pointer type fe₂ s₁ (addr + BitVec.ofNat 64 n).toNat with _ | ⟨r2, s₂, tlb₂⟩
    · rw [h2] at h
      cases h
    obtain ⟨hstep2, -, hgives2⟩ := pointer_spec htype (BitVec.isLt _) hstep1.counted hright1 h2
    have hshows : Shows ms i s s₂ :=
      fun j q off b hoff hb => hstep2.shows j q off b hoff (hstep1.shows j q off b hoff hb)
    cases r2 with
    | none =>
      rw [h2] at h
      cases h
      exact ⟨hshows, fun _ => rfl, nofun⟩
    | some ptr2 =>
      rw [h2] at h
      cases h
      obtain ⟨hptr1, p, t, hmem, hct, hpgdir, hres⟩ := hgives1 ptr1 rfl
      obtain ⟨hptr2, p', t', hmem', -⟩ := hgives2 ptr2 rfl
      have hadj1 := adjacent_pointer (.inl rfl) htype hc hright rfl h1
      have hadj2 := adjacent_pointer hsecond htype hstep1.counted hright1 rfl h2
      have hptr1' := memPtrNofault_pointer hsecond htype hstep1.counted hright1 rfl h2 hptr1
      refine ⟨hshows, nofun, fun _ => ⟨⟨p, t, hmem, ?_⟩, ?_⟩⟩
      · -- the TLB has made the same tables as `mem_ptr`
        have hgrant := (gives_iff_grant htype (BitVec.isLt _) hstep1.counted.entriesIn).1 ⟨p', t', hmem'⟩
        exact (gives_iff_grant htype (BitVec.isLt _) hct.entriesIn).2 ((grant_congr hpgdir hres _ _ _).1 hgrant)
      · rw [pair_iff hn hptr1' hptr2, hadj2, hadj1]

omit hn in
theorem pairTouch_of_gives (h : PairGives type n fe₁ fe₂ s addr) :
    ∃ o, pairTouch type n fe₁ fe₂ tlb s addr = some o ∧ o.ok = true := by
  obtain ⟨ptr, t, hmem, hgives⟩ := h
  obtain ⟨ptr1, s₁, tlb₁, h1⟩ := pointer_of_gives htype tlb ⟨ptr, t, hmem⟩
  obtain ⟨hstep1, hright1, hgives1⟩ := pointer_spec htype addr.isLt hc hright h1
  obtain ⟨-, p, t', hmem', hct, hpgdir, hres⟩ := hgives1 ptr1 rfl
  cases hmem.symm.trans hmem'
  have hgrant := (gives_iff_grant htype (BitVec.isLt _) hct.entriesIn).1 hgives
  have hgives' := (gives_iff_grant htype (BitVec.isLt _) hstep1.counted.entriesIn).2
    ((grant_congr hpgdir hres _ _ _).2 hgrant)
  obtain ⟨ptr2, s₂, tlb₂, h2⟩ := pointer_of_gives htype tlb₁ hgives'
  refine ⟨⟨true, ptr1.range n ++ ptr2.range n, s₂, tlb₂⟩, ?_, rfl⟩
  unfold pairTouch
  rw [h1]
  dsimp only
  rw [h2]

theorem pairTouch_iff :
    (∀ o, pairTouch type n fe₁ fe₂ tlb s addr = some o → o.ok = true → TouchesGuest type n addr o.s o.touched) ↔
      PairFits type n fe₁ fe₂ s addr := by
  constructor
  · intro h
    by_cases hgives : PairGives type n fe₁ fe₂ s addr
    · obtain ⟨o, ho, hok⟩ := pairTouch_of_gives htype hc hright hgives
      have htouch := ((pairTouch_spec htype hn hc hright ho).2.2 hok).2.1 (h o ho hok)
      exact htouch.imp_right .inl
    · exact .inr (.inr hgives)
  · intro h o ho hok
    obtain ⟨hgives, htouch⟩ := (pairTouch_spec htype hn hc hright ho).2.2 hok
    rcases h with hinside | hadjacent | hno
    · exact htouch.2 (.inl hinside)
    · exact htouch.2 (.inr hadjacent)
    · exact absurd hgives hno

end

/-! ### Loads and stores -/

section

variable {ι κ : Type} [DecidableEq ι]

/-- A load reads the guest bytes from `addr` to `addr + 2n`, under the translation of the state it leaves, in which every
process sees the bytes it saw before; on a fault it reads nothing. -/
def LdpExact (w : World ι) (i : ι) (n : Nat) (addr : BitVec 64)
    (result : Option (PairOutcome κ × List (Option UInt8))) : Prop :=
  ∀ o v, result = some (o, v) → Shows w.mems i (w.at i) o.s ∧
    if o.ok = true then
      TouchesGuest .read n addr o.s o.touched ∧
      v = (List.range (n + n)).map fun k =>
        seen o.s.1 o.s.2 (pageOf (addr + BitVec.ofNat 64 k).toNat) (pgOffset (addr + BitVec.ofNat 64 k).toNat)
    else o.touched = []

/-- A store writes `val` to the guest bytes from `addr` to `addr + 2n`, and nothing else; on a fault it writes nothing. -/
def StpExact (w : World ι) (i : ι) (n : Nat) (addr : BitVec 64) (val : List UInt8) (result : Option (PairOutcome κ)) :
    Prop :=
  ∀ o, result = some o → ∃ s, Shows w.mems i (w.at i) s ∧ o.s = (s.1.storeAll (o.touched.zip val), s.2) ∧
    if o.ok = true then TouchesGuest .write n addr o.s o.touched else o.touched = [] ∧ o.s = s

theorem bind_memPtrNofault_read (s : Kernel × Mem) (addr : Nat) :
    (memPtrNofault s addr .read).bind s.1.host.byteAt = seen s.1 s.2 (pageOf addr) (pgOffset addr) := by
  unfold memPtrNofault seen
  cases memPt s.2 (pageOf addr) <;> rfl

theorem TouchesGuest.bytes {n : Nat} {addr : BitVec 64} {s : Kernel × Mem} {touched : List HostPtr}
    (h : TouchesGuest .read n addr s touched) : touched.map s.1.host.byteAt = (List.range (n + n)).map fun k =>
      seen s.1 s.2 (pageOf (addr + BitVec.ofNat 64 k).toNat) (pgOffset (addr + BitVec.ofNat 64 k).toNat) := by
  have hbind := congrArg (List.map (Option.bind · s.1.host.byteAt)) h
  rw [List.map_map, List.map_map] at hbind
  simp only [← bind_memPtrNofault_read]
  exact hbind

variable [Finite ι] {w : World ι} (hw : w.Counted) {i : ι} {tlb : Tlb κ} (hright : tlb.Right (w.at i)) {n : Nat}
  (hn : 2 * n ≤ pageSize) {fe₁ fe₂ : FaultEnv} {addr : BitVec 64}

omit [Finite ι] in
theorem World.Counted.countedAt (hw : w.Counted) (i : ι) : CountedAt w.mems i (w.at i) := by
  unfold CountedAt World.at
  rw [Function.update_eq_self]
  exact hw

include hw hright hn

theorem ldpExact_iff :
    LdpExact w i n addr (cLdp n fe₁ fe₂ tlb (w.at i) addr) ↔ PairFits .read n fe₁ fe₂ (w.at i) addr := by
  rw [← pairTouch_iff (by decide) hn (hw.countedAt i) hright]
  unfold LdpExact cLdp
  constructor
  · intro h o ho hok
    have hexact := (h o _ (by rw [ho]; rfl)).2
    rw [if_pos hok] at hexact
    exact hexact.1
  · intro h o v hv
    obtain ⟨o', ho, heq⟩ := map_eq_some_iff.1 hv
    cases heq
    obtain ⟨hshows, hfault, -⟩ := pairTouch_spec (by decide) hn (hw.countedAt i) hright ho
    refine ⟨hshows, ?_⟩
    split_ifs with hok
    · exact ⟨h o ho hok, (h o ho hok).bytes⟩
    · exact hfault (by simpa using hok)

theorem stpExact_iff (val : List UInt8) :
    StpExact w i n addr val (cStp n fe₁ fe₂ tlb (w.at i) addr val) ↔ PairFits .write n fe₁ fe₂ (w.at i) addr := by
  rw [← pairTouch_iff (by decide) hn (hw.countedAt i) hright]
  unfold StpExact cStp
  constructor
  · intro h o ho hok
    obtain ⟨s, -, -, hexact⟩ := h _ (by rw [ho]; rfl)
    rw [if_pos hok] at hexact
    -- stores do not move pages
    exact hexact
  · intro h o' ho'
    obtain ⟨o, ho, rfl⟩ := map_eq_some_iff.1 ho'
    obtain ⟨hshows, hfault, -⟩ := pairTouch_spec (by decide) hn (hw.countedAt i) hright ho
    refine ⟨o.s, hshows, rfl, ?_⟩
    split_ifs with hok
    · exact h o ho hok
    · have hnothing : o.touched = [] := hfault (by simpa using hok)
      refine ⟨hnothing, ?_⟩
      rw [hnothing]
      rfl

end

/-- **A pair access uses the right bytes** exactly if no element reaches over the end of its page, or the host pages of
the two pages lie side by side, or the access faults. -/
theorem pair_exact_iff {ι κ : Type} [DecidableEq ι] [Finite ι] (w : World ι) (hw : w.Counted) (i : ι) (tlb : Tlb κ)
    (hright : tlb.Right (w.at i)) (fe₁ fe₂ : FaultEnv) (addr : BitVec 64) :
    (LdpExact w i 8 addr (cLdp64 fe₁ fe₂ tlb (w.at i) addr) ↔ PairFits .read 8 fe₁ fe₂ (w.at i) addr) ∧
    (LdpExact w i 4 addr (cLdp32 fe₁ fe₂ tlb (w.at i) addr) ↔ PairFits .read 4 fe₁ fe₂ (w.at i) addr) ∧
    (∀ val1 val2 : BitVec 64, StpExact w i 8 addr (leBytes 8 val1.toNat ++ leBytes 8 val2.toNat)
        (cStp64 fe₁ fe₂ tlb (w.at i) addr val1 val2) ↔ PairFits .write 8 fe₁ fe₂ (w.at i) addr) ∧
    ∀ val1 val2 : BitVec 32, StpExact w i 4 addr (leBytes 4 val1.toNat ++ leBytes 4 val2.toNat)
        (cStp32 fe₁ fe₂ tlb (w.at i) addr val1 val2) ↔ PairFits .write 4 fe₁ fe₂ (w.at i) addr :=
  ⟨ldpExact_iff hw hright (by decide), ldpExact_iff hw hright (by decide),
    fun _ _ => stpExact_iff hw hright (by decide) _, fun _ _ => stpExact_iff hw hright (by decide) _⟩

def emptyTlb : Tlb Unit := (tlbInit Unit).flush 0

theorem right_emptyTlb (s : Kernel × Mem) : emptyTlb.Right s := ⟨Nat.zero_le _, Tlb.valid_flush _ _ _⟩

/-- A store in the middle of a page. -/
theorem pair_exact_writablePage :
    ∃ o, cStp64 FaultEnv.good FaultEnv.good emptyTlb (writablePage.at ()) 0x100010#64 1#64 2#64 = some o ∧
      o.ok = true ∧ TouchesGuest .write 8 0x100010#64 o.s o.touched := by
  have hexact := ((pair_exact_iff writablePage counted_writablePage () emptyTlb (right_emptyTlb _) FaultEnv.good
    FaultEnv.good 0x100010#64).2.2.1 1#64 2#64).2 (.inl (.inl (by decide)))
  have hsome : (cStp64 FaultEnv.good FaultEnv.good emptyTlb (writablePage.at ()) 0x100010#64 1#64 2#64).isSome := by
    decide
  obtain ⟨o, ho⟩ := isSome_iff_exists.1 hsome
  have hok : (cStp64 FaultEnv.good FaultEnv.good emptyTlb (writablePage.at ()) 0x100010#64 1#64 2#64).map (·.ok) =
      some true := by
    decide
  rw [ho] at hok
  obtain ⟨s, -, -, htouch⟩ := hexact o ho
  have hok' : o.ok = true := Option.some.inj hok
  rw [if_pos hok'] at htouch
  exact ⟨o, ho, hok', htouch⟩

/-- One process with two pages that were mapped one after the other. -/
def twoPages : World Unit :=
  writablePage.put () (ptMapNothing HostEnv.good (writablePage.at ()) 0x101 1 (pRead ||| pWrite)).2

/-- **A pair over the end of a page leaves the host page**, in loads and in stores. -/
theorem pair_leaves_page :
    (∃ o v, cLdp64 FaultEnv.good FaultEnv.good emptyTlb (twoPages.at ()) 0x100ffc#64 = some (o, v) ∧ o.ok = true ∧
      ¬ TouchesGuest .read 8 0x100ffc#64 o.s o.touched) ∧
    ∃ o, cStp64 FaultEnv.good FaultEnv.good emptyTlb (twoPages.at ()) 0x100ffc#64 1#64 2#64 = some o ∧ o.ok = true ∧
      ¬ TouchesGuest .write 8 0x100ffc#64 o.s o.touched := by
  have hload : (cLdp64 FaultEnv.good FaultEnv.good emptyTlb (twoPages.at ()) 0x100ffc#64).any (fun r =>
      r.1.ok && !decide (TouchesGuest .read 8 0x100ffc#64 r.1.s r.1.touched)) = true := by
    decide
  have hstore : (cStp64 FaultEnv.good FaultEnv.good emptyTlb (twoPages.at ()) 0x100ffc#64 1#64 2#64).any (fun o =>
      o.ok && !decide (TouchesGuest .write 8 0x100ffc#64 o.s o.touched)) = true := by
    decide
  constructor
  · obtain ⟨⟨o, v⟩, hrun, hcheck⟩ := (any_eq_true _ _).1 hload
    obtain ⟨hok, hbytes⟩ := Bool.and_eq_true_iff.1 hcheck
    exact ⟨o, v, hrun, hok, by simpa using hbytes⟩
  · obtain ⟨o, hrun, hcheck⟩ := (any_eq_true _ _).1 hstore
    obtain ⟨hok, hbytes⟩ := Bool.and_eq_true_iff.1 hcheck
    exact ⟨o, hrun, hok, by simpa using hbytes⟩

end Ish
