import Ish.Memory.Equiv.Contents

/-!
# When `mem_ptr` gives a pointer

`Grant` is the condition, on the page table and the reservations alone: a page that is there must have the right flags,
and one that is not must be made first. An address that `mem_ptr` has refused it refuses again (`refuses_again`).
-/

namespace Ish

open Lib

def Gives (fe : FaultEnv) (type : AccessType) (s : Kernel × Mem) (addr : Nat) : Prop :=
  ∃ ptr s', memPtr fe s addr type = some (some ptr, s')

/-- A page with these flags can be accessed, if the host has memory for its copy. -/
def FlagsGrant (fe : FaultEnv) (type : AccessType) (flags : Flags) : Prop :=
  type = .read ∨ hasAny flags pWrite ∧ (hasAny flags pCow → fe.cow.mmap ∧ fe.cow.mallocData)

/-- The flags of the page that is made where there is none. -/
def madeFlags (fe : FaultEnv) (m : Mem) (page : Nat) : Option Flags :=
  match memPtr.plan fe.stackLimit m page with
  | .present | .refuse => none
  | .grow => some (pWrite ||| pGrowsdown)
  | .reserve res => some (memPtr.resFlags fe.stale m res &&& ~~~pGrowsdown)

/-- `mem_ptr` gives the page. -/
def Grant (fe : FaultEnv) (type : AccessType) (m : Mem) (page : Nat) : Prop :=
  match memPt m page with
  | some e => FlagsGrant fe type e.flags
  | none => ¬ fe.Blocked ∧ ∃ flags, madeFlags fe m page = some flags ∧ FlagsGrant fe type (flags ||| pAnonymous)

theorem grant_of_present (fe : FaultEnv) (type : AccessType) {m : Mem} {page : Nat} {e : PtEntry}
    (he : memPt m page = some e) : Grant fe type m page ↔ FlagsGrant fe type e.flags := by
  unfold Grant
  rw [he]

theorem grant_of_absent (fe : FaultEnv) (type : AccessType) {m : Mem} {page : Nat} (hnone : memPt m page = none) :
    Grant fe type m page ↔
      ¬ fe.Blocked ∧ ∃ flags, madeFlags fe m page = some flags ∧ FlagsGrant fe type (flags ||| pAnonymous) := by
  unfold Grant
  rw [hnone]

/-! ### The page table and the reservations alone -/

theorem memNextPage.go_congr {m m' : Mem} (h : m'.pgdir = m.pgdir) (page : Nat) :
    memNextPage.go m' page = memNextPage.go m page := by
  induction page using memNextPage.go.induct m with
  | case1 page hlt h0 ih =>
    rw [memNextPage.go.eq_def m' page, memNextPage.go.eq_def m page, if_pos hlt, if_pos hlt, h, h0]
    exact ih
  | case2 page hlt l1 h0 h1 ih =>
    rw [memNextPage.go.eq_def m' page, memNextPage.go.eq_def m page, if_pos hlt, if_pos hlt, h, h0]
    dsimp only
    rw [h1]
    exact ih
  | case3 page hlt l1 h0 l2 h1 h2 ih =>
    rw [memNextPage.go.eq_def m' page, memNextPage.go.eq_def m page, if_pos hlt, if_pos hlt, h, h0]
    dsimp only
    rw [h1]
    dsimp only
    rw [h2]
    exact ih
  | case4 page hlt l1 h0 l2 h1 l3 h2 =>
    rw [memNextPage.go.eq_def m' page, memNextPage.go.eq_def m page, if_pos hlt, if_pos hlt, h, h0]
    dsimp only
    rw [h1]
    dsimp only
    rw [h2]
  | case5 page hlt =>
    rw [memNextPage.go.eq_def m' page, memNextPage.go.eq_def m page, if_neg hlt, if_neg hlt]

section

variable {m m' : Mem} (h : m'.pgdir = m.pgdir)
include h

theorem memNextPage_congr (page : Nat) : memNextPage m' page = memNextPage m page := by
  unfold memNextPage
  rw [memNextPage.go_congr h]

theorem memPtr.growsDown_congr (page : Nat) : growsDown m' page = growsDown m page := by
  have hpt := memPt_eq_of_pgdir h
  have hgo : ∀ fuel p, nextMapped.go m' fuel p = nextMapped.go m fuel p := by
    intro fuel
    induction fuel with
    | zero => exact fun _ => rfl
    | succ fuel ih =>
      intro p
      rw [nextMapped.go, nextMapped.go, hpt, memNextPage_congr h, ih]
  have hnext : nextMapped m' page = nextMapped m page := by
    unfold nextMapped
    rw [hgo, memNextPage_congr h]
  unfold growsDown
  rw [hnext, hpt]

theorem grant_congr (hres : m'.reservations = m.reservations) (fe : FaultEnv) (type : AccessType) (page : Nat) :
    Grant fe type m' page ↔ Grant fe type m page := by
  have hplan : memPtr.plan fe.stackLimit m' page = memPtr.plan fe.stackLimit m page := by
    unfold memPtr.plan memFindReservation
    rw [memPt_eq_of_pgdir h, memPtr.growsDown_congr h, hres]
  have hmade : madeFlags fe m' page = madeFlags fe m page := by
    unfold madeFlags memPtr.resFlags
    rw [hplan, hres]
  unfold Grant
  rw [memPt_eq_of_pgdir h, hmade]

end

/-! ### A page that is there -/

/-- The names of the entries are in use. -/
def EntriesIn (s : Kernel × Mem) : Prop :=
  ∀ q e, memPt s.2 q = some e → e.data < s.1.nextData ∧ regionOf s.1 e < s.1.host.next

section

variable {fe : FaultEnv} {type : AccessType} (htype : type ≠ .writePtrace) {s : Kernel × Mem} {addr : Nat}
include htype

variable (fe) in
/-- An access that needs no copy: nothing changes but the list of invalidations. -/
theorem memPtr_of_nofault {ptr : HostPtr} (hptr : memPtrNofault s addr type = some ptr) :
    ∃ s', memPtr fe s addr type = some (some ptr, s') ∧ s'.1 = s.1 ∧ s'.2.pgdir = s.2.pgdir ∧
      s'.2.reservations = s.2.reservations := by
  cases he : memPt s.2 (pageOf addr) with
  | none =>
    unfold memPtrNofault at hptr
    rw [he] at hptr
    cases hptr
  | some e =>
    cases type with
    | writePtrace => exact absurd rfl htype
    | read =>
      refine ⟨s, ?_, rfl, rfl, rfl⟩
      have hfault : memPtr.fault fe (fun _ s => s) s (pageOf addr) = (true, s) := by
        simp [memPtr.fault, memPtr.plan, he]
      rw [memPtr_eq, hfault, ← hptr]
      rfl
    | write =>
      obtain ⟨e', he', hwritable, rfl⟩ := memPtrNofault_write hptr
      cases he.symm.trans he'
      obtain ⟨hwrite, hcow⟩ := Bool.and_eq_true_iff.1 hwritable
      rw [Bool.not_eq_true'] at hcow
      refine ⟨memPtr.touch s (pageOf addr) .write e, ?_, rfl, rfl, rfl⟩
      rw [memPtr_write_of_present fe s addr he, if_neg (not_not.2 hwrite), if_neg (by rw [hcow]; decide), hptr]

variable (haddr : addr < wordMod) (hin : EntriesIn s)
include haddr hin

variable (fe) in
theorem memPtr_of_present {e : PtEntry} (he : memPt s.2 (pageOf addr) = some e) :
    (FlagsGrant fe type e.flags → Gives fe type s addr) ∧
    (¬ FlagsGrant fe type e.flags → ∀ r s', memPtr fe s addr type = some (r, s') →
      r = none ∧ ∀ q, memPt s'.2 q = memPt s.2 q) := by
  obtain ⟨hdata, hregion⟩ := hin _ _ he
  cases type with
  | writePtrace => exact absurd rfl htype
  | read =>
    have hptr : memPtrNofault s addr .read = some ⟨(s.1.datas e.data).data, e.offset + pgOffset addr⟩ := by
      unfold memPtrNofault
      rw [he]
      rfl
    obtain ⟨s', hs', -⟩ := memPtr_of_nofault fe htype hptr
    exact ⟨fun _ => ⟨_, s', hs'⟩, fun hno => absurd (.inl rfl) hno⟩
  | write =>
    by_cases hwrite : hasAny e.flags pWrite
    · by_cases hcow : hasAny e.flags pCow
      · rcases memPtr_write_copy fe s haddr he hwrite hcow hdata hregion with
          ⟨hmmap, hnone⟩ | ⟨hmalloc, s', hs', hpt⟩ | ⟨hhost, s', hs', -⟩
        · refine ⟨?_, fun _ r s' h => ?_⟩
          · rintro (hread | ⟨-, hhost⟩)
            · cases hread
            · exact absurd (hhost hcow).1 hmmap
          · rw [hnone] at h
            cases h
        · refine ⟨?_, fun _ r s' h => ?_⟩
          · rintro (hread | ⟨-, hhost⟩)
            · cases hread
            · exact absurd (hhost hcow).2 hmalloc
          · rw [hs'] at h
            cases h
            exact ⟨rfl, hpt⟩
        · exact ⟨fun _ => ⟨_, s', hs'⟩, fun hno => absurd (.inr ⟨hwrite, fun _ => hhost⟩) hno⟩
      · have hptr : memPtrNofault s addr .write = some ⟨regionOf s.1 e, e.offset + pgOffset addr⟩ :=
          memPtrNofault_of_writable he (by simp [pWritable, hwrite, hcow])
        obtain ⟨s', hs', -⟩ := memPtr_of_nofault fe htype hptr
        exact ⟨fun _ => ⟨_, s', hs'⟩, fun hno => absurd (.inr ⟨hwrite, fun h => absurd h hcow⟩) hno⟩
    · refine ⟨?_, fun _ r s' h => ?_⟩
      · rintro (hread | ⟨hyes, -⟩)
        · cases hread
        · exact absurd hyes hwrite
      · rw [memPtr_write_of_present fe s addr he, if_pos hwrite] at h
        cases h
        exact ⟨rfl, fun _ => rfl⟩

/-! ### A page that is not there -/

omit htype haddr hin in
variable (fe) in
theorem fault_of_madeFlags (hnone : memPt s.2 (pageOf addr) = none) : memPtr.fault fe (fun _ s => s) s (pageOf addr) =
      match madeFlags fe s.2 (pageOf addr) with
      | none => (false, s)
      | some flags => memPtr.upgrade fe (fun _ s => s) s (pageOf addr) fun _ => flags := by
  have hplan : memPtr.plan fe.stackLimit s.2 (pageOf addr) ≠ .present := by
    unfold memPtr.plan
    rw [hnone, if_neg (by simp)]
    split_ifs
    · nofun
    · nofun
    · cases memFindReservation s.2 (pageOf addr) <;> nofun
  unfold memPtr.fault madeFlags
  cases h : memPtr.plan fe.stackLimit s.2 (pageOf addr) with
  | present => exact absurd h hplan
  | refuse | grow | reserve res => rfl

omit htype haddr in
theorem entriesIn_materialise (env : HostEnv) (page : Nat) (flags : Flags) :
    EntriesIn (memPtr.materialise env s page flags) := by
  have hstep := entryStep_materialise env s page flags
  intro q e' he'
  rcases hstep.entry q e' he' with ⟨e, he, hdata, -, -⟩ | ⟨-, hdata, -, hregion⟩
  · obtain ⟨hd, hr⟩ := hin q e he
    unfold regionOf at hr ⊢
    rw [hdata, hstep.ext.data _ hd]
    exact ⟨lt_of_lt_of_le hd hstep.ext.nextData, lt_of_lt_of_le hr hstep.ext.hostNext⟩
  · exact ⟨hdata, hregion⟩

omit htype in
variable (fe type) in
theorem memPtr_of_absent (hnone : memPt s.2 (pageOf addr) = none) :
    madeFlags fe s.2 (pageOf addr) = none ∧ memPtr fe s addr type = some (none, s) ∨
    fe.Blocked ∧ (∃ s', memPtr fe s addr type = some (none, s') ∧ s'.2 = s.2) ∨
    ¬ fe.Blocked ∧ ∃ flags s₁ e, madeFlags fe s.2 (pageOf addr) = some flags ∧
      memPt s₁.2 (pageOf addr) = some e ∧ e.flags = flags ||| pAnonymous ∧ EntriesIn s₁ ∧
      memPtr fe s addr type = memPtr fe s₁ addr type := by
  have hfault := fault_of_madeFlags fe hnone
  cases hmade : madeFlags fe s.2 (pageOf addr) with
  | none =>
    rw [hmade] at hfault
    refine .inl ⟨rfl, ?_⟩
    rw [memPtr_eq, hfault]
  | some flags =>
    rw [hmade] at hfault
    unfold memPtr.upgrade at hfault
    dsimp only at hfault
    by_cases hlock : (fe.inJit && !fe.trywrlock) = true
    · rw [if_pos hlock] at hfault
      refine .inr (.inl ⟨.inl (by simpa using hlock), s, ?_, rfl⟩)
      rw [memPtr_eq, hfault]
    rw [if_neg hlock] at hfault
    by_cases henv : fe.host.CanMap
    · obtain ⟨e, he, hflags, -⟩ := zeroPage_materialise henv (pageOf_lt haddr) hnone flags
      refine .inr (.inr ⟨?_, flags, _, e, rfl, he, hflags, entriesIn_materialise hin fe.host _ flags, ?_⟩)
      · rintro (⟨hjit, htry⟩ | hmap)
        · exact hlock (by simp [hjit, htry])
        · exact hmap henv
      · have hpresent : memPtr.fault fe (fun _ s => s) (memPtr.materialise fe.host s (pageOf addr) flags) (pageOf addr) =
            (true, memPtr.materialise fe.host s (pageOf addr) flags) := by
          simp [memPtr.fault, memPtr.plan, he]
        rw [memPtr_eq, memPtr_eq, hfault, hpresent]
    · have hmem := memPt_materialise_of_not henv s (pageOf addr) flags
      refine .inr (.inl ⟨.inr henv, _, ?_, hmem⟩)
      rw [memPtr_eq, hfault]
      dsimp only
      unfold memPtr.access memPtrNofault
      rw [hmem, hnone]
      cases type <;> rfl

/-- **`mem_ptr` gives a pointer** exactly for the pages that can be accessed. -/
theorem gives_iff_grant : Gives fe type s addr ↔ Grant fe type s.2 (pageOf addr) := by
  have hpresent : ∀ {s : Kernel × Mem} {e : PtEntry}, EntriesIn s → memPt s.2 (pageOf addr) = some e →
      (Gives fe type s addr ↔ FlagsGrant fe type e.flags) := by
    intro s e hin he
    obtain ⟨hyes, hno⟩ := memPtr_of_present fe htype haddr hin he
    refine ⟨fun ⟨ptr, s', h⟩ => ?_, hyes⟩
    by_contra hrefused
    cases (hno hrefused _ _ h).1
  cases he : memPt s.2 (pageOf addr) with
  | some e => rw [grant_of_present fe type he, hpresent hin he]
  | none =>
    rw [grant_of_absent fe type he]
    rcases memPtr_of_absent fe type haddr hin he with
      ⟨hmade, hptr⟩ | ⟨hblocked, s', hptr, -⟩ | ⟨hfree, flags, s₁, e, hmade, he₁, hflags, hin₁, hptr⟩
    · refine iff_of_false ?_ ?_
      · rintro ⟨ptr, s', h⟩
        cases hptr.symm.trans h
      · rintro ⟨-, flags, hflags, -⟩
        cases hmade.symm.trans hflags
    · refine iff_of_false ?_ fun h => h.1 hblocked
      rintro ⟨ptr, s₁, h⟩
      cases hptr.symm.trans h
    · have hgives : Gives fe type s addr ↔ Gives fe type s₁ addr := by
        unfold Gives
        rw [hptr]
      rw [hgives, hpresent hin₁ he₁, hflags, hmade]
      constructor
      · exact fun h => ⟨hfree, flags, rfl, h⟩
      · rintro ⟨-, flags', hsome, h⟩
        cases hsome
        exact h

theorem refuses_again {s' : Kernel × Mem} (hin' : EntriesIn s') (h : memPtr fe s addr type = some (none, s')) :
    ¬ Gives fe type s' addr := by
  have hpresent : ∀ {s : Kernel × Mem} {e : PtEntry}, EntriesIn s → memPt s.2 (pageOf addr) = some e →
      memPtr fe s addr type = some (none, s') → ¬ Gives fe type s' addr := by
    intro s e hin he h
    obtain ⟨hyes, hno⟩ := memPtr_of_present fe htype haddr hin he
    have hrefused : ¬ FlagsGrant fe type e.flags := by
      intro hflags
      obtain ⟨ptr, s₁, hgives⟩ := hyes hflags
      cases h.symm.trans hgives
    rw [gives_iff_grant htype haddr hin', grant_of_present fe type (((hno hrefused _ _ h).2 _).trans he)]
    exact hrefused
  cases he : memPt s.2 (pageOf addr) with
  | some e => exact hpresent hin he h
  | none =>
    rcases memPtr_of_absent fe type haddr hin he with
      ⟨-, hptr⟩ | ⟨hblocked, s₁, hptr, hmem⟩ | ⟨-, flags, s₁, e, -, he₁, -, hin₁, hptr⟩
    · cases h.symm.trans hptr
      rintro ⟨ptr, s₁, hgives⟩
      cases hptr.symm.trans hgives
    · cases h.symm.trans hptr
      rw [gives_iff_grant htype haddr hin', hmem, grant_of_absent fe type he]
      exact fun hgrant => hgrant.1 hblocked
    · exact hpresent hin₁ he₁ (hptr.symm.trans h)

theorem memPtr_own {r : Option HostPtr} {s' : Kernel × Mem} (h : memPtr fe s addr type = some (r, s')) {e' : PtEntry}
    (he' : memPt s'.2 (pageOf addr) = some e') :
    memPt s.2 (pageOf addr) = some e' ∨ s.1.host.next ≤ regionOf s'.1 e' := by
  cases he : memPt s.2 (pageOf addr) with
  | none =>
    rcases (entryStep_memPtr h).entry _ _ he' with ⟨e, hold, -⟩ | ⟨-, -, hnew, -⟩
    · cases he.symm.trans hold
    · exact .inr hnew
  | some e =>
    obtain ⟨hdata, hregion⟩ := hin _ _ he
    have hkeep : (∀ q, memPt s'.2 q = memPt s.2 q) → some e = some e' := by
      intro hsame
      rw [← he, ← hsame, he']
    have hnofault : ∀ ptr, memPtrNofault s addr type = some ptr → ∀ q, memPt s'.2 q = memPt s.2 q := by
      intro ptr hptr q
      obtain ⟨s₁, hs₁, -, hpgdir, -⟩ := memPtr_of_nofault fe htype hptr
      cases h.symm.trans hs₁
      exact memPt_eq_of_pgdir hpgdir q
    by_cases hflags : FlagsGrant fe type e.flags
    · cases type with
      | writePtrace => exact absurd rfl htype
      | read =>
        refine .inl (hkeep (hnofault ⟨(s.1.datas e.data).data, e.offset + pgOffset addr⟩ ?_))
        unfold memPtrNofault
        rw [he]
        rfl
      | write =>
        rcases hflags with hread | ⟨hwrite, hhost⟩
        · cases hread
        by_cases hcow : hasAny e.flags pCow
        · obtain ⟨hmmap, hmalloc⟩ := hhost hcow
          rcases memPtr_write_copy fe s haddr he hwrite hcow hdata hregion with
            ⟨hno, -⟩ | ⟨hno, -⟩ | ⟨-, s₁, hs₁, hpt, hreg⟩
          · exact absurd hmmap hno
          · exact absurd hmalloc hno
          · cases h.symm.trans hs₁
            cases he'.symm.trans hpt
            exact .inr hreg.ge
        · exact .inl (hkeep (hnofault _ (memPtrNofault_of_writable he (by simp [pWritable, hwrite, hcow]))))
    · exact .inl (hkeep ((memPtr_of_present fe htype haddr hin he).2 hflags _ _ h).2)

end

end Ish
