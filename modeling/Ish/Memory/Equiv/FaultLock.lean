import Ish.Lib.Run
import Ish.Memory.FaultLock
import Ish.Memory.Equiv.Fault
import Ish.Memory.Equiv.Mmap
import Ish.Memory.Equiv.ReservationObject

/-!
# The lock upgrade of `mem_ptr`

What `mem_ptr` has found under the read lock need not hold any more when it has the write lock: it
only looks again whether the page is still missing. It does hold in every run in which no other
thread touches, between the two locks, the pages that the decision rests on.
-/

namespace Ish

open Lib List Option

/-! ### Growing down -/

/-- The next mapped page above `page` is willing to grow down. -/
def ContinuesDown (m : Mem) (page : Nat) : Prop :=
  ∃ n e, page < n ∧ n < memPages ∧ (∀ q, page < q → q < n → memPt m q = none) ∧
    memPt m n = some e ∧ hasAny e.flags pGrowsdown

theorem memPtr.nextMapped_go_spec (m : Mem) : ∀ fuel p, p ≤ nextMapped.go m fuel p ∧
      ∀ q, p ≤ q → q < nextMapped.go m fuel p → memPt m q = none := by
  intro fuel
  induction fuel with
  | zero =>
    intro p
    refine ⟨le_refl _, fun q hq hlt => ?_⟩
    unfold nextMapped.go at hlt
    omega
  | succ fuel ih =>
    intro p
    unfold nextMapped.go
    split_ifs with h
    · obtain ⟨hle, hgap⟩ := ih (memNextPage m p)
      have hlt := lt_memNextPage m p
      refine ⟨by omega, fun q hq hq' => ?_⟩
      rcases Nat.eq_or_lt_of_le hq with rfl | hq
      · simpa using h.2
      · rcases Nat.lt_or_ge q (memNextPage m p) with hnext | hnext
        · exact memPt_eq_none_of_lt_memNextPage m hq hnext
        · exact hgap q hnext hq'
    · exact ⟨le_refl _, fun q hq hq' => by omega⟩

variable {page : Nat}

variable {m : Mem}

theorem continuesDown_of_growsDown (h : memPtr.growsDown m page) : ContinuesDown m page := by
  obtain ⟨hle, hgap⟩ := memPtr.nextMapped_go_spec m memPages (memNextPage m page)
  have hlt := lt_memNextPage m page
  unfold memPtr.growsDown at h
  cases he : memPt m (memPtr.nextMapped m page) with
  | none => simp [he] at h
  | some e =>
    rw [he] at h
    obtain ⟨hpages, hflag⟩ := (Bool.and_eq_true _ _).mp h
    refine ⟨memPtr.nextMapped m page, e, lt_of_lt_of_le hlt hle, by simpa using hpages, ?_, he, hflag⟩
    intro q hq hq'
    rcases Nat.lt_or_ge q (memNextPage m page) with hnext | hnext
    · exact memPt_eq_none_of_lt_memNextPage m hq hnext
    · exact hgap q hnext hq'

/-- `q` is the next mapped page above `page`, or lies before it. -/
def UpToNext (m : Mem) (page q : Nat) : Prop :=
  page < q ∧ q < memPages ∧ ∀ n, page < n → n < q → memPt m n = none

def growFlag (m : Mem) (q : Nat) : Option Bool :=
  (memPt m q).map fun e => hasAny e.flags pGrowsdown

/-- The region keeps growing down if the entries up to it stay, or get other flags. -/
theorem ContinuesDown.congr {m' : Mem} (h : ContinuesDown m page)
    (hsame : ∀ q, UpToNext m page q → growFlag m' q = growFlag m q) : ContinuesDown m' page := by
  obtain ⟨n, e, hpage, hn, hgap, he, hflag⟩ := h
  have hnext := hsame n ⟨hpage, hn, hgap⟩
  unfold growFlag at hsame hnext
  rw [he, map_some, hflag] at hnext
  obtain ⟨e', he', hflag'⟩ := map_eq_some_iff.1 hnext
  refine ⟨n, e', hpage, hn, fun q hq hq' => ?_, he', hflag'⟩
  have hq'' := hsame q ⟨hq, hq'.trans hn, fun n' h1 h2 => hgap n' h1 (h2.trans hq')⟩
  rw [hgap q hq hq'] at hq''
  simpa using hq''

/-! ### What happens to the reservations -/

theorem resvClosed_reservationNames : ResvClosed (fun _ => True) ReservationNames where
  same m m' hres hnext h := ⟨by rw [hres]; exact h.nodup, by rw [hres, hnext]; exact h.lt⟩
  remove ok _ start pages _ h := reservationNames_memRemoveReservations ok start pages h
  setFlags ok _ start pages flags _ h :=
    reservationNames_memSetReservationFlags ok start pages flags h

/-- `res` is still there, and `page` is reserved with the flags of `res`. -/
structure Reserves (res : MemReservation) (page : Nat) (m : Mem) : Prop where
  object : HasObject m.reservations res
  flags : reservedFlags m page = some res.flags

variable {S : Nat → Prop}

theorem not_mem_range {start pages q : Nat}
    (hS : ∀ q, start ≤ q → q < start + pages → S q) (hq : ¬ S q) : q < start ∨ start + pages ≤ q := by
  by_contra h
  exact hq (hS q (by omega) (by omega))

theorem resvClosed_reserves {res : MemReservation}
    (hmem : page < memPages) (hpage : ¬ S page) (hstart : ¬ S res.start) : ResvClosed S (Reserves res page) where
  same m m' hres hnext h := by
    refine ⟨by rw [hres]; exact h.object, ?_⟩
    rw [reservedFlags_eq, hres, ← reservedFlags_eq]
    exact h.flags
  remove ok m start pages hS h := by
    refine ⟨hasObject_memRemoveReservations ok (not_mem_range hS hstart) h.object, ?_⟩
    rw [reservedFlags_memRemoveReservations ok m (not_mem_range hS hpage) hmem]
    exact h.flags
  setFlags ok m start pages flags hS h := by
    refine ⟨hasObject_memSetReservationFlags ok flags (not_mem_range hS hstart) h.object, ?_⟩
    rw [reservedFlags_memSetReservationFlags ok m flags (not_mem_range hS hpage) hmem]
    exact h.flags

theorem reserves_ptMapLazy {res : MemReservation} (hpage : ¬ S page) (ok : Bool) {start pages : Nat} (flags : Flags)
    (hS : ∀ q, start ≤ q → q < start + pages → S q) (h : Reserves res page m) :
    Reserves res page (ptMapLazy ok m start pages flags).2 := by
  cases ok with
  | false => exact h
  | true =>
    refine ⟨h.object.cons _, ?_⟩
    have hnot : ¬ (MemReservation.mk m.nextReservation start pages (flags ||| pAnonymous)).covers
        page := by
      have hout := not_mem_range hS hpage
      rw [MemReservation.covers_iff]
      dsimp only
      omega
    rw [reservedFlags_eq]
    exact (coverFlags_cons_of_not hnot _).trans h.flags

/-! ### System calls -/

/-- The pages a function is called for, as a start and a number. -/
def Op.range {ι : Type} : Op ι → Nat × Nat
  | .map _ _ start pages _ _ _ => (start, pages)
  | .mapNothing _ _ start pages _ => (start, pages)
  | .mapLazy _ _ start pages _ => (start, pages)
  | .unmap _ _ start pages => (start, pages)
  | .unmapAlways _ _ start pages => (start, pages)
  | .setFlags _ _ start pages _ => (start, pages)
  | _ => (0, 0)

/-- The function is called for the page `q`, or for one with the same slot. -/
def Op.On {ι : Type} (op : Op ι) (q : Nat) : Prop := Touches op.range.1 op.range.2 q

variable {env : HostEnv} {s : Kernel × Mem}

theorem memPt_ptUnmapAlways_of_not {start pages q : Nat}
    (hq : ¬ Touches start pages q) : memPt (ptUnmapAlways env s start pages).2 q = memPt s.2 q := by
  rw [memPt_ptUnmapAlways, if_neg fun h => hq (h.mono (loopCount_le start pages))]

theorem memPt_ptMap_of_not {start pages q : Nat}
    (memory : Option RegionId) (offset : Nat) (flags : Flags) (hq : ¬ Touches start pages q) :
    memPt (ptMap env s start pages memory offset flags).2.2 q = memPt s.2 q := by
  rcases ptMap_cases env s start pages memory offset flags with ⟨err, heq⟩ | ⟨r, -, -, heq⟩
  · rw [heq]
  · rw [heq]
    exact (ptMap.memPt_loop env s start pages r offset flags q).2
      fun h => hq (h.mono (loopCount_le start pages))

variable {w : World Unit} {op : Op Unit}

/-- A call changes no entry of another page. -/
theorem memPt_call {realPageSize : Nat} {w' : World Unit} (hcall : op.isCall)
    (h : w.step realPageSize op = some w') {q : Nat} (hq : ¬ op.On q) : memPt (w'.mems ()) q = memPt (w.mems ()) q := by
  cases op with
  | map env i start pages memory offset flags =>
    cases h
    exact memPt_ptMap_of_not _ _ _ hq
  | mapNothing env i start pages flags =>
    cases h
    exact ptMapNothing_inv env start pages flags (P := fun t => memPt t.2 q = memPt (w.mems ()) q) rfl
      (memPt_ptMap_of_not _ _ _ hq)
  | mapLazy ok i start pages flags =>
    cases h
    cases ok <;> rfl
  | unmap env i start pages =>
    cases h
    exact ptUnmap_inv env start pages (P := fun t => memPt t.2 q = memPt (w.mems ()) q) rfl
      (memPt_ptUnmapAlways_of_not hq)
  | unmapAlways env i start pages =>
    cases h
    exact memPt_ptUnmapAlways_of_not hq
  | setFlags env i start pages flags =>
    cases h
    obtain ⟨n, hn, -, -, hpt⟩ := memPt_ptSetFlags realPageSize env (w.at ()) start pages flags
    refine (hpt q).trans (if_neg fun htouch => hq ?_)
    exact (htouch.mono hn).mono (loopCount_le start pages)
  | copyOnWrite env i j start pages => cases hcall
  | fault fe i addr type => cases hcall
  | findHole i size =>
    cases h
    exact memPt_ptFindHole (w.mems ()) size q
  | setFile i page fd offset =>
    cases h
    change memPt (setFile (w.at ()) page fd offset).2 q = _
    rw [setFile_mem]
    rfl

variable {P : Mem → Prop}

theorem ResvClosed.call (hP : ResvClosed S P)
    {realPageSize : Nat} {w' : World Unit} (hcall : op.isCall) (h : w.step realPageSize op = some w')
    (hS : ∀ q, op.range.1 ≤ q → q < op.range.1 + op.range.2 → S q)
    (hlazy : ∀ ok i start pages flags, op = .mapLazy ok i start pages flags →
      P (ptMapLazy ok (w.mems ()) start pages flags).2) (hw : P (w.mems ())) : P (w'.mems ()) := by
  cases op with
  | map env i start pages memory offset flags =>
    cases h
    exact hP.ptMap env (s := ((memory.memory w.kernel).2, w.mems ())) _ _ _ hS hw
  | mapNothing env i start pages flags =>
    cases h
    exact hP.ptMapNothing env (s := w.at ()) flags hS hw
  | mapLazy ok i start pages flags =>
    cases h
    exact hlazy ok i start pages flags rfl
  | unmap env i start pages =>
    cases h
    exact ptUnmap_inv env start pages (P := fun t => P t.2) hw (hP.ptUnmapAlways env (s := w.at ()) hS hw)
  | unmapAlways env i start pages =>
    cases h
    exact hP.ptUnmapAlways env (s := w.at ()) hS hw
  | setFlags env i start pages flags =>
    cases h
    exact hP.ptSetFlags realPageSize env (s := w.at ()) flags hS hw
  | copyOnWrite env i j start pages => cases hcall
  | fault fe i addr type => cases hcall
  | findHole i size =>
    cases h
    obtain ⟨hint, hm⟩ := (ptFindHole_cases (w.mems ()) size).2
    change P (ptFindHole (w.mems ()) size).2
    rw [hm]
    exact hP.same (w.mems ()) _ rfl rfl hw
  | setFile i page fd offset =>
    cases h
    change P (setFile (w.at ()) page fd offset).2
    rw [setFile_mem]
    exact hw

/-- Reservations stay inside the table in every call, if what it reserves lies there. -/
theorem reservationsInside_call {realPageSize : Nat} {w' : World Unit} (hcall : op.isCall)
    (h : w.step realPageSize op = some w')
    (hlazy : ∀ ok i start pages flags, op = .mapLazy ok i start pages flags → start + pages ≤ memPages)
    (hw : ReservationsInside (w.mems ())) : ReservationsInside (w'.mems ()) := by
  refine resvClosed_reservationsInside.call hcall h (fun _ _ _ => trivial) ?_ hw
  intro ok i start pages flags hop
  exact hw.ptMapLazy _ ok (hlazy ok i start pages flags hop) flags

/-! ### The parts of `mem_ptr` -/

theorem memPt_materialise (env : HostEnv) (s : Kernel × Mem) (page : Nat) (flags : Flags) :
    (∀ q, memPt (memPtr.materialise env s page flags).2 q = memPt s.2 q) ∨ memPt s.2 page = none ∧ ∀ q,
      (q % memPages = page % memPages → ∃ e, e.flags = flags ||| pAnonymous ∧
        memPt (memPtr.materialise env s page flags).2 q = some e) ∧ (q % memPages ≠ page % memPages →
        memPt (memPtr.materialise env s page flags).2 q = memPt s.2 q) := by
  rcases memPtr.materialise_cases env s page flags with ⟨-, heq⟩ | ⟨hnone, hcases⟩
  · exact Or.inl fun q => by rw [heq]
  have hmem : ∀ q, memPt (memPtr.materialise env s page flags).2 q =
      memPt (ptMapNothing env (memPtr.counted s) page 1 flags).2.2 q := by
    intro q
    rcases hcases with ⟨_, -, heq⟩ | ⟨-, heq⟩
    · rw [heq]
    · rw [heq]
      rfl
  simp only [hmem]
  rcases ptMapNothing_cases env (memPtr.counted s) page 1 flags with ⟨r, heq⟩ | ⟨-, heq⟩
  · exact Or.inl fun q => by rw [heq]; rfl
  rw [heq]
  rcases ptMap_cases env (ptMapNothing.mmapped (memPtr.counted s).1 1 flags, (memPtr.counted s).2)
    page 1 (some (memPtr.counted s).1.host.next) 0 (flags ||| pAnonymous) with
    ⟨err, heq⟩ | ⟨r, -, -, heq⟩
  · exact Or.inl fun q => by rw [heq]; rfl
  rw [heq]
  have hloop := ptMap.memPt_loop env
    (ptMapNothing.mmapped (memPtr.counted s).1 1 flags, (memPtr.counted s).2) page 1 r 0
    (flags ||| pAnonymous)
  have hle := loopCount_le page 1
  rcases Nat.eq_zero_or_pos (loopCount page 1) with hzero | hpos
  · refine Or.inl fun q => (hloop q).2 ?_
    rw [hzero]
    exact touches_zero page q
  · have hone : loopCount page 1 = 1 := by omega
    rw [hone] at hloop
    refine Or.inr ⟨hnone, fun q => ⟨fun hq => ?_, fun hq => ?_⟩⟩
    · obtain ⟨p, hp⟩ := (hloop q).1 ((touches_one page q).2 hq)
      exact ⟨_, rfl, hp⟩
    · exact (hloop q).2 fun h => hq ((touches_one page q).1 h)

theorem ResvClosed.ptMap_one (hP : ResvClosed S P) (env : HostEnv) (memory : Option RegionId) (offset : Nat)
    (flags : Flags) (hnone : memPt s.2 page = none) (h : P s.2) :
    P (Ish.ptMap env s page 1 memory offset flags).2.2 := by
  rcases ptMap_cases env s page 1 memory offset flags with ⟨err, heq⟩ | ⟨r, -, -, heq⟩
  · rw [heq]
    exact h
  · rw [heq]
    refine hP.changed ?_
    have hle := loopCount_le page 1
    unfold ptMap.loop
    rcases Nat.eq_zero_or_pos (loopCount page 1) with hzero | hpos
    · rw [hzero]
      exact h
    · have hone : loopCount page 1 = 1 := by omega
      have hnone' : memPt (ptMap.newData s.1 1 r offset, s.2).2 page = none := hnone
      rw [hone, forRange_succ, forRange_zero, ptMap.body_eq_of_none env _ page offset flags hnone']
      exact hP.same s.2 _ rfl rfl h

theorem ResvClosed.materialise (hP : ResvClosed S P) (env : HostEnv) (page : Nat) (flags : Flags) (h : P s.2) :
    P (memPtr.materialise env s page flags).2 :=
  memPtr.materialise_inv env (P := fun t => P t.2) h (fun hnone => ptMapNothing_inv env page 1 flags
    (P := fun t => P t.2) h (hP.ptMap_one env _ _ _ hnone h)) fun _ ht => hP.changed ht

variable {copy : Option RegionId}

theorem growFlag_resolveCow {s' : Kernel × Mem} (h : memPtr.resolveCow env s page copy = some s') (q : Nat) :
    growFlag s'.2 q = growFlag s.2 q := by
  rcases memPtr.resolveCow_cases h with ⟨entry, r, he, -, -, rfl⟩ | ⟨-, ⟨r, -, rfl⟩ | ⟨-, rfl⟩⟩
  · by_cases hq : q % memPages = page % memPages
    · have hold : memPt s.2 q = some entry := (memPt_congr s.2 hq).trans he
      unfold growFlag
      rw [memPt_memChanged, hold]
      cases hnew : memPt (ptMap env (memPtr.copied s.1 r entry, s.2) page 1 (some r) 0
        (entry.flags &&& ~~~pCow)).2.2 q with
      | none =>
        -- mapping a page never clears a slot
        rcases ptMap_cases env (memPtr.copied s.1 r entry, s.2) page 1 (some r) 0
          (entry.flags &&& ~~~pCow) with ⟨err, heq⟩ | ⟨r', -, -, heq⟩
        · rw [heq] at hnew
          exact absurd (hold.symm.trans hnew) (by simp)
        · rw [heq] at hnew
          have hloop := ptMap.memPt_loop env (memPtr.copied s.1 r entry, s.2) page 1 r' 0
            (entry.flags &&& ~~~pCow) q
          by_cases htouch : Touches page (loopCount page 1) q
          · obtain ⟨p, hp⟩ := hloop.1 htouch
            exact absurd (hp.symm.trans hnew) (by simp)
          · exact absurd (hold.symm.trans ((hloop.2 htouch).symm.trans hnew)) (by simp)
      | some e =>
        rcases entry_ptMap env _ page 1 _ 0 _ hnew with hsame | ⟨-, hflags, -⟩
        · cases hold.symm.trans hsame
          rfl
        · rw [map_some, map_some, hflags]
          exact congrArg some (hasAny_and_of_subset (by decide))
    · unfold growFlag
      rw [memPt_memChanged, memPt_ptMap_of_not _ _ _ fun h => hq ((touches_one page q).1 h)]
  · rfl
  · rfl

theorem ResvClosed.resolveCow (hP : ResvClosed S P) {s' : Kernel × Mem}
    (h : memPtr.resolveCow env s page copy = some s') (hpage : S page) (hs : P s.2) : P s'.2 := by
  rcases memPtr.resolveCow_cases h with ⟨entry, r, -, -, -, rfl⟩ | ⟨-, ⟨r, -, rfl⟩ | ⟨-, rfl⟩⟩
  · refine hP.changed (hP.ptMap env (s := (memPtr.copied s.1 r entry, s.2)) _ _ _ ?_ hs)
    intro q hq hq'
    obtain rfl : q = page := by omega
    exact hpage
  · exact hs
  · exact hs

variable {entry : PtEntry}

theorem growFlag_touch (s : Kernel × Mem) (page q : Nat) (type : AccessType)
    (he : memPt s.2 page = some entry) : growFlag (memPtr.touch s page type entry).2 q = growFlag s.2 q := by
  unfold growFlag
  rw [memPt_touch s page q type he]
  split_ifs with hq
  · rw [(memPt_congr s.2 hq).trans he, map_some, map_some]
    unfold memPtr.writeFlags
    split_ifs
    · have hnot : hasAny (pWrite ||| pCow) pGrowsdown = false := by decide
      simp [hnot]
    · rfl
  · rfl

theorem ResvClosed.touch (hP : ResvClosed S P) (page : Nat) (type : AccessType) (entry : PtEntry) (h : P s.2) :
    P (memPtr.touch s page type entry).2 := by
  unfold memPtr.touch
  dsimp only
  split_ifs
  · exact hP.same s.2 _ (by simp) (by simp) h
  · exact hP.same s.2 _ rfl rfl h

/-! ### The decision of a fault -/

/-- What the lookup under the read lock has found. -/
def FaultPlan.Ok (m : Mem) (page : Nat) : FaultPlan → Prop
  | grow => ContinuesDown m page
  | reserve res => page < memPages ∧ Reserves res page m
  | _ => False

/-- The lookup is right about the state it is made in. -/
theorem FaultPlan.ok_plan (stackLimit : Nat) (m : Mem) (page : Nat) :
    memPtr.plan stackLimit m page = .present ∨ memPtr.plan stackLimit m page = .refuse ∨
      (memPtr.plan stackLimit m page).Ok m page := by
  unfold memPtr.plan
  split_ifs with hsome hgrow hlimit
  · exact Or.inl rfl
  · exact Or.inr (Or.inl rfl)
  · exact Or.inr (Or.inr (continuesDown_of_growsDown hgrow))
  · cases hfind : memFindReservation m page with
    | none => exact Or.inr (Or.inl rfl)
    | some res =>
      have hcov : res.covers page := by
        unfold memFindReservation at hfind
        have := find?_some hfind
        exact this
      rw [MemReservation.covers_iff] at hcov
      refine Or.inr (Or.inr ⟨hcov.2.2, ?_, ?_⟩)
      · exact ⟨res, mem_of_find?_eq_some hfind, rfl, rfl, rfl, by omega⟩
      · unfold reservedFlags
        rw [hfind]
        rfl

theorem FaultPlan.Ok.congr {m' : Mem} {plan : FaultPlan} (h : plan.Ok m page)
    (hgrow : plan = .grow → ∀ q, UpToNext m page q → growFlag m' q = growFlag m q)
    (hres : ∀ res, plan = .reserve res → page < memPages → Reserves res page m →
      Reserves res page m') : plan.Ok m' page := by
  cases plan with
  | present => exact h
  | refuse => exact h
  | grow => exact ContinuesDown.congr h (hgrow rfl)
  | reserve res => exact ⟨h.1, hres res rfl h.1 h.2⟩

theorem ContinuesDown.grow {m' : Mem} {page page' : Nat} (h : ContinuesDown m page) (hpage' : page' < memPages)
    (hnew : ∀ q, q % memPages = page' % memPages → ∃ e, memPt m' q = some e ∧ hasAny e.flags pGrowsdown)
    (hold : ∀ q, q % memPages ≠ page' % memPages → memPt m' q = memPt m q) : ContinuesDown m' page := by
  have hne : ∀ q, q < memPages → q ≠ page' → q % memPages ≠ page' % memPages := by
    intro q hq hqp
    rwa [mod_memPages_of_lt hq, mod_memPages_of_lt hpage']
  by_cases hup : UpToNext m page page'
  · obtain ⟨e, he, hflag⟩ := hnew page' rfl
    refine ⟨page', e, hup.1, hpage', fun q hq hq' => ?_, he, hflag⟩
    rw [hold q (hne q (hq'.trans hpage') (Nat.ne_of_lt hq'))]
    exact hup.2.2 q hq hq'
  · refine h.congr fun q hq => ?_
    have hqp : q ≠ page' := by
      rintro rfl
      exact hup hq
    unfold growFlag
    rw [hold q (hne q hq.2.1 hqp)]

namespace Threads

variable {τ : Type} [DecidableEq τ]

/-! ### Steps that spoil a decision -/

/-- The step touches a page on which the decision to make `page` rests: one up to the region that
grows down, or the first page of the reservation, or `page` itself. -/
def Disturbs (s : Threads τ) (act : Act τ) (page : Nat) : FaultPlan → Prop
  | .grow =>
    match act with
    | .call _ op => ∃ q, UpToNext s.mem.2 page q ∧ op.On q
    | .make i _ _ => ∃ addr type res, s.pc i = .upgraded addr type (.reserve res) ∧
        UpToNext s.mem.2 page (pageOf addr)
    | _ => False
  | .reserve res =>
    match act with
    | .call _ op => op.On page ∨ op.On res.start
    | .resolve i _ => ∃ copy, s.pc i = .resolving page copy ∨ s.pc i = .resolving res.start copy
    | _ => False
  | _ => False

/-- The step spoils no decision of a thread that has dropped the read lock and waits for the write
lock. -/
def Undisturbed (s : Threads τ) (act : Act τ) : Prop :=
  ∀ j addr type plan, s.pc j = .dropped addr type plan → ¬ s.Disturbs act (pageOf addr) plan

/-! ### The invariant -/

def PcOk (m : Mem) : Pc → Prop
  | .looked addr _ plan => plan.Ok m (pageOf addr)
  | .dropped addr _ plan => plan.Ok m (pageOf addr)
  | .upgraded addr _ plan => plan.Ok m (pageOf addr)
  | _ => True

/-- Who holds the lock for writing holds it alone, and all decisions hold. -/
structure Inv (s : Threads τ) : Prop where
  names : ReservationNames s.mem.2
  alone : ∀ i j, i ≠ j → (s.pc i).hold = .write → (s.pc j).hold = .free
  plans : ∀ i, PcOk s.mem.2 (s.pc i)

theorem goto_pc_self (s : Threads τ) (i : τ) (pc : Pc) : (s.goto i pc).pc i = pc := by
  simp [goto]

theorem goto_pc_of_ne (s : Threads τ) {i j : τ} (pc : Pc) (h : j ≠ i) : (s.goto i pc).pc j = s.pc j := by
  simp [goto, h]

variable {s : Threads τ} {i : τ}

variable {pc : Pc}

/-- A thread that goes on with the lock it has, or without it, leaves the holder alone. -/
theorem alone_goto (hs : ∀ i j, i ≠ j → (s.pc i).hold = .write → (s.pc j).hold = .free)
    (hpc : pc.hold = .free ∨ pc.hold = (s.pc i).hold ∨ pc.hold = .read ∧ s.canRead i ∨ s.canWrite i) :
    ∀ a b, a ≠ b → ((s.goto i pc).pc a).hold = .write → ((s.goto i pc).pc b).hold = .free := by
  intro a b hab ha
  by_cases hai : a = i
  · subst hai
    rw [goto_pc_self] at ha
    rw [goto_pc_of_ne s pc hab.symm]
    rcases hpc with h | h | h | h
    · simp [h] at ha
    · exact hs a b hab (h.symm.trans ha)
    · simp [h.1] at ha
    · exact h b hab.symm
  · rw [goto_pc_of_ne s pc hai] at ha
    by_cases hbi : b = i
    · subst hbi
      rw [goto_pc_self]
      rcases hpc with h | h | h | h
      · exact h
      · exact h.trans (hs a b hab ha)
      · exact absurd ha (h.2 a hab)
      · exact absurd (ha.symm.trans (h a hab)) (by simp)
    · rw [goto_pc_of_ne s pc hbi]
      exact hs a b hab ha

theorem Inv.goto (hs : s.Inv) (hpc : pc.hold = .free ∨ pc.hold = (s.pc i).hold ∨ pc.hold = .read ∧ s.canRead i ∨
      s.canWrite i) (hok : PcOk s.mem.2 pc) : (s.goto i pc).Inv where
  names := hs.names
  alone := alone_goto hs.alone hpc
  plans j := by
    by_cases hj : j = i
    · subst hj
      rw [goto_pc_self]
      exact hok
    · rw [goto_pc_of_ne s pc hj]
      exact hs.plans j

/-- A step that changes the address space and moves thread `i`, whose lock keeps the others from
having made a decision that the change spoils. -/
theorem Inv.put (hs : s.Inv) {mem : Kernel × Mem}
    (hhold : pc.hold = (s.pc i).hold) (hok : PcOk mem.2 pc) (hnames : ReservationNames mem.2)
    (hplans : ∀ j, j ≠ i → PcOk s.mem.2 (s.pc j) → PcOk mem.2 (s.pc j)) : ((s.putMem mem).goto i pc).Inv := by
  have hmem : ((s.putMem mem).goto i pc).mem.2 = mem.2 := by
    simp [putMem, Threads.mem, Threads.goto, World.at, World.put]
  refine ⟨by rwa [hmem], alone_goto (s := s.putMem mem) hs.alone (Or.inr (Or.inl hhold)), fun j => ?_⟩
  rw [hmem]
  by_cases hj : j = i
  · subst hj
    rw [goto_pc_self]
    exact hok
  · rw [goto_pc_of_ne _ pc hj]
    exact hplans j hj (hs.plans j)

omit [DecidableEq τ] in
theorem Inv.plans_of_write (hs : s.Inv) {i j : τ} (hi : (s.pc i).hold = .write) (hj : j ≠ i)
    (hplan : ∀ addr type plan, s.pc j = .dropped addr type plan →
      plan.Ok s.mem.2 (pageOf addr) → plan.Ok m (pageOf addr)) (h : PcOk s.mem.2 (s.pc j)) : PcOk m (s.pc j) := by
  have hfree := hs.alone i j hj.symm hi
  cases hpc : s.pc j with
  | looked _ _ _ | upgraded _ _ _ => simp [hpc, Pc.hold] at hfree
  | dropped addr type plan =>
    rw [hpc] at h
    exact hplan addr type plan hpc h
  | _ => trivial

/-! ### The steps keep it -/

theorem Pc.hold_readLocked {pc' : Pc} (h : pc.readLocked = some pc') : pc'.hold = .read ∧ ∀ m, PcOk m pc' := by
  cases pc <;> cases h <;> exact ⟨rfl, fun _ => trivial⟩

theorem Pc.hold_writeLocked {pc' : Pc} (h : pc.writeLocked = some pc') :
    pc'.hold = .write ∧ ∀ m, PcOk m pc → PcOk m pc' := by
  cases pc <;> cases h <;> exact ⟨rfl, fun _ hok => hok⟩

theorem Pc.hold_unlocked {pc' : Pc} (h : pc.unlocked = some pc') : pc'.hold = .free ∧ ∀ m, PcOk m pc → PcOk m pc' := by
  cases pc <;> cases h <;> exact ⟨rfl, fun _ hok => hok⟩

variable {realPageSize : Nat} {plan : FaultPlan}

omit [DecidableEq τ] in
theorem ok_call (hcall : op.isCall) (h : s.world.step realPageSize op = some w)
    (hnot : ¬ s.Disturbs (.call i op) page plan) (hok : plan.Ok s.mem.2 page) : plan.Ok (w.mems ()) page := by
  refine hok.congr ?_ ?_
  · rintro rfl q hq
    unfold growFlag
    rw [memPt_call hcall h fun hon => hnot ⟨q, hq, hon⟩]
    rfl
  · rintro res rfl hpage hres
    have hnot' : ¬ (op.On page ∨ op.On res.start) := hnot
    rw [not_or] at hnot'
    have hon : ∀ q, op.range.1 ≤ q → q < op.range.1 + op.range.2 → op.On q := fun q hq hq' => ⟨q, hq, hq', rfl⟩
    refine (resvClosed_reserves hpage hnot'.1 hnot'.2).call hcall h hon ?_ hres
    rintro ok i start pages flags rfl
    exact reserves_ptMapLazy hnot'.1 ok flags hon hres

variable {env : HostEnv}

omit [DecidableEq τ] in
theorem ok_make {stale : Flags} {addr : Nat}
    {type : AccessType} {plan' : FaultPlan} (hpc : s.pc i = .upgraded addr type plan')
    (hok' : plan'.Ok s.mem.2 (pageOf addr))
    (hnot : ¬ s.Disturbs (.make i env stale) page plan) (hok : plan.Ok s.mem.2 page) :
    plan.Ok (memPtr.materialise env s.mem (pageOf addr) (plan'.flags stale s.mem.2)).2 page := by
  cases plan with
  | present => exact hok
  | refuse => exact hok
  | reserve res =>
    have hclosed : ResvClosed (fun _ => False) (Reserves res page) :=
      resvClosed_reserves hok.1 id id
    exact ⟨hok.1, hclosed.materialise env _ _ hok.2⟩
  | grow =>
    rcases memPt_materialise env s.mem (pageOf addr) (plan'.flags stale s.mem.2) with
      hsame | ⟨-, hnew⟩
    · refine ContinuesDown.congr hok fun q _ => ?_
      unfold growFlag
      rw [hsame q]
    · cases plan' with
      | present => exact hok'.elim
      | refuse => exact hok'.elim
      | grow =>
        -- the region has grown by this page
        obtain ⟨n, -, hlt, hn, -⟩ := hok'
        refine ContinuesDown.grow hok (hlt.trans hn) (fun q hq => ?_) fun q hq => (hnew q).2 hq
        obtain ⟨e, hflags, he⟩ := (hnew q).1 hq
        refine ⟨e, he, ?_⟩
        rw [hflags]
        exact (by decide : hasAny (pWrite ||| pGrowsdown ||| pAnonymous) pGrowsdown)
      | reserve res =>
        have hlt := hok'.1
        refine ContinuesDown.congr hok fun q hq => ?_
        have hne : q ≠ pageOf addr := by
          rintro rfl
          exact hnot ⟨addr, type, res, hpc, hq⟩
        unfold growFlag
        rw [(hnew q).2]
        rwa [mod_memPages_of_lt hq.2.1, mod_memPages_of_lt hlt]

omit [DecidableEq τ] in
theorem ok_resolve {page' : Nat} (hpc : s.pc i = .resolving page' copy) {mem : Kernel × Mem}
    (h : memPtr.resolveCow env s.mem page' copy = some mem)
    (hnot : ¬ s.Disturbs (.resolve i env) page plan) (hok : plan.Ok s.mem.2 page) : plan.Ok mem.2 page := by
  refine hok.congr (fun _ q _ => growFlag_resolveCow h q) ?_
  rintro res rfl hpage hres
  refine (resvClosed_reserves (S := fun q => q = page') hpage ?_ ?_).resolveCow h rfl hres
  · rintro rfl
    exact hnot ⟨copy, Or.inl hpc⟩
  · rintro rfl
    exact hnot ⟨copy, Or.inr hpc⟩

theorem ok_touch (s : Kernel × Mem) (page' : Nat) (type : AccessType)
    (he : memPt s.2 page' = some entry) (hok : plan.Ok s.2 page) :
    plan.Ok (memPtr.touch s page' type entry).2 page := by
  refine hok.congr (fun _ q _ => growFlag_touch s page' q type he) ?_
  rintro res rfl hpage hres
  have hclosed : ResvClosed (fun _ => False) (Reserves res page) :=
    resvClosed_reserves hpage id id
  exact hclosed.touch page' type entry hres

theorem pcOk_touch (s : Kernel × Mem) (page : Nat) (type : AccessType)
    (he : memPt s.2 page = some entry) (hok : PcOk s.2 pc) : PcOk (memPtr.touch s page type entry).2 pc := by
  cases pc with
  | looked | dropped | upgraded => exact ok_touch s page type he hok
  | _ => trivial

variable [Fintype τ]

variable {s t : Threads τ}

theorem inv_access (hs : s.Inv) (h : s.step realPageSize (.access i env) = some t) : t.Inv := by
  dsimp only [step] at h
  cases hpc : s.pc i with
  | haveEntry addr type =>
    rw [hpc] at h
    dsimp only at h
    have hrunning : (s.goto i .running).Inv :=
      hs.goto (Or.inr (Or.inl (by rw [hpc]; rfl))) trivial
    have hnames : ∀ entry, ReservationNames (memPtr.touch s.mem (pageOf addr) type entry).2 :=
      fun entry => resvClosed_reservationNames.touch _ type entry hs.names
    cases he : memPt s.mem.2 (pageOf addr) with
    | none =>
      rw [he] at h
      cases type <;> cases h <;> exact hrunning
    | some entry =>
      rw [he] at h
      have hput : ∀ k pc, pc.hold = .read → PcOk (memPtr.touch s.mem (pageOf addr) type entry).2 pc →
          ((s.putMem (k, (memPtr.touch s.mem (pageOf addr) type entry).2)).goto i pc).Inv := by
        intro k pc hhold hok
        refine hs.put (hhold.trans (by rw [hpc]; rfl)) hok (hnames entry) fun j _ hok => ?_
        exact pcOk_touch s.mem (pageOf addr) type he hok
      cases type with
      | read =>
        cases h
        exact hrunning
      | write | writePtrace =>
        dsimp only at h
        split_ifs at h
        all_goals
          cases h
          first | exact hrunning | exact hput _ _ rfl trivial
  | _ => simp [hpc] at h

theorem inv_fault {addr : Nat} {type : AccessType} {stackLimit : Nat} (hs : s.Inv)
    (h : s.step realPageSize (.fault i addr type stackLimit) = some t) : t.Inv := by
  dsimp only [step] at h
  cases hpc : s.pc i with
  | running =>
    rw [hpc] at h
    dsimp only at h
    have hok := FaultPlan.ok_plan stackLimit s.mem.2 (pageOf addr)
    generalize memPtr.plan stackLimit s.mem.2 (pageOf addr) = plan at h hok
    cases plan with
    | present =>
      cases h
      exact hs.goto (Or.inr (Or.inl (by rw [hpc]; rfl))) trivial
    | refuse =>
      cases h
      exact hs
    | grow =>
      cases h
      have hplan : FaultPlan.grow.Ok s.mem.2 (pageOf addr) := by simpa using hok
      exact hs.goto (Or.inr (Or.inl (by rw [hpc]; rfl))) hplan
    | reserve res =>
      cases h
      have hplan : (FaultPlan.reserve res).Ok s.mem.2 (pageOf addr) := by simpa using hok
      exact hs.goto (Or.inr (Or.inl (by rw [hpc]; rfl))) hplan
  | _ => simp [hpc] at h

theorem inv_call (hs : s.Inv)
    (hok : s.Undisturbed (.call i op)) (h : s.step realPageSize (.call i op) = some t) : t.Inv := by
  dsimp only [step] at h
  cases hpc : s.pc i with
  | calling =>
    rw [hpc] at h
    dsimp only at h
    split_ifs at h with hcall
    obtain ⟨w, hw, rfl⟩ := map_eq_some_iff.1 h
    refine ⟨?_, hs.alone, fun j => ?_⟩
    · exact resvClosed_reservationNames.call hcall hw (fun _ _ _ => trivial)
        (fun ok _ start pages flags _ => reservationNames_ptMapLazy ok start pages flags hs.names) hs.names
    · by_cases hj : j = i
      · subst hj
        change PcOk _ (s.pc j)
        rw [hpc]
        trivial
      · refine hs.plans_of_write (by rw [hpc]; rfl) hj ?_ (hs.plans j)
        exact fun addr type plan hdrop hplan => ok_call hcall hw (hok j addr type plan hdrop) hplan
  | _ => simp [hpc] at h

theorem inv_make {stale : Flags} (hs : s.Inv) (hok : s.Undisturbed (.make i env stale))
    (h : s.step realPageSize (.make i env stale) = some t) : t.Inv := by
  dsimp only [step] at h
  cases hpc : s.pc i with
  | upgraded addr type plan =>
    rw [hpc] at h
    cases h
    have hplan : plan.Ok s.mem.2 (pageOf addr) := by
      have := hs.plans i
      rwa [hpc] at this
    refine hs.put (by rw [hpc]; rfl) trivial ?_ fun j hj hj' => ?_
    · exact resvClosed_reservationNames.materialise env _ _ hs.names
    · refine hs.plans_of_write (by rw [hpc]; rfl) hj ?_ hj'
      exact fun addr' type' plan' hdrop hplan' =>
        ok_make hpc hplan (hok j addr' type' plan' hdrop) hplan'
  | _ => simp [hpc] at h

theorem inv_resolve (hs : s.Inv) (hok : s.Undisturbed (.resolve i env))
    (h : s.step realPageSize (.resolve i env) = some t) : t.Inv := by
  dsimp only [step] at h
  cases hpc : s.pc i with
  | resolving page copy =>
    rw [hpc] at h
    obtain ⟨mem, hmem, rfl⟩ := map_eq_some_iff.1 h
    refine hs.put (by rw [hpc]; rfl) trivial ?_ fun j hj hj' => ?_
    · exact resvClosed_reservationNames.resolveCow hmem trivial hs.names
    · refine hs.plans_of_write (by rw [hpc]; rfl) hj ?_ hj'
      exact fun addr type plan hdrop hplan =>
        ok_resolve hpc hmem (hok j addr type plan hdrop) hplan
  | _ => simp [hpc] at h

/-- **One step** that spoils no decision keeps the invariant. -/
theorem inv_step (act : Act τ) (hs : s.Inv)
    (hok : s.Undisturbed act) (h : s.step realPageSize act = some t) : t.Inv := by
  cases act with
  | readLock i =>
    dsimp only [step] at h
    split_ifs at h with hcan
    obtain ⟨pc, hpc, rfl⟩ := map_eq_some_iff.1 h
    obtain ⟨hhold, hplan⟩ := Pc.hold_readLocked hpc
    exact hs.goto (Or.inr (Or.inr (Or.inl ⟨hhold, hcan⟩))) (hplan _)
  | writeLock i =>
    dsimp only [step] at h
    split_ifs at h with hcan
    obtain ⟨pc, hpc, rfl⟩ := map_eq_some_iff.1 h
    exact hs.goto (Or.inr (Or.inr (Or.inr hcan))) ((Pc.hold_writeLocked hpc).2 _ (hs.plans i))
  | unlock i =>
    obtain ⟨pc, hpc, rfl⟩ := map_eq_some_iff.1 h
    obtain ⟨hhold, hplan⟩ := Pc.hold_unlocked hpc
    exact hs.goto (Or.inl hhold) (hplan _ (hs.plans i))
  | giveUp i =>
    dsimp only [step] at h
    cases hpc : s.pc i with
    | dropped addr type plan =>
      rw [hpc] at h
      cases h
      exact hs.goto (Or.inl rfl) trivial
    | _ => simp [hpc] at h
  | call i op => exact inv_call hs hok h
  | fault i addr type stackLimit => exact inv_fault hs h
  | make i env stale => exact inv_make hs hok h
  | access i env => exact inv_access hs h
  | resolve i env => exact inv_resolve hs hok h

/-! ### The main result -/

def start (τ : Type) (w : World Unit) : Threads τ := ⟨w, fun _ => .idle⟩

/-- A thread that holds the write lock to make a missing page is right to do so now: the page
continues a region that grows down; or the reservation found before is still there, and the flags
read from it are the ones the page is reserved with. -/
def PlanSound (s : Threads τ) (page : Nat) (plan : FaultPlan) : Prop :=
  plan = .grow ∧ ContinuesDown s.mem.2 page ∨
    ∃ res, plan = .reserve res ∧ (∃ r ∈ s.mem.2.reservations, r.id = res.id) ∧
      ∀ stale, reservedFlags s.mem.2 page = some (memPtr.resFlags stale s.mem.2 res)

/-- The flags that the missing page is to have: those of a stack page, or the ones it is reserved with. -/
def MadeWith (s : Threads τ) (page : Nat) (plan : FaultPlan) (flags : Flags) : Prop :=
  plan = .grow ∧ flags = pWrite ||| pGrowsdown ||| pAnonymous ∨
    ∃ reserved, reservedFlags s.mem.2 page = some reserved ∧ flags = reserved &&& ~~~pGrowsdown ||| pAnonymous

/-- A thread that makes a missing page is right to do so, and the page gets the flags it is to have. -/
def UpgradeSound (s : Threads τ) : Prop :=
  ∀ i addr type plan, s.pc i = .upgraded addr type plan → memPt s.mem.2 (pageOf addr) = none →
    s.PlanSound (pageOf addr) plan ∧
    ∀ realPageSize env stale t e, s.step realPageSize (.make i env stale) = some t →
      memPt t.mem.2 (pageOf addr) = some e → s.MadeWith (pageOf addr) plan e.flags

omit [DecidableEq τ] [Fintype τ] in
theorem inv_start (h : ReservationNames (w.mems ())) : (start τ w).Inv where
  names := h
  alone _ _ _ hi := by cases hi
  plans _ := trivial

omit [DecidableEq τ] [Fintype τ] in
theorem Inv.planSound (hs : s.Inv) {plan : FaultPlan} (hpc : s.pc i = .upgraded addr type plan) :
    s.PlanSound (pageOf addr) plan := by
  have hok : PcOk s.mem.2 (.upgraded addr type plan) := hpc ▸ hs.plans i
  cases plan with
  | present => exact hok.elim
  | refuse => exact hok.elim
  | grow => exact Or.inl ⟨rfl, hok⟩
  | reserve res =>
    obtain ⟨-, ⟨r, hmem, hid, -, hflags, -⟩, hreserved⟩ := hok
    refine Or.inr ⟨res, rfl, ⟨r, hmem, hid⟩, fun stale => ?_⟩
    have hfind := find_id hs.names hmem
    rw [hid] at hfind
    rw [hreserved, memPtr.resFlags, hfind]
    exact congrArg some hflags.symm

theorem PlanSound.madeWith {realPageSize : Nat} {plan : FaultPlan} (hplan : s.PlanSound (pageOf addr) plan)
    (hpc : s.pc i = .upgraded addr type plan) (hnone : memPt s.mem.2 (pageOf addr) = none) {env : HostEnv}
    {stale : Flags} {e : PtEntry} (h : s.step realPageSize (.make i env stale) = some t)
    (he : memPt t.mem.2 (pageOf addr) = some e) : s.MadeWith (pageOf addr) plan e.flags := by
  simp only [step, hpc] at h
  cases h
  change memPt (memPtr.materialise env s.mem (pageOf addr) (plan.flags stale s.mem.2)).2 (pageOf addr) = some e at he
  have hflags : e.flags = plan.flags stale s.mem.2 ||| pAnonymous := by
    rcases memPt_materialise env s.mem (pageOf addr) (plan.flags stale s.mem.2) with hsame | ⟨-, hnew⟩
    · rw [hsame, hnone] at he
      cases he
    · obtain ⟨e', hflags, he'⟩ := (hnew (pageOf addr)).1 rfl
      rw [he'] at he
      cases he
      exact hflags
  rcases hplan with ⟨rfl, -⟩ | ⟨res, rfl, -, hreserved⟩
  · exact Or.inl ⟨rfl, hflags⟩
  · exact Or.inr ⟨_, hreserved stale, hflags⟩

theorem Inv.upgradeSound (hs : s.Inv) : s.UpgradeSound := fun _ _ _ _ hpc hnone =>
  ⟨hs.planSound hpc, fun _ _ _ _ _ h he => (hs.planSound hpc).madeWith hpc hnone h he⟩

/-- **The lock upgrade**: in every run in which no step touches the pages that a fault waiting for
the write lock rests on, a page is made only where one belongs, with the flags that belong there, and never
from a reservation that has been freed. -/
theorem fault_upgrade_sound {realPageSize : Nat} {w : World Unit} (hw : ReservationNames (w.mems ())) {s : Threads τ}
    (h : Run (step realPageSize) Undisturbed (start τ w) s) : s.UpgradeSound :=
  (h.inv Inv (fun _ act _ hs hok hstep => inv_step act hs hok hstep) (inv_start hw)).upgradeSound

end Threads

/-- A process with 16 reserved pages at `0x100000000`. -/
def reservedPages : World Unit :=
  ⟨kernelInit, fun _ => (ptMapLazy true memInit 0x100000 16 pRead).2⟩

theorem reservationNames_reservedPages : ReservationNames (reservedPages.mems ()) :=
  reservationNames_ptMapLazy true 0x100000 16 pRead ⟨nodup_nil, fun _ h => by cases h⟩

/-- Its first thread at `pc`, the second outside. -/
def faulting (pc : Pc) : Threads Bool := ⟨reservedPages, fun i => if i then .idle else pc⟩

def theReservation : MemReservation := ⟨0, 0x100000, 16, pRead ||| pAnonymous⟩

/-- A fault at `0x100003000` up to its write lock. -/
def faultRun : List (Act Bool) :=
  [.readLock false, .fault false 0x100003000 .read 0, .unlock false, .writeLock false]

theorem foldlM_faultRun : faultRun.foldlM (Threads.step 4096) (Threads.start Bool reservedPages) =
    some (faulting (.upgraded 0x100003000 .read (.reserve theReservation))) := by
  have hsome : (faultRun.foldlM (Threads.step 4096) (Threads.start Bool reservedPages)).isSome := by decide
  rw [← some_get hsome]
  refine congrArg some ?_
  show Threads.mk _ _ = Threads.mk _ _
  congr 1
  funext i
  cases i <;> decide

theorem run_faulting : Run (Threads.step 4096) Threads.Undisturbed (Threads.start Bool reservedPages)
    (faulting (.upgraded 0x100003000 .read (.reserve theReservation))) := by
  refine .of_foldlM (fun act hact s j addr type plan _ => ?_) foldlM_faultRun
  simp only [faultRun, mem_cons, not_mem_nil, or_false] at hact
  rcases hact with rfl | rfl | rfl | rfl <;> cases plan <;> exact id

/-- The page `0x100003` of `reservedPages` is about to be made, as it should be. -/
theorem fault_upgrade_sound_reservedPages :
    (faulting (.upgraded 0x100003000 .read (.reserve theReservation))).UpgradeSound ∧
      memPt (reservedPages.mems ()) 0x100003 = none :=
  ⟨Threads.fault_upgrade_sound reservationNames_reservedPages run_faulting, by decide⟩

/-- A fault at `0x100003000`, and a `munmap` of the reservation in the window between the locks. -/
def munmapInWindow : List (Act Bool) :=
  [.readLock false, .fault false 0x100003000 .read 0, .unlock false,
    .writeLock true, .call true (.unmapAlways HostEnv.good () 0x100000 16), .unlock true,
    .writeLock false]

theorem munmapInWindow_isSome : (munmapInWindow.foldlM (Threads.step 4096)
    (Threads.start Bool reservedPages)).isSome := by
  decide

/-- After a `munmap` in the window the page is in no reservation, the reservation the fault has
found is freed, and the fault reads its flags and makes the page. -/
theorem fault_reads_freed_reservation :
    ∃ s t, munmapInWindow.foldlM (Threads.step 4096) (Threads.start Bool reservedPages) = some s ∧
      s.pc false = .upgraded 0x100003000 .read (.reserve theReservation) ∧
      memPt s.mem.2 0x100003 = none ∧ memFindReservation s.mem.2 0x100003 = none ∧ s.mem.2.reservations = [] ∧
      s.step 4096 (.make false HostEnv.good 0xdead#32) = some t ∧ (memPt t.mem.2 0x100003).isSome := by
  have hmake : (((munmapInWindow.foldlM (Threads.step 4096) (Threads.start Bool reservedPages)).get
      munmapInWindow_isSome).step 4096 (.make false HostEnv.good 0xdead#32)).any
        fun t => (memPt t.mem.2 0x100003).isSome := by
    decide +kernel
  obtain ⟨t, ht, hpage⟩ := (any_eq_true _ _).1 hmake
  refine ⟨_, t, (some_get munmapInWindow_isSome).symm, ?_, ?_, ?_, ?_, ht, hpage⟩
  · decide
  · decide +kernel
  · decide +kernel
  · decide +kernel

end Ish
