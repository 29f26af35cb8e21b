import Ish.Memory.Mmap
import Ish.Memory.Equiv.Hole
import Ish.Memory.Equiv.Map

/-!
# What the memory system calls may touch

A page is looked at through its page-table entry and through the flags it is reserved with.
`munmap` and `mprotect` accept ranges outside the 48-bit address space, whose pages wrap around to
low slots; `mmap` does not.
-/

namespace Ish

open Lib

/-! ### Requests -/

/-- `p` is a page of `[addr, addr + len)`, over unbounded integers. -/
def InRequest (addr len : BitVec 64) (p : Nat) : Prop :=
  addr.toNat / 4096 ≤ p ∧ p < addr.toNat / 4096 + (len.toNat + 4095) / 4096

/-- The entry of `p`, or the way it is reserved, differs between `m` and `m'`. -/
def PageChanged (m m' : Mem) (p : Nat) : Prop :=
  memPt m' p ≠ memPt m p ∨ reservedFlags m' p ≠ reservedFlags m p

/-- Only pages of the request change. -/
def Confined (addr len : BitVec 64) (m m' : Mem) : Prop :=
  ∀ p, p < memPages → PageChanged m m' p → InRequest addr len p

/-- `p` is not a page of the request, but shares its slot with one. -/
def Aliased (addr len : BitVec 64) (p : Nat) : Prop :=
  p < memPages ∧ ¬ InRequest addr len p ∧ Touches (pageOfAddr addr) (pageRoundUp len) p

/-- The length is rounded up exactly, or the sum overflowed and nothing is left. -/
theorem pageRoundUp_cases (len : BitVec 64) : pageRoundUp len = (len.toNat + 4095) / 4096 ∨ pageRoundUp len = 0 := by
  have hlt := len.isLt
  unfold pageRoundUp pageSize
  rw [BitVec.toNat_add, BitVec.toNat_ofNat]
  omega

variable (realPageSize : Nat) (env : HostEnv) (s : Kernel × Mem) (addr len : BitVec 64)

theorem pageOfAddr_add_pageRoundUp_lt : pageOfAddr addr + pageRoundUp len < wordMod := by
  have h1 := addr.isLt
  have h2 := (len + 4095#64).isLt
  unfold pageOfAddr pageRoundUp pageSize wordMod
  omega

theorem loopCount_request : loopCount (pageOfAddr addr) (pageRoundUp len) = pageRoundUp len :=
  loopCount_eq (pageOfAddr_add_pageRoundUp_lt addr len)

theorem outside_of_not_inRequest {addr len : BitVec 64} {p : Nat} (h : ¬ InRequest addr len p) :
    p < pageOfAddr addr ∨ pageOfAddr addr + pageRoundUp len ≤ p := by
  unfold InRequest at h
  unfold pageOfAddr pageSize
  rcases pageRoundUp_cases len with hlen | hlen <;> omega

theorem not_pageChanged_self (m : Mem) (p : Nat) : ¬ PageChanged m m p :=
  fun h => h.elim (fun h => h rfl) fun h => h rfl

theorem confined_self (m : Mem) : Confined addr len m m :=
  fun p _ h => absurd h (not_pageChanged_self m p)

/-! ### `munmap` -/

/-- The requests that `sys_munmap` carries out. -/
def munmapAccepts (addr len : BitVec 64) : Prop :=
  ¬ misaligned addr ∧ len ≠ 0#64

theorem sysMunmap_cases : ¬ munmapAccepts addr len ∧ sysMunmap env s addr len = (.error .einval, s) ∨
    munmapAccepts addr len ∧ sysMunmap env s addr len =
      (.ok (), ptUnmapAlways env s (pageOfAddr addr) (pageRoundUp len)) := by
  unfold sysMunmap munmapAccepts
  split_ifs with h1 h2
  · exact Or.inl ⟨fun h => h.1 h1, rfl⟩
  · exact Or.inl ⟨fun h => h.2 h2, rfl⟩
  · exact Or.inr ⟨⟨h1, h2⟩, rfl⟩

/-- `munmap` stays inside its request iff no mapped page outside it shares a slot with it. -/
theorem confined_sysMunmap_iff : Confined addr len s.2 (sysMunmap env s addr len).2.2 ↔
      (munmapAccepts addr len → ∀ p, Aliased addr len p → memPt s.2 p = none) := by
  rcases sysMunmap_cases env s addr len with ⟨hno, heq⟩ | ⟨hacc, heq⟩
  · rw [heq]
    exact ⟨fun _ h => absurd h hno, fun _ => confined_self addr len s.2⟩
  rw [heq]
  constructor
  · intro hconf _ p ⟨hp, hout, htouch⟩
    by_contra hne
    refine hout (hconf p hp (Or.inl ?_))
    rw [memPt_ptUnmapAlways, loopCount_request, if_pos htouch]
    exact Ne.symm hne
  · intro hcond p hp hch
    by_contra hout
    rcases hch with hch | hch
    · rw [memPt_ptUnmapAlways, loopCount_request] at hch
      split_ifs at hch with htouch
      · exact hch (hcond hacc p ⟨hp, hout, htouch⟩).symm
      · exact hch rfl
    · exact hch (reservedFlags_ptUnmapAlways env s (outside_of_not_inRequest hout) hp)

/-! ### `mprotect` -/

/-- The requests that `sys_mprotect` carries out. -/
def mprotectAccepts (m : Mem) (addr len : BitVec 64) (prot : Flags) : Prop :=
  ¬ misaligned addr ∧ prot &&& ~~~pRwx = 0#32 ∧
    ptSetFlags.covered m (pageOfAddr addr) (pageRoundUp len)

theorem sysMprotect_cases (prot : Flags) : ¬ mprotectAccepts s.2 addr len prot ∧
      (sysMprotect realPageSize env s addr len prot).2 = s ∨
    mprotectAccepts s.2 addr len prot ∧ sysMprotect realPageSize env s addr len prot =
      ptSetFlags realPageSize env s (pageOfAddr addr) (pageRoundUp len) prot := by
  unfold sysMprotect mprotectAccepts
  split_ifs with h1 h2
  · exact Or.inl ⟨fun h => h.1 h1, rfl⟩
  · exact Or.inl ⟨fun h => h2 h.2.1, rfl⟩
  · rcases ptSetFlags_cases realPageSize env s (pageOfAddr addr) (pageRoundUp len) prot with
      ⟨hcov, heq⟩ | ⟨hcov, -⟩
    · rw [heq]
      exact Or.inl ⟨fun h => by simp [hcov] at h, rfl⟩
    · exact Or.inr ⟨⟨h1, not_not.1 h2, hcov⟩, rfl⟩

/-- `mprotect` stays inside its request, whatever the host answers, iff it would not change the
flags of a mapped page outside it that shares a slot with it. -/
theorem confined_sysMprotect_iff (prot : Flags) :
    (∀ env, Confined addr len s.2 (sysMprotect realPageSize env s addr len prot).2.2) ↔
      (mprotectAccepts s.2 addr len prot → ∀ p e, Aliased addr len p → memPt s.2 p = some e →
        ptSetFlags.newFlags prot e.flags = e.flags) := by
  constructor
  · intro hconf hacc p e ⟨hp, hout, htouch⟩ he
    by_contra hne
    refine hout (hconf HostEnv.good p hp (Or.inl ?_))
    rcases sysMprotect_cases realPageSize HostEnv.good s addr len prot with ⟨hno, -⟩ | ⟨-, heq⟩
    · exact absurd hacc hno
    obtain ⟨n, -, hall, -, hpt⟩ := memPt_ptSetFlags realPageSize HostEnv.good s (pageOfAddr addr)
      (pageRoundUp len) prot
    have hn := hall (ptSetFlags_ok realPageSize (fun _ => rfl) (fun _ _ => rfl) s _ _ prot hacc.2.2)
    rw [heq, hpt p, if_pos (by rw [hn, loopCount_request]; exact htouch), he]
    intro h
    exact hne (congrArg PtEntry.flags (Option.some.inj h))
  · intro hcond env p hp hch
    by_contra hout
    rcases sysMprotect_cases realPageSize env s addr len prot with ⟨-, heq⟩ | ⟨hacc, heq⟩
    · rw [heq] at hch
      exact not_pageChanged_self s.2 p hch
    rw [heq] at hch
    rcases hch with hch | hch
    · obtain ⟨n, hle, -, -, hpt⟩ := memPt_ptSetFlags realPageSize env s (pageOfAddr addr)
        (pageRoundUp len) prot
      rw [loopCount_request] at hle
      rw [hpt p] at hch
      split_ifs at hch with htouch
      · cases he : memPt s.2 p with
        | none => simp [he] at hch
        | some e =>
          have hsame := hcond hacc p e ⟨hp, hout, htouch.mono hle⟩ he
          simp [he, ptSetFlags.reflag, hsame] at hch
      · exact hch rfl
    · exact hch (reservedFlags_ptSetFlags realPageSize env s prot (outside_of_not_inRequest hout) hp)

/-- **Range confinement.**  `munmap` and `mprotect` keep to their request exactly when no mapped
page outside it shares a slot with it, for `mprotect` with flags that it would change. -/
theorem munmap_mprotect_confined_iff (realPageSize : Nat) (s : Kernel × Mem) (addr len : BitVec 64) (prot : Flags) :
    ((∀ env, Confined addr len s.2 (sysMunmap env s addr len).2.2) ↔
      (munmapAccepts addr len → ∀ p, Aliased addr len p → memPt s.2 p = none)) ∧
    ((∀ env, Confined addr len s.2 (sysMprotect realPageSize env s addr len prot).2.2) ↔
      (mprotectAccepts s.2 addr len prot → ∀ p e, Aliased addr len p → memPt s.2 p = some e →
        ptSetFlags.newFlags prot e.flags = e.flags)) := by
  refine ⟨?_, confined_sysMprotect_iff realPageSize s addr len prot⟩
  constructor
  · exact fun h => (confined_sysMunmap_iff HostEnv.good s addr len).1 (h HostEnv.good)
  · exact fun h env => (confined_sysMunmap_iff env s addr len).2 h

/-- A process with one readable page, at `0x100000`. -/
def onePage : Kernel × Mem :=
  (ptMapNothing HostEnv.good (kernelInit, memInit) 0x100 1 pRead).2

/-- `munmap(2^48 + 0x100000, 0x1000)` unmaps the page at `0x100000`, and `mprotect` of the same
range makes it inaccessible. -/
theorem munmap_mprotect_wrap_around :
    let addr := 0x1000000100000#64
    let len := 0x1000#64
    ¬ InRequest addr len 0x100 ∧
    memPt onePage.2 0x100 = some ⟨0, 0, pRead ||| pAnonymous⟩ ∧
    memPt (sysMunmap HostEnv.good onePage addr len).2.2 0x100 = none ∧
    memPt (sysMprotect 4096 HostEnv.good onePage addr len 0#32).2.2 0x100 =
      some ⟨0, 0, pAnonymous⟩ := by
  refine ⟨?_, rfl, rfl, rfl⟩
  unfold InRequest
  decide

/-! ### The mapping routines of `mmap` -/

/-- No page changes. -/
def Unchanged (m m' : Mem) : Prop :=
  (∀ p, memPt m' p = memPt m p) ∧ m'.reservations = m.reservations

theorem Unchanged.trans {m m' m'' : Mem} (h : Unchanged m m') (h' : Unchanged m' m'') : Unchanged m m'' :=
  ⟨fun p => (h'.1 p).trans (h.1 p), h'.2.trans h.2⟩

theorem Unchanged.reservedFlags {m m' : Mem} (h : Unchanged m m') (q : Nat) :
    reservedFlags m' q = reservedFlags m q := by
  rw [reservedFlags_eq, reservedFlags_eq, h.2]

theorem Unchanged.not_pageChanged {m m' : Mem} (h : Unchanged m m') (q : Nat) : ¬ PageChanged m m' q :=
  fun hch => hch.elim (fun hne => hne (h.1 q)) fun hne => hne (h.reservedFlags q)

/-- A call that works on `[page, page + pages)`: no other page changes, and an error changes
nothing. -/
structure MmapFrame {α : Type} (m : Mem) (page pages : Nat) (r : Except Errno α × Kernel × Mem) :
    Prop where
  frame : ∀ q, q < memPages → q < page ∨ page + pages ≤ q → ¬ PageChanged m r.2.2 q
  error : ∀ err, r.1 = .error err → Unchanged m r.2.2

variable {m : Mem}

variable {α : Type} {r : Except Errno α × Kernel × Mem}

theorem mmapFrame_of_unchanged
    (page pages : Nat) (h : Unchanged m r.2.2) : MmapFrame m page pages r :=
  ⟨fun q _ _ => h.not_pageChanged q, fun _ _ => h⟩

variable {page pages : Nat}

/-- The page-table part of a state may be followed by changes that the frame does not see. -/
theorem MmapFrame.of_unchanged_left {m m' : Mem}
    (h : Unchanged m m') (hf : MmapFrame m' page pages r) :
    MmapFrame m page pages r where
  frame q hq hout hch := by
    refine hf.frame q hq hout ?_
    unfold PageChanged at hch ⊢
    rwa [h.1 q, h.reservedFlags q]
  error err herr := h.trans (hf.error err herr)

theorem mmapFrame_ptMap (k : Kernel) (m : Mem)
    (memory : Option RegionId) (offset : Nat) (flags : Flags) (hmem : page + pages ≤ memPages) :
    MmapFrame m page pages (ptMap env (k, m) page pages memory offset flags) := by
  have hcount : loopCount page pages = pages :=
    loopCount_eq (lt_of_le_of_lt hmem (by decide))
  rcases ptMap_cases env (k, m) page pages memory offset flags with ⟨err, heq⟩ | ⟨r, -, -, heq⟩
  · rw [heq]
    exact mmapFrame_of_unchanged page pages ⟨fun _ => rfl, rfl⟩
  · rw [heq]
    refine ⟨fun q hq hout hch => ?_, fun err herr => by cases herr⟩
    rcases hch with hch | hch
    · refine hch ((ptMap.memPt_loop env (k, m) page pages r offset flags q).2 ?_)
      rw [hcount, touches_iff_of_le hmem hq]
      omega
    · exact hch (ptMap.reservedFlags_loop env (k, m) r offset flags (by rw [hcount]; exact hout) hq)

theorem mmapFrame_ptMapNothing (flags : Flags) (hmem : page + pages ≤ memPages) :
    MmapFrame s.2 page pages (ptMapNothing env s page pages flags) := by
  rcases ptMapNothing_cases env s page pages flags with ⟨r, heq⟩ | ⟨-, heq⟩
  · rw [heq]
    exact mmapFrame_of_unchanged page pages ⟨fun _ => rfl, rfl⟩
  · rw [heq]
    exact mmapFrame_ptMap env _ s.2 _ 0 _ hmem

theorem mmapFrame_realfsMmap (bytes : Option (Nat → UInt8)) (s : Kernel × Mem) (offset : Nat) (prot : Flags)
    (hmem : page + pages ≤ memPages) :
    MmapFrame s.2 page pages (realfsMmap realPageSize env bytes s page pages offset prot) := by
  cases bytes with
  | none => exact mmapFrame_of_unchanged page pages ⟨fun _ => rfl, rfl⟩
  | some bytes =>
    unfold realfsMmap
    exact mmapFrame_ptMap env _ s.2 _ _ _ hmem

theorem mmapFrame_ptMapLazy (ok : Bool) (k : Kernel) (m : Mem) (page pages : Nat) (flags : Flags) :
    MmapFrame m page pages ((ptMapLazy ok m page pages flags).1, k, (ptMapLazy ok m page pages flags).2) := by
  cases ok with
  | false => exact mmapFrame_of_unchanged page pages ⟨fun _ => rfl, rfl⟩
  | true =>
    refine ⟨fun q hq hout hch => ?_, fun err herr => by cases herr⟩
    rcases hch with hch | hch
    · exact hch rfl
    · refine hch (coverFlags_cons_of_not ?_ m.reservations)
      rw [MemReservation.covers_iff]
      dsimp only
      omega

theorem MmapFrame.finish {r : Except Errno Unit × Kernel × Mem} (h : MmapFrame m page pages r) (page' : Nat) :
    MmapFrame m page pages (doMmap.finish page' r) := by
  obtain ⟨_ | _, s⟩ := r
  · exact ⟨h.frame, fun err _ => h.error _ rfl⟩
  · exact ⟨h.frame, fun err herr => by cases herr⟩

/-! ### Placement -/

/-- A range that `do_mmap` may use without `MAP_FIXED`. -/
structure FreeRange (m : Mem) (page pages : Nat) : Prop where
  inside : page + pages ≤ memPages
  unmapped : Unmapped m page pages
  unreserved : Unreserved m page pages

theorem freeRange_of_ptIsHole (hmem : page + pages ≤ memPages)
    (hhole : ptIsHole m page pages) (hres : memRangeHasReservation m page pages = false) : FreeRange m page pages := by
  refine ⟨hmem, fun q hq hlt => ?_, unreserved_of_memRangeHasReservation hmem hres⟩
  have hstop : (page + pages) % wordMod = page + pages :=
    Nat.mod_eq_of_lt (lt_of_le_of_lt hmem (by decide))
  unfold ptIsHole at hhole
  rw [hstop, Bool.and_eq_true, List.all_eq_true] at hhole
  have := hhole.1 q (by rw [List.mem_range'_1]; omega)
  simpa using this

theorem freeRange_of_soundHole (h : SoundHole m pages page) (hne : page ≠ badPage) : FreeRange m page pages := by
  obtain ⟨hfree, hclear, hwin⟩ := h hne
  refine ⟨?_, hfree, hclear⟩
  rcases hwin with ⟨-, hwin⟩ | ⟨-, hwin⟩
  · exact le_trans hwin (by decide)
  · exact le_trans hwin (by decide)

def FixedRange (addr : BitVec 64) (page pages : Nat) : Prop :=
  page = pageOfAddr addr ∧ page + pages ≤ memPages

variable {flags : BitVec 32}

/-- What the first part of `do_mmap` makes of the caller's address. -/
theorem doMmap.hint_spec {addr : BitVec 64} (h : hint m addr pages flags = .ok (some page)) :
    FixedRange addr page pages ∧ (¬ hasAny flags mmapFixed → FreeRange m page pages) := by
  unfold hint at h
  by_cases h0 : addr = 0#64
  · rw [if_pos h0] at h
    cases h
  rw [if_neg h0] at h
  cases hmis : misaligned addr with
  | true => simp [hmis] at h
  | false =>
  rw [hmis, if_neg (by simp)] at h
  by_cases hbad : pageOfAddr addr > userAddrMaxPage ∨ pages > userAddrMaxPage - pageOfAddr addr ∨
      pageOfAddr addr < highBase ∧ pageOfAddr addr + pages > stackTopPage
  · rw [if_pos hbad] at h
    split_ifs at h
    cases h
  rw [if_neg hbad] at h
  have hmem : pageOfAddr addr + pages ≤ memPages := by
    unfold userAddrMaxPage at hbad
    unfold memPages
    omega
  split_ifs at h with hfix hhole
  · cases h
    exact ⟨⟨rfl, hmem⟩, fun hno => absurd hfix hno⟩
  · cases h
    exact ⟨⟨rfl, hmem⟩, fun _ => freeRange_of_ptIsHole hmem hhole.1 (by simpa using hhole.2)⟩
  · cases h

theorem doMmap.hint_fixed {addr : BitVec 64}
    (hfix : hasAny flags mmapFixed) (haddr : addr ≠ 0#64) : hint m addr pages flags ≠ .ok none := by
  unfold hint
  dsimp only
  rw [if_neg haddr, if_pos hfix, if_pos hfix]
  split_ifs <;> simp

theorem doMmap.search_spec (hin : ReservationsInside m) (hpages : 1 ≤ pages) (flags : BitVec 32) :
    (∃ hint, (search m pages flags).2 = { m with mmapHint := hint }) ∧
      SoundHole m pages (search m pages flags).1 := by
  unfold search
  split_ifs
  · exact ⟨⟨m.mmapHint, rfl⟩, soundHole_ptFindHoleHigh hin hpages⟩
  · exact ⟨(ptFindHole_cases m pages).2, soundHole_ptFindHole hin hpages⟩

/-- The placement of `do_mmap`: it changes only the hint of the search, and the range it finds is
the caller's, free unless `MAP_FIXED` was given. -/
theorem doMmap.place_spec (hin : ReservationsInside m) (addr : BitVec 64) (hpages : pages ≠ 0) (flags : BitVec 32) :
    (∃ hint, (place m addr pages flags).2 = { m with mmapHint := hint }) ∧
    ∀ page hintUsed, (place m addr pages flags).1 = .ok (page, hintUsed) →
      page + pages ≤ memPages ∧
      (¬ hasAny flags mmapFixed → FreeRange m page pages) ∧
      (hasAny flags mmapFixed → addr ≠ 0#64 → hintUsed ∧ page = pageOfAddr addr) := by
  unfold place
  cases hh : hint m addr pages flags with
  | error err => exact ⟨⟨m.mmapHint, rfl⟩, fun _ _ h => by cases h⟩
  | ok p =>
    cases p with
    | some page =>
      obtain ⟨⟨hpage, hmem⟩, hfree⟩ := hint_spec hh
      refine ⟨⟨m.mmapHint, rfl⟩, fun page' hintUsed h => ?_⟩
      cases h
      exact ⟨hmem, hfree, fun _ _ => ⟨rfl, hpage⟩⟩
    | none =>
      obtain ⟨hhint, hsound⟩ := search_spec hin (Nat.one_le_iff_ne_zero.2 hpages) flags
      dsimp only
      split_ifs with hbad
      · exact ⟨hhint, fun _ _ h => by cases h⟩
      · refine ⟨hhint, fun page hintUsed h => ?_⟩
        cases h
        have hfree := freeRange_of_soundHole hsound hbad
        exact ⟨hfree.inside, fun _ => hfree, fun hfix haddr => absurd hh (hint_fixed hfix haddr)⟩

/-! ### `do_mmap` -/

theorem doMmap.align_spec (m : Mem) (hintUsed : Bool) (hmem : page + pages ≤ memPages) :
    align m page pages hintUsed = page ∨ hintUsed = false ∧ FreeRange m (align m page pages hintUsed) pages := by
  unfold align
  dsimp only
  split_ifs with h
  · refine Or.inr ⟨by simpa using h.1, freeRange_of_ptIsHole ?_ h.2.2.1 (by simpa using h.2.2.2)⟩
    have := Nat.div_mul_le_self page (min pages 0x40000)
    omega
  · exact Or.inl rfl

theorem doMmap.anonymous_spec (hintUsed : Bool) (prot : Flags) (flags : BitVec 32) (hmem : page + pages ≤ memPages) :
    ∃ page', (page' = page ∨ hintUsed = false ∧ FreeRange s.2 page' pages) ∧
      MmapFrame s.2 page' pages (anonymous env s page pages hintUsed prot flags) := by
  unfold anonymous
  cases hlazy : lazyArena pages flags with
  | true =>
    refine ⟨align s.2 page pages hintUsed, align_spec s.2 hintUsed hmem, ?_⟩
    rw [if_pos rfl]
    dsimp only
    split_ifs
    · exact mmapFrame_of_unchanged _ pages ⟨fun _ => rfl, rfl⟩
    · exact (mmapFrame_ptMapLazy _ s.1 s.2 _ pages prot).finish _
  | false =>
    refine ⟨page, Or.inl rfl, ?_⟩
    rw [if_neg (by simp)]
    split_ifs with hprot hlimit
    · exact mmapFrame_of_unchanged page pages ⟨fun _ => rfl, rfl⟩
    · have hframe := mmapFrame_ptMapNothing env
        ({ s.1 with anonPageCount := s.1.anonPageCount + pages }, s.2) prot hmem
      dsimp only at hframe ⊢
      generalize ptMapNothing env ({ s.1 with anonPageCount := s.1.anonPageCount + pages }, s.2) page
        pages prot = r at hframe ⊢
      obtain ⟨err | _, k, m⟩ := r
      · exact ⟨hframe.frame, fun _ _ => hframe.error err rfl⟩
      · exact ⟨hframe.frame, fun _ herr => by cases herr⟩
    · exact (mmapFrame_ptMapNothing env s prot hmem).finish page

theorem setFile_mem (page fd offset : Nat) : (setFile s page fd offset).2 = s.2 := by
  unfold setFile
  cases memPt s.2 page <;> rfl

theorem doMmap.file_spec (fd : FdLookup) (s : Kernel × Mem)
    (prot : Flags) (fdNo offset : Nat) (hmem : page + pages ≤ memPages) :
    MmapFrame s.2 page pages (file realPageSize env fd s page pages prot fdNo offset) := by
  unfold file
  cases fd with
  | null | noMmap => exact mmapFrame_of_unchanged page pages ⟨fun _ => rfl, rfl⟩
  | file bytes =>
    have hframe := mmapFrame_realfsMmap realPageSize env bytes s offset prot hmem
    dsimp only
    generalize realfsMmap realPageSize env bytes s page pages offset prot = r at hframe ⊢
    obtain ⟨err | _, t⟩ := r
    · exact ⟨hframe.frame, fun _ _ => hframe.error err rfl⟩
    · refine ⟨fun q hq hout => ?_, fun _ herr => by cases herr⟩
      rw [setFile_mem]
      exact hframe.frame q hq hout

/-- What a call of `do_mmap` does: nothing, or it works on one range, which is free unless
`MAP_FIXED` was given with an address, and then it is the caller's. -/
def MmapOutcome {α : Type} (m : Mem) (addr len : BitVec 64) (flags : BitVec 32)
    (r : Except Errno α × Kernel × Mem) : Prop :=
  Unchanged m r.2.2 ∨
    ∃ page, MmapFrame m page (pageRoundUp len) r ∧
      (¬ hasAny flags mmapFixed → FreeRange m page (pageRoundUp len)) ∧
      (hasAny flags mmapFixed → addr ≠ 0#64 → page = pageOfAddr addr)

/-- The outcome of a call, from what the placement and the mapping routine do. -/
theorem mmapOutcome_of_frame {hint page page' : Nat} {addr len : BitVec 64}
    {hintUsed : Bool}
    (hfree : ¬ hasAny flags mmapFixed → FreeRange m page (pageRoundUp len))
    (hfixed : hasAny flags mmapFixed → addr ≠ 0#64 → hintUsed ∧ page = pageOfAddr addr)
    (hpage : page' = page ∨ hintUsed = false ∧ FreeRange { m with mmapHint := hint } page' (pageRoundUp len))
    (hframe : MmapFrame { m with mmapHint := hint } page' (pageRoundUp len) r) :
    MmapOutcome m addr len flags r := by
  have hleft : Unchanged m { m with mmapHint := hint } := ⟨fun _ => rfl, rfl⟩
  refine Or.inr ⟨page', hframe.of_unchanged_left hleft, fun hno => ?_, fun hfix haddr => ?_⟩
  · rcases hpage with rfl | ⟨-, hpage⟩
    · exact hfree hno
    · exact ⟨hpage.inside, hpage.unmapped, hpage.unreserved⟩
  · obtain ⟨hused, hp⟩ := hfixed hfix haddr
    rcases hpage with rfl | ⟨hpage, -⟩
    · exact hp
    · simp [hpage] at hused

theorem mmapOutcome_doMmap (fds : Nat → FdLookup)
    (s : Kernel × Mem) (addr len : BitVec 64) (prot : Flags) (flags : BitVec 32) (fdNo : Nat)
    (offset : BitVec 32) (hin : ReservationsInside s.2) : MmapOutcome s.2 addr len flags
      (doMmap realPageSize env fds s addr len prot flags fdNo offset) := by
  unfold doMmap
  by_cases h0 : pageRoundUp len = 0
  · rw [if_pos h0]
    exact Or.inl ⟨fun _ => rfl, rfl⟩
  rw [if_neg h0]
  obtain ⟨⟨hint, hm⟩, hplace⟩ := doMmap.place_spec hin addr h0 flags
  generalize doMmap.place s.2 addr (pageRoundUp len) flags = r at hm hplace ⊢
  obtain ⟨err | ⟨page, hintUsed⟩, m⟩ := r
  · cases hm
    exact Or.inl ⟨fun _ => rfl, rfl⟩
  subst hm
  obtain ⟨hmem, hfree, hfixed⟩ := hplace page hintUsed rfl
  dsimp only
  generalize (if hasAny flags mmapShared then prot ||| pShared else prot) = prot'
  by_cases hanon : hasAny flags mmapAnonymous
  · rw [if_pos hanon]
    obtain ⟨page', hpage, hframe⟩ := doMmap.anonymous_spec env
      (s.1, { s.2 with mmapHint := hint }) hintUsed prot' flags hmem
    exact mmapOutcome_of_frame hfree hfixed hpage hframe
  · rw [if_neg hanon]
    exact mmapOutcome_of_frame hfree hfixed (Or.inl rfl)
      (doMmap.file_spec realPageSize env (fds fdNo) (s.1, { s.2 with mmapHint := hint }) prot' fdNo
        offset.toNat hmem)

theorem resvClosed_reservationsInside : ResvClosed (fun _ => True) ReservationsInside where
  same m m' hres _ h := by
    unfold ReservationsInside
    rw [hres]
    exact h
  remove ok _ start pages _ h := h.memRemoveReservations ok _ start pages
  setFlags ok _ start pages flags _ h := h.memSetReservationFlags ok _ start pages flags

theorem reservationsInside_anonymous (hintUsed : Bool) (prot : Flags) (flags : BitVec 32)
    (hmem : page + pages ≤ memPages) (hin : ReservationsInside s.2) :
    ReservationsInside (doMmap.anonymous env s page pages hintUsed prot flags).2.2 := by
  have hP := resvClosed_reservationsInside
  unfold doMmap.anonymous
  dsimp only
  split_ifs with hlazy hbusy hprot hlimit
  · exact hin
  · have halign : doMmap.align s.2 page pages hintUsed + pages ≤ memPages := by
      rcases doMmap.align_spec s.2 hintUsed hmem with heq | ⟨-, hfree⟩
      · rw [heq]
        exact hmem
      · exact hfree.inside
    generalize doMmap.align s.2 page pages hintUsed = start at halign ⊢
    have hadd := hin.ptMapLazy _ (env.mallocRes start ⟨0, start, pages, prot⟩) halign prot
    generalize ptMapLazy _ s.2 start pages prot = r at hadd ⊢
    obtain ⟨err | _, m⟩ := r
    · exact hadd
    · exact hadd
  · exact hin
  · have hmap : ReservationsInside (ptMapNothing env ({ s.1 with anonPageCount := s.1.anonPageCount + pages }, s.2)
        page pages prot).2.2 := hP.ptMapNothing env prot (fun _ _ _ => trivial) hin
    generalize ptMapNothing env _ page pages prot = r at hmap ⊢
    obtain ⟨err | _, k, m⟩ := r
    · exact hmap
    · exact hmap
  · have hmap : ReservationsInside (ptMapNothing env s page pages prot).2.2 :=
      hP.ptMapNothing env prot (fun _ _ _ => trivial) hin
    generalize ptMapNothing env s page pages prot = r at hmap ⊢
    obtain ⟨err | _, k, m⟩ := r
    · exact hmap
    · exact hmap

theorem reservationsInside_file (fd : FdLookup) (s : Kernel × Mem) (prot : Flags) (fdNo offset : Nat)
    (hin : ReservationsInside s.2) :
    ReservationsInside (doMmap.file realPageSize env fd s page pages prot fdNo offset).2.2 := by
  have hP := resvClosed_reservationsInside
  unfold doMmap.file
  cases fd with
  | null | noMmap => exact hin
  | file bytes =>
    have hmap : ReservationsInside (realfsMmap realPageSize env bytes s page pages offset prot).2.2 := by
      unfold realfsMmap
      cases bytes with
      | none => exact hin
      | some bytes => exact hP.ptMap env _ _ _ (fun _ _ _ => trivial) hin
    dsimp only
    generalize realfsMmap realPageSize env bytes s page pages offset prot = r at hmap ⊢
    obtain ⟨err | _, t⟩ := r
    · exact hmap
    · dsimp only
      rw [setFile_mem]
      exact hmap

/-- **Reservations stay inside the table**: the range that `do_mmap` reserves lies there. -/
theorem reservationsInside_doMmap (fds : Nat → FdLookup)
    (s : Kernel × Mem) (addr len : BitVec 64) (prot : Flags) (flags : BitVec 32) (fdNo : Nat)
    (offset : BitVec 32) (hin : ReservationsInside s.2) :
    ReservationsInside (doMmap realPageSize env fds s addr len prot flags fdNo offset).2.2 := by
  unfold doMmap
  by_cases h0 : pageRoundUp len = 0
  · rw [if_pos h0]
    exact hin
  rw [if_neg h0]
  obtain ⟨⟨hint, hm⟩, hplace⟩ := doMmap.place_spec hin addr h0 flags
  generalize doMmap.place s.2 addr (pageRoundUp len) flags = r at hm hplace ⊢
  obtain ⟨err | ⟨page, hintUsed⟩, m⟩ := r
  · cases hm
    exact hin
  subst hm
  obtain ⟨hmem, -, -⟩ := hplace page hintUsed rfl
  dsimp only
  generalize (if hasAny flags mmapShared then prot ||| pShared else prot) = prot'
  by_cases hanon : hasAny flags mmapAnonymous
  · rw [if_pos hanon]
    exact reservationsInside_anonymous env (s.1, { s.2 with mmapHint := hint }) hintUsed prot' flags hmem hin
  · rw [if_neg hanon]
    exact reservationsInside_file realPageSize env (fds fdNo) (s.1, { s.2 with mmapHint := hint }) prot' fdNo
      offset.toNat hin

/-- **The frame of `mmap`.**  Without `MAP_FIXED` no page that was mapped or reserved changes; with
it and an address only the pages of the request do; an error changes nothing. -/
theorem doMmap_frame (realPageSize : Nat) (env : HostEnv) (fds : Nat → FdLookup)
    (s : Kernel × Mem) (addr len : BitVec 64) (prot : Flags) (flags : BitVec 32) (fdNo : Nat)
    (offset : BitVec 32) (hin : ReservationsInside s.2) :
    let r := doMmap realPageSize env fds s addr len prot flags fdNo offset
    (¬ hasAny flags mmapFixed → ∀ p, p < memPages →
      (memPt s.2 p).isSome ∨ (memFindReservation s.2 p).isSome → ¬ PageChanged s.2 r.2.2 p) ∧
    (hasAny flags mmapFixed → addr ≠ 0#64 → Confined addr len s.2 r.2.2) ∧
    (∀ err, r.1 = .error err → Unchanged s.2 r.2.2) := by
  intro r
  rcases mmapOutcome_doMmap realPageSize env fds s addr len prot flags fdNo offset hin with
    hsame | ⟨page, hframe, hfree, hfixed⟩
  · exact ⟨fun _ p _ _ => hsame.not_pageChanged p,
      fun _ _ p _ hch => absurd hch (hsame.not_pageChanged p), fun _ _ => hsame⟩
  · refine ⟨fun hno p hp hold => ?_, fun hfix haddr p hp hch => ?_, hframe.error⟩
    · have hrange := hfree hno
      refine hframe.frame p hp ?_
      by_contra hin'
      have h1 := hrange.unmapped p (by omega) (by omega)
      have h2 := hrange.unreserved p (by omega) (by omega)
      simp [h1, h2] at hold
    · by_contra hout
      have hpage := hfixed hfix haddr
      exact hframe.frame p hp (by rw [hpage]; exact outside_of_not_inRequest hout) hch

/-- `onePage` with a reservation of sixteen pages at `0x200000`. -/
def onePageReserved : Kernel × Mem :=
  (onePage.1, { onePage.2 with reservations := [⟨0, 0x200, 16, pRead⟩], nextReservation := 1 })

/-- A fixed mapping over the page of `onePage` succeeds and stays inside its request, a mapping anywhere leaves the
reserved pages, and one of length 0 changes nothing. -/
theorem doMmap_frame_onePage :
    let call := doMmap 4096 HostEnv.good (fun _ => .null) onePageReserved
    let fixed := call 0x100000#64 0x2000#64 (pRead ||| pWrite) (mmapFixed ||| mmapAnonymous) 0 0#32
    let anywhere := call 0#64 0x2000#64 (pRead ||| pWrite) mmapAnonymous 0 0#32
    let empty := call 0#64 0#64 pRead mmapAnonymous 0 0#32
    fixed.1 = .ok 0x100000 ∧ Confined 0x100000#64 0x2000#64 onePageReserved.2 fixed.2.2 ∧
      (memFindReservation onePageReserved.2 0x208).isSome ∧ ¬ PageChanged onePageReserved.2 anywhere.2.2 0x208 ∧
      empty.1 = .error .einval ∧ Unchanged onePageReserved.2 empty.2.2 := by
  have hin : ReservationsInside onePageReserved.2 := by
    simp [ReservationsInside, MemReservation.Inside, onePageReserved, memPages]
  have hframe := fun addr len prot flags =>
    doMmap_frame 4096 HostEnv.good (fun _ => .null) onePageReserved addr len prot flags 0 0#32 hin
  have hreserved : (memFindReservation onePageReserved.2 0x208).isSome := by decide
  refine ⟨rfl, (hframe _ _ _ _).2.1 (by decide) (by decide), hreserved, ?_, rfl, (hframe _ _ _ _).2.2 _ rfl⟩
  exact (hframe _ _ _ _).1 (by decide) 0x208 (by decide) (Or.inr hreserved)

end Ish
