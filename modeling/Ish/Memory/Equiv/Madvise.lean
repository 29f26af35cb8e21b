import Ish.Memory.Madvise
import Ish.Memory.Equiv.Contents
import Ish.Memory.Equiv.Fork

/-!
# What `madvise` may change

`sys_madvise` calls `memset` with whatever pointer `mem_ptr` gives for an address of its walk, for every kind of mapping
and from any offset in a page. `MadviseFrame` says what it should leave alone. `madvise_frame_iff` gives the condition
on the page tables under which it does so, whatever the memory holds and however the host answers.

The walk is followed round by round with `Advised`: entries are as they were, or copies of private pages of the range;
host bytes are as they were, or belong to such pages alone (`Mine`).
-/

namespace Ish

open Lib Function List Option Nat

/-! ### `memset` -/

theorem byteAt_zero (h : Host) (ptr p : HostPtr) (n : Nat) : (h.zero ptr n).byteAt p =
      if p.region = ptr.region ∧ ptr.offset ≤ p.offset ∧ p.offset < ptr.offset + n then (h.byteAt p).map fun _ => 0
      else h.byteAt p := by
  unfold Host.byteAt Host.zero
  dsimp only
  by_cases hr : p.region = ptr.region
  · rw [hr, update_self]
    cases h.regions ptr.region with
    | none => simp
    | some R =>
      simp only [map_some, true_and]
      split_ifs <;> rfl
  · rw [update_of_ne hr, if_neg fun hin => hr hin.1]

theorem isSome_zero (h : Host) (ptr : HostPtr) (n : Nat) (r : RegionId) :
    ((h.zero ptr n).regions r).isSome = (h.regions r).isSome := by
  unfold Host.zero
  dsimp only
  by_cases hr : r = ptr.region
  · rw [hr, update_self, isSome_map]
  · rw [update_of_ne hr]

/-- The kernel after `memset(ptr, 0, PAGE_SIZE)`. -/
def Kernel.zeroed (k : Kernel) (ptr : HostPtr) : Kernel := { k with host := k.host.zero ptr pageSize }

theorem quiet_zeroed (k : Kernel) (ptr : HostPtr) : k.Quiet (k.zeroed ptr) :=
  .of_host rfl rfl (le_refl _) fun _ _ => isSome_zero _ _ _ _

/-! ### A round of the walk -/

/-- The slot of a page. -/
theorem memPt_slot (m : Mem) (page : Nat) : memPt m (page % memPages) = memPt m page :=
  memPt_congr m (mod_mod page memPages)

/-- The pointer `mem_ptr` gives for the address `p` in the page of `e`. -/
def pointerTo (k : Kernel) (e : PtEntry) (p : Nat) : HostPtr := ⟨regionOf k e, e.offset + pgOffset p⟩

theorem memPtr_write_of_writable (fe : FaultEnv) (s : Kernel × Mem) (p : Nat) {e : PtEntry}
    (he : memPt s.2 (pageOf p) = some e) (hwrite : hasAny e.flags pWrite) (hcow : ¬ hasAny e.flags pCow) :
    memPtr fe s p .write = some (some (pointerTo s.1 e p), memPtr.touch s (pageOf p) .write e) := by
  rw [memPtr_write_of_present fe s p he, if_neg (not_not.2 hwrite), if_neg hcow]
  rw [memPtrNofault_of_writable he (by simp [pWritable, hwrite, hcow])]
  rfl

section

variable (fe : FaultEnv) (a : Advising) (p : Nat) {e : PtEntry} (he : memPt a.s.2 (pageOf p) = some e)
include he

theorem round_of_not_write (hwrite : ¬ hasAny e.flags pWrite) : sysMadvise.round fe a p = some a := by
  unfold sysMadvise.round
  rw [he]
  rw [memPtr_write_of_present fe a.s p he, if_pos hwrite]

theorem round_of_writable (hwrite : hasAny e.flags pWrite) (hcow : ¬ hasAny e.flags pCow) : sysMadvise.round fe a p =
      some ⟨(a.s.1.zeroed (pointerTo a.s.1 e p), (memPtr.touch a.s (pageOf p) .write e).2),
        pointerTo a.s.1 e p :: a.zeroed⟩ := by
  unfold sysMadvise.round
  rw [he]
  rw [memPtr_write_of_writable fe a.s p he hwrite hcow]
  rfl

end

/-! ### What is to be left alone -/

/-- The page `q` lies in the range, rounded to pages. -/
def InRange (addr len : BitVec 64) (q : Nat) : Prop :=
  addr.toNat / pageSize ≤ q ∧ q * pageSize < addr.toNat + len.toNat

/-- A page of private anonymous memory. -/
def PtEntry.PrivateAnon (e : PtEntry) : Prop := hasAny e.flags pAnonymous = true ∧ hasAny e.flags pShared = false

/-- The host byte `p` is one of the page of `e`. -/
def Backs (k : Kernel) (e : PtEntry) (p : HostPtr) : Prop :=
  regionOf k e = p.region ∧ e.offset ≤ p.offset ∧ p.offset < e.offset + pageSize

section

variable {ι : Type} [DecidableEq ι] (w : World ι) (i : ι) (addr len : BitVec 64)

/-- **The frame of `madvise`**: no byte outside the range and no byte of a shared mapping or one of a file changes for
any process, and `memset` stays in the host pages behind the pages of the range. -/
structure MadviseFrame (a : Advising) : Prop where
  outside : ∀ j q off b, q < memPages → off < pageSize → ¬ (j = i ∧ InRange addr len q) →
    seen w.kernel (w.mems j) q off = some b → seen a.s.1 (Function.update w.mems i a.s.2 j) q off = some b
  shared : ∀ j q e off b, q < memPages → off < pageSize → memPt (w.mems j) q = some e → ¬ e.PrivateAnon →
    seen w.kernel (w.mems j) q off = some b → seen a.s.1 (Function.update w.mems i a.s.2 j) q off = some b
  backed : ∀ ptr ∈ a.zeroed, ∀ t < pageSize, ∃ q < memPages, InRange addr len q ∧
    ((∃ e, memPt (w.mems i) q = some e ∧ Backs w.kernel e ⟨ptr.region, ptr.offset + t⟩) ∨
      ∃ e, memPt a.s.2 q = some e ∧ Backs a.s.1 e ⟨ptr.region, ptr.offset + t⟩)

/-- The host byte `p` is one of a page of the range, and only private anonymous pages of the range have it. -/
structure Mine (p : HostPtr) : Prop where
  some : ∃ q e, q < memPages ∧ InRange addr len q ∧ memPt (w.mems i) q = .some e ∧ Backs w.kernel e p
  only : ∀ j q e, q < memPages → memPt (w.mems j) q = .some e → Backs w.kernel e p →
    j = i ∧ InRange addr len q ∧ e.PrivateAnon

/-- The page of the address `p` can be discarded: it is not mapped for writing; or it waits for its copy, is private
anonymous memory of the range and `p` is its start; or the 4096 host bytes from `p` on are all `Mine`. -/
def PageFits (p : Nat) : Prop :=
  ∀ e, memPt (w.mems i) (pageOf p) = some e → hasAny e.flags pWrite = true →
    if hasAny e.flags pCow then pgOffset p = 0 ∧ InRange addr len (pageOf p % memPages) ∧ e.PrivateAnon
    else ∀ t < pageSize, Mine w i addr len ⟨regionOf w.kernel e, e.offset + pgOffset p + t⟩

/-- The address of round `n` of a walk from `p`. -/
def visit (p n : Nat) : Nat := (p + n * pageSize) % wordMod

/-- Every page of the walk from `p` to `stop` can be discarded. -/
def WalkFits (stop p : Nat) : Prop :=
  ∀ n, (∀ m ≤ n, visit p m < stop) → PageFits w i addr len (visit p n)

/-! ### The walk -/

/-- The entry `e` of the range has been replaced by its copy `e'`. -/
structure CopyAt (s : Kernel × Mem) (q : Nat) (e e' : PtEntry) : Prop where
  old : memPt (w.mems i) q = some e
  anon : e.PrivateAnon
  range : InRange addr len q
  aligned : pgOffset addr.toNat = 0
  new : memPt s.2 q = some e'
  offset : e'.offset = 0
  region : w.kernel.host.next ≤ regionOf s.1 e'
  cow : hasAny e.flags pCow = true
  notCow : hasAny e'.flags pCow = false

/-- The state between two rounds, when all pages visited could be discarded. -/
structure Advised (a : Advising) : Prop where
  counted : CountedAt w.mems i a.s
  ext : w.kernel.Extends a.s.1
  entry : ∀ q < memPages, memPt a.s.2 q = memPt (w.mems i) q ∨ ∃ e e', CopyAt w i addr len a.s q e e'
  bytes : ∀ r R R', r < w.kernel.host.next → w.kernel.host.regions r = some R →
    a.s.1.host.regions r = some R' → ∀ off, R'.bytes off = R.bytes off ∨ Mine w i addr len ⟨r, off⟩
  vdso : (a.s.1.host.regions vdsoData).isSome = (w.kernel.host.regions vdsoData).isSome
  backed : ∀ ptr ∈ a.zeroed, ∀ t < pageSize, ∃ q < memPages, InRange addr len q ∧
    ((∃ e, memPt (w.mems i) q = some e ∧ Backs w.kernel e ⟨ptr.region, ptr.offset + t⟩) ∨
      ∃ e, memPt a.s.2 q = some e ∧ Backs a.s.1 e ⟨ptr.region, ptr.offset + t⟩)

variable {w i addr len}

theorem Advised.data_lt [Finite ι] {a : Advising} (h : Advised w i addr len a) {q : Nat} {e : PtEntry}
    (he : memPt a.s.2 q = some e) : e.data < a.s.1.nextData :=
  Counted.lt_of_memPt (i := i) h.counted (by rwa [update_self])

theorem advised_start (hw : w.Counted) : Advised w i addr len ⟨w.at i, []⟩ := by
  refine ⟨?_, .refl _, fun q _ => .inl rfl, fun r R R' _ hR hR' off => ?_, rfl, nofun⟩
  · unfold CountedAt World.at
    rw [update_eq_self]
    exact hw
  · cases hR.symm.trans hR'
    exact .inl rfl

variable {a : Advising}

/-- `memset` of 4096 host bytes that are `Mine`, or in a mapping made after `w`. -/
theorem Advised.zero (h : Advised w i addr len a) {ptr : HostPtr}
    (hmine : ptr.region < w.kernel.host.next → ∀ t < pageSize, Mine w i addr len ⟨ptr.region, ptr.offset + t⟩)
    (hback : ∀ t < pageSize, ∃ q < memPages, InRange addr len q ∧
      ((∃ e, memPt (w.mems i) q = some e ∧ Backs w.kernel e ⟨ptr.region, ptr.offset + t⟩) ∨
        ∃ e, memPt a.s.2 q = some e ∧ Backs a.s.1 e ⟨ptr.region, ptr.offset + t⟩)) :
    Advised w i addr len ⟨(a.s.1.zeroed ptr, a.s.2), ptr :: a.zeroed⟩ := by
  refine ⟨?_, ?_, fun q hq => ?_, fun r R R' hr hR hR' off => ?_, ?_, ?_⟩
  · exact h.counted.quiet (quiet_zeroed a.s.1 ptr)
  · exact h.ext.trans (.of_datas rfl (le_refl _) fun _ => rfl)
  · rcases h.entry q hq with heq | ⟨e, e', hcopy⟩
    · exact .inl heq
    · exact .inr ⟨e, e', ⟨hcopy.old, hcopy.anon, hcopy.range, hcopy.aligned, hcopy.new, hcopy.offset, hcopy.region,
        hcopy.cow, hcopy.notCow⟩⟩
  · change (a.s.1.host.zero ptr pageSize).regions r = some R' at hR'
    unfold Host.zero at hR'
    dsimp only at hR'
    by_cases hreg : r = ptr.region
    · subst hreg
      rw [update_self] at hR'
      obtain ⟨R₁, hR₁, rfl⟩ := map_eq_some_iff.1 hR'
      dsimp only
      split_ifs with hin
      · have ht := hmine hr (off - ptr.offset) (by omega)
        rw [Nat.add_sub_cancel' hin.1] at ht
        exact .inr ht
      · exact h.bytes _ R R₁ hr hR hR₁ off
    · rw [update_of_ne hreg] at hR'
      exact h.bytes r R R' hr hR hR' off
  · exact (isSome_zero _ _ _ _).trans h.vdso
  · intro ptr' hptr'
    rcases mem_cons.1 hptr' with rfl | hmem
    · exact hback
    · exact h.backed ptr' hmem

variable [Finite ι] (hw : w.Counted)
include hw

variable {e : PtEntry}

omit [DecidableEq ι] in
theorem regionOf_of_extends {k : Kernel} (hext : w.kernel.Extends k) {j : ι} {q : Nat}
    (he : memPt (w.mems j) q = some e) : regionOf k e = regionOf w.kernel e :=
  hext.data e.data (Counted.lt_of_memPt hw he)

omit [DecidableEq ι] in
theorem regionOf_lt {j : ι} {q : Nat} (he : memPt (w.mems j) q = some e) : regionOf w.kernel e < w.kernel.host.next :=
  Counted.region_lt hw _ (Counted.lt_of_memPt hw he)

/-- **The frame** holds between the rounds. -/
theorem Advised.frame (h : Advised w i addr len a) : MadviseFrame w i addr len a := by
  -- an entry that is still there shows what it showed, unless its bytes are `Mine`
  have hkept : ∀ j q e off b, q < memPages → off < pageSize → memPt (w.mems j) q = some e →
      memPt (update w.mems i a.s.2 j) q = some e →
      ¬ (j = i ∧ InRange addr len q ∧ e.PrivateAnon) → seen w.kernel (w.mems j) q off = some b →
      seen a.s.1 (update w.mems i a.s.2 j) q off = some b := by
    intro j q e off b hq hoff he he' hnot hb
    rw [seen_eq he] at hb
    have hreg := regionOf_of_extends hw h.ext he
    rw [seen_eq he', hreg]
    obtain ⟨R, hR, rfl⟩ := map_eq_some_iff.1 hb
    have hsome : (a.s.1.host.regions (regionOf w.kernel e)).isSome := by
      by_cases hv : regionOf w.kernel e = vdsoData
      · rw [hv, h.vdso, ← hv]
        exact isSome_of_eq_some hR
      · have hregion := Counted.isSome_region h.counted he' (by rw [hreg]; exact hv)
        rwa [hreg] at hregion
    obtain ⟨R', hR'⟩ := isSome_iff_exists.1 hsome
    unfold Host.byteAt
    rw [hR', map_some]
    rcases h.bytes _ R R' (regionOf_lt hw he) hR hR' (e.offset + off) with heq | hmine
    · rw [heq]
    · exact absurd (hmine.only j q e hq he ⟨rfl, Nat.le_add_right .., by dsimp only; omega⟩) hnot
  -- so do all entries but the copies
  have hshow : ∀ j q e off b, q < memPages → off < pageSize → memPt (w.mems j) q = some e →
      ¬ (j = i ∧ InRange addr len q ∧ e.PrivateAnon) → seen w.kernel (w.mems j) q off = some b →
      seen a.s.1 (update w.mems i a.s.2 j) q off = some b := by
    intro j q e off b hq hoff he hnot hb
    refine hkept j q e off b hq hoff he ?_ hnot hb
    by_cases hj : j = i
    · subst hj
      rw [update_self]
      rcases h.entry q hq with heq | ⟨e₀, e', hcopy⟩
      · rw [heq, he]
      · cases he.symm.trans hcopy.old
        exact absurd ⟨rfl, hcopy.range, hcopy.anon⟩ hnot
    · rw [update_of_ne hj]
      exact he
  refine ⟨fun j q off b hq hoff hnot hb => ?_, fun j q e off b hq hoff he hnot hb => ?_, h.backed⟩
  · cases he : memPt (w.mems j) q with
    | none =>
      unfold seen at hb
      rw [he] at hb
      cases hb
    | some e => exact hshow j q e off b hq hoff he (fun hin => hnot ⟨hin.1, hin.2.1⟩) hb
  · exact hshow j q e off b hq hoff he (fun hin => hnot hin.2.2) hb

theorem Advised.translate (h : Advised w i addr len a) {s' : Kernel × Mem}
    (hc' : CountedAt w.mems i s') (hp : a.s.1.Preserves s'.1) (hentry : ∀ q < memPages, memPt s'.2 q = memPt a.s.2 q ∨
      ∃ e e', memPt a.s.2 q = some e ∧ CopyAt w i addr len s' q e e') : Advised w i addr len ⟨s', a.zeroed⟩ := by
  have hregion : ∀ {q e}, memPt a.s.2 q = some e → regionOf s'.1 e = regionOf a.s.1 e := by
    intro q e he
    refine hp.ext.data e.data (Counted.lt_of_memPt (i := i) (q := q) h.counted ?_)
    rw [update_self]
    exact he
  -- a copy stays
  have hstays : ∀ q < memPages, ∀ e e', CopyAt w i addr len a.s q e e' →
      memPt s'.2 q = some e' ∧ CopyAt w i addr len s' q e e' := by
    intro q hq e e' hcopy
    rcases hentry q hq with heq | ⟨e₁, e₁', he₁, hcopy₁⟩
    · have hnew : memPt s'.2 q = some e' := heq.trans hcopy.new
      refine ⟨hnew, ⟨hcopy.old, hcopy.anon, hcopy.range, hcopy.aligned, hnew, hcopy.offset, ?_, hcopy.cow,
        hcopy.notCow⟩⟩
      rw [hregion hcopy.new]
      exact hcopy.region
    · cases he₁.symm.trans hcopy.new
      exact absurd (hcopy₁.cow.symm.trans hcopy.notCow) (by decide)
  refine ⟨hc', h.ext.trans hp.ext, fun q hq => ?_, fun r R R' hr hR hR' off => ?_, ?_, fun ptr hptr t ht => ?_⟩
  · rcases h.entry q hq with heq | ⟨e, e', hcopy⟩
    · rcases hentry q hq with heq' | ⟨e, e', -, hcopy⟩
      · exact .inl (heq'.trans heq)
      · exact .inr ⟨e, e', hcopy⟩
    · exact .inr ⟨e, e', (hstays q hq e e' hcopy).2⟩
  · rcases hp.region r (lt_of_lt_of_le hr h.ext.hostNext) with heq | ⟨-, hnone⟩
    · rw [show s'.1.host.regions r = _ from heq] at hR'
      exact h.bytes r R R' hr hR hR' off
    · cases hnone.symm.trans hR'
  · have hv : vdsoData < a.s.1.host.next := h.counted.vdso_lt
    rcases hp.region vdsoData hv with heq | ⟨hne, -⟩
    · rw [heq]
      exact h.vdso
    · exact absurd rfl hne
  · obtain ⟨q, hq, hrange, hback⟩ := h.backed ptr hptr t ht
    refine ⟨q, hq, hrange, ?_⟩
    rcases hback with hold | ⟨e, he, hbacks⟩
    · exact .inl hold
    · rcases h.entry q hq with heq | ⟨e₀, e', hcopy⟩
      · have hold := heq.symm.trans he
        refine .inl ⟨e, hold, ?_⟩
        unfold Backs at hbacks ⊢
        rwa [regionOf_of_extends hw h.ext hold] at hbacks
      · cases he.symm.trans hcopy.new
        refine .inr ⟨e, (hstays q hq e₀ e hcopy).1, ?_⟩
        unfold Backs at hbacks ⊢
        rwa [hregion hcopy.new]

theorem Advised.touch_zero (h : Advised w i addr len a) {p : Nat} (hp : p < wordMod)
    (he : memPt a.s.2 (pageOf p) = some e) (hwrite : hasAny e.flags pWrite) (hcow : ¬ hasAny e.flags pCow)
    (hmine : regionOf a.s.1 e < w.kernel.host.next → ∀ t < pageSize,
      Mine w i addr len ⟨regionOf a.s.1 e, e.offset + pgOffset p + t⟩)
    (hback : ∀ t < pageSize, ∃ q < memPages, InRange addr len q ∧
      ((∃ e', memPt (w.mems i) q = some e' ∧ Backs w.kernel e' ⟨regionOf a.s.1 e, e.offset + pgOffset p + t⟩) ∨
        ∃ e', memPt a.s.2 q = some e' ∧ Backs a.s.1 e' ⟨regionOf a.s.1 e, e.offset + pgOffset p + t⟩)) :
    Advised w i addr len ⟨(a.s.1.zeroed (pointerTo a.s.1 e p), (memPtr.touch a.s (pageOf p) .write e).2),
      pointerTo a.s.1 e p :: a.zeroed⟩ := by
  have hptr := memPtr_write_of_writable FaultEnv.good a.s p he hwrite hcow
  have htouch : Advised w i addr len ⟨memPtr.touch a.s (pageOf p) .write e, a.zeroed⟩ :=
    h.translate hw (shows_memPtr h.counted hp hptr).1 (preserves_memPtr hptr) fun q _ => .inl rfl
  exact htouch.zero hmine hback

/-- **One round** at a page that can be discarded. -/
theorem Advised.round {a a' : Advising} (h : Advised w i addr len a) {fe : FaultEnv} {p : Nat} (hp : p < wordMod)
    (haligned : pgOffset p = pgOffset addr.toNat) (hfits : PageFits w i addr len p)
    (hround : sysMadvise.round fe a p = some a') : Advised w i addr len a' := by
  cases he : memPt a.s.2 (pageOf p) with
  | none =>
    unfold sysMadvise.round at hround
    rw [he] at hround
    cases hround
    exact h
  | some e =>
    by_cases hwrite : hasAny e.flags pWrite
    swap
    · rw [round_of_not_write fe a p he hwrite] at hround
      cases hround
      exact h
    have hslot : pageOf p % memPages < memPages := mod_lt _ (by decide)
    have hdata := h.data_lt he
    rcases h.entry _ hslot with heq | ⟨e₀, e', hcopy⟩
    · -- the entry of `w`
      rw [memPt_slot, memPt_slot, he] at heq
      have hfit := hfits e heq.symm hwrite
      by_cases hcow : hasAny e.flags pCow
      · rw [if_pos hcow] at hfit
        obtain ⟨hzero, hrange, hanon⟩ := hfit
        unfold sysMadvise.round at hround
        rw [he] at hround
        rcases memPtr_write_copy fe a.s hp he hwrite hcow hdata (Counted.region_lt h.counted _ hdata) with
          ⟨-, hnone⟩ | ⟨-, s', hs', hpt⟩ | ⟨-, s', hs', hpt, hreg⟩
        · rw [hnone] at hround
          cases hround
        · rw [hs'] at hround
          cases hround
          exact h.translate hw (shows_memPtr h.counted hp hs').1 (preserves_memPtr hs') fun q _ => .inl (hpt q)
        · rw [hs'] at hround
          cases hround
          have hnotCow : hasAny (e.flags &&& ~~~pCow) pCow = false := hasAny_and_of_disjoint (by decide)
          have hnew : memPt s'.2 (pageOf p % memPages) = some ⟨a.s.1.nextData, 0, e.flags &&& ~~~pCow⟩ := by
            rw [memPt_slot]
            exact hpt
          have hadvised := h.translate hw (shows_memPtr h.counted hp hs').1 (preserves_memPtr hs') fun q hq => by
            by_cases hq' : q % memPages = pageOf p % memPages
            · rw [mod_eq_of_lt hq] at hq'
              subst hq'
              refine .inr ⟨e, ⟨a.s.1.nextData, 0, e.flags &&& ~~~pCow⟩, ?_, ?_⟩
              · rw [memPt_slot]
                exact he
              · refine ⟨?_, hanon, hrange, haligned ▸ hzero, hnew, rfl, ?_, hcow, hnotCow⟩
                · rw [memPt_slot]
                  exact heq.symm
                · rw [hreg]
                  exact h.ext.hostNext
            · exact .inl (memPt_memPtr_of_ne hs' hq')
          refine hadvised.zero (fun hlt => ?_) fun t ht => ?_
          · exact absurd hlt (Nat.not_lt.2 h.ext.hostNext)
          · refine ⟨_, hslot, hrange, .inr ⟨_, hnew, hreg, Nat.zero_le _, ?_⟩⟩
            dsimp only
            omega
      · rw [if_neg hcow] at hfit
        have hregion := regionOf_of_extends hw h.ext heq.symm
        rw [round_of_writable fe a p he hwrite hcow] at hround
        cases hround
        refine h.touch_zero hw hp he hwrite hcow (fun _ t ht => ?_) fun t ht => ?_
        · rw [hregion]
          exact hfit t ht
        · obtain ⟨q, e', hq, hrange, he', hbacks⟩ := (hfit t ht).some
          rw [hregion]
          exact ⟨q, hq, hrange, .inl ⟨e', he', hbacks⟩⟩
    · -- a copy made in an earlier round
      have hnew := hcopy.new
      rw [memPt_slot, he] at hnew
      cases hnew
      have hcow : ¬ hasAny e.flags pCow := by
        rw [hcopy.notCow]
        decide
      rw [round_of_writable fe a p he hwrite hcow] at hround
      cases hround
      refine h.touch_zero hw hp he hwrite hcow (fun hlt => ?_) fun t ht => ?_
      · exact absurd hlt (Nat.not_lt.2 hcopy.region)
      · refine ⟨_, hslot, hcopy.range, .inr ⟨e, hcopy.new, rfl, ?_, ?_⟩⟩
        · rw [hcopy.offset]
          exact Nat.zero_le _
        · rw [hcopy.offset, haligned, hcopy.aligned]
          dsimp only
          omega

/-! ### The converse -/

omit hw in
theorem Advised.exists_round (h : Advised w i addr len a) {p : Nat} (hp : p < wordMod) :
    ∃ a', sysMadvise.round FaultEnv.good a p = some a' := by
  cases he : memPt a.s.2 (pageOf p) with
  | none =>
    refine ⟨a, ?_⟩
    unfold sysMadvise.round
    rw [he]
  | some e =>
    by_cases hwrite : hasAny e.flags pWrite
    swap
    · exact ⟨_, round_of_not_write _ a p he hwrite⟩
    by_cases hcow : hasAny e.flags pCow
    swap
    · exact ⟨_, round_of_writable _ a p he hwrite hcow⟩
    have hdata := h.data_lt he
    unfold sysMadvise.round
    rw [he]
    rcases memPtr_write_copy FaultEnv.good a.s hp he hwrite hcow hdata (Counted.region_lt h.counted _ hdata) with
      ⟨hmmap, -⟩ | ⟨-, s', hs', -⟩ | ⟨-, s', hs', -⟩
    · exact absurd rfl hmmap
    · rw [hs']
      exact ⟨_, rfl⟩
    · rw [hs']
      exact ⟨_, rfl⟩

omit [DecidableEq ι] in
theorem seen_one (hv : (w.kernel.host.regions vdsoData).isSome)
    (hone : ∀ r R off, w.kernel.host.regions r = some R → R.bytes off = 1) {j : ι} {q : Nat}
    (he : memPt (w.mems j) q = some e) (off : Nat) : seen w.kernel (w.mems j) q off = some 1 := by
  have hsome : (w.kernel.host.regions (regionOf w.kernel e)).isSome := by
    by_cases hvdso : regionOf w.kernel e = vdsoData
    · rw [hvdso]
      exact hv
    · exact Counted.isSome_region hw he hvdso
  obtain ⟨R, hR⟩ := isSome_iff_exists.1 hsome
  rw [seen_eq he]
  unfold Host.byteAt
  rw [hR, map_some, hone _ R _ hR]

end

theorem byteAt_zeroed_ne_one (k : Kernel) (ptr p : HostPtr) (hr : p.region = ptr.region) (hlow : ptr.offset ≤ p.offset)
    (hhigh : p.offset < ptr.offset + pageSize) : (k.zeroed ptr).host.byteAt p ≠ some 1 := by
  change (k.host.zero ptr pageSize).byteAt p ≠ some 1
  rw [byteAt_zero, if_pos ⟨hr, hlow, hhigh⟩]
  cases k.host.byteAt p with
  | none => nofun
  | some b => simp

section

variable {ι : Type} [DecidableEq ι] [Finite ι] {w : World ι} {i : ι} {addr len : BitVec 64} (hw : w.Counted)
  (hv : (w.kernel.host.regions vdsoData).isSome)
  (hone : ∀ r R off, w.kernel.host.regions r = some R → R.bytes off = 1)
include hw hv hone

theorem Advised.fits_of_copy {a : Advising} (h : Advised w i addr len a) {p : Nat} {e : PtEntry}
    (he : memPt (w.mems i) (pageOf p) = some e) {s' : Kernel × Mem} {flags : Flags} (hpres : a.s.1.Preserves s'.1)
    (hnew : memPt s'.2 (pageOf p) = some ⟨a.s.1.nextData, 0, flags⟩)
    (hreg : regionOf s'.1 ⟨a.s.1.nextData, 0, flags⟩ = a.s.1.host.next)
    (hother : ∀ q, q % memPages ≠ pageOf p % memPages → memPt s'.2 q = memPt a.s.2 q)
    (hframe : MadviseFrame w i addr len
      ⟨(s'.1.zeroed ⟨a.s.1.host.next, pgOffset p⟩, s'.2), ⟨a.s.1.host.next, pgOffset p⟩ :: a.zeroed⟩) :
    pgOffset p = 0 ∧ InRange addr len (pageOf p % memPages) ∧ e.PrivateAnon := by
  have hpage : pgOffset p < pageSize := mod_lt _ (by decide)
  have hslot : pageOf p % memPages < memPages := mod_lt _ (by decide)
  -- only the page of `p` has the new mapping
  have hback : ∀ t < pageSize, InRange addr len (pageOf p % memPages) ∧ pgOffset p + t < pageSize := by
    intro t ht
    obtain ⟨q, hq, hrange, ⟨e₁, he₁, hbacks⟩ | ⟨e₁, he₁, hbacks⟩⟩ := hframe.backed _ (mem_cons_self ..) t ht
    · have hlt := regionOf_lt hw he₁
      rw [hbacks.1] at hlt
      exact absurd hlt (Nat.not_lt.2 h.ext.hostNext)
    · by_cases hq' : q % memPages = pageOf p % memPages
      · have hsame : memPt s'.2 q = some ⟨a.s.1.nextData, 0, flags⟩ := (memPt_congr s'.2 hq').trans hnew
        cases he₁.symm.trans hsame
        rw [mod_eq_of_lt hq] at hq'
        have hlt := hbacks.2.2
        dsimp only at hlt
        exact ⟨hq' ▸ hrange, by omega⟩
      · have hold : memPt (update w.mems i a.s.2 i) q = some e₁ := by
          rw [update_self]
          exact (hother q hq').symm.trans he₁
        have hlt := Counted.lt_of_memPt h.counted hold
        have hregion : regionOf s'.1 e₁ = regionOf a.s.1 e₁ := hpres.ext.data _ hlt
        have hregion' : regionOf s'.1 e₁ = a.s.1.host.next := hbacks.1
        have hbound := Counted.region_lt h.counted _ hlt
        rw [← regionOf, ← hregion, hregion'] at hbound
        exact absurd hbound (Nat.lt_irrefl _)
  have hzero : pgOffset p = 0 := by
    by_contra hne
    have hlast := (hback (pageSize - pgOffset p) (by omega)).2
    omega
  refine ⟨hzero, (hback 0 (by decide)).1, ?_⟩
  by_contra hnot
  have he₀ : memPt (w.mems i) (pageOf p % memPages) = some e := (memPt_slot _ _).trans he
  have hseen := hframe.shared i _ e 0 1 hslot (by decide) he₀ hnot (seen_one hw hv hone he₀ 0)
  rw [update_self, seen_eq ((memPt_slot s'.2 (pageOf p)).trans hnew)] at hseen
  refine byteAt_zeroed_ne_one _ _ _ ?_ ?_ ?_ hseen
  · exact hreg
  · rw [hzero]
  · rw [hzero]
    exact Nat.lt_add_of_pos_right (by decide)

theorem Advised.mine_of_zeroed {a : Advising} (h : Advised w i addr len a) {p : Nat} {e : PtEntry}
    (he : memPt (w.mems i) (pageOf p) = some e) {m : Mem} (hm : ∀ q, memPt m q = memPt a.s.2 q)
    (hframe : MadviseFrame w i addr len
      ⟨(a.s.1.zeroed (pointerTo a.s.1 e p), m), pointerTo a.s.1 e p :: a.zeroed⟩) {t : Nat} (ht : t < pageSize) :
    Mine w i addr len ⟨regionOf w.kernel e, e.offset + pgOffset p + t⟩ := by
  have hregion := regionOf_of_extends hw h.ext he
  constructor
  · obtain ⟨q, hq, hrange, ⟨e₁, he₁, hbacks⟩ | ⟨e₁, he₁, hbacks⟩⟩ := hframe.backed _ (mem_cons_self ..) t ht
    · refine ⟨q, e₁, hq, hrange, he₁, ?_⟩
      unfold Backs pointerTo at hbacks
      rwa [hregion] at hbacks
    · change regionOf a.s.1 e₁ = regionOf a.s.1 e ∧ _ at hbacks
      have he₁' : memPt a.s.2 q = some e₁ := (hm q).symm.trans he₁
      rcases h.entry q hq with heq | ⟨e₀, e', hcopy⟩
      · have hold := heq.symm.trans he₁'
        rw [hregion, regionOf_of_extends hw h.ext hold] at hbacks
        exact ⟨q, e₁, hq, hrange, hold, hbacks⟩
      · cases he₁'.symm.trans hcopy.new
        have hlow := hcopy.region
        rw [hbacks.1, hregion] at hlow
        exact absurd (regionOf_lt hw he) (Nat.not_lt.2 hlow)
  · intro j q e₁ hq he₁ hbacks
    by_contra hnot
    obtain ⟨hreg, hlow, hhigh⟩ := hbacks
    dsimp only at hreg hlow hhigh
    -- the byte is still read through the same entry
    have hstill : memPt (update w.mems i m j) q = some e₁ := by
      by_cases hj : j = i
      · subst hj
        rw [update_self, hm]
        rcases h.entry q hq with heq | ⟨e₀, e', hcopy⟩
        · rw [heq, he₁]
        · cases he₁.symm.trans hcopy.old
          exact absurd ⟨rfl, hcopy.range, hcopy.anon⟩ hnot
      · rw [update_of_ne hj]
        exact he₁
    have hbefore := seen_one hw hv hone he₁ (e.offset + pgOffset p + t - e₁.offset)
    have hafter : seen (a.s.1.zeroed (pointerTo a.s.1 e p)) (update w.mems i m j) q
        (e.offset + pgOffset p + t - e₁.offset) = some 1 := by
      by_cases hin : j = i ∧ InRange addr len q
      · exact hframe.shared j q e₁ _ 1 hq (by omega) he₁ (fun hanon => hnot ⟨hin.1, hin.2, hanon⟩) hbefore
      · exact hframe.outside j q _ 1 hq (by omega) hin hbefore
    rw [seen_eq hstill, Nat.add_sub_cancel' hlow] at hafter
    refine byteAt_zeroed_ne_one _ _ _ ?_ ?_ ?_ hafter
    · change regionOf a.s.1 e₁ = regionOf a.s.1 e
      rw [hregion, regionOf_of_extends hw h.ext he₁, hreg]
    · exact Nat.le_add_right ..
    · dsimp only [pointerTo]
      omega

/-- **A round after which the frame holds** was at a page that can be discarded. -/
theorem Advised.pageFits {a a' : Advising} (h : Advised w i addr len a) {p : Nat} (hp : p < wordMod)
    (haligned : pgOffset p = pgOffset addr.toNat) (hround : sysMadvise.round FaultEnv.good a p = some a')
    (hframe : MadviseFrame w i addr len a') : PageFits w i addr len p := by
  intro e he hwrite
  have hslot : pageOf p % memPages < memPages := mod_lt _ (by decide)
  rcases h.entry _ hslot with heq | ⟨e₀, e', hcopy⟩
  · rw [memPt_slot, memPt_slot, he] at heq
    have hdata := h.data_lt heq
    split_ifs with hcow
    · unfold sysMadvise.round at hround
      rw [heq] at hround
      rcases memPtr_write_copy FaultEnv.good a.s hp heq hwrite hcow hdata (Counted.region_lt h.counted _ hdata) with
        ⟨hmmap, -⟩ | ⟨hmalloc, -⟩ | ⟨-, s', hs', hpt, hreg⟩
      · exact absurd rfl hmmap
      · exact absurd rfl hmalloc
      · rw [hs'] at hround
        cases hround
        exact h.fits_of_copy hw hv hone he (preserves_memPtr hs') hpt hreg
          (fun q hq => memPt_memPtr_of_ne hs' hq) hframe
    · rw [round_of_writable _ a p heq hwrite hcow] at hround
      cases hround
      intro t ht
      exact h.mine_of_zeroed hw hv hone he (m := (memPtr.touch a.s (pageOf p) .write e).2) (fun q => rfl) hframe ht
  · have hold := hcopy.old
    rw [memPt_slot, he] at hold
    cases hold
    rw [if_pos hcopy.cow, haligned]
    exact ⟨hcopy.aligned, hcopy.range, hcopy.anon⟩

end

/-! ### The whole walk -/

theorem visit_zero {p : Nat} (hp : p < wordMod) : visit p 0 = p := by
  unfold visit
  rw [Nat.zero_mul, Nat.add_zero, mod_eq_of_lt hp]

theorem visit_next (p n : Nat) : visit ((p + pageSize) % wordMod) n = visit p (n + 1) := by
  unfold visit
  rw [mod_add_mod, Nat.add_mul, Nat.one_mul, Nat.add_assoc, Nat.add_comm pageSize]

theorem pgOffset_next (p : Nat) : pgOffset ((p + pageSize) % wordMod) = pgOffset p := by
  unfold pgOffset
  rw [mod_mod_of_dvd _ (by decide), add_mod_right]

section

variable {ι : Type} {w : World ι} {i : ι} {addr len : BitVec 64} {stop p : Nat}

theorem WalkFits.head (h : WalkFits w i addr len stop p) (hp : p < wordMod) (hstop : p < stop) :
    PageFits w i addr len p := by
  have hhead := h 0 fun m hm => by
    rw [le_zero.1 hm, visit_zero hp]
    exact hstop
  rwa [visit_zero hp] at hhead

theorem WalkFits.next (h : WalkFits w i addr len stop p) (hp : p < wordMod) (hstop : p < stop) :
    WalkFits w i addr len stop ((p + pageSize) % wordMod) := by
  intro n hn
  rw [visit_next]
  refine h (n + 1) fun m hm => ?_
  cases m with
  | zero =>
    rw [visit_zero hp]
    exact hstop
  | succ m =>
    rw [← visit_next]
    exact hn m (by omega)

variable [DecidableEq ι] [Finite ι] (hw : w.Counted)
include hw

/-- **Every walk** over pages that can be discarded keeps the frame. -/
theorem advised_go {fes : List FaultEnv} {a a' : Advising} (hp : p < wordMod)
    (haligned : pgOffset p = pgOffset addr.toNat) (hfits : WalkFits w i addr len stop p)
    (h : Advised w i addr len a) (hgo : sysMadvise.go stop fes p a = some a') : Advised w i addr len a' := by
  induction fes generalizing p a with
  | nil =>
    cases hgo
    exact h
  | cons fe fes ih =>
    rw [sysMadvise.go] at hgo
    split_ifs at hgo with hstop
    · cases hround : sysMadvise.round fe a p with
      | none =>
        rw [hround] at hgo
        cases hgo
      | some a₁ =>
        rw [hround] at hgo
        exact ih (mod_lt _ (by decide)) ((pgOffset_next p).trans haligned) (hfits.next hp hstop)
          (h.round hw hp haligned (hfits.head hp hstop) hround) hgo
    · cases hgo
      exact h

/-- **Only those walks** do, in memory full of ones on a host that refuses nothing. -/
theorem walkFits_of_frame (hv : (w.kernel.host.regions vdsoData).isSome)
    (hone : ∀ r R off, w.kernel.host.regions r = some R → R.bytes off = 1) {a : Advising} (hp : p < wordMod)
    (haligned : pgOffset p = pgOffset addr.toNat) (h : Advised w i addr len a)
    (hframe : ∀ fes a', sysMadvise.go stop fes p a = some a' → MadviseFrame w i addr len a') :
    WalkFits w i addr len stop p := by
  intro n hn
  induction n generalizing p a with
  | zero =>
    have hstop := hn 0 (le_refl _)
    rw [visit_zero hp] at hstop ⊢
    obtain ⟨a₁, hround⟩ := h.exists_round hp
    refine h.pageFits hw hv hone hp haligned hround (hframe [FaultEnv.good] a₁ ?_)
    rw [sysMadvise.go, if_pos hstop, hround]
    rfl
  | succ n ih =>
    have hstop := hn 0 (Nat.zero_le _)
    rw [visit_zero hp] at hstop
    obtain ⟨a₁, hround⟩ := h.exists_round hp
    have hgo : ∀ fes, sysMadvise.go stop (FaultEnv.good :: fes) p a =
        sysMadvise.go stop fes ((p + pageSize) % wordMod) a₁ := by
      intro fes
      rw [sysMadvise.go, if_pos hstop, hround]
    have hfits := h.pageFits hw hv hone hp haligned hround (hframe [FaultEnv.good] a₁ (hgo []))
    rw [← visit_next]
    refine ih (mod_lt _ (by decide)) ((pgOffset_next p).trans haligned) (h.round hw hp haligned hfits hround)
      (fun fes a' hgo' => hframe (FaultEnv.good :: fes) a' ((hgo fes).trans hgo')) fun m hm => ?_
    rw [visit_next]
    exact hn (m + 1) (by omega)

end

/-! ### `madvise` -/

/-- The same page tables over other memory. -/
def World.withBytes {ι : Type} (w : World ι) (f : RegionId → Nat → UInt8) : World ι :=
  { w with kernel := { w.kernel with host := { w.kernel.host with
      regions := fun r => (w.kernel.host.regions r).map fun R => { R with bytes := f r } } } }

theorem mine_withBytes {ι : Type} {w : World ι} (f : RegionId → Nat → UInt8) {i : ι} {addr len : BitVec 64}
    {p : HostPtr} : Mine (w.withBytes f) i addr len p ↔ Mine w i addr len p :=
  ⟨fun h => ⟨h.some, h.only⟩, fun h => ⟨h.some, h.only⟩⟩

theorem walkFits_withBytes {ι : Type} {w : World ι} (f : RegionId → Nat → UInt8) {i : ι} {addr len : BitVec 64}
    {stop p : Nat} : WalkFits (w.withBytes f) i addr len stop p ↔ WalkFits w i addr len stop p := by
  unfold WalkFits PageFits
  simp only [mine_withBytes]
  rfl

/-- **`madvise` keeps its frame**, whatever the memory holds and however the host answers, exactly if every page of its
walk can be discarded. -/
theorem madvise_frame_iff {ι : Type} [DecidableEq ι] [Finite ι] (w : World ι) (hw : w.Counted)
    (hv : (w.kernel.host.regions vdsoData).isSome) (i : ι) (addr len : BitVec 64) (advice : BitVec 32) :
    (∀ f fes a, sysMadvise fes ((w.withBytes f).at i) addr len advice = some a →
      MadviseFrame (w.withBytes f) i addr len a) ↔
      (discards advice → WalkFits w i addr len (sysMadvise.stop addr len) addr.toNat) := by
  have hcounted : ∀ f, (w.withBytes f).Counted := fun f =>
    Counted.quiet hw (.of_host rfl rfl (le_refl _) fun _ _ => isSome_map)
  unfold sysMadvise
  by_cases hdiscards : discards advice
  · simp only [if_pos hdiscards]
    constructor
    · intro h _
      have hone : ∀ r R off, (w.withBytes fun _ _ => 1).kernel.host.regions r = some R → R.bytes off = 1 := by
        intro r R off hR
        obtain ⟨R₀, -, rfl⟩ := map_eq_some_iff.1 hR
        rfl
      exact (walkFits_withBytes _).1 (walkFits_of_frame (hcounted _) (isSome_map.trans hv) hone addr.isLt rfl
        (advised_start (hcounted _)) (fun fes a => h (fun _ _ => 1) fes a))
    · intro h f fes a hgo
      have hfits := (walkFits_withBytes f).2 (h hdiscards)
      exact (advised_go (hcounted f) addr.isLt rfl hfits (advised_start (hcounted f)) hgo).frame (hcounted f)
  · simp only [if_neg hdiscards]
    refine iff_of_true (fun f fes a h => ?_) fun h => absurd h hdiscards
    cases h
    exact (advised_start (hcounted f)).frame (hcounted f)

theorem counted_writablePage : writablePage.Counted := by
  have hrun : Run (World.step 4096) World.Fits (worldInit Unit) writablePage :=
    .tail (.mapNothing HostEnv.good () 0x100 1 (pRead ||| pWrite)) (.refl _) (loopCount_one_lt_refMod _) rfl
  exact counted_of_run hrun

theorem memPt_writablePage {q : Nat} {e : PtEntry} (hq : q < memPages) (he : memPt (writablePage.mems ()) q = some e) :
    q = 0x100 ∧ e = ⟨0, 0, pRead ||| pWrite ||| pAnonymous⟩ := by
  have hpage : q = 0x100 := by
    by_contra hne
    have hne' : q % memPages ≠ 0x100 % memPages := by
      rw [mod_eq_of_lt hq]
      exact hne
    have hnone : memPt (writablePage.mems ()) q = memPt memInit q :=
      memPt_ptMap_one_of_ne HostEnv.good (ptMapNothing.mmapped kernelInit 1 (pRead ||| pWrite), memInit) 0x100 (some 1) 0
        (pRead ||| pWrite ||| pAnonymous) hne'
    rw [hnone] at he
    cases he
  subst hpage
  have hentry : memPt (writablePage.mems ()) 0x100 = some ⟨0, 0, pRead ||| pWrite ||| pAnonymous⟩ := rfl
  exact ⟨rfl, Option.some.inj (he.symm.trans hentry)⟩

theorem walkFits_writablePage :
    WalkFits writablePage () 0x100000#64 0x1000#64 (sysMadvise.stop 0x100000#64 0x1000#64) (0x100000#64).toNat := by
  intro n hn
  have hzero : n = 0 := by
    by_contra hne
    exact absurd (hn 1 (by omega)) (by decide)
  subst hzero
  intro e he _
  obtain ⟨-, rfl⟩ := memPt_writablePage (q := 0x100) (by decide) he
  rw [if_neg (by decide)]
  intro t ht
  have hback : Backs writablePage.kernel ⟨0, 0, pRead ||| pWrite ||| pAnonymous⟩ ⟨1, t⟩ :=
    ⟨rfl, Nat.zero_le _, by dsimp only; omega⟩
  have hrange : InRange 0x100000#64 0x1000#64 0x100 := ⟨by decide, by decide⟩
  have hmine : Mine writablePage () 0x100000#64 0x1000#64 ⟨1, t⟩ := by
    refine ⟨⟨0x100, _, by decide, hrange, he, hback⟩, fun j q e hq he' _ => ?_⟩
    obtain ⟨rfl, rfl⟩ := memPt_writablePage hq he'
    exact ⟨rfl, hrange, by decide, by decide⟩
  have hptr : (⟨regionOf writablePage.kernel ⟨0, 0, pRead ||| pWrite ||| pAnonymous⟩,
      0 + pgOffset (visit (0x100000#64).toNat 0) + t⟩ : HostPtr) = ⟨1, t⟩ := by
    have hoff : pgOffset (visit (0x100000#64).toNat 0) = 0 := by decide
    rw [hoff, Nat.zero_add]
    rfl
  rw [hptr]
  exact hmine

theorem madvise_frame_writablePage :
    ∃ a, sysMadvise [FaultEnv.good] ((writablePage.withBytes fun _ _ => 1).at ()) 0x100000#64 0x1000#64 4#32 = some a ∧
      MadviseFrame (writablePage.withBytes fun _ _ => 1) () 0x100000#64 0x1000#64 a := by
  have hframe := (madvise_frame_iff writablePage counted_writablePage rfl () 0x100000#64 0x1000#64 4#32).2
    fun _ => walkFits_writablePage
  exact ⟨_, rfl, hframe _ [FaultEnv.good] _ rfl⟩

/-- One process with a shared page at `0x100000`. -/
def sharedPage : World Unit :=
  (worldInit Unit).put () (ptMapNothing HostEnv.good (kernelInit, memInit) 0x100 1 (pRead ||| pWrite ||| pShared)).2

/-- **Shared memory and host memory behind a page are overwritten**: `MADV_DONTNEED` of a shared page zeroes it, and
from the middle of a page on `memset` leaves the host page. -/
theorem madvise_breaks_frame :
    (∃ a, sysMadvise [FaultEnv.good] ((sharedPage.withBytes fun _ _ => 1).at ()) 0x100000#64 0x1000#64 4#32 = some a ∧
      ¬ MadviseFrame (sharedPage.withBytes fun _ _ => 1) () 0x100000#64 0x1000#64 a) ∧
    ∃ a, sysMadvise [FaultEnv.good] (writablePage.at ()) 0x100800#64 0x800#64 4#32 = some a ∧
      ¬ MadviseFrame writablePage () 0x100800#64 0x800#64 a := by
  refine ⟨⟨_, rfl, fun h => ?_⟩, ⟨_, rfl, fun h => ?_⟩⟩
  · have hshared := h.shared () 0x100 ⟨0, 0, pRead ||| pWrite ||| pShared ||| pAnonymous⟩ 0 1 (by decide) (by decide) rfl
      (fun hanon => absurd hanon.2 (by decide)) rfl
    exact absurd hshared (by decide)
  · obtain ⟨q, -, hrange, hback⟩ := h.backed ⟨1, 0x800⟩ (mem_cons_self ..) 0x800 (by decide)
    have hq : q = 0x100 := by
      unfold InRange pageSize at hrange
      simp at hrange
      omega
    subst hq
    rcases hback with ⟨e, he, -, -, hlt⟩ | ⟨e, he, -, -, hlt⟩
    · obtain rfl : (⟨0, 0, pRead ||| pWrite ||| pAnonymous⟩ : PtEntry) = e := Option.some.inj he
      exact absurd hlt (by decide)
    · obtain rfl : (⟨0, 0, pRead ||| pWrite ||| pAnonymous⟩ : PtEntry) = e := Option.some.inj he
      exact absurd hlt (by decide)

end Ish
