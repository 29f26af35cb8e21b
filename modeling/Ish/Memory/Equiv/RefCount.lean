import Ish.Lib.Run
import Ish.Lib.Tally
import Ish.Memory.World
import Ish.Memory.Equiv.Fault
import Ish.Memory.Equiv.Mmap

/-!
# The lifetime of page backings

A `struct data` counts the entries that point to it, one address space like the other. `Counted`
is the invariant of the kernel with respect to the true number of entries, `Tracks` follows it
through the parts of an operation together with the fate of the objects that were there before:
an object is freed, and its host mapping with it, when its last entry goes.
-/

namespace Ish

open Lib Function

/-! ### The counts of the kernel -/

/-- The kernel agrees with the numbers `f` of entries that point to each object. -/
structure Counted (k : Kernel) (f : DataId → Nat) : Prop where
  live_lt : ∀ d, (k.datas d).live → d < k.nextData
  count : ∀ d, (k.datas d).live → (k.datas d).refcount = f d
  dead : ∀ d, (k.datas d).live = false → f d = 0
  vdso_lt : vdsoData < k.host.next
  region_lt : ∀ d, d < k.nextData → (k.datas d).data < k.host.next
  region_inj : ∀ d d', d < k.nextData → d' < k.nextData → (k.datas d).data = (k.datas d').data →
    (k.datas d).data ≠ vdsoData → d = d'
  mapped : ∀ d, d < k.nextData → (k.datas d).data ≠ vdsoData →
    (k.host.regions (k.datas d).data).isSome = (k.datas d).live

theorem counted_kernelInit : Counted kernelInit fun _ => 0 where
  live_lt _ h := by cases h
  count _ h := by cases h
  dead _ _ := rfl
  vdso_lt := Nat.lt_succ_self _
  region_lt _ h := absurd h (Nat.not_lt_zero _)
  region_inj _ _ h := absurd h (Nat.not_lt_zero _)
  mapped _ h := absurd h (Nat.not_lt_zero _)

variable {k : Kernel} {f : DataId → Nat} {d : DataId}

theorem Counted.live_of_ne_zero (h : Counted k f) (hd : f d ≠ 0) : (k.datas d).live = true := by
  cases hlive : (k.datas d).live with
  | true => rfl
  | false => exact absurd (h.dead d hlive) hd

/-- A step that leaves the objects and their mappings alone: the host maps something new, changes
what a mapping holds, or drops a mapping that no object owns. -/
structure Kernel.Quiet (k k' : Kernel) : Prop where
  nextData : k'.nextData = k.nextData
  live : ∀ d, (k'.datas d).live = (k.datas d).live
  refcount : ∀ d, (k'.datas d).refcount = (k.datas d).refcount
  data : ∀ d, (k'.datas d).data = (k.datas d).data
  hostNext : k.host.next ≤ k'.host.next
  mapped : ∀ d, d < k.nextData →
    (k'.host.regions (k.datas d).data).isSome = (k.host.regions (k.datas d).data).isSome

theorem Kernel.Quiet.of_host {k' : Kernel} (hdatas : k'.datas = k.datas)
    (hnext : k'.nextData = k.nextData) (hhost : k.host.next ≤ k'.host.next)
    (hmap : ∀ d, d < k.nextData → (k'.host.regions (k.datas d).data).isSome =
      (k.host.regions (k.datas d).data).isSome) : k.Quiet k' where
  nextData := hnext
  live d := by rw [hdatas]
  refcount d := by rw [hdatas]
  data d := by rw [hdatas]
  hostNext := hhost
  mapped := hmap

theorem Kernel.Quiet.refl (k : Kernel) : k.Quiet k :=
  .of_host rfl rfl (le_refl _) fun _ _ => rfl

theorem Kernel.Quiet.trans {k' k'' : Kernel} (h : k.Quiet k') (h' : k'.Quiet k'') : k.Quiet k'' where
  nextData := h'.nextData.trans h.nextData
  live d := (h'.live d).trans (h.live d)
  refcount d := (h'.refcount d).trans (h.refcount d)
  data d := (h'.data d).trans (h.data d)
  hostNext := le_trans h.hostNext h'.hostNext
  mapped d hd := by
    have hmid := h'.mapped d (h.nextData ▸ hd)
    rw [h.data d] at hmid
    exact hmid.trans (h.mapped d hd)

theorem Counted.quiet {k' : Kernel} (h : Counted k f) (hq : k.Quiet k') : Counted k' f where
  live_lt d := by
    rw [hq.live, hq.nextData]
    exact h.live_lt d
  count d := by
    rw [hq.live, hq.refcount]
    exact h.count d
  dead d := by
    rw [hq.live]
    exact h.dead d
  vdso_lt := lt_of_lt_of_le h.vdso_lt hq.hostNext
  region_lt d hd := by
    rw [hq.nextData] at hd
    rw [hq.data]
    exact lt_of_lt_of_le (h.region_lt d hd) hq.hostNext
  region_inj d d' hd hd' := by
    rw [hq.nextData] at hd hd'
    rw [hq.data, hq.data]
    exact h.region_inj d d' hd hd'
  mapped d hd := by
    rw [hq.nextData] at hd
    rw [hq.data, hq.live, hq.mapped d hd]
    exact h.mapped d hd

/-! ### Retain and release -/

theorem incRef_of_lt {n : Nat} (h : n + 1 < refMod) : incRef n = n + 1 := by
  unfold incRef
  exact if_neg (by omega)

theorem decRef_of_ne_zero {n : Nat} (h : n ≠ 0) : decRef n = n - 1 := by
  unfold decRef
  exact if_neg h

theorem Counted.retain (h : Counted k f) (hlive : (k.datas d).live) (hfit : f d + 1 < refMod) :
    Counted (dataRetain k d) (update f d (f d + 1)) := by
  have hdatas : ∀ d', ((dataRetain k d).datas d').live = (k.datas d').live := by
    intro d'
    unfold dataRetain
    by_cases hd : d' = d
    · simp [hd]
    · simp [hd]
  refine ⟨fun d' => ?_, fun d' => ?_, fun d' => ?_, h.vdso_lt, fun d' => ?_, fun d₁ d₂ => ?_,
    fun d' => ?_⟩
  · rw [hdatas]
    exact h.live_lt d'
  · rw [hdatas]
    intro hl
    by_cases hd : d' = d
    · subst hd
      have hcount := h.count d' hl
      simp [dataRetain, hcount, incRef_of_lt hfit]
    · simp [dataRetain, hd, h.count d' hl]
  · rw [hdatas]
    intro hl
    have hd : d' ≠ d := by
      rintro rfl
      simp [hlive] at hl
    rw [update_of_ne hd]
    exact h.dead d' hl
  · rw [dataRetain_data]
    exact h.region_lt d'
  · rw [dataRetain_data, dataRetain_data]
    exact h.region_inj d₁ d₂
  · rw [dataRetain_data, hdatas]
    exact h.mapped d'

/-- What `--data->refcount` does to an object with `n` entries. -/
theorem Counted.dataRelease_live (h : Counted k f) (hd : f d ≠ 0) (d' : DataId) :
    ((dataRelease k d).datas d').live = if d' = d then decide (f d ≠ 1) else (k.datas d').live := by
  have hlive := h.live_of_ne_zero hd
  by_cases heq : d' = d
  · subst heq
    have hcount := h.count d' hlive
    have hone : (f d' - 1 == 0) = decide (f d' = 1) := by
      rw [Bool.eq_iff_iff]
      simp only [beq_iff_eq, decide_eq_true_eq]
      omega
    simp [dataRelease, hcount, decRef_of_ne_zero hd, hlive, hone]
  · simp [dataRelease, heq]

theorem Counted.dataRelease_regions (h : Counted k f) (hd : f d ≠ 0) (r : RegionId) : (dataRelease k d).host.regions r =
      if f d = 1 ∧ r ≠ vdsoData ∧ r = (k.datas d).data then none else k.host.regions r := by
  have hcount := h.count d (h.live_of_ne_zero hd)
  have hone : (decRef (k.datas d).refcount == 0) = decide (f d = 1) := by
    rw [hcount, decRef_of_ne_zero hd, Bool.eq_iff_iff]
    simp only [beq_iff_eq, decide_eq_true_eq]
    omega
  simp only [dataRelease, hone]
  by_cases hf : f d = 1
  · by_cases hv : (k.datas d).data = vdsoData
    · by_cases hr : r = (k.datas d).data
      · simp [hf, hv, hr]
      · simp [hf, hv, hv ▸ hr]
    · by_cases hr : r = (k.datas d).data
      · simp [hf, hv, hr, Host.munmap]
      · simp [hf, hv, hr, Host.munmap]
  · simp [hf]

theorem Counted.release (h : Counted k f) (hd : f d ≠ 0) : Counted (dataRelease k d) (update f d (f d - 1)) := by
  have hlive := h.live_of_ne_zero hd
  refine ⟨fun d' => ?_, fun d' => ?_, fun d' => ?_, ?_, fun d' hd' => ?_, fun d₁ d₂ => ?_,
    fun d' hd' => ?_⟩
  · rw [h.dataRelease_live hd]
    split_ifs with heq
    · exact fun _ => heq ▸ h.live_lt d hlive
    · exact h.live_lt d'
  · rw [h.dataRelease_live hd]
    split_ifs with heq
    · subst heq
      have hcount := h.count d' hlive
      simp [dataRelease, hcount, decRef_of_ne_zero hd]
    · simpa [dataRelease, heq] using h.count d'
  · rw [h.dataRelease_live hd]
    split_ifs with heq
    · subst heq
      rw [update_self]
      intro hone
      simp only [ne_eq, decide_not, Bool.not_eq_false', decide_eq_true_eq] at hone
      omega
    · rw [update_of_ne heq]
      exact h.dead d'
  · rw [dataRelease_hostNext]
    exact h.vdso_lt
  · rw [dataRelease_data, dataRelease_hostNext]
    exact h.region_lt d' hd'
  · rw [dataRelease_data, dataRelease_data]
    exact h.region_inj d₁ d₂
  · rw [dataRelease_data, h.dataRelease_live hd, h.dataRelease_regions hd]
    intro hv
    by_cases heq : d' = d
    · subst heq
      have hmapped := h.mapped d' hd' hv
      by_cases hone : f d' = 1
      · simp [hone, hv]
      · simp [hone, hmapped, hlive]
    · -- two objects do not share a mapping
      have hr : (k.datas d').data ≠ (k.datas d).data :=
        fun hr => heq (h.region_inj d' d hd' (h.live_lt d hlive) hr hv)
      simp [heq, hr, h.mapped d' hd' hv]

/-! ### New objects -/

theorem Counted.newData (h : Counted k f) (pages offset : Nat)
    {r : RegionId} (hr : r < k.host.next) (hown : r ≠ vdsoData →
      (k.host.regions r).isSome ∧ ∀ d, d < k.nextData → (k.datas d).data ≠ r) :
    Counted (ptMap.newData k pages r offset) f := by
  have hzero : f k.nextData = 0 := by
    cases hlive : (k.datas k.nextData).live with
    | true => exact absurd (h.live_lt _ hlive) (Nat.lt_irrefl _)
    | false => exact h.dead _ hlive
  have hnew : (ptMap.newData k pages r offset).datas k.nextData =
      ⟨r, (pages * pageSize + offset) % wordMod, 0, none, 0, true⟩ := by
    simp [ptMap.newData]
  have hold : ∀ d, d ≠ k.nextData → (ptMap.newData k pages r offset).datas d = k.datas d := by
    intro d hd
    simp [ptMap.newData, hd]
  have hlt : ∀ d, d < k.nextData + 1 → d ≠ k.nextData → d < k.nextData := by
    intro d h1 h2
    exact lt_of_le_of_ne (Nat.lt_succ_iff.1 h1) h2
  refine ⟨fun d => ?_, fun d => ?_, fun d => ?_, h.vdso_lt, fun d hd => ?_, fun d d' hd hd' => ?_,
    fun d hd => ?_⟩
  · by_cases heq : d = k.nextData
    · exact fun _ => heq ▸ Nat.lt_succ_self _
    · rw [hold d heq]
      exact fun hl => Nat.lt_succ_of_lt (h.live_lt d hl)
  · by_cases heq : d = k.nextData
    · rw [heq, hnew, hzero]
      exact fun _ => rfl
    · rw [hold d heq]
      exact h.count d
  · by_cases heq : d = k.nextData
    · exact fun _ => heq ▸ hzero
    · rw [hold d heq]
      exact h.dead d
  · by_cases heq : d = k.nextData
    · rw [heq, hnew]
      exact hr
    · rw [hold d heq]
      exact h.region_lt d (hlt d hd heq)
  · by_cases heq : d = k.nextData
    · by_cases heq' : d' = k.nextData
      · exact fun _ _ => heq.trans heq'.symm
      · rw [heq, hnew, hold d' heq']
        exact fun hreg hv => absurd hreg.symm ((hown hv).2 d' (hlt d' hd' heq'))
    · by_cases heq' : d' = k.nextData
      · rw [heq', hnew, hold d heq]
        intro (hreg : (k.datas d).data = r) hv
        exact absurd hreg ((hown (hreg ▸ hv)).2 d (hlt d hd heq))
      · rw [hold d heq, hold d' heq']
        exact h.region_inj d d' (hlt d hd heq) (hlt d' hd' heq')
  · by_cases heq : d = k.nextData
    · rw [heq, hnew]
      exact fun hv => (hown hv).1
    · rw [hold d heq]
      exact h.mapped d (hlt d hd heq)

/-! ### Along an operation -/

/-- From the kernel `k₀` with the numbers `f₀` to the kernel `k` with the numbers `f`: the counts are
right, and an object below `n` is freed iff its number of entries has dropped to zero. -/
structure Tracks (n : DataId) (k₀ : Kernel) (f₀ : DataId → Nat) (k : Kernel) (f : DataId → Nat) :
    Prop where
  counted : Counted k f
  next : n ≤ k.nextData
  region : ∀ d, d < n → (k.datas d).data = (k₀.datas d).data
  zero : ∀ d, d < n → f₀ d = 0 → f d = 0
  live : ∀ d, d < n → ((k.datas d).live ↔ (k₀.datas d).live ∧ (f₀ d = 0 ∨ f d ≠ 0))

theorem Counted.tracks (h : Counted k f) : Tracks k.nextData k f k f := by
  refine ⟨h, le_refl _, fun _ _ => rfl, fun _ _ h0 => h0, fun d _ => ?_⟩
  exact ⟨fun hl => ⟨hl, Nat.eq_zero_or_pos _ |>.imp id Nat.ne_of_gt⟩, And.left⟩

section Tracks

variable {n : DataId} {k₀ k k' : Kernel} {f₀ f : DataId → Nat}

section

variable (h : Tracks n k₀ f₀ k f)
include h

theorem Tracks.quiet (hq : k.Quiet k') : Tracks n k₀ f₀ k' f where
  counted := h.counted.quiet hq
  next := hq.nextData ▸ h.next
  region d hd := (hq.data d).trans (h.region d hd)
  zero := h.zero
  live d hd := by
    rw [hq.live]
    exact h.live d hd

/-- A reference is given up. -/
theorem Tracks.release (hd : f d ≠ 0) : Tracks n k₀ f₀ (dataRelease k d) (update f d (f d - 1)) := by
  refine ⟨h.counted.release hd, h.next, fun d' hd' => ?_, fun d' hd' h0 => ?_, fun d' hd' => ?_⟩
  · rw [dataRelease_data]
    exact h.region d' hd'
  · have hf := h.zero d' hd' h0
    have hne : d' ≠ d := fun heq => hd (heq ▸ hf)
    rw [update_of_ne hne]
    exact hf
  · rw [h.counted.dataRelease_live hd]
    split_ifs with heq
    · subst heq
      have hlive := (h.live d' hd').1 (h.counted.live_of_ne_zero hd)
      have h0 : f₀ d' ≠ 0 := fun h0 => hd (h.zero d' hd' h0)
      rw [update_self]
      simp only [decide_eq_true_eq, hlive.1, h0, true_and, false_or]
      omega
    · rw [update_of_ne heq]
      exact h.live d' hd'

theorem Tracks.retain (hlive : (k.datas d).live) (hfit : f d + 1 < refMod) (hold : d < n → f d ≠ 0) :
    Tracks n k₀ f₀ (dataRetain k d) (update f d (f d + 1)) := by
  have hlive' : ∀ d', ((dataRetain k d).datas d').live = (k.datas d').live := by
    intro d'
    by_cases hd : d' = d
    · simp [dataRetain, hd]
    · simp [dataRetain, hd]
  refine ⟨h.counted.retain hlive hfit, h.next, fun d' hd' => ?_, fun d' hd' h0 => ?_,
    fun d' hd' => ?_⟩
  · rw [dataRetain_data]
    exact h.region d' hd'
  · have hf := h.zero d' hd' h0
    have hne : d' ≠ d := by
      rintro rfl
      exact hold hd' hf
    rw [update_of_ne hne]
    exact hf
  · rw [hlive', h.live d' hd']
    by_cases heq : d' = d
    · subst heq
      simp [hold hd']
    · rw [update_of_ne heq]

theorem Tracks.newData (pages offset : Nat) {r : RegionId} (hr : r < k.host.next)
    (hown : r ≠ vdsoData → (k.host.regions r).isSome ∧ ∀ d, d < k.nextData → (k.datas d).data ≠ r) :
    Tracks n k₀ f₀ (ptMap.newData k pages r offset) f := by
  have hold : ∀ d, d < n → (ptMap.newData k pages r offset).datas d = k.datas d := by
    intro d hd
    have hne : d ≠ k.nextData := Nat.ne_of_lt (lt_of_lt_of_le hd h.next)
    simp [ptMap.newData, hne]
  refine ⟨h.counted.newData pages offset hr hown, Nat.le_succ_of_le h.next, fun d hd => ?_, h.zero,
    fun d hd => ?_⟩
  · rw [hold d hd]
    exact h.region d hd
  · rw [hold d hd]
    exact h.live d hd

end

end Tracks

end Ish
