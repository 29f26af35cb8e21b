import Ish.Memory.Map
import Ish.Memory.Equiv.PageTable
import Ish.Memory.Equiv.Reservation

/-!
# What the mapping functions do to the page table

For each function of `Ish.Memory.Map`, the entry of every slot after the call, and what the call
leaves alone. The skipping loops are first turned into plain ones.
-/

namespace Ish

open Lib Function

/-! ### The page loops -/

/-- Some page of `[start, start + n)` has the slot of `q`. -/
def Touches (start n q : Nat) : Prop :=
  ∃ p, start ≤ p ∧ p < start + n ∧ q % memPages = p % memPages

theorem touches_zero (start q : Nat) : ¬ Touches start 0 q := by
  rintro ⟨p, h1, h2, -⟩
  omega

theorem touches_succ (start n q : Nat) :
    Touches start (n + 1) q ↔ Touches start n q ∨ q % memPages = (start + n) % memPages := by
  constructor
  · rintro ⟨p, h1, h2, h3⟩
    by_cases hp : p < start + n
    · exact Or.inl ⟨p, h1, hp, h3⟩
    · rw [show start + n = p by omega]
      exact Or.inr h3
  · rintro (⟨p, h1, h2, h3⟩ | h)
    · exact ⟨p, h1, by omega, h3⟩
    · exact ⟨start + n, by omega, by omega, h⟩

theorem Touches.mono {start n n' q : Nat} (h : Touches start n q) (hn : n ≤ n') : Touches start n' q := by
  obtain ⟨p, h1, h2, h3⟩ := h
  exact ⟨p, h1, by omega, h3⟩

theorem touches_one (start q : Nat) : Touches start 1 q ↔ q % memPages = start % memPages := by
  rw [touches_succ, Nat.add_zero]
  exact or_iff_right (touches_zero start q)

theorem touches_iff_of_le {start n q : Nat} (h : start + n ≤ memPages) (hq : q < memPages) :
    Touches start n q ↔ start ≤ q ∧ q < start + n := by
  constructor
  · rintro ⟨p, h1, h2, h3⟩
    rw [Nat.mod_eq_of_lt hq, Nat.mod_eq_of_lt (by omega)] at h3
    omega
  · rintro ⟨h1, h2⟩
    exact ⟨q, h1, h2, rfl⟩

theorem loopCount_eq {start pages : Nat} (h : start + pages < wordMod) : loopCount start pages = pages := by
  unfold loopCount loopStop
  rw [Nat.mod_eq_of_lt h]
  omega

variable (realPageSize : Nat) (env : HostEnv) (k : Kernel) (data : DataId) (d : DataId) (src dst : Mem)
  (start pages : Nat) (flags : Flags)

theorem loopCount_le : loopCount start pages ≤ pages := by
  have hle := Nat.mod_le (start + pages) wordMod
  unfold loopCount loopStop
  omega

theorem loopCount_one {start : Nat} (h : start + 1 < wordMod) : loopCount start 1 = 1 :=
  loopCount_eq h

/-! ### `pt_unmap_always` -/

variable {s : Kernel × Mem} {page : Nat}

theorem ptUnmapAlways.body_of_none (h : memPt s.2 page = none) : body page s = s := by
  simp only [body, h]

/-- `mem_next_page` only leaves out turns that would do nothing. -/
theorem ptUnmapAlways_eq (s : Kernel × Mem) (start pages : Nat) : ptUnmapAlways env s start pages =
      let t := forRange ptUnmapAlways.body (loopCount start pages) start
        (s.1, ptUnmapAlways.enter env s.2 start pages)
      (t.1, memChanged t.2) := by
  unfold ptUnmapAlways
  rw [skipRange_eq_forRange]
  · rfl
  · exact fun s page => lt_memNextPage s.2 page
  · intro s page q hq hlt _
    exact ptUnmapAlways.body_of_none (memPt_eq_none_of_lt_memNextPage s.2 hq hlt)
  · exact le_refl _

/-! ### What no operation undoes

Names of `struct data` objects and of host mappings are handed out in order, and `data->data` is
immutable. -/

/-- `k'` is a later state of `k`. -/
structure Kernel.Extends (k k' : Kernel) : Prop where
  nextData : k.nextData ≤ k'.nextData
  hostNext : k.host.next ≤ k'.host.next
  data : ∀ d, d < k.nextData → (k'.datas d).data = (k.datas d).data
  region : ∀ d, k.nextData ≤ d → d < k'.nextData → (k'.datas d).data < k'.host.next

theorem Kernel.Extends.of_datas {k k' : Kernel} (hnext : k'.nextData = k.nextData)
    (hhost : k.host.next ≤ k'.host.next) (hdata : ∀ d, (k'.datas d).data = (k.datas d).data) : k.Extends k' :=
  ⟨hnext.ge, hhost, fun d _ => hdata d,
    fun d hd hd' => absurd hd' (by rw [hnext]; exact Nat.not_lt.2 hd)⟩

theorem Kernel.Extends.refl : k.Extends k :=
  .of_datas rfl (le_refl _) fun _ => rfl

theorem Kernel.Extends.trans {k k' k'' : Kernel} (h : k.Extends k') (h' : k'.Extends k'') : k.Extends k'' where
  nextData := le_trans h.nextData h'.nextData
  hostNext := le_trans h.hostNext h'.hostNext
  data d hd := (h'.data d (lt_of_lt_of_le hd h.nextData)).trans (h.data d hd)
  region d hd hd'' := by
    by_cases hd' : d < k'.nextData
    · rw [h'.data d hd']
      exact lt_of_lt_of_le (h.region d hd hd') h'.hostNext
    · exact h'.region d (Nat.not_lt.1 hd') hd''

@[simp]
theorem dataRetain_nextData : (dataRetain k d).nextData = k.nextData :=
  rfl

@[simp]
theorem dataRetain_host : (dataRetain k d).host = k.host := rfl

@[simp]
theorem dataRetain_data (d d' : DataId) : ((dataRetain k d).datas d').data = (k.datas d').data := by
  unfold dataRetain
  by_cases h : d' = d
  · subst h
    simp
  · simp [update_of_ne h]

@[simp]
theorem dataRelease_nextData : (dataRelease k d).nextData = k.nextData :=
  rfl

@[simp]
theorem dataRelease_hostNext : (dataRelease k d).host.next = k.host.next := by
  simp only [dataRelease]
  split <;> rfl

@[simp]
theorem dataRelease_data (d d' : DataId) : ((dataRelease k d).datas d').data = (k.datas d').data := by
  simp only [dataRelease]
  by_cases h : d' = d
  · subst h
    simp
  · simp [update_of_ne h]

theorem extends_dataRetain : k.Extends (dataRetain k d) :=
  .of_datas rfl (le_refl _) (dataRetain_data k d)

theorem extends_dataRelease : k.Extends (dataRelease k d) :=
  .of_datas rfl (by simp) (dataRelease_data k d)

theorem extends_anon (n : Int) : k.Extends { k with anonPageCount := n } :=
  .of_datas rfl (le_refl _) fun _ => rfl

/-- A relation from a kernel to a later one that holds across what the operations are made of. -/
structure KernelOrder (R : Kernel → Kernel → Prop) : Prop where
  refl : ∀ k, R k k
  trans : ∀ {k k' k''}, R k k' → R k' k'' → R k k''
  anon : ∀ k n, R k { k with anonPageCount := n }
  retain : ∀ k d, R k (dataRetain k d)
  release : ∀ k d, R k (dataRelease k d)

theorem kernelOrder_extends : KernelOrder Kernel.Extends :=
  ⟨.refl, .trans, extends_anon, extends_dataRetain, extends_dataRelease⟩

variable {R : Kernel → Kernel → Prop}

/-! ### The entries after `pt_unmap_always` -/

theorem ptUnmapAlways.memPt_body (page q : Nat) (s : Kernel × Mem) :
    memPt (body page s).2 q = if q % memPages = page % memPages then none else memPt s.2 q := by
  unfold body
  cases h : memPt s.2 page with
  | none =>
    split_ifs with hq
    · exact (memPt_congr s.2 hq).trans h
    · rfl
  | some pt => exact memPt_memPtDel _ page q

theorem KernelOrder.unmapBody (hR : KernelOrder R) (page : Nat) (s : Kernel × Mem) :
    R s.1 (ptUnmapAlways.body page s).1 := by
  unfold ptUnmapAlways.body
  cases memPt s.2 page with
  | none => exact hR.refl _
  | some pt =>
    dsimp only
    split_ifs
    · exact hR.trans (hR.anon _ _) (hR.release _ _)
    · exact hR.release _ _

@[simp]
theorem ptUnmapAlways.body_reservations (page : Nat) (s : Kernel × Mem) :
    (body page s).2.reservations = s.2.reservations := by
  unfold body
  cases memPt s.2 page <;> simp

@[simp]
theorem ptUnmapAlways.body_changes (page : Nat) (s : Kernel × Mem) : (body page s).2.changes = s.2.changes := by
  unfold body
  cases memPt s.2 page <;> simp

@[simp]
theorem memRemoveReservations_pgdir (ok : MemReservation → Bool) (m : Mem) (start pages : Nat) :
    (memRemoveReservations ok m start pages).pgdir = m.pgdir := by
  unfold memRemoveReservations
  split_ifs <;> rfl

@[simp]
theorem memRemoveReservations_changes (ok : MemReservation → Bool) (m : Mem) (start pages : Nat) :
    (memRemoveReservations ok m start pages).changes = m.changes := by
  unfold memRemoveReservations
  split_ifs <;> rfl

@[simp]
theorem ptUnmapAlways.enter_pgdir (m : Mem) (start pages : Nat) : (enter env m start pages).pgdir = m.pgdir := by
  simp [enter]

@[simp]
theorem ptUnmapAlways.enter_changes (m : Mem) (start pages : Nat) : (enter env m start pages).changes = m.changes := by
  simp [enter]

/-- **Unmapping** clears the slots of the range and no other. -/
theorem memPt_ptUnmapAlways (s : Kernel × Mem) (start pages q : Nat) : memPt (ptUnmapAlways env s start pages).2 q =
      open Classical in if Touches start (loopCount start pages) q then none else memPt s.2 q := by
  classical
  rw [ptUnmapAlways_eq, memPt_memChanged]
  have h := forRange_induct (f := ptUnmapAlways.body) (n := loopCount start pages) (i := start)
    (s := (s.1, ptUnmapAlways.enter env s.2 start pages))
    (fun j t => memPt t.2 q = if Touches start (j - start) q then none else memPt s.2 q)
    (by
      rw [Nat.sub_self, if_neg (touches_zero start q)]
      exact memPt_eq_of_pgdir (by simp) q)
    (fun j t hj hlt ih => by
      rw [ptUnmapAlways.memPt_body, ih, Nat.sub_add_comm hj, ← ite_or]
      refine if_congr ?_ rfl rfl
      rw [touches_succ, Nat.add_sub_cancel' hj, or_comm])
  rw [Nat.add_sub_cancel_left] at h
  convert h

theorem KernelOrder.ptUnmapAlways (hR : KernelOrder R) (s : Kernel × Mem) (start pages : Nat) :
    R s.1 (Ish.ptUnmapAlways env s start pages).1 := by
  rw [ptUnmapAlways_eq]
  exact forRange_inv (s := (s.1, ptUnmapAlways.enter env s.2 start pages))
    (fun t => R s.1 t.1) (hR.refl _) fun j t _ _ h => hR.trans h (hR.unmapBody j t)

theorem ptUnmapAlways_changes (s : Kernel × Mem) (start pages : Nat) :
    (ptUnmapAlways env s start pages).2.changes = s.2.changes + 1 := by
  rw [ptUnmapAlways_eq]
  refine congrArg (· + 1) ?_
  exact forRange_inv (fun t : Kernel × Mem => t.2.changes = s.2.changes) (by simp)
    fun j t _ _ h => by rw [ptUnmapAlways.body_changes, h]

theorem ptUnmapAlways_reservations (s : Kernel × Mem) (start pages : Nat) :
    (ptUnmapAlways env s start pages).2.reservations = (ptUnmapAlways.enter env s.2 start pages).reservations := by
  rw [ptUnmapAlways_eq]
  exact forRange_inv
    (fun t : Kernel × Mem => t.2.reservations = (ptUnmapAlways.enter env s.2 start pages).reservations)
    rfl fun j t _ _ h => by rw [ptUnmapAlways.body_reservations, h]

theorem reservedFlags_ptUnmapAlways (s : Kernel × Mem) {start pages q : Nat}
    (hq : q < start ∨ start + pages ≤ q) (hmem : q < memPages) :
    reservedFlags (ptUnmapAlways env s start pages).2 q = reservedFlags s.2 q := by
  rw [reservedFlags_eq, ptUnmapAlways_reservations, ← reservedFlags_eq]
  exact reservedFlags_memRemoveReservations _ _ hq hmem

/-! ### `pt_unmap` -/

theorem ptUnmap_one_of_isSome
    (h : (memPt s.2 page).isSome) : (ptUnmap env s page 1).2 = ptUnmapAlways env s page 1 := by
  have hall : (List.range' page (loopCount page 1)).all (fun p => (memPt s.2 p).isSome) := by
    rw [List.all_eq_true]
    intro p hp
    rw [List.mem_range'_1] at hp
    have hle : loopCount page 1 ≤ 1 := by
      unfold loopCount loopStop
      have := Nat.mod_le (page + 1) wordMod
      omega
    rw [show p = page by omega]
    exact h
  unfold ptUnmap
  rw [if_pos hall]

variable {P : Kernel × Mem → Prop}

theorem ptUnmap_inv (h : P s) (hunmap : P (ptUnmapAlways env s start pages)) :
    P (ptUnmap env s start pages).2 := by
  unfold ptUnmap
  split_ifs
  · exact hunmap
  · exact h

/-! ### `pt_map` -/

theorem ptMap.body_eq_of_none (start offset : Nat) (flags : Flags) (h : memPt s.2 page = none) :
    body env data start offset flags page s = (dataRetain s.1 data,
        memPtNew s.2 page ⟨data, ((page - start) * pageSize + offset) % wordMod, flags⟩) := by
  simp [body, h]

theorem ptMap.body_eq_of_isSome (start offset : Nat) (flags : Flags) (h : (memPt s.2 page).isSome) :
    body env data start offset flags page s = (dataRetain (ptUnmapAlways env s page 1).1 data,
        memPtNew (ptUnmapAlways env s page 1).2 page
          ⟨data, ((page - start) * pageSize + offset) % wordMod, flags⟩) := by
  simp only [body, h, if_true, ptUnmap_one_of_isSome env h]

theorem touches_loopCount_one {page q : Nat} (h : Touches page (loopCount page 1) q) :
    q % memPages = page % memPages := by
  obtain ⟨p, h1, h2, h3⟩ := h
  have hle : loopCount page 1 ≤ 1 := by
    unfold loopCount loopStop
    have := Nat.mod_le (page + 1) wordMod
    omega
  rw [h3, show p = page by omega]

theorem ptMap.memPt_body (start offset : Nat) (flags : Flags) (page q : Nat) (s : Kernel × Mem) :
    memPt (body env data start offset flags page s).2 q = if q % memPages = page % memPages then
        some ⟨data, ((page - start) * pageSize + offset) % wordMod, flags⟩ else memPt s.2 q := by
  cases h : memPt s.2 page with
  | none => rw [body_eq_of_none env data start offset flags h, memPt_memPtNew]
  | some e =>
    rw [body_eq_of_isSome env data start offset flags (by simp [h]), memPt_memPtNew]
    split_ifs with hq
    · rfl
    · rw [memPt_ptUnmapAlways, if_neg fun ht => hq (touches_loopCount_one ht)]

theorem ptMap.body_inv (start offset : Nat) (flags : Flags) (page : Nat) (P : Kernel × Mem → Prop) (hs : P s)
    (hunmap : P (ptUnmapAlways env s page 1))
    (hput : ∀ t : Kernel × Mem, ∀ e, P t → P (dataRetain t.1 data, memPtNew t.2 page e)) :
    P (body env data start offset flags page s) := by
  cases h : memPt s.2 page with
  | none =>
    rw [body_eq_of_none env data start offset flags h]
    exact hput s _ hs
  | some e =>
    rw [body_eq_of_isSome env data start offset flags (by simp [h])]
    exact hput _ _ hunmap

def ptMap.loop (env : HostEnv) (s : Kernel × Mem) (start pages : Nat) (memory : RegionId)
    (offset : Nat) (flags : Flags) : Kernel × Mem :=
  forRange (body env s.1.nextData start offset flags) (loopCount start pages) start
    (newData s.1 pages memory offset, s.2)

theorem ptMap_cases (s : Kernel × Mem) (start pages : Nat) (memory : Option RegionId) (offset : Nat) (flags : Flags) :
    (∃ err, ptMap env s start pages memory offset flags = (.error err, s)) ∨ (∃ r, memory = some r ∧ env.mallocData ∧
      ptMap env s start pages memory offset flags = (.ok (), (ptMap.loop env s start pages r offset flags).1,
          memChanged (ptMap.loop env s start pages r offset flags).2)) := by
  cases memory with
  | none => exact Or.inl ⟨_, rfl⟩
  | some r =>
    unfold ptMap
    by_cases h : env.mallocData = true
    · simp only [h, if_true]
      exact Or.inr ⟨r, rfl, trivial, rfl⟩
    · simp only [h]
      exact Or.inl ⟨_, rfl⟩

theorem extends_newData {k : Kernel} (pages : Nat) {memory : RegionId} (offset : Nat)
    (h : memory < k.host.next) : k.Extends (ptMap.newData k pages memory offset) where
  nextData := Nat.le_succ _
  hostNext := le_refl _
  data d hd := by simp [ptMap.newData, update_of_ne (ne_of_lt hd)]
  region d hd hd' := by
    have heq : d = k.nextData := le_antisymm (Nat.le_of_lt_succ hd') hd
    simpa [heq, ptMap.newData] using h

theorem KernelOrder.mapLoop (hR : KernelOrder R) (s : Kernel × Mem) (start pages : Nat) (memory : RegionId)
    (offset : Nat) (flags : Flags) :
    R (ptMap.newData s.1 pages memory offset) (ptMap.loop env s start pages memory offset flags).1 :=
  forRange_inv (fun t : Kernel × Mem => R (ptMap.newData s.1 pages memory offset) t.1) (hR.refl _)
    fun j t _ _ h => ptMap.body_inv env _ start offset flags j (fun t => R _ t.1) h
      (hR.trans h (hR.ptUnmapAlways env t j 1)) fun t _ ht => hR.trans ht (hR.retain t.1 _)

theorem KernelOrder.ptMap (hR : KernelOrder R) (s : Kernel × Mem) (start pages : Nat) (memory : Option RegionId)
    (offset : Nat) (flags : Flags) (hnew : ∀ r, memory = some r → R s.1 (ptMap.newData s.1 pages r offset)) :
    R s.1 (Ish.ptMap env s start pages memory offset flags).2.1 := by
  rcases ptMap_cases env s start pages memory offset flags with ⟨err, heq⟩ | ⟨r, hmem, -, heq⟩
  · rw [heq]
    exact hR.refl _
  · rw [heq]
    exact hR.trans (hnew r hmem) (hR.mapLoop env s start pages r offset flags)

/-- **Mapping** fills the slots of the range with the new object and changes no other. -/
theorem ptMap.memPt_loop (s : Kernel × Mem) (start pages : Nat)
    (memory : RegionId) (offset : Nat) (flags : Flags) (q : Nat) : (Touches start (loopCount start pages) q →
      ∃ p, memPt (loop env s start pages memory offset flags).2 q =
        some ⟨s.1.nextData, ((p - start) * pageSize + offset) % wordMod, flags⟩) ∧
    (¬ Touches start (loopCount start pages) q →
      memPt (loop env s start pages memory offset flags).2 q = memPt s.2 q) := by
  have h := forRange_induct (f := body env s.1.nextData start offset flags)
    (n := loopCount start pages) (i := start) (s := (newData s.1 pages memory offset, s.2))
    (fun j t => (Touches start (j - start) q →
        ∃ p, memPt t.2 q =
          some ⟨s.1.nextData, ((p - start) * pageSize + offset) % wordMod, flags⟩) ∧
      (¬ Touches start (j - start) q → memPt t.2 q = memPt s.2 q))
    (by
      rw [Nat.sub_self]
      exact ⟨fun ht => absurd ht (touches_zero start q), fun _ => rfl⟩)
    (fun j t hj hlt ih => by
      rw [memPt_body, Nat.sub_add_comm hj, touches_succ, Nat.add_sub_cancel' hj]
      split_ifs with hq
      · exact ⟨fun _ => ⟨_, rfl⟩, fun hno => absurd (Or.inr hq) hno⟩
      · exact ⟨fun ht => ih.1 (ht.resolve_right hq), fun hno => ih.2 fun ht => hno (Or.inl ht)⟩)
  rw [Nat.add_sub_cancel_left] at h
  exact h

theorem ptMap.reservedFlags_loop (s : Kernel × Mem) {start pages : Nat}
    (memory : RegionId) (offset : Nat) (flags : Flags) {q : Nat}
    (hq : q < start ∨ start + loopCount start pages ≤ q) (hmem : q < memPages) :
    reservedFlags (loop env s start pages memory offset flags).2 q = reservedFlags s.2 q :=
  forRange_inv (s := (newData s.1 pages memory offset, s.2))
    (fun t => reservedFlags t.2 q = reservedFlags s.2 q) rfl
    fun j t _ _ h => body_inv env _ start offset flags j (fun t => reservedFlags t.2 q = reservedFlags s.2 q) h
      ((reservedFlags_ptUnmapAlways env t (by omega) hmem).trans h) fun _ _ h => h

theorem ptMap.changes_le_loop (s : Kernel × Mem) (start pages : Nat)
    (memory : RegionId) (offset : Nat) (flags : Flags) :
    s.2.changes ≤ (loop env s start pages memory offset flags).2.changes :=
  forRange_inv (s := (newData s.1 pages memory offset, s.2))
    (fun t => s.2.changes ≤ t.2.changes) (le_refl _)
    fun j t _ _ h => body_inv env _ start offset flags j (fun t => s.2.changes ≤ t.2.changes) h
      (by rw [ptUnmapAlways_changes]; omega) fun _ _ h => h

/-! ### `pt_map_nothing` -/

/-- The kernel after the host `mmap` of `pt_map_nothing`. -/
def ptMapNothing.mmapped (k : Kernel) (pages : Nat) (flags : Flags) : Kernel :=
  { k with host := (k.host.mmap (pages * pageSize % wordMod) (hostProt flags) fun _ => 0).2 }

theorem ptMapNothing_cases (s : Kernel × Mem) (start pages : Nat) (flags : Flags) :
    (∃ r, ptMapNothing env s start pages flags = (r, s)) ∨ (pages ≠ 0 ∧ ptMapNothing env s start pages flags =
      ptMap env (ptMapNothing.mmapped s.1 pages flags, s.2) start pages (some s.1.host.next) 0
        (flags ||| pAnonymous)) := by
  unfold ptMapNothing
  by_cases h0 : pages = 0
  · rw [if_pos h0]
    exact Or.inl ⟨_, rfl⟩
  · rw [if_neg h0]
    by_cases h : env.mmap = true
    · rw [if_pos h]
      exact Or.inr ⟨h0, rfl⟩
    · rw [if_neg h]
      exact Or.inl ⟨_, rfl⟩

theorem ptMapNothing_inv (h : P s)
    (hmap : P (ptMap env (ptMapNothing.mmapped s.1 pages flags, s.2) start pages (some s.1.host.next) 0
      (flags ||| pAnonymous)).2) : P (ptMapNothing env s start pages flags).2 := by
  rcases ptMapNothing_cases env s start pages flags with ⟨r, heq⟩ | ⟨-, heq⟩
  · rw [heq]
    exact h
  · rw [heq]
    exact hmap

theorem extends_mmapped (pages : Nat) (flags : Flags) : k.Extends (ptMapNothing.mmapped k pages flags) :=
  .of_datas rfl (Nat.le_succ _) fun _ => rfl

/-! ### `pt_set_flags` -/

def ptSetFlags.reflag (flags : Flags) (entry : PtEntry) : PtEntry :=
  { entry with flags := newFlags flags entry.flags }

theorem ptSetFlags.newFlags_idem (flags old : Flags) : newFlags flags (newFlags flags old) = newFlags flags old := by
  unfold newFlags
  ext i
  simp only [BitVec.getElem_or, BitVec.getElem_and]
  cases flags[i] <;> cases old[i] <;> cases pMetaFlags[i] <;> rfl

theorem ptSetFlags.reflag_idem (entry : PtEntry) : reflag flags (reflag flags entry) = reflag flags entry := by
  simp [reflag, newFlags_idem]

/-- The kernel after the host `mprotect` for `entry`. -/
def ptSetFlags.mprotected (realPageSize : Nat) (flags : Flags) (k : Kernel) (entry : PtEntry) : Kernel :=
  let host := k.host.mprotect (k.datas entry.data).data (entry.offset / realPageSize)
    (hostProt flags)
  { k with host := host }

/-- What a turn of `pt_set_flags` does: nothing on an unmapped page; otherwise the flags are
stored, and the host is asked when the protection increases. -/
theorem ptSetFlags.body_cases (page : Nat) (s : Kernel × Mem) :
    memPt s.2 page = none ∧ body realPageSize env flags page s = (none, s) ∨ ∃ entry, memPt s.2 page = some entry ∧
      (body realPageSize env flags page s).2.2 = memPtSetFlags s.2 page (newFlags flags entry.flags) ∧
      ((increases flags entry.flags = false ∨ env.mprotect page = false) ∧
          (body realPageSize env flags page s).2.1 = s.1 ∨ increases flags entry.flags ∧ env.mprotect page ∧
          (body realPageSize env flags page s).2.1 = mprotected realPageSize flags s.1 entry) := by
  unfold body
  cases h : memPt s.2 page with
  | none => exact Or.inl ⟨rfl, rfl⟩
  | some entry =>
    refine Or.inr ⟨entry, rfl, ?_⟩
    dsimp only
    cases hinc : increases flags entry.flags with
    | false => exact ⟨rfl, Or.inl ⟨Or.inl rfl, rfl⟩⟩
    | true =>
      cases hok : env.mprotect page with
      | false => exact ⟨rfl, Or.inl ⟨Or.inr rfl, rfl⟩⟩
      | true => exact ⟨rfl, Or.inr ⟨rfl, rfl, rfl⟩⟩

theorem ptSetFlags.memPt_body (page q : Nat) (s : Kernel × Mem) : memPt (body realPageSize env flags page s).2.2 q =
      if q % memPages = page % memPages then (memPt s.2 q).map (reflag flags) else memPt s.2 q := by
  rcases body_cases realPageSize env flags page s with ⟨h, hb⟩ | ⟨entry, h, hb, -⟩
  · rw [hb]
    split_ifs with hq
    · rw [memPt_congr s.2 hq, h]
      rfl
    · rfl
  · rw [hb, memPt_memPtSetFlags]
    split_ifs with hq
    · rw [memPt_congr s.2 hq, h]
      rfl
    · rfl

def ptSetFlags.loop (realPageSize : Nat) (env : HostEnv) (s : Kernel × Mem) (start pages : Nat)
    (flags : Flags) : Option Errno × Kernel × Mem :=
  forUntil (body realPageSize env flags) (loopCount start pages) start s

/-- **Protecting** gives new flags to the slots of the pages it reaches, all of them unless the
host refuses one. -/
theorem ptSetFlags.memPt_loop (s : Kernel × Mem) (start pages : Nat) (flags : Flags) : ∃ n ≤ loopCount start pages,
      ((loop realPageSize env s start pages flags).1 = none → n = loopCount start pages) ∧
      ∀ q, memPt (loop realPageSize env s start pages flags).2.2 q = open Classical in
        if Touches start n q then (memPt s.2 q).map (reflag flags) else memPt s.2 q := by
  classical
  obtain ⟨n, hn, heq, hnone⟩ :=
    forUntil_eq_forRange (body realPageSize env flags) (loopCount start pages) start s
  refine ⟨n, hn, hnone, fun q => ?_⟩
  unfold loop
  rw [heq]
  have h := forRange_induct (f := fun j s => (body realPageSize env flags j s).2)
    (n := n) (i := start) (s := s)
    (fun j t => memPt t.2 q =
      if Touches start (j - start) q then (memPt s.2 q).map (reflag flags) else memPt s.2 q)
    (by rw [Nat.sub_self, if_neg (touches_zero start q)])
    (fun j t hj hlt ih => by
      rw [memPt_body, ih, Nat.sub_add_comm hj]
      simp only [touches_succ, Nat.add_sub_cancel' hj]
      by_cases hq : q % memPages = j % memPages
      · -- a slot reached twice is given the same flags again
        rw [if_pos hq, if_pos (Or.inr hq)]
        split_ifs
        · simp [comp_def, reflag_idem]
        · rfl
      · simp only [hq, or_false, if_false])
  rw [Nat.add_sub_cancel_left] at h
  convert h

/-- What storing flags and the host `mprotect` keep, the second loop keeps. -/
theorem ptSetFlags.loop_inv (h : P s)
    (hset : ∀ t page f, P t → P (t.1, memPtSetFlags t.2 page f))
    (hprot : ∀ t entry, P t → P (mprotected realPageSize flags t.1 entry, t.2)) :
    P (loop realPageSize env s start pages flags).2 := by
  refine forUntil_inv P h fun j t _ _ ht => ?_
  have hpair : (body realPageSize env flags j t).2 =
      ((body realPageSize env flags j t).2.1, (body realPageSize env flags j t).2.2) := rfl
  rcases body_cases realPageSize env flags j t with ⟨-, hb⟩ | ⟨entry, -, hm, ⟨-, hk⟩ | ⟨-, -, hk⟩⟩
  · rw [hb]
    exact ht
  · rw [hpair, hm, hk]
    exact hset t j _ ht
  · rw [hpair, hm, hk]
    exact hprot (t.1, _) entry (hset t j _ ht)

theorem ptSetFlags.loop_changes (s : Kernel × Mem) (start pages : Nat) (flags : Flags) :
    (loop realPageSize env s start pages flags).2.2.changes = s.2.changes :=
  loop_inv realPageSize env start pages flags (P := fun t => t.2.changes = s.2.changes) rfl
    (fun _ _ _ h => by simpa using h) fun _ _ h => h

/-- The ways `pt_set_flags` ends: the range is not covered; the host refuses; the reservations
cannot be split; or everything is done. -/
theorem ptSetFlags_cases (s : Kernel × Mem) (start pages : Nat) (flags : Flags) :
    ptSetFlags.covered s.2 start pages = false ∧ ptSetFlags realPageSize env s start pages flags = (.error .enomem, s) ∨
    ptSetFlags.covered s.2 start pages ∧ ((∃ err, (ptSetFlags.loop realPageSize env s start pages flags).1 = some err ∧
        ptSetFlags realPageSize env s start pages flags =
          (.error err, (ptSetFlags.loop realPageSize env s start pages flags).2)) ∨
      (ptSetFlags.loop realPageSize env s start pages flags).1 = none ∧
        ∃ m, (memSetReservationFlags (env.mallocRes start)
            (ptSetFlags.loop realPageSize env s start pages flags).2.2 start pages flags).2 = m ∧
          (ptSetFlags realPageSize env s start pages flags =
            (.error .enomem, (ptSetFlags.loop realPageSize env s start pages flags).2.1, m) ∨
          ptSetFlags realPageSize env s start pages flags =
            (.ok (), (ptSetFlags.loop realPageSize env s start pages flags).2.1, memChanged m))) := by
  unfold ptSetFlags ptSetFlags.loop
  cases hcov : ptSetFlags.covered s.2 start pages with
  | false => exact Or.inl ⟨rfl, rfl⟩
  | true =>
    refine Or.inr ⟨rfl, ?_⟩
    rw [if_pos rfl]
    rcases forUntil (ptSetFlags.body realPageSize env flags) (loopCount start pages) start s with
      ⟨_ | err, t⟩
    · refine Or.inr ⟨rfl, _, rfl, ?_⟩
      dsimp only
      rcases memSetReservationFlags (env.mallocRes start) t.2 start pages flags with ⟨_ | _, m⟩
      · exact Or.inl rfl
      · exact Or.inr rfl
    · exact Or.inl ⟨err, rfl, rfl⟩

/-- What the second loop, the change of the reservations and the count of the change keep, `pt_set_flags`
keeps. -/
theorem ptSetFlags_inv (h : P s) (hset : ∀ t page f, P t → P (t.1, memPtSetFlags t.2 page f))
    (hprot : ∀ t entry, P t → P (ptSetFlags.mprotected realPageSize flags t.1 entry, t.2))
    (hres : ∀ t, P t → P (t.1, (memSetReservationFlags (env.mallocRes start) t.2 start pages flags).2))
    (hchanged : ∀ t, P t → P (t.1, memChanged t.2)) : P (ptSetFlags realPageSize env s start pages flags).2 := by
  have hloop := ptSetFlags.loop_inv realPageSize env start pages flags h hset hprot
  rcases ptSetFlags_cases realPageSize env s start pages flags with
    ⟨-, heq⟩ | ⟨-, ⟨err, -, heq⟩ | ⟨-, m, hm, heq | heq⟩⟩
  · rw [heq]
    exact h
  · rw [heq]
    exact hloop
  · rw [heq, ← hm]
    exact hres _ hloop
  · rw [heq, ← hm]
    exact hchanged (_, _) (hres _ hloop)

/-- **The entries after `pt_set_flags`**: the slots of the first `n` pages have their new flags; all
of them do when it succeeds. -/
theorem memPt_ptSetFlags (s : Kernel × Mem) (start pages : Nat) (flags : Flags) : ∃ n ≤ loopCount start pages,
      ((ptSetFlags realPageSize env s start pages flags).1 = .ok () → n = loopCount start pages) ∧
      (ptSetFlags.covered s.2 start pages = false → n = 0) ∧
      ∀ q, memPt (ptSetFlags realPageSize env s start pages flags).2.2 q = open Classical in
        if Touches start n q then (memPt s.2 q).map (ptSetFlags.reflag flags) else memPt s.2 q := by
  obtain ⟨n, hn, hall, hpt⟩ := ptSetFlags.memPt_loop realPageSize env s start pages flags
  rcases ptSetFlags_cases realPageSize env s start pages flags with
    ⟨hcov, heq⟩ | ⟨hcov, ⟨err, -, heq⟩ | ⟨hnone, m, hm, heq | heq⟩⟩
  · refine ⟨0, Nat.zero_le _, ?_, fun _ => rfl, fun q => ?_⟩
    · simp [heq]
    · rw [heq, if_neg (touches_zero start q)]
  · refine ⟨n, hn, by simp [heq], by simp [hcov], ?_⟩
    rw [heq]
    exact hpt
  · refine ⟨n, hn, by simp [heq], by simp [hcov], fun q => ?_⟩
    rw [heq, ← hpt q, ← hm]
    exact memPt_eq_of_pgdir (by simp) q
  · refine ⟨n, hn, fun _ => hall hnone, by simp [hcov], fun q => ?_⟩
    rw [heq, ← hpt q, memPt_memChanged, ← hm]
    exact memPt_eq_of_pgdir (by simp) q

theorem reservedFlags_ptSetFlags (s : Kernel × Mem)
    {start pages q : Nat} (flags : Flags) (hq : q < start ∨ start + pages ≤ q) (hmem : q < memPages) :
    reservedFlags (ptSetFlags realPageSize env s start pages flags).2.2 q = reservedFlags s.2 q := by
  refine ptSetFlags_inv realPageSize env start pages flags (P := fun t => reservedFlags t.2 q = reservedFlags s.2 q)
    rfl (fun t page f h => ?_) (fun _ _ h => h) (fun t h => ?_) fun _ h => h
  · rw [reservedFlags_eq, memPtSetFlags_reservations, ← reservedFlags_eq]
    exact h
  · exact (reservedFlags_memSetReservationFlags _ _ flags hq hmem).trans h

theorem ptSetFlags_ok {env : HostEnv} (hprot : ∀ page, env.mprotect page)
    (hmalloc : ∀ start r, env.mallocRes start r) (s : Kernel × Mem) (start pages : Nat)
    (flags : Flags) (hcov : ptSetFlags.covered s.2 start pages) :
    (ptSetFlags realPageSize env s start pages flags).1 = .ok () := by
  have hloop : (ptSetFlags.loop realPageSize env s start pages flags).1 = none := by
    refine forUntil_eq_none _ (fun j t => ?_) _ _ _
    unfold ptSetFlags.body
    cases memPt t.2 j with
    | none => rfl
    | some entry =>
      dsimp only
      rw [if_pos (hprot j)]
      split_ifs <;> rfl
  unfold ptSetFlags
  rw [if_pos hcov]
  unfold ptSetFlags.loop at hloop
  rcases h : forUntil (ptSetFlags.body realPageSize env flags) (loopCount start pages)
    start s with ⟨_ | err, t⟩
  · dsimp only
    have hok := memSetReservationFlags_ok (hmalloc start) t.2 start pages flags
    rcases h' : memSetReservationFlags (env.mallocRes start) t.2 start pages flags with
      ⟨_ | _, m⟩
    · exact absurd (h' ▸ hok) (by simp)
    · rfl
  · simp [h] at hloop

/-! ### `pt_copy_on_write` -/

def ptCopyOnWrite.share (entry : PtEntry) : PtEntry :=
  { entry with flags := newFlags entry.flags }

theorem ptCopyOnWrite.newFlags_idem : newFlags (newFlags flags) = newFlags flags := by
  unfold newFlags
  cases h : hasAny flags pShared with
  | true => simp [h]
  | false =>
    have hcow : hasAny pCow pShared = false := by decide
    simp [h, hcow, BitVec.or_assoc]

theorem ptCopyOnWrite.share_idem (entry : PtEntry) : share (share entry) = share entry := by
  simp [share, newFlags_idem]

theorem ptCopyOnWrite.body_of_none {s : CopyState} (h : memPt s.src page = none) : body env page s = s := by
  simp only [body, h]

/-- `mem_next_page` only leaves out turns that would do nothing. -/
theorem ptCopyOnWrite.skipRange_eq (s : CopyState) (start pages : Nat) :
    skipRange (fun s page => memNextPage s.src page) (body env) (loopStop start pages) (loopCount start pages) start s =
      forRange (body env) (loopCount start pages) start s := by
  rw [skipRange_eq_forRange]
  · rfl
  · exact fun s page => lt_memNextPage s.src page
  · intro s page q hq hlt _
    exact body_of_none env (memPt_eq_none_of_lt_memNextPage s.src hq hlt)
  · exact le_refl _

def ptCopyOnWrite.loop (env : HostEnv) (k : Kernel) (src dst : Mem) (start pages : Nat) : CopyState :=
  forRange (body env) (loopCount start pages) start ⟨k, src, dst, 0⟩

theorem ptCopyOnWrite_eq : ptCopyOnWrite env k src dst start pages =
      let s := ptCopyOnWrite.loop env k src dst start pages
      ({ s.kernel with anonPageCount := s.kernel.anonPageCount + s.anonCopied },
        memChanged s.src,
        memChanged (ptCopyOnWrite.copyReservations env s.dst s.src.reservations)) := by
  unfold ptCopyOnWrite
  rw [ptCopyOnWrite.skipRange_eq]
  rfl

theorem ptCopyOnWrite.memPt_body_src (page q : Nat) (s : CopyState) : memPt (body env page s).src q =
      if q % memPages = page % memPages then (memPt s.src q).map share else memPt s.src q := by
  unfold body
  cases h : memPt s.src page with
  | none =>
    split_ifs with hq
    · rw [memPt_congr s.src hq, h]
      rfl
    · rfl
  | some entry =>
    dsimp only
    rw [memPt_memPtSetFlags]
    split_ifs with hq
    · rw [memPt_congr s.src hq, h]
      rfl
    · rfl

theorem ptCopyOnWrite.memPt_body_dst (page q : Nat) (s : CopyState) : memPt (body env page s).dst q =
      if q % memPages = page % memPages ∧ (memPt s.src q).isSome then (memPt s.src q).map share else memPt s.dst q := by
  unfold body
  cases h : memPt s.src page with
  | none =>
    rw [if_neg]
    rintro ⟨hq, hsome⟩
    simp [memPt_congr s.src hq, h] at hsome
  | some entry =>
    dsimp only
    rw [memPt_memPtNew]
    by_cases hq : q % memPages = page % memPages
    · have hsrc : memPt s.src q = some entry := (memPt_congr s.src hq).trans h
      rw [if_pos hq, if_pos ⟨hq, by simp [hsrc]⟩, hsrc]
      rfl
    · rw [if_neg hq, if_neg fun h => hq h.1, memPt_ptUnmapAlways,
        if_neg fun ht => hq (touches_loopCount_one ht)]

/-- **Copying** leaves source and copy with the same, shared entries on the slots of the range. -/
theorem ptCopyOnWrite.memPt_loop (start pages q : Nat) : (memPt (loop env k src dst start pages).src q =
      open Classical in if Touches start (loopCount start pages) q then (memPt src q).map share else memPt src q) ∧
    (memPt (loop env k src dst start pages).dst q = open Classical in
      if Touches start (loopCount start pages) q ∧ (memPt src q).isSome then (memPt src q).map share
      else memPt dst q) := by
  classical
  have h := forRange_induct (f := body env) (n := loopCount start pages) (i := start)
    (s := (⟨k, src, dst, 0⟩ : CopyState))
    (fun j t =>
      memPt t.src q =
        (if Touches start (j - start) q then (memPt src q).map share else memPt src q) ∧
      memPt t.dst q =
        if Touches start (j - start) q ∧ (memPt src q).isSome then (memPt src q).map share
        else memPt dst q)
    (by
      rw [Nat.sub_self]
      simp only [touches_zero, false_and, if_false, and_self])
    (fun j t hj hlt ih => by
      obtain ⟨ihs, ihd⟩ := ih
      rw [memPt_body_src, memPt_body_dst, ihs, ihd, Nat.sub_add_comm hj]
      simp only [touches_succ, Nat.add_sub_cancel' hj]
      by_cases hq : q % memPages = j % memPages
      · simp only [hq, true_and, or_true, if_true]
        split_ifs <;> simp_all [comp_def, share_idem]
      · simp only [hq, or_false, if_false, false_and, and_self])
  rw [Nat.add_sub_cancel_left] at h
  unfold loop
  convert h

@[simp]
theorem ptCopyOnWrite.copyReservations_pgdir (dst : Mem)
    (rs : List MemReservation) : (copyReservations env dst rs).pgdir = dst.pgdir := by
  induction rs generalizing dst with
  | nil => rfl
  | cons r rs ih =>
    rw [copyReservations, ih]
    split_ifs <;> rfl

theorem memPt_ptCopyOnWrite_src (start pages q : Nat) : memPt (ptCopyOnWrite env k src dst start pages).2.1 q =
      open Classical in if Touches start (loopCount start pages) q then (memPt src q).map ptCopyOnWrite.share
      else memPt src q := by
  rw [ptCopyOnWrite_eq]
  exact (ptCopyOnWrite.memPt_loop env k src dst start pages q).1

theorem memPt_ptCopyOnWrite_dst (start pages q : Nat) : memPt (ptCopyOnWrite env k src dst start pages).2.2 q =
      open Classical in if Touches start (loopCount start pages) q ∧ (memPt src q).isSome then
        (memPt src q).map ptCopyOnWrite.share else memPt dst q := by
  rw [ptCopyOnWrite_eq]
  refine Eq.trans ?_ (ptCopyOnWrite.memPt_loop env k src dst start pages q).2
  exact memPt_eq_of_pgdir (ptCopyOnWrite.copyReservations_pgdir env _ _) q

theorem KernelOrder.ptCopyOnWrite (hR : KernelOrder R) : R k (Ish.ptCopyOnWrite env k src dst start pages).1 := by
  rw [ptCopyOnWrite_eq]
  refine hR.trans ?_ (hR.anon _ _)
  refine forRange_inv (fun t : CopyState => R k t.kernel) (hR.refl _) fun j t _ _ h => ?_
  unfold ptCopyOnWrite.body
  cases memPt t.src j with
  | none => exact h
  | some entry => exact hR.trans h (hR.trans (hR.ptUnmapAlways env (t.kernel, t.dst) j 1) (hR.retain _ _))

/-! ### What happens to the reservations -/

/-- `P` is about the reservations only, and stays when they are removed or re-flagged on pages of `S`. -/
structure ResvClosed (S : Nat → Prop) (P : Mem → Prop) : Prop where
  same : ∀ m m' : Mem, m'.reservations = m.reservations →
    m'.nextReservation = m.nextReservation → P m → P m'
  remove : ∀ ok m start pages, (∀ q, start ≤ q → q < start + pages → S q) → P m →
    P (memRemoveReservations ok m start pages)
  setFlags : ∀ ok m start pages flags, (∀ q, start ≤ q → q < start + pages → S q) → P m →
    P (memSetReservationFlags ok m start pages flags).2

section Closed

variable {S : Nat → Prop} {P : Mem → Prop}

theorem ResvClosed.changed (hP : ResvClosed S P) {m : Mem} (h : P m) : P (memChanged m) :=
  hP.same m _ rfl rfl h

variable {s : Kernel × Mem} {start pages : Nat}

theorem ResvClosed.ptUnmapAlways (hP : ResvClosed S P) (env : HostEnv)
    (hS : ∀ q, start ≤ q → q < start + pages → S q) (h : P s.2) : P (Ish.ptUnmapAlways env s start pages).2 := by
  have henter : P (Ish.ptUnmapAlways.enter env s.2 start pages) :=
    hP.remove _ _ start pages hS (hP.same s.2 _ rfl rfl h)
  rw [ptUnmapAlways_eq]
  refine hP.changed ?_
  refine forRange_inv (s := (s.1, Ish.ptUnmapAlways.enter env s.2 start pages))
    (fun t => P t.2) henter fun j t _ _ ht => ?_
  unfold Ish.ptUnmapAlways.body
  cases memPt t.2 j with
  | none => exact ht
  | some pt => exact hP.same _ _ (by simp) (by simp) ht

theorem ResvClosed.ptMap (hP : ResvClosed S P) (env : HostEnv) (memory : Option RegionId) (offset : Nat) (flags : Flags)
    (hS : ∀ q, start ≤ q → q < start + pages → S q) (h : P s.2) :
    P (Ish.ptMap env s start pages memory offset flags).2.2 := by
  rcases ptMap_cases env s start pages memory offset flags with ⟨err, heq⟩ | ⟨r, -, -, heq⟩
  · rw [heq]
    exact h
  · rw [heq]
    refine hP.changed ?_
    refine forRange_inv (s := (ptMap.newData s.1 pages r offset, s.2)) (fun t => P t.2) h
      fun j t hj hlt ht => ?_
    have hcount := loopCount_le start pages
    refine ptMap.body_inv env _ start offset flags j (fun t => P t.2) ht ?_ ?_
    · refine hP.ptUnmapAlways env (fun q hq hq' => hS q ?_ ?_) ht <;> omega
    · exact fun t e ht => hP.same t.2 _ rfl rfl ht

theorem ResvClosed.ptMapNothing (hP : ResvClosed S P) (env : HostEnv)
    (flags : Flags) (hS : ∀ q, start ≤ q → q < start + pages → S q)
    (h : P s.2) : P (Ish.ptMapNothing env s start pages flags).2.2 := by
  exact ptMapNothing_inv env start pages flags (P := fun t => P t.2) h
    (hP.ptMap env (s := (ptMapNothing.mmapped s.1 pages flags, s.2)) _ _ _ hS h)

theorem ResvClosed.ptSetFlags (hP : ResvClosed S P) (realPageSize : Nat) (env : HostEnv) (flags : Flags)
    (hS : ∀ q, start ≤ q → q < start + pages → S q) (h : P s.2) :
    P (Ish.ptSetFlags realPageSize env s start pages flags).2.2 :=
  ptSetFlags_inv realPageSize env start pages flags (P := fun t => P t.2) h
    (fun _ _ _ ht => hP.same _ _ (by simp) (by simp) ht) (fun _ _ ht => ht)
    (fun _ ht => hP.setFlags _ _ start pages flags hS ht) fun _ ht => hP.changed ht

end Closed

end Ish
