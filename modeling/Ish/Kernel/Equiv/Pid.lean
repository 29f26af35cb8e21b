import Ish.Kernel.Pid

/-!
# Finding a pid

The search of `task_create_` goes round the table and stops at the first entry that is empty
(`firstFree_of_search`, `search_of_firstFree`). In a full table it does not stop, if there is no memory the lock
is kept, and `pid_get` accepts the number behind the last one.
-/

namespace Ish.Pids

variable {t : Table} {fuel id : Nat}

theorem nextPid_bounds (curPid : Nat) : 1 ≤ nextPid curPid ∧ nextPid curPid ≤ maxPid := by
  unfold nextPid
  split_ifs with hlast
  · exact ⟨Nat.le_refl 1, by decide⟩
  · omega

/-- The pid may be given to a task. -/
def Table.Free (t : Table) (id : Nat) : Prop := 1 ≤ id ∧ id ≤ maxPid ∧ pidEmpty (t.pids id) = true

/-- The free pid that comes first after `curPid`: the free pids above it come in their order, and then those from 1
on. -/
def Table.FirstFree (t : Table) (curPid id : Nat) : Prop :=
  t.Free id ∧ ∀ j, t.Free j → if curPid < j then curPid < id ∧ id ≤ j else curPid < id ∨ id ≤ j

theorem exists_firstFree (curPid : Nat) (h : t.Free id) : ∃ id, t.FirstFree curPid id := by
  classical
  by_cases hafter : ∃ id, t.Free id ∧ curPid < id
  · refine ⟨Nat.find hafter, (Nat.find_spec hafter).1, fun j hj => ?_⟩
    have hlt := (Nat.find_spec hafter).2
    split_ifs with hcur
    · exact ⟨hlt, Nat.find_min' hafter ⟨hj, hcur⟩⟩
    · exact .inl hlt
  · have hfree : ∃ id, t.Free id := ⟨id, h⟩
    refine ⟨Nat.find hfree, Nat.find_spec hfree, fun j hj => ?_⟩
    rw [if_neg fun hcur => hafter ⟨j, hj, hcur⟩]
    exact .inr (Nat.find_min' hfree hj)

theorem firstFree_nextPid {curPid : Nat} (hfree : t.Free (nextPid curPid)) : t.FirstFree curPid (nextPid curPid) := by
  refine ⟨hfree, fun j hj => ?_⟩
  have hlow := hj.1
  have hhigh := hj.2.1
  unfold nextPid
  split_ifs <;> omega

theorem firstFree_unique {curPid id' : Nat} (h : t.FirstFree curPid id) (h' : t.FirstFree curPid id') : id = id' := by
  have hle := h.2 id' h'.1
  have hge := h'.2 id h.1
  split_ifs at hle hge <;> omega

/-- A pid that is taken makes no difference for those after it. -/
theorem firstFree_succ_iff {curPid : Nat} (hbusy : ¬ t.Free (nextPid curPid)) :
    t.FirstFree (nextPid curPid) id ↔ t.FirstFree curPid id := by
  refine and_congr_right fun hid => forall_congr' fun j => imp_congr_right fun hj => ?_
  have hne : id ≠ nextPid curPid := fun h => hbusy (h ▸ hid)
  have hne' : j ≠ nextPid curPid := fun h => hbusy (h ▸ hj)
  obtain ⟨hlow, hhigh, -⟩ := hid
  obtain ⟨hlow', hhigh', -⟩ := hj
  unfold nextPid at *
  split_ifs at * <;> omega

theorem free_nextPid_iff (curPid : Nat) : t.Free (nextPid curPid) ↔ pidEmpty (t.pids (nextPid curPid)) = true :=
  ⟨fun h => h.2.2, fun h => ⟨(nextPid_bounds curPid).1, (nextPid_bounds curPid).2, h⟩⟩

/-- What the search finds is the first free pid. -/
theorem firstFree_of_search {curPid : Nat} (h : t.search fuel curPid = some id) : t.FirstFree curPid id := by
  induction fuel generalizing curPid with
  | zero => cases h
  | succ fuel ih =>
    unfold Table.search at h
    split_ifs at h with hempty
    · cases h
      exact firstFree_nextPid ((free_nextPid_iff curPid).2 hempty)
    · exact (firstFree_succ_iff (hempty ∘ (free_nextPid_iff curPid).1)).1 (ih h)

/-- The number of rounds from `curPid` to `id`. -/
def rounds (curPid id : Nat) : Nat := if curPid < id then id - curPid else maxPid - curPid + 1 + id

/-- The search finds the first free pid when it comes to it. -/
theorem search_of_firstFree {curPid : Nat} (h : t.FirstFree curPid id) (hfuel : rounds curPid id ≤ fuel) :
    t.search fuel curPid = some id := by
  induction fuel generalizing curPid with
  | zero =>
    obtain ⟨⟨hlow, -⟩, -⟩ := h
    unfold rounds at hfuel
    split_ifs at hfuel <;> omega
  | succ fuel ih =>
    unfold Table.search
    split_ifs with hempty
    · exact congrArg some (firstFree_unique (firstFree_nextPid ((free_nextPid_iff curPid).2 hempty)) h)
    · have hbusy := hempty ∘ (free_nextPid_iff curPid).1
      -- one round is over, and the pid is not the one that was looked at
      refine ih ((firstFree_succ_iff hbusy).2 h) ?_
      have hne : id ≠ nextPid curPid := fun heq => hbusy (heq ▸ h.1)
      obtain ⟨⟨hlow, hhigh, -⟩, -⟩ := h
      unfold rounds nextPid at *
      split_ifs at * <;> omega

/-- The pid stands for nothing. -/
def Table.Unused (t : Table) (id : Nat) : Prop :=
  (t.pids id).task = none ∧ (t.pids id).session = [] ∧ (t.pids id).pgroup = [] ∧ ∀ i, (t.pids i).task ≠ some id

theorem pidEmpty_iff {pid : Pid} : pidEmpty pid = true ↔ pid.task = none ∧ pid.session = [] ∧ pid.pgroup = [] := by
  simp [pidEmpty, and_assoc]

/-- `task_create_` returns with the lock released, and with an error or a new pid. -/
def Table.CreatesPid (t : Table) (tgid : Nat) (alloc : Bool) : Prop :=
  ∃ fuel r t', t.taskCreate fuel tgid alloc = some (r, t') ∧ t'.locked = false ∧
    ∀ id, r = some id → 1 ≤ id ∧ id ≤ maxPid ∧ t.Unused id

/-- There is memory, some pid is free, and no thread group has the one that comes first. -/
def Table.HasPid (t : Table) (alloc : Bool) : Prop :=
  alloc = true ∧ (∃ id, t.Free id) ∧ ∀ id, t.FirstFree t.curPid id → ∀ i, (t.pids i).task ≠ some id

theorem createsPid_iff (t : Table) (tgid : Nat) (alloc : Bool) : t.CreatesPid tgid alloc ↔ t.HasPid alloc := by
  constructor
  · rintro ⟨fuel, r, t', hcreate, hlock, hnew⟩
    unfold Table.taskCreate at hcreate
    cases hsearch : t.search fuel t.curPid with
    | none =>
      rw [hsearch] at hcreate
      cases hcreate
    | some id =>
      rw [hsearch] at hcreate
      have hfirst := firstFree_of_search hsearch
      cases alloc with
      | false =>
        cases hcreate
        cases hlock
      | true =>
        cases hcreate
        refine ⟨rfl, ⟨id, hfirst.1⟩, fun id' hid' => ?_⟩
        rw [firstFree_unique hid' hfirst]
        exact (hnew _ rfl).2.2.2.2.2
  · rintro ⟨rfl, ⟨_, hfree⟩, hgroup⟩
    obtain ⟨id, hfirst⟩ := exists_firstFree t.curPid hfree
    have hsearch := search_of_firstFree hfirst (le_refl _)
    refine ⟨rounds t.curPid id, some id, _, by unfold Table.taskCreate; rw [hsearch]; rfl, rfl, ?_⟩
    rintro id ⟨⟩
    obtain ⟨hlow, hhigh, hempty⟩ := hfirst.1
    obtain ⟨htask, hsession, hpgroup⟩ := pidEmpty_iff.1 hempty
    exact ⟨hlow, hhigh, htask, hsession, hpgroup, hgroup id hfirst⟩

/-- **Pids**: `task_create_` returns properly and `pid_get` reads an entry of the table if and only if there is a pid
and memory to be had and the number is not the one behind the table. -/
theorem pid_allocation_iff (t : Table) (tgid : Nat) (alloc : Bool) (id : BitVec 32) :
    (t.CreatesPid tgid alloc ∧ ∀ i, (t.pidGet id).1 = some i → i < maxPid + 1) ↔
      t.HasPid alloc ∧ id.toNat ≠ maxPid + 1 := by
  rw [createsPid_iff]
  refine and_congr_right fun _ => ?_
  unfold Table.pidGet
  by_cases hbig : id.toNat > maxPid + 1
  · rw [if_pos hbig]
    exact iff_of_true nofun (by omega)
  · rw [if_neg hbig]
    constructor
    · intro h
      have hlt := h _ rfl
      omega
    · rintro hne i ⟨⟩
      omega

/-- Every entry has a task, the first one. -/
def fullTable : Table := ⟨fun _ => ⟨some 1, [], []⟩, 7, false⟩

/-- Only the first entry is taken. -/
def freshTable : Table := ⟨fun id => if id = 1 then ⟨some 1, [1], [1]⟩ else ⟨none, [], []⟩, 1, false⟩

/-- The search in a full table does not end, a failed allocation keeps the lock, and `pid_get` reads behind the table. -/
theorem pid_allocation_fails : (∀ fuel, fullTable.taskCreate fuel 1 true = none) ∧
      (freshTable.taskCreate 1 1 false).map (fun r => (r.1, r.2.locked)) = some (none, true) ∧
      (freshTable.pidGet 32769).1 = some (maxPid + 1) := by
  refine ⟨fun fuel => ?_, by decide, by decide⟩
  have hnone : fullTable.search fuel 7 = none := by
    cases hsearch : fullTable.search fuel 7 with
    | none => rfl
    | some id =>
      exact absurd (firstFree_of_search hsearch).1.2.2 Bool.false_ne_true
  unfold Table.taskCreate
  rw [show fullTable.search fuel fullTable.curPid = none from hnone]

end Ish.Pids
