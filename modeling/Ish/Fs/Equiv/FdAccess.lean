import Ish.Fs.FdAccess

/-!
# Descriptors that index out of bounds

Three calls reach a wrong index. `fdtable_expand` takes `-1` for a table of size 0, which every table is large
enough for, so `dup3` then stores into `files[-1]`. `F_DUPFD_CLOEXEC` sets the bit of whatever `f_install_start`
returns, an error number included. And `fdtable_get` compares with the size of the caller's own table, whatever
table it is asked about. All other accesses are in bounds (`descriptor_access_iff`).
-/

namespace Ish.Fs.Descriptors

variable {t : Table} {limit : Nat} {alloc : Bool}

/-- Every access is in its table. -/
def AllIn (accesses : List Access) : Prop := ∀ a ∈ accesses, a.InBounds

theorem allIn_append {l l' : List Access} : AllIn (l ++ l') ↔ AllIn l ∧ AllIn l' := List.forall_mem_append

theorem allIn_cons {a : Access} {l : List Access} : AllIn (a :: l) ↔ a.InBounds ∧ AllIn l := List.forall_mem_cons

theorem allIn_nil : AllIn [] := nofun

theorem allIn_if {p : Prop} [Decidable p] {l : List Access} (h : p → AllIn l) : AllIn (if p then l else []) := by
  split_ifs with hp
  · exact h hp
  · exact allIn_nil

theorem toInt_eq_toNat {f : BitVec 32} (h : 0 ≤ f.toInt) : f.toInt = f.toNat ∧ f.toNat < 2 ^ 31 := by
  have hlt := f.isLt
  rw [BitVec.toInt_eq_toNat_cond] at h ⊢
  split_ifs at h ⊢ <;> omega

theorem fdIndex_of_lt {f : Nat} (h : f < 2 ^ 31) : fdIndex f = f := by
  rw [fdIndex, BitVec.toInt_eq_toNat_cond, BitVec.toNat_ofNat, Nat.mod_eq_of_lt (by omega), if_pos (by omega)]

theorem inBounds_fdIndex {f size : Nat} (hf : f < 2 ^ 31) (hsize : f < size) : Access.InBounds ⟨fdIndex f, size⟩ := by
  show 0 ≤ fdIndex f ∧ fdIndex f < size
  rw [fdIndex_of_lt hf]
  omega

theorem inBounds_toInt {f : BitVec 32} {size : Nat} (hf : 0 ≤ f.toInt) (hsize : f.toNat < size) :
    Access.InBounds ⟨f.toInt, size⟩ := by
  obtain ⟨hindex, -⟩ := toInt_eq_toNat hf
  show 0 ≤ f.toInt ∧ f.toInt < size
  omega

theorem allIn_pair {a : Access} (ha : a.InBounds) : AllIn [a, a] := by
  simp [AllIn, ha]

/-! ### The helpers -/

/-- A look into the task's own table. -/
theorem allIn_lookup (t : Table) (f : BitVec 32) : AllIn (t.lookup t.size f).1 := by
  unfold Table.lookup
  split_ifs with hbad
  · exact allIn_nil
  · exact allIn_cons.2 ⟨inBounds_toInt (by omega) (by omega), allIn_nil⟩

theorem lookup_some {size fd : Nat} {f : BitVec 32} (h : (t.lookup size f).2 = some fd) :
    0 ≤ f.toInt ∧ f.toNat < size := by
  unfold Table.lookup at h
  split_ifs at h with hbad
  omega

theorem allIn_closeAt (t : Table) (f : BitVec 32) : AllIn (t.closeAt f) := by
  have hlookup := allIn_lookup t f
  unfold Table.closeAt
  rcases hfind : t.lookup t.size f with ⟨a, _ | fd⟩
  · rw [hfind] at hlookup
    exact hlookup
  · obtain ⟨hpos, hlt⟩ := lookup_some (congrArg Prod.snd hfind)
    rw [hfind] at hlookup
    exact allIn_append.2 ⟨hlookup, allIn_pair (inBounds_toInt hpos hlt)⟩

/-- `fdtable_expand` can succeed. -/
def Table.CanExpand (t : Table) (max : BitVec 32) (limit : Nat) (alloc : Bool) : Prop :=
  (max + 1).toNat ≤ limit ∧ ((max + 1).toNat ≤ t.size ∨ alloc)

/-- The table is large enough afterwards, and everything copied was in both tables. -/
theorem expandTo_ok {max : BitVec 32} {t' : Table} {a : List Access} (h : t.expandTo max limit alloc = (a, .ok t')) :
    AllIn a ∧ t.CanExpand max limit alloc ∧ (max + 1).toNat ≤ t'.size := by
  unfold Table.expandTo at h
  dsimp only at h
  split_ifs at h with hlimit hlarge halloc
  · cases h
  · cases h
    exact ⟨allIn_nil, ⟨by omega, .inl hlarge⟩, hlarge⟩
  · cases h
  · cases h
    refine ⟨fun a ha => ?_, ⟨by omega, .inr (by simpa using halloc)⟩, ?_⟩
    · obtain ⟨i, hi, ha⟩ := List.mem_flatMap.1 ha
      rw [List.mem_range] at hi
      rcases List.mem_cons.1 ha with rfl | ha
      · exact ⟨by simp, by show (i : Int) < t.size; omega⟩
      · rw [List.mem_singleton.1 ha]
        exact ⟨by simp, by show (i : Int) < (max + 1).toNat; omega⟩
    · show _ ≤ (t.files ++ List.replicate _ none).length
      have hlen : t.files.length = t.size := rfl
      rw [List.length_append, List.length_replicate]
      omega

theorem expandTo_error {max : BitVec 32} {e : Int} {a : List Access}
    (h : t.expandTo max limit alloc = (a, .error e)) : AllIn a ∧ ¬t.CanExpand max limit alloc ∧ e < 0 := by
  unfold Table.expandTo at h
  dsimp only at h
  split_ifs at h with hlimit hlarge halloc
  · cases h
    exact ⟨allIn_nil, fun hcan => absurd hcan.1 (by omega), by decide⟩
  · cases h
  · cases h
    refine ⟨allIn_nil, fun hcan => ?_, by decide⟩
    rcases hcan.2 with hle | htrue
    · omega
    · simp [htrue] at halloc
  · cases h

theorem scanFrom_spec (hsize : t.size ≤ 2 ^ 31) :
    ∀ n f, f + n ≤ t.size → AllIn (t.scanFrom n f).1 ∧ (t.scanFrom n f).2 ≤ f + n := by
  intro n
  induction n with
  | zero => exact fun f _ => ⟨allIn_nil, Nat.le_refl f⟩
  | succ n ih =>
    intro f hf
    have hin : Access.InBounds ⟨fdIndex f, t.size⟩ := inBounds_fdIndex (by omega) (by omega)
    unfold Table.scanFrom
    split_ifs
    · exact ⟨allIn_cons.2 ⟨hin, allIn_nil⟩, by show f ≤ _; omega⟩
    · obtain ⟨hrest, hhigh⟩ := ih (f + 1) (by omega)
      exact ⟨allIn_cons.2 ⟨hin, hrest⟩, by show (t.scanFrom n (f + 1)).2 ≤ _; omega⟩

/-- Where the loop of `f_install_start` stops. -/
def Table.stopAt (t : Table) (start : BitVec 32) (limit : Nat) : Nat :=
  (t.scanFrom (t.bound limit - start.toNat) start.toNat).2

/-- There is a descriptor for `f_install_start`: a free one from `start` on in the table below the limit, or the first
one behind, which the table can be expanded for. -/
def Table.Installs (t : Table) (start : BitVec 32) (limit : Nat) (alloc : Bool) : Prop :=
  (∃ f, start.toNat ≤ f ∧ f < t.bound limit ∧ t.get f = none) ∨ max start.toNat (t.bound limit) < 2 ^ 31 ∧
    t.CanExpand (BitVec.ofNat 32 (max start.toNat (t.bound limit))) limit alloc

/-- The loop stops early exactly if there is a free descriptor. -/
theorem scanFrom_stop (t : Table) : ∀ n f,
    (∃ g, f ≤ g ∧ g < f + n ∧ t.get g = none) ∧ (t.scanFrom n f).2 < f + n ∨
      (¬∃ g, f ≤ g ∧ g < f + n ∧ t.get g = none) ∧ (t.scanFrom n f).2 = f + n := by
  intro n
  induction n with
  | zero => exact fun f => .inr ⟨fun ⟨g, hlow, hhigh, _⟩ => by omega, rfl⟩
  | succ n ih =>
    intro f
    unfold Table.scanFrom
    by_cases hfree : t.get f = none
    · rw [if_pos hfree]
      exact .inl ⟨⟨f, Nat.le_refl f, by omega, hfree⟩, by show f < _; omega⟩
    rw [if_neg hfree]
    rcases ih (f + 1) with ⟨⟨g, hlow, hhigh, hg⟩, hstop⟩ | ⟨hnone, hstop⟩
    · exact .inl ⟨⟨g, by omega, by omega, hg⟩, by show (t.scanFrom n (f + 1)).2 < _; omega⟩
    · refine .inr ⟨fun ⟨g, hlow, hhigh, hg⟩ => hnone ⟨g, ?_, by omega, hg⟩, ?_⟩
      · rcases Nat.lt_or_eq_of_le hlow with hlt | rfl
        · exact hlt
        · exact absurd hg hfree
      · show (t.scanFrom n (f + 1)).2 = _
        omega

theorem installs_iff_stopAt (t : Table) (start : BitVec 32) (limit : Nat) (alloc : Bool) :
    t.Installs start limit alloc ↔ t.stopAt start limit < t.bound limit ∨
      t.stopAt start limit < 2 ^ 31 ∧ t.CanExpand (BitVec.ofNat 32 (t.stopAt start limit)) limit alloc := by
  unfold Table.Installs Table.stopAt
  rcases scanFrom_stop t (t.bound limit - start.toNat) start.toNat with ⟨⟨g, hlow, hhigh, hg⟩, hstop⟩ | ⟨hnone, hstop⟩
  · exact iff_of_true (.inl ⟨g, hlow, by omega, hg⟩) (.inl (by omega))
  · have hlast : start.toNat + (t.bound limit - start.toNat) = max start.toNat (t.bound limit) := by omega
    rw [hstop, hlast]
    refine or_congr (iff_of_false (fun ⟨g, hlow, hhigh, hg⟩ => hnone ⟨g, hlow, by omega, hg⟩) (by omega)) Iff.rfl

theorem add_one_toNat {f : Nat} (h : f < 2 ^ 31) : (BitVec.ofNat 32 f + 1).toNat = f + 1 := by
  rw [BitVec.toNat_add, BitVec.toNat_ofNat]
  show (f % 2 ^ 32 + 1) % 2 ^ 32 = f + 1
  omega

/-- `f_install_start` keeps to its table, and returns a descriptor of it or a negative number. -/
theorem installAt_spec (hsize : t.size ≤ 2 ^ 31) (start : BitVec 32) (limit : Nat) (alloc : Bool) :
    AllIn (t.installAt start limit alloc).1 ∧ (start.toInt < 0 ∧ (t.installAt start limit alloc).2 = none ∨
        0 ≤ start.toInt ∧ ∃ newF size, (t.installAt start limit alloc).2 = some (newF, size) ∧
          (Access.InBounds ⟨newF, size⟩ ↔ t.Installs start limit alloc)) := by
  rw [installs_iff_stopAt]
  unfold Table.installAt Table.stopAt
  split_ifs with hneg
  · exact ⟨allIn_nil, .inl ⟨hneg, rfl⟩⟩
  have hstart : 0 ≤ start.toInt := by omega
  obtain ⟨-, hsmall⟩ := toInt_eq_toNat hstart
  have hbound : t.bound limit ≤ t.size := Nat.min_le_right _ _
  -- the loop makes no turn if it starts behind its bound
  have hscan : AllIn (t.scanFrom (t.bound limit - start.toNat) start.toNat).1 ∧
      (t.scanFrom (t.bound limit - start.toNat) start.toNat).2 ≤ 2 ^ 31 := by
    by_cases hle : start.toNat ≤ t.bound limit
    · obtain ⟨hall, hhigh⟩ := scanFrom_spec hsize (t.bound limit - start.toNat) start.toNat (by omega)
      exact ⟨hall, by omega⟩
    · rw [Nat.sub_eq_zero_of_le (by omega)]
      exact ⟨allIn_nil, by show start.toNat ≤ _; omega⟩
  dsimp only
  generalize t.scanFrom (t.bound limit - start.toNat) start.toNat = r at hscan ⊢
  obtain ⟨hall, hstop⟩ := hscan
  by_cases hfree : r.2 < t.bound limit
  · have hin : Access.InBounds ⟨fdIndex r.2, t.size⟩ := inBounds_fdIndex (by omega) (by omega)
    rw [if_pos hfree]
    exact ⟨allIn_append.2 ⟨hall, allIn_pair hin⟩, .inr ⟨hstart, _, _, rfl, iff_of_true hin (.inl hfree)⟩⟩
  · rw [if_neg hfree]
    rcases hresult : t.expandTo (BitVec.ofNat 32 r.2) limit alloc with ⟨a, e | t'⟩
    · obtain ⟨hcopy, hcannot, hneg'⟩ := expandTo_error hresult
      refine ⟨allIn_append.2 ⟨hall, hcopy⟩,
        .inr ⟨hstart, _, _, rfl, iff_of_false (fun hin => ?_) fun h => h.elim hfree fun h => hcannot h.2⟩⟩
      have hnonneg : 0 ≤ e := hin.1
      omega
    · obtain ⟨hcopy, hcan, hlarge⟩ := expandTo_ok hresult
      dsimp only
      by_cases hlast : r.2 < 2 ^ 31
      · rw [add_one_toNat hlast] at hlarge
        have hin : Access.InBounds ⟨fdIndex r.2, t'.size⟩ := inBounds_fdIndex hlast hlarge
        rw [if_pos (show fdIndex r.2 ≥ 0 from hin.1)]
        exact ⟨allIn_append.2 ⟨allIn_append.2 ⟨hall, hcopy⟩, allIn_pair hin⟩,
          .inr ⟨hstart, _, _, rfl, iff_of_true hin (.inr ⟨hlast, hcan⟩)⟩⟩
      · -- the number after the last one is negative
        have hnegative : fdIndex r.2 < 0 := by
          obtain hr : r.2 = 2 ^ 31 := by omega
          rw [hr]
          decide
        rw [if_neg (by omega)]
        refine ⟨allIn_append.2 ⟨hall, hcopy⟩,
          .inr ⟨hstart, _, _, rfl, iff_of_false (fun hin => ?_) fun h => h.elim hfree fun h => hlast h.1⟩⟩
        have hnonneg : 0 ≤ fdIndex r.2 := hin.1
        omega

/-! ### The calls -/

/-- The calls and arguments for which every access is in bounds. -/
def Table.SafeCall (t : Table) (limit : Nat) (alloc : Bool) : FdCall → Prop
  | .dup3 f newF _ | .dup2 f newF =>
    (t.lookup t.size f).2 ≠ none → 0 ≤ newF.toInt ∨ ¬t.CanExpand newF limit alloc
  | .dupfdCloexec f start => (t.lookup t.size f).2 ≠ none → 0 ≤ start.toInt → t.Installs start limit alloc
  | .lookup other f => 0 ≤ f.toInt → f.toNat < t.size → f.toNat < other.size
  | .dupfd _ _ | .close _ | .closeRange _ _ _ => True

theorem allIn_dup3Access_iff (t : Table) (limit : Nat) (alloc : Bool) (f newF : BitVec 32) (cloexec : Bool) :
    AllIn (t.dup3Access limit alloc f newF cloexec) ↔
      ((t.lookup t.size f).2 ≠ none → 0 ≤ newF.toInt ∨ ¬t.CanExpand newF limit alloc) := by
  have hlookup := allIn_lookup t f
  unfold Table.dup3Access
  rcases hfind : t.lookup t.size f with ⟨a, _ | fd⟩
  · rw [hfind] at hlookup
    exact iff_of_true hlookup fun h => absurd rfl h
  rw [hfind] at hlookup
  rcases hresult : t.expandTo newF limit alloc with ⟨b, e | t'⟩
  · obtain ⟨hcopy, hcannot, -⟩ := expandTo_error hresult
    exact iff_of_true (allIn_append.2 ⟨hlookup, hcopy⟩) fun _ => .inr hcannot
  · obtain ⟨hcopy, hcan, hlarge⟩ := expandTo_ok hresult
    constructor
    · intro hall _
      exact .inl (allIn_cons.1 (allIn_append.1 hall).2).1.1
    · intro hsafe
      have hpos : 0 ≤ newF.toInt := (hsafe nofun).resolve_right fun h => h hcan
      have hnext := add_one_toNat (toInt_eq_toNat hpos).2
      rw [BitVec.ofNat_toNat, BitVec.setWidth_eq] at hnext
      have hin : Access.InBounds ⟨newF.toInt, t'.size⟩ := inBounds_toInt hpos (by omega)
      exact allIn_append.2 ⟨allIn_append.2 ⟨allIn_append.2 ⟨hlookup, hcopy⟩, allIn_closeAt t' newF⟩,
        allIn_cons.2 ⟨hin, allIn_if fun _ => allIn_cons.2 ⟨hin, allIn_nil⟩⟩⟩

theorem allIn_dupfdAccess_iff (hsize : t.size ≤ 2 ^ 31) (f start : BitVec 32) (cloexec : Bool) :
    AllIn (t.dupfdAccess limit alloc f start cloexec) ↔
      (cloexec → (t.lookup t.size f).2 ≠ none → 0 ≤ start.toInt → t.Installs start limit alloc) := by
  have hlookup := allIn_lookup t f
  unfold Table.dupfdAccess
  rcases hfind : t.lookup t.size f with ⟨a, _ | fd⟩
  · rw [hfind] at hlookup
    exact iff_of_true hlookup fun _ h => absurd rfl h
  rw [hfind] at hlookup
  obtain ⟨hinstall, ⟨hneg, hreturn⟩ | ⟨hstart, newF, size, hreturn, hiff⟩⟩ := installAt_spec hsize start limit alloc
  · rcases hresult : t.installAt start limit alloc with ⟨b, r⟩
    rw [hresult] at hinstall hreturn
    obtain rfl : r = none := hreturn
    exact iff_of_true (allIn_append.2 ⟨hlookup, hinstall⟩) fun _ _ hstart => by omega
  · rcases hresult : t.installAt start limit alloc with ⟨b, r⟩
    rw [hresult] at hinstall hreturn
    obtain rfl : r = some (newF, size) := hreturn
    dsimp only
    rw [allIn_append, allIn_append]
    cases cloexec with
    | false => exact iff_of_true ⟨⟨hlookup, hinstall⟩, allIn_nil⟩ nofun
    | true =>
      show _ ∧ AllIn [⟨newF, size⟩] ↔ _
      rw [allIn_cons, hiff]
      exact ⟨fun h _ _ _ => h.2.1, fun h => ⟨⟨hlookup, hinstall⟩, h rfl nofun hstart, allIn_nil⟩⟩

theorem allIn_closeRangeAccess (t : Table) (first last : Nat) (cloexec : Bool) :
    AllIn (t.closeRangeAccess first last cloexec) := by
  unfold Table.closeRangeAccess
  by_cases hempty : first > last ∨ t.size = 0
  · rw [if_pos hempty]
    exact allIn_nil
  rw [if_neg hempty]
  dsimp only
  have hcapped : (if last ≥ t.size then t.size - 1 else last) < t.size := by
    split_ifs <;> omega
  generalize (if last ≥ t.size then t.size - 1 else last) = cappedLast at hcapped ⊢
  split_ifs
  · exact allIn_nil
  intro a ha
  obtain ⟨f, hf, ha⟩ := List.mem_flatMap.1 ha
  have hlt := (List.mem_range'_1.1 hf).2
  have hin : Access.InBounds ⟨(f : Int), t.size⟩ := ⟨by simp, by show (f : Int) < t.size; omega⟩
  refine (allIn_cons.2 ⟨hin, ?_⟩ : AllIn (t.closeOne cloexec f)) a ha
  split_ifs
  · exact allIn_nil
  · exact allIn_cons.2 ⟨hin, allIn_nil⟩
  · exact allIn_closeAt t _

/-- **Descriptor arguments**: the accesses of a call are in bounds if and only if it is safe. -/
theorem descriptor_access_iff (hsize : t.size ≤ 2 ^ 31) (limit : Nat) (alloc : Bool) (call : FdCall) :
    AllIn (t.accesses limit alloc call) ↔ t.SafeCall limit alloc call := by
  cases call with
  | dup3 f newF cloexec => exact allIn_dup3Access_iff t limit alloc f newF cloexec
  | dup2 f newF => exact allIn_dup3Access_iff t limit alloc f newF false
  | dupfd f start => exact (allIn_dupfdAccess_iff hsize f start false).trans (iff_of_true nofun trivial)
  | dupfdCloexec f start =>
    exact (allIn_dupfdAccess_iff hsize f start true).trans ⟨fun h => h rfl, fun h _ => h⟩
  | close f => exact iff_of_true (allIn_closeAt t f) trivial
  | closeRange first last cloexec => exact iff_of_true (allIn_closeRangeAccess t _ _ cloexec) trivial
  | lookup other f =>
    show AllIn (other.lookup t.size f).1 ↔ (0 ≤ f.toInt → f.toNat < t.size → f.toNat < other.size)
    unfold Table.lookup
    by_cases hbad : f.toInt < 0 ∨ f.toNat ≥ t.size
    · rw [if_pos hbad]
      exact iff_of_true allIn_nil fun _ _ => by omega
    · rw [if_neg hbad, allIn_cons]
      obtain ⟨hindex, -⟩ := toInt_eq_toNat (f := f) (by omega)
      show (0 ≤ f.toInt ∧ f.toInt < other.size) ∧ _ ↔ _
      exact ⟨fun h _ _ => by omega, fun h => ⟨by have := h (by omega) (by omega); omega, allIn_nil⟩⟩

/-- Three descriptors, of which the first is open. -/
def smallTable : Table := ⟨[some 0, none, none], fun _ => false⟩

theorem descriptor_access_dup3 : AllIn (smallTable.accesses 1024 true (.dup3 0 5 false)) :=
  (descriptor_access_iff (by decide) 1024 true (.dup3 0 5 false)).2 fun _ => .inl (by decide)

/-- `dup3(0, -1)`, `F_DUPFD_CLOEXEC` with no descriptor to be had, and a look at descriptor 2 of a task that has
only one. -/
theorem descriptor_access_escapes : (⟨-1, 3⟩ : Access) ∈ smallTable.accesses 1024 true (.dup3 0 (-1) false) ∧
      (⟨-24, 3⟩ : Access) ∈ smallTable.accesses 3 true (.dupfdCloexec 0 3) ∧
      (⟨2, 1⟩ : Access) ∈ smallTable.accesses 1024 true (.lookup ⟨[some 7], fun _ => false⟩ 2) :=
  ⟨by decide, by decide, by decide⟩

end Ish.Fs.Descriptors
