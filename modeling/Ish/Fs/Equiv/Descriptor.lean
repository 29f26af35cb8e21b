import Ish.Fs.Descriptor
import Ish.Lib.Run

/-!
# Descriptor tables and reference counts

`Inv extra s` says that the count of every `struct fd` is the number of its descriptors in all tables,
plus the references elsewhere, plus `extra`, the references in the hands of the running call; that a
close-on-exec bit is set only for a descriptor that is open; and that what is closed has no reference. Each
primitive of `fs/fd.c` moves references between the three places. Two things go wrong: `f_install_start`
cuts the limit to 32 bits and may then take a descriptor that is open, and `F_DUPFD_CLOEXEC_` sets a bit
also if it got no descriptor (`descriptor_tables_sound`).
-/

namespace Ish.Fs.Descriptors

open Lib List Option
open Function (update update_of_ne update_self update_apply)

/-! ### Tables -/

variable {t t' : Table} {f fd x : Nat}

theorem Table.get_eq_some : t.get f = some fd ↔ t.files[f]? = some (some fd) := by
  unfold Table.get
  cases h : t.files[f]? with
  | none => simp
  | some o => cases o <;> simp

theorem Table.lt_of_get (h : t.get f = some fd) : f < t.files.length := by
  obtain ⟨hlt, -⟩ := List.getElem?_eq_some_iff.1 (Table.get_eq_some.1 h)
  exact hlt

/-- The descriptors of a table that are this `struct fd`. -/
def Table.count (t : Table) (fd : Nat) : Nat := t.files.count (some fd)

theorem Table.count_pos (h : t.get f = some fd) : 0 < t.count fd :=
  count_pos_iff.2 (mem_of_getElem? (Table.get_eq_some.1 h))

/-- One descriptor changes. -/
theorem Table.count_set (hf : f < t.files.length) (o : Option Nat) :
    (t.files.set f o).count (some x) + (if t.get f = some x then 1 else 0) =
      t.count x + if o = some x then 1 else 0 := by
  have hget : t.get f = t.files[f] := by
    unfold Table.get
    rw [getElem?_eq_getElem hf, join_some]
  have hcount := List.count_set (a := o) (b := some x) hf
  rw [hcount, hget]
  have hle : (if t.files[f] == some x then 1 else 0) ≤ t.files.count (some x) := by
    split_ifs with heq
    · exact count_pos_iff.2 (by rw [← beq_iff_eq.1 heq]; exact getElem_mem hf)
    · exact Nat.zero_le _
  simp only [beq_iff_eq] at hle ⊢
  unfold Table.count
  omega

theorem Table.get_set (o : Option Nat) (bits : Nat → Bool) (hf : f < t.files.length) (g : Nat) :
    Table.get ⟨t.files.set f o, bits⟩ g = if g = f then o else t.get g := by
  unfold Table.get
  dsimp only
  rw [getElem?_set]
  by_cases hg : g = f
  · subst hg
    simp [hf]
  · simp [hg, Ne.symm hg]

theorem Table.get_resize (t : Table) (size f : Nat) : (t.resize size).get f = t.get f := by
  unfold Table.get Table.resize
  dsimp only
  by_cases hf : f < t.files.length
  · rw [getElem?_append_left hf]
  · rw [getElem?_append_right (Nat.not_lt.1 hf), getElem?_eq_none (Nat.not_lt.1 hf), getElem?_replicate]
    split_ifs <;> rfl

/-- A larger table holds what it held. -/
structure Table.Extends (t t' : Table) : Prop where
  get : ∀ f, t'.get f = t.get f
  count : ∀ fd, t'.count fd = t.count fd
  cloexec : ∀ f, t'.cloexec f = true → t.cloexec f = true

theorem Table.Extends.refl (t : Table) : t.Extends t := ⟨fun _ => rfl, fun _ => rfl, fun _ h => h⟩

theorem Table.extends_resize (t : Table) (size : Nat) : t.Extends (t.resize size) where
  get := t.get_resize size
  count fd := by simp [Table.count, Table.resize, count_replicate]
  cloexec f hf := by
    simp only [Table.resize, Bool.and_eq_true] at hf
    exact hf.2

theorem Table.expand_eq_some {max limit : Nat} (h : t.expand max limit = some t') :
    t.Extends t' ∧ max < limit ∧ max < t'.files.length := by
  unfold Table.expand at h
  obtain ⟨hlimit, h⟩ := ite_none_left_eq_some.1 h
  split_ifs at h with hsize
  · cases h
    exact ⟨Table.Extends.refl t, by omega, by omega⟩
  · cases h
    have hlen : (t.resize (max + 1)).files.length = max + 1 := by
      simp only [Table.resize, length_append, length_replicate]
      omega
    exact ⟨t.extends_resize _, by omega, by omega⟩

/-- Where the search of a free descriptor ends. -/
theorem Table.scan_spec (t : Table) (n start : Nat) : start ≤ t.scan n start ∧ t.scan n start ≤ start + n ∧
      (∀ g, start ≤ g → g < t.scan n start → t.get g ≠ none) ∧
      (t.scan n start < start + n → t.get (t.scan n start) = none) := by
  induction n generalizing start with
  | zero =>
    unfold Table.scan
    exact ⟨Nat.le_refl _, Nat.le_refl _, fun g h h' => by omega, fun h => by omega⟩
  | succ n ih =>
    unfold Table.scan
    split_ifs with hfree
    · exact ⟨Nat.le_refl _, by omega, fun g h h' => by omega, fun _ => hfree⟩
    · obtain ⟨hle, hle', hocc, hend⟩ := ih (start + 1)
      refine ⟨by omega, by omega, fun g hg hg' => ?_, fun h => hend (by omega)⟩
      by_cases heq : g = start
      · rw [heq]
        exact hfree
      · exact hocc g (by omega) hg'

/-- The descriptor is the lowest that is free from `start` on. -/
structure Table.LowestFree (t : Table) (start limit f : Nat) : Prop where
  free : t.get f = none
  from_start : start ≤ f
  below : f < limit
  least : ∀ g, start ≤ g → g < f → t.get g ≠ none

theorem Table.stop_le (t : Table) (start limit : Nat) : start ≤ t.stop start limit :=
  (t.scan_spec _ start).1

theorem Table.stop_least (t : Table) (start limit g : Nat) (hg : start ≤ g)
    (hlt : g < t.stop start limit) : t.get g ≠ none :=
  (t.scan_spec _ start).2.2.1 g hg hlt

variable {start limit : Nat}

theorem Table.stop_free (h : t.stop start limit < t.bound limit) : t.get (t.stop start limit) = none := by
  have hle := t.stop_le start limit
  refine (t.scan_spec (t.bound limit - start) start).2.2.2 ?_
  show t.stop start limit < start + (t.bound limit - start)
  omega

theorem Table.bound_le (t : Table) (limit : Nat) : t.bound limit ≤ limit ∧ t.bound limit ≤ t.files.length := by
  have hmod := Nat.mod_le limit (2 ^ 32)
  unfold Table.bound
  omega

/-! ### Counts -/

variable {s : Fds} {i : Nat} {extra extra' : Nat → Nat}

/-- The descriptors of all tables that are this `struct fd`. -/
def Fds.slots (s : Fds) (fd : Nat) : Nat := (s.tables.map (·.count fd)).sum

/-- What holds while a call has references in its hands. -/
structure Inv (extra : Nat → Nat) (s : Fds) : Prop where
  count : ∀ fd, s.refcount fd = s.slots fd + s.elsewhere fd + extra fd
  cloexec : ∀ t ∈ s.tables, ∀ f, t.cloexec f = true → t.get f ≠ none
  closed : ∀ fd, s.closed fd = true → s.refcount fd = 0
  fresh : ∀ fd, s.next ≤ fd → s.refcount fd = 0 ∧ s.closed fd = false

def one (fd : Nat) : Nat → Nat := fun x => if x = fd then 1 else 0

theorem ite_some_eq (fd x : Nat) : (if some fd = some x then 1 else 0) = one fd x :=
  if_congr (some_inj.trans eq_comm) rfl rfl

theorem update_succ (g : Nat → Nat) (fd x : Nat) : update g fd (g fd + 1) x = g x + one fd x := by
  unfold one
  rw [update_apply]
  split_ifs with heq
  · rw [heq]
  · rfl

theorem update_pred {g : Nat → Nat} (h : g fd ≠ 0) (x : Nat) : update g fd (g fd - 1) x + one fd x = g x := by
  unfold one
  rw [update_apply]
  split_ifs with heq
  · rw [heq]
    omega
  · rfl

theorem sum_set {α : Type} (g : α → Nat) (l : List α) {a : α} (hi : l[i]? = some a) (b : α) :
    ((l.set i b).map g).sum + g a = (l.map g).sum + g b := by
  induction l generalizing i with
  | nil => simp at hi
  | cons c l ih =>
    cases i with
    | zero =>
      simp only [getElem?_cons_zero, Option.some.injEq] at hi
      subst hi
      simp only [set_cons_zero, map_cons, sum_cons]
      omega
    | succ i =>
      simp only [getElem?_cons_succ] at hi
      have hl := ih hi
      simp only [set_cons_succ, map_cons, sum_cons]
      omega

theorem Inv.setTable (h : Inv extra s) (hi : s.tables[i]? = some t)
    (hcount : ∀ x, t'.count x + extra' x = t.count x + extra x) (hcloexec : ∀ f, t'.cloexec f = true → t'.get f ≠ none) :
    Inv extra' (s.setTable i t') where
  count x := by
    have hsum := sum_set (·.count x) s.tables hi t'
    have hslots : (s.setTable i t').slots x + t.count x = s.slots x + t'.count x := hsum
    have hbefore := h.count x
    have hmove := hcount x
    show s.refcount x = (s.setTable i t').slots x + s.elsewhere x + extra' x
    omega
  cloexec u hu f hf := by
    rcases mem_or_eq_of_mem_set hu with hu | rfl
    · exact h.cloexec u hu f hf
    · exact hcloexec f hf
  closed := h.closed
  fresh := h.fresh

theorem Inv.recount (h : Inv extra s) {refcount elsewhere : Nat → Nat} (hzero : ∀ x, s.refcount x = 0 → refcount x = 0)
    (hcount : ∀ x, refcount x = s.slots x + elsewhere x + extra' x) :
    Inv extra' { s with refcount := refcount, elsewhere := elsewhere } where
  count := hcount
  cloexec := h.cloexec
  closed x hx := hzero x (h.closed x hx)
  fresh x hx := ⟨hzero x (h.fresh x hx).1, (h.fresh x hx).2⟩

theorem Inv.fdRetain (h : Inv (fun _ => 0) s) (hfd : s.refcount fd ≠ 0) : Inv (one fd) (s.fdRetain fd) := by
  refine h.recount (fun x hx => ?_) fun x => ?_
  · rw [update_of_ne, hx]
    rintro rfl
    exact hfd hx
  · rw [update_succ, h.count, Nat.add_zero]

theorem Inv.refcount_of_held (h : Inv extra s) (hextra : ∀ x, extra x = extra' x + one fd x) : s.refcount fd ≠ 0 := by
  have hcount := h.count fd
  have hheld := hextra fd
  simp only [one, if_true] at hheld
  omega

theorem Fds.fdClose_of_ne (s : Fds) (hx : x ≠ fd) :
    (s.fdClose fd).refcount x = s.refcount x ∧ (s.fdClose fd).closed x = s.closed x := by
  refine ⟨update_of_ne hx _ _, ?_⟩
  show (if _ then update s.closed fd true else s.closed) x = s.closed x
  split_ifs
  · exact update_of_ne hx _ _
  · rfl

theorem Inv.fdClose (h : Inv extra s) (hextra : ∀ x, extra x = extra' x + one fd x) : Inv extra' (s.fdClose fd) where
  count x := by
    show update s.refcount fd (s.refcount fd - 1) x = s.slots x + s.elsewhere x + extra' x
    have hx := h.count x
    have he := hextra x
    have hpred := update_pred (h.refcount_of_held hextra) x
    omega
  cloexec := h.cloexec
  closed x hx := by
    by_cases heq : x = fd
    · subst heq
      have hx : (if s.refcount x - 1 = 0 then update s.closed x true else s.closed) x = true := hx
      show update s.refcount x (s.refcount x - 1) x = 0
      rw [update_self]
      split_ifs at hx with hzero
      · exact hzero
      · rw [h.closed x hx]
    · obtain ⟨hcount, hclosed⟩ := s.fdClose_of_ne heq
      rw [hcount]
      exact h.closed x (hclosed ▸ hx)
  fresh x hx := by
    have hne : x ≠ fd := by
      rintro rfl
      exact h.refcount_of_held hextra (h.fresh x hx).1
    rw [(s.fdClose_of_ne hne).1, (s.fdClose_of_ne hne).2]
    exact h.fresh x hx

theorem Inv.open_of_bit (h : Inv extra s) (hi : s.tables[i]? = some t) (hf : t.cloexec f = true) : t.get f ≠ none :=
  h.cloexec t (mem_of_getElem? hi) f hf

theorem Inv.refcount_of_get (h : Inv extra s) (hi : s.tables[i]? = some t)
    (hfd : t.get f = some fd) : s.refcount fd ≠ 0 := by
  have hpos : 0 < t.count fd := Table.count_pos hfd
  -- without the table there would be so many fewer
  have hsum := sum_set (·.count fd) s.tables hi ⟨[], fun _ => false⟩
  have hempty : Table.count ⟨[], fun _ => false⟩ fd = 0 := rfl
  have hcount := h.count fd
  unfold Fds.slots at hcount
  omega

/-! ### The primitives -/

theorem Fds.getElem?_setTable (s : Fds) (hi : s.tables[i]? = some t) (t' : Table) :
    (s.setTable i t').tables[i]? = some t' := by
  obtain ⟨hlt, -⟩ := List.getElem?_eq_some_iff.1 hi
  show (s.tables.set i t')[i]? = some t'
  rw [getElem?_set_self hlt]

theorem modify_eq_set {α : Type} {l : List α} {a : α} (hi : l[i]? = some a) (g : α → α) :
    l.modify i g = l.set i (g a) := by
  refine ext_getElem? fun j => ?_
  rw [getElem?_modify, getElem?_set]
  by_cases hij : i = j
  · subst hij
    obtain ⟨hlt, hget⟩ := List.getElem?_eq_some_iff.1 hi
    simp [hlt, hget]
  · simp [hij]

theorem Fds.setBit_eq (hi : s.tables[i]? = some t) : s.setBit i f = s.setTable i (t.setBit f) :=
  congrArg (fun tables => { s with tables := tables }) (modify_eq_set hi _)

/-- The reference of the call goes to a descriptor that is free; its bit may be anything. -/
theorem Inv.putSlot (h : Inv (one fd) s) (hi : s.tables[i]? = some t) (hext : t.Extends t')
    (hlt : f < t'.files.length) (hfree : t.get f = none)
    {bits : Nat → Bool} (hbits : ∀ g, g ≠ f → bits g = true → t'.cloexec g = true) :
    Inv (fun _ => 0) (s.setTable i ⟨t'.files.set f (some fd), bits⟩) := by
  have hfree' : t'.get f = none := (hext.get f).trans hfree
  refine h.setTable hi (fun x => ?_) (fun g hg => ?_)
  · have hset := Table.count_set (t := t') (x := x) hlt (some fd)
    have hcount := hext.count x
    rw [hfree', if_neg nofun, ite_some_eq] at hset
    exact hset.trans (by rw [hcount])
  · rw [Table.get_set _ _ hlt]
    split_ifs with hgf
    · simp
    · rw [hext.get]
      exact h.open_of_bit hi (hext.cloexec g (hbits g hgf hg))

theorem Inv.setBit (h : Inv extra s) (hi : s.tables[i]? = some t) (hf : t.get f ≠ none) : Inv extra (s.setBit i f) := by
  rw [Fds.setBit_eq hi]
  refine h.setTable hi (fun _ => rfl) (fun g hg => ?_)
  have hg : update t.cloexec f true g = true := hg
  show t.get g ≠ none
  rcases update_cases hg with ⟨hgf, hg⟩ | ⟨hgf, hg⟩
  · rw [hgf]
    exact hf
  · exact h.open_of_bit hi hg

theorem Inv.clearBit (h : Inv extra s) (hi : s.tables[i]? = some t) (f : Nat) :
    Inv extra (s.setTable i (t.clearBit f)) := by
  refine h.setTable hi (fun _ => rfl) (fun g hg => ?_)
  have hg : update t.cloexec f false g = true := hg
  rw [update_apply] at hg
  split_ifs at hg
  exact h.open_of_bit (t := t) hi hg

/-- A larger table takes the place of a table. -/
theorem Inv.extend (h : Inv extra s) (hi : s.tables[i]? = some t) (hext : t.Extends t') :
    Inv extra (s.setTable i t') := by
  refine h.setTable hi (fun x => by rw [hext.count]) (fun f hf => ?_)
  rw [hext.get]
  exact h.open_of_bit hi (hext.cloexec f hf)

/-- Both branches of `f_install_start` are the branch through `fdtable_expand`. -/
theorem Fds.installStart_eq (s : Fds) (i : Nat) (t : Table) (fd start limit : Nat) :
    s.installStart i t fd start limit =
      match t.expand (t.stop start limit) limit with
      | none => (s.fdClose fd, none)
      | some t' =>
        if t.stop start limit < 2 ^ 31 then
          (s.setTable i (t'.put (t.stop start limit) fd), some (t.stop start limit))
        else ((s.setTable i t').fdClose fd, none) := by
  unfold Fds.installStart
  dsimp only
  by_cases hlt : t.stop start limit < t.bound limit
  · obtain ⟨hlimit, hlen⟩ := t.bound_le limit
    have hexpand : t.expand (t.stop start limit) limit = some t := by
      unfold Table.expand
      rw [if_neg (by omega), if_pos (by omega)]
    rw [hexpand, if_pos hlt]
  · cases t.expand (t.stop start limit) limit with
    | none => rw [if_neg hlt]
    | some t' => rw [if_neg hlt]

/-- The limit that is left of 32 bits does not hide a descriptor that is open: it is not below `limit`, or its
descriptor is free, or a free one comes before it. -/
def Table.SearchSafe (t : Table) (start limit : Nat) : Prop :=
  limit ≤ max start (limit % 2 ^ 32) ∨ t.get (max start (limit % 2 ^ 32)) = none ∨
    ∃ g, start ≤ g ∧ g < limit % 2 ^ 32 ∧ t.get g = none

/-- A limit of less than 32 bits is not cut. -/
theorem Table.searchSafe_of_lt (h : limit < 2 ^ 32) : t.SearchSafe start limit := by
  refine .inl ?_
  rw [Nat.mod_eq_of_lt h]
  exact le_max_right _ _

theorem Table.get_of_le (h : t.files.length ≤ f) : t.get f = none := by
  unfold Table.get
  rw [getElem?_eq_none h]
  rfl

/-- **A safe search ends at a free descriptor**, if it ends below the limit. -/
theorem Table.SearchSafe.free (h : t.SearchSafe start limit) (hlimit : t.stop start limit < limit) :
    t.get (t.stop start limit) = none := by
  by_cases hstop : t.stop start limit < t.bound limit
  · exact Table.stop_free hstop
  -- nothing is free in the part that is searched
  have hge := t.stop_le start limit
  have hle : t.stop start limit ≤ start + (t.bound limit - start) := (t.scan_spec _ start).2.1
  by_cases hlen : t.files.length ≤ limit % 2 ^ 32
  · exact Table.get_of_le (by unfold Table.bound at hstop; omega)
  have hbound : t.bound limit = limit % 2 ^ 32 := by
    unfold Table.bound
    omega
  have heq : t.stop start limit = max start (limit % 2 ^ 32) := by omega
  rcases h with hcut | hfree | ⟨g, hg, hlt, hfree⟩
  · omega
  · rw [heq]
    exact hfree
  · exact absurd hfree (t.stop_least start limit g hg (by omega))

theorem Inv.installStart (h : Inv (one fd) s) (hi : s.tables[i]? = some t) (hsafe : t.SearchSafe start limit) :
    Inv (fun _ => 0) (s.installStart i t fd start limit).1 ∧
      ∀ f, (s.installStart i t fd start limit).2 = some f → t.LowestFree start limit f ∧
        ∃ t', (s.installStart i t fd start limit).1.tables[i]? = some t' ∧ t'.get f = some fd := by
  have hgive : ∀ x, one fd x = 0 + one fd x := fun x => (Nat.zero_add _).symm
  rw [Fds.installStart_eq s i t]
  cases hexpand : t.expand (t.stop start limit) limit with
  | none => exact ⟨h.fdClose hgive, fun f hf => by cases hf⟩
  | some t' =>
    obtain ⟨hext, hlimit, hlt⟩ := Table.expand_eq_some hexpand
    dsimp only
    split_ifs with hneg
    · have hfree := hsafe.free hlimit
      have hbits : ∀ g, g ≠ t.stop start limit →
          update t'.cloexec (t.stop start limit) false g = true → t'.cloexec g = true := by
        intro g hg hset
        rwa [update_of_ne hg] at hset
      refine ⟨h.putSlot hi hext hlt hfree hbits, fun f hf => ?_⟩
      obtain rfl : t.stop start limit = f := Option.some.inj hf
      refine ⟨⟨hfree, t.stop_le start limit, hlimit, t.stop_least start limit⟩, _, Fds.getElem?_setTable s hi _, ?_⟩
      show Table.get ⟨t'.files.set _ (some fd), _⟩ _ = some fd
      rw [Table.get_set _ _ hlt, if_pos rfl]
    · exact ⟨(h.extend hi hext).fdClose hgive, fun f hf => by cases hf⟩

theorem Inv.install (h : Inv (one fd) s) (hi : s.tables[i]? = some t)
    (hsafe : t.SearchSafe 0 limit) (cloexec : Bool) : Inv (fun _ => 0) (s.install i t fd cloexec limit).1 ∧
      ∀ f, (s.install i t fd cloexec limit).2 = some f → t.LowestFree 0 limit f := by
  obtain ⟨hinv, hchosen⟩ := h.installStart hi hsafe
  unfold Fds.install
  rcases hr : s.installStart i t fd 0 limit with ⟨s', _ | f⟩
  · rw [hr] at hinv
    exact ⟨hinv, fun f hf => by cases hf⟩
  · rw [hr] at hinv hchosen
    obtain ⟨hlowest, t', ht', hget⟩ := hchosen f rfl
    refine ⟨?_, fun g hg => ?_⟩
    · show Inv _ (if cloexec then s'.setBit i f else s')
      split_ifs
      · exact hinv.setBit ht' (by rw [hget]; simp)
      · exact hinv
    · cases hg
      exact hlowest

theorem Inv.tableClose (h : Inv extra s) (hi : s.tables[i]? = some t) (f : Nat) : Inv extra (s.tableClose i t f) := by
  unfold Fds.tableClose
  split
  · exact h
  · next fd hfd =>
    have hlt := Table.lt_of_get hfd
    have hset : Inv (fun x => extra x + one fd x)
        (s.setTable i { t.clearBit f with files := t.files.set f none }) := by
      refine h.setTable hi (fun x => ?_) (fun g hg => ?_)
      · have hcount := Table.count_set (t := t) (x := x) hlt none
        rw [hfd, ite_some_eq, if_neg nofun] at hcount
        show (t.files.set f none).count (some x) + (extra x + one fd x) = t.count x + extra x
        omega
      · show Table.get ⟨t.files.set f none, _⟩ g ≠ none
        rw [Table.get_set _ _ hlt]
        have hg : update t.cloexec f false g = true := hg
        rw [update_apply] at hg
        split_ifs at hg ⊢
        exact h.open_of_bit hi hg
    exact hset.fdClose fun _ => rfl

theorem Inv.close (h : Inv extra s) (i f : Nat) : Inv extra (s.close i f) := by
  unfold Fds.close
  split
  · exact h
  · next t hi => exact h.tableClose hi f

theorem Fds.close_table (hi : s.tables[i]? = some t) (f : Nat) :
    ∃ t', (s.close i f).tables[i]? = some t' ∧ t'.get f = none ∧ t'.files.length = t.files.length := by
  unfold Fds.close
  rw [hi]
  dsimp only
  unfold Fds.tableClose
  split
  · next hnone => exact ⟨t, hi, hnone, rfl⟩
  · next fd hfd =>
    refine ⟨_, Fds.getElem?_setTable (s.fdClose fd) hi _, ?_, length_set⟩
    show Table.get ⟨t.files.set f none, _⟩ f = none
    rw [Table.get_set _ _ (Table.lt_of_get hfd), if_pos rfl]

theorem Inv.dup3 (h : Inv (fun _ => 0) s) (hi : s.tables[i]? = some t) (hfd : t.get f = some fd)
    (newF : Nat) (cloexec : Bool) (limit : Nat) : Inv (fun _ => 0) (s.dup3 i t fd newF cloexec limit).1 := by
  unfold Fds.dup3
  split
  · exact h
  · next t' hexpand =>
    obtain ⟨hext, -, hlt⟩ := Table.expand_eq_some hexpand
    have hgrown := h.extend hi hext
    have hheld : Inv (one fd) (((s.setTable i t').fdRetain fd).close i newF) :=
      (hgrown.fdRetain (h.refcount_of_get hi hfd)).close i newF
    obtain ⟨u, hu, hfree, hlen⟩ := Fds.close_table
      (s := (s.setTable i t').fdRetain fd) (Fds.getElem?_setTable s hi t') newF
    dsimp only
    generalize ((s.setTable i t').fdRetain fd).close i newF = s₁ at hheld hu ⊢
    -- the slot is set, and its bit is as the close has left it
    have hslot : newF < u.files.length := by omega
    have heq : { s₁ with
        tables := s₁.tables.modify i fun t => { t with files := t.files.set newF (some fd) } } =
        s₁.setTable i { u with files := u.files.set newF (some fd) } :=
      congrArg (fun tables => { s₁ with tables := tables }) (modify_eq_set hu _)
    have hset : Inv (fun _ => 0) (s₁.setTable i { u with files := u.files.set newF (some fd) }) :=
      hheld.putSlot hu (Table.Extends.refl u) hslot hfree
        fun _ _ hbit => hbit
    rw [heq]
    split_ifs
    · refine hset.setBit (Fds.getElem?_setTable s₁ hu _) ?_
      rw [Table.get_set _ _ hslot, if_pos rfl]
      simp
    · exact hset

theorem Inv.mark (h : Inv extra s) (i f : Nat) : Inv extra { s with
      tables := s.tables.modify i fun t => if (t.get f).isSome then t.setBit f else t } := by
  cases hi : s.tables[i]? with
  | none =>
    rw [modify_eq_self (List.getElem?_eq_none_iff.1 hi)]
    exact h
  | some t =>
    rw [modify_eq_set hi]
    by_cases hf : (t.get f).isSome
    · have hbit := h.setBit hi (f := f) (isSome_iff_ne_none.1 hf)
      rw [Fds.setBit_eq hi] at hbit
      rw [if_pos hf]
      exact hbit
    · rw [if_neg hf]
      exact h.extend hi (Table.Extends.refl t)

theorem Inv.closeRange (h : Inv extra s) (i first last : Nat) (cloexec : Bool) :
    Inv extra (s.closeRange i first last cloexec) := by
  have hbody : ∀ s : Fds, Inv extra s → ∀ f, Inv extra (if cloexec then { s with
      tables := s.tables.modify i fun t => if (t.get f).isSome then t.setBit f else t }
      else s.close i f) := by
    intro s h f
    cases cloexec
    · exact h.close i f
    · exact h.mark i f
  unfold Fds.closeRange
  split
  · exact h
  · next t _ =>
    by_cases hempty : t.files.length = 0
    · rw [if_pos hempty]
      exact h
    · rw [if_neg hempty]
      dsimp only
      by_cases hout : first ≥ t.files.length ∨ first > min last (t.files.length - 1)
      · rw [if_pos hout]
        exact h
      · rw [if_neg hout]
        exact List.foldlRecOn _ _ h fun s h f _ => hbody s h f

theorem Inv.doCloexec (h : Inv (fun _ => 0) s) (i : Nat) : Inv (fun _ => 0) (s.doCloexec i) := by
  unfold Fds.doCloexec
  refine List.foldlRecOn _ _ h fun s h f _ => ?_
  unfold Fds.closeOnExec
  split_ifs
  · exact h.close i f
  · exact h

theorem Inv.copy (h : Inv (fun _ => 0) s) (hi : s.tables[i]? = some t) : Inv (fun _ => 0) (s.copy t) := by
  have hmem := mem_of_getElem? hi
  have hcases : ∀ {u : Table}, u ∈ (s.copy t).tables → u ∈ s.tables := by
    intro u hu
    rcases mem_append.1 hu with hu | hu
    · exact hu
    · rw [mem_singleton.1 hu]
      exact hmem
  have hzero : ∀ x, s.refcount x = 0 → s.refcount x + t.count x = 0 := by
    intro x hx
    have hnone : t.count x = 0 := by
      by_contra hne
      obtain ⟨f, hf⟩ := mem_iff_getElem?.1 (count_pos_iff.1 (Nat.pos_of_ne_zero hne))
      exact h.refcount_of_get hi (Table.get_eq_some.2 hf) hx
    omega
  refine ⟨fun x => ?_, fun u hu => h.cloexec u (hcases hu),
    fun x hx => hzero x (h.closed x hx), fun x hx => ⟨hzero x (h.fresh x hx).1, (h.fresh x hx).2⟩⟩
  have hcount := h.count x
  have hslots : (s.copy t).slots x = s.slots x + t.count x := by
    simp [Fds.slots, Fds.copy, map_append]
  show s.refcount x + t.count x = (s.copy t).slots x + s.elsewhere x + 0
  omega

/-- References move between the call and elsewhere. -/
theorem Inv.moveElsewhere (h : Inv extra s) {elsewhere : Nat → Nat}
    (hmove : ∀ x, elsewhere x + extra' x = s.elsewhere x + extra x) : Inv extra' { s with elsewhere := elsewhere } := by
  refine h.recount (fun _ hx => hx) fun x => ?_
  have hcount := h.count x
  have hx := hmove x
  omega

theorem Inv.takeElsewhere (h : Inv (fun _ => 0) s) (hfd : s.elsewhere fd ≠ 0) : Inv (one fd)
      { s with elsewhere := update s.elsewhere fd (s.elsewhere fd - 1) } :=
  h.moveElsewhere (update_pred hfd)

theorem Inv.create (h : Inv (fun _ => 0) s) : Inv (fun _ => 0) { s with
      refcount := update s.refcount s.next 1
      elsewhere := update s.elsewhere s.next 1
      next := s.next + 1 } := by
  obtain ⟨hzero, hopen⟩ := h.fresh s.next (Nat.le_refl _)
  refine ⟨fun x => ?_, h.cloexec, fun x hx => ?_, fun x hx => ?_⟩
  · show update s.refcount s.next 1 x = s.slots x + update s.elsewhere s.next 1 x + 0
    have hcount := h.count x
    simp only [update_apply]
    split_ifs with heq
    · subst heq
      omega
    · omega
  · have hne : x ≠ s.next := by
      rintro rfl
      exact Bool.false_ne_true (hopen.symm.trans hx)
    show update s.refcount s.next 1 x = 0
    rw [update_of_ne hne]
    exact h.closed x hx
  · have hx : s.next + 1 ≤ x := hx
    obtain ⟨hcount, hclosed⟩ := h.fresh x (by omega)
    refine ⟨?_, hclosed⟩
    show update s.refcount s.next 1 x = 0
    rw [update_of_ne (by omega)]
    exact hcount

theorem inv_init : Inv (fun _ => 0) init := by
  refine ⟨fun _ => rfl, fun t ht f hf => ?_, fun _ hfd => ?_, fun _ _ => ⟨rfl, rfl⟩⟩
  · rw [mem_singleton.1 ht] at hf
    cases hf
  · cases hfd

/-! ### The calls -/

/-- What is asked of a state: references are counted, only descriptors that are open are marked, and no
descriptor is a `struct fd` that was closed. -/
structure Fds.Sound (s : Fds) : Prop where
  count : ∀ fd, s.refcount fd = s.slots fd + s.elsewhere fd
  cloexec : ∀ t ∈ s.tables, ∀ f, t.cloexec f = true → t.get f ≠ none
  opened : ∀ t ∈ s.tables, ∀ f fd, t.get f = some fd → s.closed fd = false

theorem Inv.sound (h : Inv (fun _ => 0) s) : s.Sound where
  count := h.count
  cloexec := h.cloexec
  opened t ht f fd hfd := by
    obtain ⟨i, hi⟩ := mem_iff_getElem?.1 ht
    by_contra hclosed
    rw [Bool.not_eq_false] at hclosed
    exact h.refcount_of_get hi hfd (h.closed fd hclosed)

/-- A call that chooses a descriptor takes the lowest free one that it may take. -/
def Fds.Chosen (s : Fds) : Act → Option Nat → Prop
  | .install i _ _ limit, r => ∀ t ∈ s.tables[i]?, ∀ f ∈ r, t.LowestFree 0 limit f
  | .dup i _ limit, r => ∀ t ∈ s.tables[i]?, ∀ f ∈ r, t.LowestFree 0 limit f
  | .dupfd i _ start _ limit, r => ∀ t ∈ s.tables[i]?, ∀ f ∈ r, t.LowestFree start limit f
  | _, _ => True

/-- A search is safe, and for `F_DUPFD_CLOEXEC_` there is a free descriptor. -/
def Fds.Safe (s : Fds) : Act → Prop
  | .install i _ _ limit => ∀ t ∈ s.tables[i]?, t.SearchSafe 0 limit
  | .dup i f limit => ∀ t ∈ s.tables[i]?, t.get f ≠ none → t.SearchSafe 0 limit
  | .dupfd i f start cloexec limit => ∀ t ∈ s.tables[i]?, t.get f ≠ none →
    t.SearchSafe start limit ∧ (cloexec = true → ∃ g, start ≤ g ∧ g < limit ∧ g < 2 ^ 31 ∧ t.get g = none)
  | _ => True

@[elab_as_elim]
theorem Fds.withFd_elim {call : Table → Nat → Fds × Option Nat} {r : Fds × Option Nat}
    {motive : Fds × Option Nat → Prop} (h : s.withFd i f call = some r)
    (hbad : ∀ t, s.tables[i]? = some t → t.get f = none → motive (s, none))
    (hcall : ∀ t fd, s.tables[i]? = some t → t.get f = some fd → motive (call t fd)) : motive r := by
  unfold Fds.withFd at h
  split at h
  · cases h
  · next t hi =>
    split at h
    · next hfd => exact Option.some.inj h ▸ hbad t hi hfd
    · next fd hfd => exact Option.some.inj h ▸ hcall t fd hi hfd

theorem Fds.chosen_of (hi : s.tables[i]? = some t) {P : Table → Prop} (h : P t) : ∀ t' ∈ s.tables[i]?, P t' :=
  fun _ ht' => Option.some.inj (hi.symm.trans ht') ▸ h

theorem Inv.dupfd (h : Inv (fun _ => 0) s) (hi : s.tables[i]? = some t) (hfd : t.get f = some fd)
    {cloexec : Bool} (hfree : t.SearchSafe start limit)
    (hroom : cloexec = true → ∃ g, start ≤ g ∧ g < limit ∧ g < 2 ^ 31 ∧ t.get g = none) :
    Inv (fun _ => 0) (s.dupfd i t fd start cloexec limit).1 ∧
      ∀ g ∈ (s.dupfd i t fd start cloexec limit).2, t.LowestFree start limit g := by
  obtain ⟨hinv, hchosen⟩ := (h.fdRetain (h.refcount_of_get hi hfd)).installStart
    (s := s.fdRetain fd) hi hfree
  refine ⟨?_, fun g hg => (hchosen g hg).1⟩
  unfold Fds.dupfd
  dsimp only
  split_ifs with hclo
  · -- the bit is the one of the new descriptor
    obtain ⟨g, hg, hlimit, hneg, hnone⟩ := hroom hclo
    have hle : t.stop start limit ≤ g := by
      by_contra hlt
      exact t.stop_least start limit g hg (by omega) hnone
    have hresult : ((s.fdRetain fd).installStart i t fd start limit).2 = some (t.stop start limit) := by
      have hsome : t.expand (t.stop start limit) limit ≠ none := by
        unfold Table.expand
        rw [if_neg (by omega)]
        split_ifs <;> nofun
      obtain ⟨t', ht'⟩ := ne_none_iff_exists'.1 hsome
      rw [Fds.installStart_eq, ht']
      dsimp only
      rw [if_pos (by omega)]
    obtain ⟨-, u, hu, hget⟩ := hchosen _ hresult
    rw [hresult]
    exact hinv.setBit hu (by rw [getD_some, hget]; simp)
  · exact hinv

/-- **Every safe call keeps the invariant and chooses the lowest free descriptor.** -/
theorem Inv.call (h : Inv (fun _ => 0) s) {a : Act} {r : Fds × Option Nat} (hsafe : s.Safe a)
    (hcall : s.call a = some r) : Inv (fun _ => 0) r.1 ∧ s.Chosen a r.2 := by
  cases a with
  | create =>
    cases hcall
    exact ⟨h.create, trivial⟩
  | retain fd =>
    obtain ⟨hfd, hcall⟩ := ite_none_left_eq_some.1 hcall
    cases hcall
    exact ⟨(h.fdRetain hfd).moveElsewhere (update_succ s.elsewhere fd), trivial⟩
  | drop fd =>
    obtain ⟨hfd, hcall⟩ := ite_none_left_eq_some.1 hcall
    cases hcall
    exact ⟨(h.takeElsewhere hfd).fdClose fun x => (Nat.zero_add _).symm, trivial⟩
  | install i fd cloexec limit =>
    simp only [Fds.call] at hcall
    cases hi : s.tables[i]? with
    | none =>
      rw [hi] at hcall
      cases hcall
    | some t =>
      rw [hi] at hcall
      obtain ⟨hfd, hcall⟩ := ite_none_left_eq_some.1 hcall
      obtain ⟨hinv, hchosen⟩ := (h.takeElsewhere hfd).install hi (hsafe t hi) cloexec
      rw [Option.some.inj hcall] at hinv hchosen
      exact ⟨hinv, Fds.chosen_of hi hchosen⟩
  | dup i f limit =>
    refine Fds.withFd_elim hcall (fun _ _ _ => ⟨h, nofun⟩) fun t fd hi hfd => ?_
    obtain ⟨hinv, hchosen⟩ := (h.fdRetain (h.refcount_of_get hi hfd)).install
      (s := s.fdRetain fd) hi (hsafe t hi (by rw [hfd]; simp)) false
    exact ⟨hinv, Fds.chosen_of hi hchosen⟩
  | dup3 i f newF cloexec limit =>
    exact Fds.withFd_elim hcall (fun _ _ _ => ⟨h, trivial⟩) fun t fd hi hfd => ⟨h.dup3 hi hfd newF cloexec limit, trivial⟩
  | dupfd i f start cloexec limit =>
    refine Fds.withFd_elim hcall (fun _ _ _ => ⟨h, nofun⟩) fun t fd hi hfd => ?_
    obtain ⟨hfree, hroom⟩ := hsafe t hi (by rw [hfd]; simp)
    obtain ⟨hinv, hchosen⟩ := h.dupfd hi hfd hfree hroom
    exact ⟨hinv, Fds.chosen_of hi hchosen⟩
  | setfd i f on =>
    refine Fds.withFd_elim hcall (fun _ _ _ => ⟨h, trivial⟩) fun t fd hi hfd => ⟨?_, trivial⟩
    cases on with
    | false => exact h.clearBit hi f
    | true =>
      have hbit := h.setBit hi (f := f) (by rw [hfd]; simp)
      rwa [Fds.setBit_eq hi] at hbit
  | close i f =>
    cases hcall
    exact ⟨h.close i f, trivial⟩
  | closeRange i first last cloexec =>
    cases hcall
    exact ⟨h.closeRange i first last cloexec, trivial⟩
  | exec i =>
    cases hcall
    exact ⟨h.doCloexec i, trivial⟩
  | fork i =>
    simp only [Fds.call] at hcall
    cases hi : s.tables[i]? with
    | none =>
      rw [hi] at hcall
      cases hcall
    | some t =>
      rw [hi] at hcall
      cases hcall
      exact ⟨h.copy hi, trivial⟩

theorem inv_of_run (h : Run Fds.step Fds.Safe init s) : Inv (fun _ => 0) s := by
  refine h.inv (Inv fun _ => 0) (fun s a s' hinv hsafe hstep => ?_) inv_init
  obtain ⟨⟨s'', r⟩, hcall, rfl⟩ := map_eq_some_iff.1 hstep
  exact (hinv.call hsafe hcall).1

def openRun (limit : Nat) : List Act := [.create, .install 0 0 false limit]

theorem openRun_isSome : ((openRun 1024).foldlM Fds.step init).isSome := by decide

def afterOpen : Fds := Option.get _ openRun_isSome

/-- A descriptor from 5 on, to be closed by `execve`. -/
def dupAct : Act := .dupfd 0 0 5 true 1024

theorem dupAct_isSome : (afterOpen.call dupAct).isSome := by decide

def afterDup : Fds × Option Nat := Option.get _ dupAct_isSome

/-- The limit is 2³², and two files are opened. -/
def replaceRun : List Act := openRun (2 ^ 32) ++ [.create, .install 0 1 false (2 ^ 32)]

theorem replaceRun_isSome : (replaceRun.foldlM Fds.step init).isSome := by decide

def afterReplace : Fds := Option.get _ replaceRun_isSome

end Ish.Fs.Descriptors
