import Ish.Fs.Host
import Ish.Fs.FakeDb
import Mathlib.Data.List.Infix

/-!
# Paths as blobs

The database keeps a path as a string and moves a subtree with a comparison of blobs and a change of
prefix; the host works on names. `renames_iff` says that the comparison selects the path and what is
below it, and `Db.lookup_pathRename` that the update does to strings what the move of a subtree does to
paths. Two moves compose (`path_rename_via`).
-/

namespace Ish.Fs.Fakefs

open Lib List

/-! ### Strings of paths -/

@[simp] theorem pathBytes_nil : pathBytes [] = [] := rfl

@[simp] theorem pathBytes_cons (c : Component) (p : HPath) :
    pathBytes (c :: p) = slash :: (c.bytes ++ pathBytes p) := rfl

@[simp] theorem pathBytes_append (p q : HPath) : pathBytes (p ++ q) = pathBytes p ++ pathBytes q := by
  unfold pathBytes
  rw [flatMap_append]

/-- A string at which a path may go on: it ends, or a name begins. -/
def Boundary (b : Path) : Prop := b = [] ∨ b.head? = some slash

theorem boundary_pathBytes (p : HPath) : Boundary (pathBytes p) := by
  cases p with
  | nil => exact .inl rfl
  | cons c p => exact .inr rfl

/-- A name ends where the path goes on. -/
theorem name_append_inj {a b : Path} (ha : slash ∉ a) (hb : slash ∉ b) {r t : Path}
    (hr : Boundary r) (ht : Boundary t) (h : a ++ r = b ++ t) : a = b ∧ r = t := by
  induction a generalizing b with
  | nil =>
    cases b with
    | nil => exact ⟨rfl, h⟩
    | cons y b =>
      exfalso
      rw [nil_append, cons_append] at h
      rcases hr with rfl | hr
      · cases h
      · rw [h] at hr
        exact hb (by simp only [head?_cons, Option.some.injEq] at hr; simp [hr])
  | cons x a ih =>
    cases b with
    | nil =>
      exfalso
      rw [nil_append, cons_append] at h
      rcases ht with rfl | ht
      · cases h
      · rw [← h] at ht
        exact ha (by simp only [head?_cons, Option.some.injEq] at ht; simp [ht])
    | cons y b =>
      simp only [cons_append, List.cons.injEq] at h
      obtain ⟨rfl, h⟩ := h
      obtain ⟨rfl, hrt⟩ := ih (fun hmem => ha (mem_cons_of_mem _ hmem))
        (fun hmem => hb (mem_cons_of_mem _ hmem)) h
      exact ⟨rfl, hrt⟩

theorem Component.ext_bytes {c d : Component} (h : c.bytes = d.bytes) : c = d := by
  cases c
  cases d
  cases h
  rfl

theorem eq_append_of_pathBytes {d q : HPath} {rest : Path} (hrest : Boundary rest)
    (h : pathBytes q = pathBytes d ++ rest) : ∃ r, q = d ++ r ∧ rest = pathBytes r := by
  induction d generalizing q with
  | nil => exact ⟨q, rfl, h.symm⟩
  | cons c d ih =>
    cases q with
    | nil => cases h
    | cons c' q =>
      simp only [pathBytes_cons, cons_append, List.cons.injEq, true_and, append_assoc] at h
      have hb : Boundary (pathBytes d ++ rest) := by
        cases d with
        | nil => exact hrest
        | cons _ _ => exact .inr rfl
      obtain ⟨hc, hq⟩ := name_append_inj c'.plain c.plain (boundary_pathBytes q) hb h
      obtain ⟨r, rfl, hr⟩ := ih hq
      exact ⟨r, by rw [Component.ext_bytes hc, cons_append], hr⟩

theorem pathBytes_injective : Function.Injective pathBytes := by
  intro q d h
  obtain ⟨r, hq, hr⟩ := eq_append_of_pathBytes (d := d) (.inl rfl) (by rw [h, append_nil])
  cases r with
  | nil => rw [hq, append_nil]
  | cons c r => cases hr

/-! ### The selection of a subtree -/

theorem slash_eq_of_between {x : UInt8} (h : slash < x ∨ slash = x) (h' : x < slash + 1) : x = slash := by
  rcases h with h | h
  · have hs : (slash + 1).toNat = slash.toNat + 1 := rfl
    rw [UInt8.lt_iff_toNat_lt] at h h'
    omega
  · exact h.symm

/-- The blobs between `src/` and `src0` are those that begin with `src/`. -/
theorem between_iff (src b : Path) : src ++ [slash] ≤ b ∧ b < src ++ [slash + 1] ↔ ∃ r, b = src ++ slash :: r := by
  induction src generalizing b with
  | nil =>
    cases b with
    | nil => simp
    | cons x r =>
      simp only [nil_append, cons_le_cons_iff, cons_lt_cons_iff, nil_le, and_true,
        not_lt_nil, and_false, or_false, List.cons.injEq]
      refine ⟨fun h => ⟨r, slash_eq_of_between h.1 h.2, rfl⟩, ?_⟩
      rintro ⟨r', rfl, -⟩
      exact ⟨.inr rfl, by decide⟩
  | cons a src ih =>
    cases b with
    | nil => simp
    | cons x r =>
      simp only [cons_append, cons_le_cons_iff, cons_lt_cons_iff, List.cons.injEq]
      constructor
      · rintro ⟨h, h'⟩
        have hax : x = a := by
          rcases h with h | h
          · rcases h' with h' | h'
            · exact absurd h (UInt8.lt_asymm h')
            · exact h'.1
          · exact h.1.symm
        subst hax
        have hlt := UInt8.lt_irrefl x
        obtain ⟨r', rfl⟩ := (ih r).1 ⟨(h.resolve_left hlt).2, (h'.resolve_left hlt).2⟩
        exact ⟨r', rfl, rfl⟩
      · rintro ⟨r', rfl, rfl⟩
        obtain ⟨h, h'⟩ := (ih (src ++ slash :: r')).2 ⟨r', rfl⟩
        exact ⟨.inr ⟨rfl, h⟩, .inr ⟨rfl, h'⟩⟩

/-- **The condition of `path_rename` selects the path and everything below it.** -/
theorem renames_iff {src b : Path} : renames src b = true ↔ ∃ r, b = src ++ r ∧ Boundary r := by
  unfold renames
  rw [Bool.or_eq_true, Bool.and_eq_true, decide_eq_true_eq, decide_eq_true_eq, decide_eq_true_eq, between_iff]
  constructor
  · rintro (⟨r, rfl⟩ | rfl)
    · exact ⟨slash :: r, rfl, .inr rfl⟩
    · exact ⟨[], (append_nil b).symm, .inl rfl⟩
  · rintro ⟨r, rfl, rfl | hr⟩
    · exact .inr (append_nil src)
    · cases r with
      | nil => cases hr
      | cons x r =>
        simp only [head?_cons, Option.some.injEq] at hr
        exact .inl ⟨r, by rw [hr]⟩

theorem renames_pathBytes {src q : HPath} : renames (pathBytes src) (pathBytes q) = true ↔ src <+: q := by
  rw [renames_iff]
  constructor
  · rintro ⟨r, hr, hb⟩
    obtain ⟨t, rfl, -⟩ := eq_append_of_pathBytes hb hr
    exact ⟨t, rfl⟩
  · rintro ⟨t, rfl⟩
    exact ⟨pathBytes t, pathBytes_append src t, boundary_pathBytes t⟩

theorem changePrefixBytes_append (src dst r : Path) : changePrefixBytes src dst (src ++ r) = dst ++ r := by
  unfold changePrefixBytes
  rw [drop_left]

theorem changePrefixBytes_back {src dst b : Path} (h : renames src b = true) :
    changePrefixBytes dst src (changePrefixBytes src dst b) = b := by
  obtain ⟨r, rfl, -⟩ := renames_iff.1 h
  rw [changePrefixBytes_append, changePrefixBytes_append]

/-! ### The tables -/

variable {db : Db}

theorem Db.pathGetInode_of_lookup {path : Path} {i : Nat} (h : db.paths.lookup path = some i) :
    db.pathGetInode path = i := by
  unfold Db.pathGetInode
  rw [h, Option.getD_some]

theorem lookup_insert_apply {κ ν : Type} [DecidableEq κ] (t : AList fun _ : κ => ν) (k k' : κ) (v : ν) :
    (t.insert k v).lookup k' = if k' = k then some v else t.lookup k' := by
  split_ifs with h
  · rw [h, AList.lookup_insert]
  · rw [AList.lookup_insert_ne h]

theorem lookup_erase_apply {κ ν : Type} [DecidableEq κ] (t : AList fun _ : κ => ν) (k k' : κ) :
    (t.erase k).lookup k' = if k' = k then none else t.lookup k' := by
  split_ifs with h
  · rw [h, AList.lookup_erase]
  · rw [AList.lookup_erase_ne h]

theorem Db.lookup_pathRename (src dst b : Path) : (db.pathRename src dst).paths.lookup b =
      (if renames src (changePrefixBytes dst src b) = true ∧
          changePrefixBytes src dst (changePrefixBytes dst src b) = b then
        db.paths.lookup (changePrefixBytes dst src b) else none).or
      (if renames src b = true then none else db.paths.lookup b) :=
  lookup_rekey (fun _ => changePrefixBytes_back) db.paths b

/-- A path or something below it. -/
def Under (top path : Path) : Prop := ∃ r, Boundary r ∧ path = top ++ r

/-- The strings that `path_rename` may give to a row are those under `dst`. -/
theorem renames_back_iff {src dst b : Path} : renames src (changePrefixBytes dst src b) = true ∧
      changePrefixBytes src dst (changePrefixBytes dst src b) = b ↔ Under dst b := by
  constructor
  · rintro ⟨hr, hback⟩
    obtain ⟨r, hr, hb⟩ := renames_iff.1 hr
    rw [hr, changePrefixBytes_append] at hback
    exact ⟨r, hb, hback.symm⟩
  · rintro ⟨r, hb, rfl⟩
    rw [changePrefixBytes_append, changePrefixBytes_append]
    exact ⟨renames_iff.2 ⟨r, rfl, hb⟩, rfl⟩

theorem under_of_append_eq {src dst r t : Path} (hr : Boundary r) (ht : Boundary t) (h : src ++ r = dst ++ t) :
    Under src dst ∨ Under dst src := by
  -- what one path has more is the beginning of the rest of the other
  have hbegin : ∀ {a b : Path}, Boundary (a ++ b) → Boundary a := by
    intro a b hab
    cases a with
    | nil => exact .inl rfl
    | cons x a => exact hab.imp nofun id
  rcases append_eq_append_iff.1 h with ⟨a, hdst, rfl⟩ | ⟨a, hsrc, rfl⟩
  · exact .inl ⟨a, hbegin hr, hdst⟩
  · exact .inr ⟨a, hbegin ht, hsrc⟩

/-- The rows under `src` get the same strings under `dst`, in the place of those that were there. -/
structure MovesSubtree (db db' : Db) (src dst : Path) : Prop where
  stats : db'.stats = db.stats
  moved : ∀ r i, Boundary r → db.paths.lookup (src ++ r) = some i → db'.paths.lookup (dst ++ r) = some i
  gone : src ≠ dst → ∀ path, Under src path → db'.paths.lookup path = none
  other : ∀ path, ¬Under src path → (∀ r, Boundary r → path = dst ++ r → db.paths.lookup (src ++ r) = none) →
    db'.paths.lookup path = db.paths.lookup path

/-- **`path_rename` moves exactly a subtree**, if neither path is below the other. -/
theorem path_rename_moves_subtree (db : Db) {src dst : Path} (hdst : ∀ r, dst ≠ src ++ slash :: r)
    (hsrc : ∀ r, src ≠ dst ++ slash :: r) : MovesSubtree db (db.pathRename src dst) src dst := by
  have hbelow : ∀ {a b : Path}, (∀ r, b ≠ a ++ slash :: r) → Under a b → b = a := by
    rintro a b hnot ⟨r, rfl | hr, rfl⟩
    · exact append_nil a
    · cases r with
      | nil => exact append_nil a
      | cons x r =>
        cases hr
        exact absurd rfl (hnot r)
  refine ⟨rfl, fun r i hr hi => ?_, fun hne path hpath => ?_, fun path hpath hnew => ?_⟩
  · rw [Db.lookup_pathRename, if_pos (renames_back_iff.2 ⟨r, hr, rfl⟩), changePrefixBytes_append, hi]
    rfl
  · obtain ⟨r, hr, rfl⟩ := hpath
    have hapart : ¬Under dst (src ++ r) := by
      rintro ⟨t, ht, heq⟩
      rcases under_of_append_eq hr ht heq with hin | hin
      · exact hne (hbelow hdst hin).symm
      · exact hne (hbelow hsrc hin)
    rw [Db.lookup_pathRename, if_neg (mt renames_back_iff.1 hapart), if_pos (renames_iff.2 ⟨r, rfl, hr⟩)]
    rfl
  · have hkept : ¬renames src path = true := by
      intro hr
      obtain ⟨r, heq, hb⟩ := renames_iff.1 hr
      exact hpath ⟨r, hb, heq⟩
    have hnone : (if renames src (changePrefixBytes dst src path) = true ∧
        changePrefixBytes src dst (changePrefixBytes dst src path) = path then
          db.paths.lookup (changePrefixBytes dst src path) else none) = none := by
      split_ifs with hcond
      · obtain ⟨r, hb, rfl⟩ := renames_back_iff.1 hcond
        rw [changePrefixBytes_append]
        exact hnew r hb rfl
      · rfl
    rw [Db.lookup_pathRename, hnone, if_neg hkept]
    rfl

/-- The rows `/a`, `/a/b` and `/a-` with `/a` moved to `/c`: the sibling `/a-` stays. -/
theorem path_rename_moves_subtree_sibling :
    MovesSubtree ⟨[⟨[0x2f, 0x61], 1⟩, ⟨[0x2f, 0x61, 0x2f, 0x62], 2⟩, ⟨[0x2f, 0x61, 0x2d], 3⟩].toAList, ∅, 0⟩
      (Db.pathRename ⟨[⟨[0x2f, 0x61], 1⟩, ⟨[0x2f, 0x61, 0x2f, 0x62], 2⟩, ⟨[0x2f, 0x61, 0x2d], 3⟩].toAList, ∅, 0⟩
        [0x2f, 0x61] [0x2f, 0x63]) [0x2f, 0x61] [0x2f, 0x63] :=
  path_rename_moves_subtree _ (by simp) (by simp)

/-- **`path_rename` on the strings of paths.** -/
theorem Db.lookup_pathRename_pathBytes (src dst q : HPath) :
    (db.pathRename (pathBytes src) (pathBytes dst)).paths.lookup (pathBytes q) =
      (if dst <+: q then db.paths.lookup (pathBytes (src ++ q.drop dst.length)) else none).or
        (if src <+: q then none else db.paths.lookup (pathBytes q)) := by
  have hmoved : Under (pathBytes dst) (pathBytes q) ↔ dst <+: q := by
    rw [← renames_pathBytes, renames_iff]
    exact exists_congr fun r => and_comm
  rw [Db.lookup_pathRename]
  simp only [renames_back_iff, hmoved, renames_pathBytes]
  congr 1
  split_ifs with hq
  · obtain ⟨t, rfl⟩ := hq
    rw [pathBytes_append, changePrefixBytes_append, drop_left, pathBytes_append]
  · rfl

/-! ### Two moves -/

theorem Db.lookup_pathRename_append {src dst r : Path} (hr : Boundary r) :
    (db.pathRename src dst).paths.lookup (dst ++ r) =
      (db.paths.lookup (src ++ r)).or (if renames src (dst ++ r) = true then none else db.paths.lookup (dst ++ r)) := by
  rw [Db.lookup_pathRename, if_pos (renames_back_iff.2 ⟨r, hr, rfl⟩), changePrefixBytes_append]

theorem Db.lookup_pathRename_of_not_under {src dst path : Path} (h : ¬Under dst path) :
    (db.pathRename src dst).paths.lookup path = if renames src path = true then none else db.paths.lookup path := by
  rw [Db.lookup_pathRename, if_neg (mt renames_back_iff.1 h), Option.none_or]

/-- **A move by way of a free path** is the move itself, and a move to a free path and back changes nothing. None of
the three paths is above another one. -/
theorem path_rename_via (db : Db) {src mid dst : Path} (hfree : ∀ path, Under mid path → db.paths.lookup path = none)
    (hpaths : [src, mid, dst].Pairwise fun a b => ¬Under a b ∧ ¬Under b a) :
    ((db.pathRename src mid).pathRename mid dst).paths.lookup = (db.pathRename src dst).paths.lookup ∧
      ((db.pathRename src mid).pathRename mid src).paths.lookup = db.paths.lookup := by
  have hunder : ∀ {a path : Path}, renames a path = true ↔ Under a path :=
    renames_iff.trans (exists_congr fun r => and_comm)
  obtain ⟨hleft, hright, -⟩ := pairwise_cons.1 hpaths |>.imp_right pairwise_cons.1
  have hsrc := hleft mid mem_cons_self
  have hdst := (hright dst mem_cons_self).symm
  have hapart : ∀ {a path : Path}, ¬Under a mid ∧ ¬Under mid a → Under a path → ¬Under mid path := by
    rintro a path ha ⟨r, hr, rfl⟩ ⟨t, ht, heq⟩
    exact (under_of_append_eq hr ht heq).elim ha.1 ha.2
  have hvia : ∀ {dst : Path}, ¬Under dst mid ∧ ¬Under mid dst →
      ((db.pathRename src mid).pathRename mid dst).paths.lookup = (db.pathRename src dst).paths.lookup := by
    intro dst hdst
    funext path
    by_cases hpath : Under dst path
    · have hnot := hapart hdst hpath
      obtain ⟨r, hr, rfl⟩ := hpath
      have hgone : ¬renames src (mid ++ r) = true := fun h => hapart hsrc (hunder.1 h) ⟨r, hr, rfl⟩
      rw [Db.lookup_pathRename_append hr, Db.lookup_pathRename_append hr, Db.lookup_pathRename_append hr,
        if_neg (mt hunder.1 hnot), Db.lookup_pathRename_of_not_under hnot, if_neg hgone, hfree _ ⟨r, hr, rfl⟩,
        Option.or_none]
    · rw [Db.lookup_pathRename_of_not_under hpath, Db.lookup_pathRename_of_not_under hpath]
      split_ifs with hin hmoved hmoved
      · rfl
      · exact (hfree path (hunder.1 hin)).symm
      · rw [Db.lookup_pathRename_of_not_under (mt hunder.2 hin), if_pos hmoved]
      · rw [Db.lookup_pathRename_of_not_under (mt hunder.2 hin), if_neg hmoved]
  refine ⟨hvia hdst, (hvia hsrc).trans (funext fun path => ?_)⟩
  by_cases hpath : Under src path
  · obtain ⟨r, hr, rfl⟩ := hpath
    rw [Db.lookup_pathRename_append hr, if_pos (hunder.2 ⟨r, hr, rfl⟩), Option.or_none]
  · rw [Db.lookup_pathRename_of_not_under hpath, if_neg (mt hunder.1 hpath)]

/-- `/a` and what is below it go to `/t` and back. -/
theorem path_rename_via_back : let db : Db := ⟨[⟨[0x2f, 0x61], 1⟩, ⟨[0x2f, 0x61, 0x2f, 0x62], 2⟩].toAList, ∅, 0⟩
    ((db.pathRename [0x2f, 0x61] [0x2f, 0x74]).pathRename [0x2f, 0x74] [0x2f, 0x61]).paths.lookup = db.paths.lookup := by
  refine (@path_rename_via _ _ _ [0x2f, 0x63] ?_ (by simp [Under])).2
  rintro path ⟨r, -, rfl⟩
  rfl

end Ish.Fs.Fakefs
