import Ish.Fs.Equiv.FakeDb

/-!
# What the host calls do

One lemma for each call of `Fs/Host.lean`: what holds when it succeeds. `Host.Wf` says that entries are in
directories and that new objects are new; every call keeps it.
-/

namespace Ish.Fs.Fakefs

open Lib List Option

variable {h h' : Host} {p q src dst : HPath} {o : Nat}

/-- Entries are in directories, a directory has one path, and no object is newer than the next one. -/
structure Host.Wf (h : Host) : Prop where
  closed : ∀ p c o, h.entry (p ++ [c]) = some o → h.kindAt p = some .dir
  unique : ∀ p q o, h.entry p = some o → h.entry q = some o → (h.node o).kind = .dir → p = q
  fresh : ∀ p o, h.entry p = some o → o < h.next

theorem Host.kindAt_of_entry (hp : h.entry p = some o) : h.kindAt p = some (h.node o).kind := by
  unfold Host.kindAt
  rw [hp, map_some]

theorem Host.entry_of_kindAt {k : Kind} (hp : h.kindAt p = some k) : ∃ o, h.entry p = some o ∧ (h.node o).kind = k :=
  map_eq_some_iff.1 hp

theorem Host.Wf.dir_of_below (hw : h.Wf) {r : HPath} (hr : r ≠ []) (hp : h.entry (p ++ r) = some o) :
    h.kindAt p = some .dir := by
  induction r using List.reverseRecOn generalizing o with
  | nil => exact absurd rfl hr
  | append_singleton r c ih =>
    have hdir : h.kindAt (p ++ r) = some .dir := by
      rw [← append_assoc] at hp
      exact hw.closed _ c _ hp
    by_cases hnil : r = []
    · rwa [hnil, append_nil] at hdir
    · obtain ⟨o', ho', -⟩ := Host.entry_of_kindAt hdir
      exact ih hnil ho'

theorem Host.Wf.child_of_below (hw : h.Wf) {c : Component} {r : HPath}
    (hp : h.entry (p ++ c :: r) = some o) : ∃ o', h.entry (p ++ [c]) = some o' := by
  by_cases hr : r = []
  · rw [hr] at hp
    exact ⟨o, hp⟩
  · rw [append_cons] at hp
    obtain ⟨o', ho', -⟩ := Host.entry_of_kindAt (hw.dir_of_below hr hp)
    exact ⟨o', ho'⟩

theorem Host.entry_of_hasChild (hc : h.hasChild p = false) (c : Component) : h.entry (p ++ [c]) = none := by
  by_contra hne
  have hmem : p ++ [c] ∈ h.tree.keys :=
    AList.mem_keys.1 (AList.lookup_isSome.1 (isSome_iff_ne_none.2 hne))
  unfold Host.hasChild at hc
  rw [List.any_eq_false] at hc
  exact hc _ hmem (by simp)

theorem Host.Wf.below_eq_none (hw : h.Wf) (hp : h.kindAt p ≠ some .dir ∨ h.hasChild p = false)
    (hq : p <+: q) (hne : q ≠ p) : h.entry q = none := by
  obtain ⟨r, rfl⟩ := hq
  by_contra hsome
  obtain ⟨o, ho⟩ := ne_none_iff_exists'.1 hsome
  cases r with
  | nil => exact hne (append_nil p)
  | cons c r =>
    rcases hp with hp | hp
    · exact hp (hw.dir_of_below (by simp) ho)
    · obtain ⟨o', ho'⟩ := hw.child_of_below ho
      rw [Host.entry_of_hasChild hp] at ho'
      cases ho'

theorem Host.parentErrno_eq_none (hp : h.parentErrno p = none) : h.kindAt p.dropLast = some .dir := by
  unfold Host.parentErrno at hp
  split at hp <;> first | assumption | cases hp

/-! ### Objects that change -/

theorem Host.node_setNode (h : Host) (o : Nat) (n : Node) (o' : Nat) :
    (h.setNode o n).node o' = if o' = o then n else h.node o' := by
  show Function.update h.node o n o' = _
  rw [Function.update_apply]

/-- The same entries, and objects of the same types. -/
structure Host.SameTree (h h' : Host) : Prop where
  entry : ∀ q, h'.entry q = h.entry q
  kind : ∀ o, (h'.node o).kind = (h.node o).kind
  next : h'.next = h.next

theorem Host.SameTree.refl (h : Host) : h.SameTree h := ⟨fun _ => rfl, fun _ => rfl, rfl⟩

theorem Host.sameTree_setNode (h : Host) {o : Nat} {n : Node} (hn : n.kind = (h.node o).kind) :
    h.SameTree (h.setNode o n) := by
  refine ⟨fun _ => rfl, fun o' => ?_, rfl⟩
  rw [Host.node_setNode]
  split_ifs with ho
  · rw [ho, hn]
  · rfl

theorem Host.sameTree_setData (h : Host) (o : Nat) (data : List UInt8) : h.SameTree (h.setData o data) :=
  h.sameTree_setNode rfl

theorem Host.SameTree.kindAt (hs : h.SameTree h') (q : HPath) : h'.kindAt q = h.kindAt q := by
  unfold Host.kindAt
  simp only [hs.entry, hs.kind]

theorem Host.SameTree.wf (hs : h.SameTree h') (hw : h.Wf) : h'.Wf where
  closed p c o hp := by
    rw [hs.entry] at hp
    rw [hs.kindAt]
    exact hw.closed p c o hp
  unique p q o hp hq hdir := by
    rw [hs.entry] at hp hq
    rw [hs.kind] at hdir
    exact hw.unique p q o hp hq hdir
  fresh p o hp := by
    rw [hs.entry] at hp
    rw [hs.next]
    exact hw.fresh p o hp

/-! ### Calls -/

/-- An object is added in a directory. -/
theorem Host.make_eq_ok {kind : Kind} {data : List UInt8} (hok : h.make p kind data = .ok h') :
    h.entry p = none ∧ h.kindAt p.dropLast = some .dir ∧ h' = h.add p kind data := by
  unfold Host.make at hok
  split_ifs at hok with hsome
  split at hok
  · cases hok
  · next hparent =>
    cases hok
    exact ⟨not_isSome_iff_eq_none.1 hsome, Host.parentErrno_eq_none hparent, rfl⟩

theorem Host.isSome_of_make {kind : Kind} {data : List UInt8}
    (hfail : h.make p kind data = .error .eexist) : (h.entry p).isSome := by
  unfold Host.make at hfail
  split_ifs at hfail with hsome
  · exact hsome
  · unfold Host.parentErrno at hfail
    cases hkind : h.kindAt p.dropLast with
    | none =>
      rw [hkind] at hfail
      cases hfail
    | some k =>
      rw [hkind] at hfail
      cases k <;> cases hfail

theorem Host.entry_add (h : Host) (p : HPath) (kind : Kind) (data : List UInt8) (q : HPath) :
    (h.add p kind data).entry q = if q = p then some h.next else h.entry q :=
  lookup_insert_apply h.tree p q h.next

theorem Host.node_add (h : Host) (p : HPath) (kind : Kind) (data : List UInt8) (o : Nat) :
    (h.add p kind data).node o = if o = h.next then ⟨kind, data, 1, 0⟩ else h.node o :=
  Function.update_apply ..

theorem Host.Wf.node_add (hw : h.Wf) (kind : Kind) (data : List UInt8) (hq : h.entry q = some o) :
    (h.add p kind data).node o = h.node o := by
  rw [Host.node_add, if_neg (hw.fresh q o hq).ne]

theorem Host.Wf.kindAt_add (hw : h.Wf) (kind : Kind) (data : List UInt8) (hq : q ≠ p) :
    (h.add p kind data).kindAt q = h.kindAt q := by
  unfold Host.kindAt
  rw [Host.entry_add, if_neg hq]
  cases hentry : h.entry q with
  | none => rfl
  | some o => rw [map_some, map_some, hw.node_add kind data hentry]

theorem Host.Wf.insert (hw : h.Wf) (hp : h.entry p = none) (hparent : h.kindAt p.dropLast = some .dir)
    (hentry : ∀ q, h'.entry q = if q = p then some o else h.entry q) (hkind : ∀ q, q ≠ p → h'.kindAt q = h.kindAt q)
    (hnew : (h'.node o).kind = .dir → ∀ q, h.entry q ≠ some o) (ho : o < h'.next)
    (hnext : h.next ≤ h'.next) : h'.Wf where
  closed q c o' hq := by
    have hqp : h.kindAt q = some .dir := by
      rw [hentry] at hq
      split_ifs at hq with heq
      · rw [← heq, dropLast_concat] at hparent
        exact hparent
      · exact hw.closed q c o' hq
    have hne : q ≠ p := by
      rintro rfl
      unfold Host.kindAt at hqp
      rw [hp] at hqp
      cases hqp
    rw [hkind q hne]
    exact hqp
  unique q q' o' hq hq' hdir := by
    rw [hentry] at hq hq'
    split_ifs at hq hq' with heq heq' heq'
    · rw [heq, heq']
    · cases hq
      exact absurd hq' (hnew hdir q')
    · cases hq'
      exact absurd hq (hnew hdir q)
    · have hsame := hkind q heq
      unfold Host.kindAt at hsame
      rw [hentry, if_neg heq, hq, map_some, map_some, hdir] at hsame
      exact hw.unique q q' o' hq hq' (Option.some.inj hsame).symm
  fresh q o' hq := by
    rw [hentry] at hq
    split_ifs at hq with heq
    · cases hq
      exact ho
    · exact (hw.fresh q o' hq).trans_le hnext

theorem Host.Wf.add (hw : h.Wf) (hp : h.entry p = none) (hparent : h.kindAt p.dropLast = some .dir)
    (kind : Kind) (data : List UInt8) : (h.add p kind data).Wf :=
  hw.insert hp hparent (h.entry_add p kind data) (fun _ => hw.kindAt_add kind data)
    (fun _ q hq => (hw.fresh q h.next hq).ne rfl) (Nat.lt_succ_self _) (Nat.le_succ _)

/-- `openat` opens what is there, perhaps without its contents, or makes a file. -/
theorem Host.openat_eq_ok {flags : OpenFlags} (hok : h.openat p flags = .ok (h', o)) :
    (h.entry p = some o ∧ (h' = h ∨ flags.trunc = true ∧ h' = h.setNode o { h.node o with data := [] })) ∨
      (flags.creat = true ∧ h.entry p = none ∧ h.kindAt p.dropLast = some .dir ∧ o = h.next ∧
        h' = h.add p .file []) := by
  unfold Host.openat at hok
  cases hentry : h.entry p with
  | none =>
    right
    simp only [hentry] at hok
    split_ifs at hok with hcreat
    cases hmake : h.make p .file [] with
    | error e =>
      rw [hmake] at hok
      cases hok
    | ok h₁ =>
      rw [hmake] at hok
      cases hok
      obtain ⟨-, hparent, rfl⟩ := Host.make_eq_ok hmake
      exact ⟨hcreat, rfl, hparent, rfl, rfl⟩
  | some o' =>
    left
    simp only [hentry] at hok
    by_cases hexcl : (flags.creat && flags.excl) = true
    · rw [if_pos hexcl] at hok
      cases hok
    · rw [if_neg hexcl] at hok
      cases hkind : (h.node o').kind with
      | dir =>
        simp only [hkind] at hok
        split_ifs at hok
        cases hok
        exact ⟨rfl, .inl rfl⟩
      | file =>
        simp only [hkind] at hok
        cases hok
        by_cases htrunc : flags.trunc = true
        · rw [if_pos htrunc]
          exact ⟨rfl, .inr ⟨htrunc, by simp only [hkind]⟩⟩
        · rw [if_neg htrunc]
          exact ⟨rfl, .inl rfl⟩
      | fifo =>
        simp only [hkind] at hok
        cases hok
        exact ⟨rfl, .inl rfl⟩
      | link target =>
        simp only [hkind] at hok
        cases hok

theorem Host.link_eq_ok (hok : h.link src dst = .ok h') :
    ∃ o, h.entry src = some o ∧ (h.node o).kind ≠ .dir ∧ h.entry dst = none ∧ h.kindAt dst.dropLast = some .dir ∧
      h' = ({ h with tree := h.tree.insert dst o } : Host).addLinks o 1 := by
  unfold Host.link at hok
  cases hentry : h.entry src with
  | none =>
    rw [hentry] at hok
    cases hok
  | some o =>
    simp only [hentry] at hok
    split_ifs at hok with hdir hsome
    split at hok
    · cases hok
    · next hparent =>
      cases hok
      exact ⟨o, rfl, hdir, not_isSome_iff_eq_none.1 hsome, Host.parentErrno_eq_none hparent, rfl⟩

theorem Host.entry_insert (h : Host) (p : HPath) (o : Nat) (k : Int) (q : HPath) :
    (({ h with tree := h.tree.insert p o } : Host).addLinks o k).entry q =
      if q = p then some o else h.entry q :=
  lookup_insert_apply h.tree p q o

theorem Host.kind_addLinks (h : Host) (o : Nat) (k : Int) (o' : Nat) :
    ((h.addLinks o k).node o').kind = (h.node o').kind := by
  unfold Host.addLinks
  rw [Host.node_setNode]
  split_ifs with ho
  · rw [ho]
  · rfl

theorem Host.kindAt_link (hok : h.link src dst = .ok h') (q : HPath) :
    h'.kindAt q = if q = dst then h.kindAt src else h.kindAt q := by
  obtain ⟨o, hsrc, -, -, -, rfl⟩ := Host.link_eq_ok hok
  unfold Host.kindAt
  rw [Host.entry_insert]
  simp only [Host.kind_addLinks]
  split_ifs
  · rw [hsrc]
  · rfl

theorem Host.Wf.link (hw : h.Wf) (hok : h.link src dst = .ok h') : h'.Wf := by
  obtain ⟨o, hsrc, hdir, hdst, hparent, rfl⟩ := Host.link_eq_ok hok
  refine hw.insert hdst hparent (h.entry_insert dst o 1) (fun q hq => ?_) (fun hdir' => ?_)
    (hw.fresh src o hsrc) (Nat.le_refl _)
  · rw [Host.kindAt_link hok, if_neg hq]
  · rw [Host.kind_addLinks] at hdir'
    exact absurd hdir' hdir

theorem Host.utimens_eq_ok {mtime : Nat} (hok : h.utimens p mtime = .ok h') :
    ∃ o, h.entry p = some o ∧ h' = h.setNode o { h.node o with mtime := mtime } := by
  unfold Host.utimens at hok
  cases hentry : h.entry p with
  | none =>
    rw [hentry] at hok
    cases hok
  | some o =>
    rw [hentry] at hok
    cases hok
    exact ⟨o, rfl, rfl⟩

theorem Host.unlink_eq_ok (hok : h.unlink p = .ok h') : ∃ o, h.entry p = some o ∧ (h.node o).kind ≠ .dir ∧
      h' = ({ h with tree := h.tree.erase p } : Host).addLinks o (-1) := by
  unfold Host.unlink at hok
  cases hentry : h.entry p with
  | none =>
    rw [hentry] at hok
    cases hok
  | some o =>
    simp only [hentry] at hok
    split_ifs at hok with hdir
    cases hok
    exact ⟨o, rfl, hdir, rfl⟩

theorem Host.rmdir_eq_ok (hok : h.rmdir p = .ok h') :
    ∃ o, h.entry p = some o ∧ (h.node o).kind = .dir ∧ h.hasChild p = false ∧
      h' = { h with tree := h.tree.erase p } := by
  unfold Host.rmdir at hok
  cases hentry : h.entry p with
  | none =>
    rw [hentry] at hok
    cases hok
  | some o =>
    simp only [hentry] at hok
    split_ifs at hok with hdir hchild
    cases hok
    exact ⟨o, rfl, not_not.1 hdir, eq_false_of_ne_true hchild, rfl⟩

/-- What `unlinkat` does, with or without `AT_REMOVEDIR`. -/
structure Host.Removed (h h' : Host) (p : HPath) : Prop where
  found : (h.entry p).isSome
  below : h.kindAt p ≠ some .dir ∨ h.hasChild p = false
  entry : ∀ q, h'.entry q = if q = p then none else h.entry q
  kind : ∀ o, (h'.node o).kind = (h.node o).kind
  node : ∀ o, h.entry p ≠ some o → h'.node o = h.node o
  next : h'.next = h.next

theorem Host.removed_of_unlink (hok : h.unlink p = .ok h') : h.Removed h' p := by
  obtain ⟨o, hp, hdir, rfl⟩ := Host.unlink_eq_ok hok
  refine ⟨by rw [hp]; rfl, .inl fun hkind => hdir ?_, lookup_erase_apply h.tree p,
    fun o' => Host.kind_addLinks _ o (-1) o', fun o' ho' => ?_, rfl⟩
  · rw [Host.kindAt_of_entry hp] at hkind
    exact Option.some.inj hkind
  · unfold Host.addLinks
    rw [Host.node_setNode, if_neg]
    rintro rfl
    exact ho' hp

theorem Host.removed_of_rmdir (hok : h.rmdir p = .ok h') : h.Removed h' p := by
  obtain ⟨o, hp, -, hchild, rfl⟩ := Host.rmdir_eq_ok hok
  exact ⟨by rw [hp]; rfl, .inr hchild, lookup_erase_apply h.tree p, fun _ => rfl, fun _ _ => rfl, rfl⟩

theorem Host.Removed.kindAt (hr : h.Removed h' p) (q : HPath) : h'.kindAt q = if q = p then none else h.kindAt q := by
  unfold Host.kindAt
  rw [hr.entry]
  simp only [hr.kind]
  split_ifs <;> rfl

theorem Host.Removed.wf (hr : h.Removed h' p) (hw : h.Wf) : h'.Wf where
  closed q c o hq := by
    rw [hr.entry] at hq
    split_ifs at hq
    have hne : q ≠ p := by
      rintro rfl
      have hnone := hw.below_eq_none hr.below (prefix_append q [c]) (by simp)
      rw [hnone] at hq
      cases hq
    rw [hr.kindAt, if_neg hne]
    exact hw.closed q c o hq
  unique q q' o hq hq' hdir := by
    rw [hr.entry] at hq hq'
    split_ifs at hq hq'
    rw [hr.kind] at hdir
    exact hw.unique q q' o hq hq' hdir
  fresh q o hq := by
    rw [hr.entry] at hq
    split_ifs at hq
    rw [hr.next]
    exact hw.fresh q o hq

/-! ### `rename` -/

/-- A subtree has gone to another path, at which there was nothing, a file or an empty directory. -/
structure Host.Moved (h h' : Host) (src dst : HPath) : Prop where
  apart : ¬src <+: dst
  parent : h.kindAt dst.dropLast = some .dir
  empty : ∀ q, dst <+: q → q ≠ dst → h.entry q = none
  entry : ∀ q, h'.entry q =
    if dst <+: q then h.entry (src ++ q.drop dst.length)
    else if src <+: q then none
    else h.entry q
  kind : ∀ o, (h'.node o).kind = (h.node o).kind
  node : ∀ o, h.entry dst ≠ some o → h'.node o = h.node o
  next : h'.next = h.next

theorem changePrefix_append (src dst r : HPath) : changePrefix src dst (src ++ r) = dst ++ r := by
  unfold changePrefix
  rw [drop_left]

theorem Host.entry_move (hsrc : h.entry src = some o)
    (hempty : ∀ q, dst <+: q → q ≠ dst → h.entry q = none) (q : HPath) : (h.move src dst).entry q =
      if dst <+: q then h.entry (src ++ q.drop dst.length) else if src <+: q then none else h.entry q := by
  have hback : ∀ k, src.isPrefixOf k = true → changePrefix dst src (changePrefix src dst k) = k := by
    intro k hk
    obtain ⟨r, rfl⟩ := isPrefixOf_iff_prefix.1 hk
    rw [changePrefix_append, changePrefix_append]
  have hlookup : (h.move src dst).entry q = _ := lookup_rekey hback h.tree q
  rw [hlookup]
  simp only [ isPrefixOf_iff_prefix]
  by_cases hq : dst <+: q
  · obtain ⟨r, rfl⟩ := hq
    rw [if_pos (prefix_append dst r), changePrefix_append, drop_left,
      if_pos ⟨prefix_append src r, changePrefix_append src dst r⟩]
    show (h.entry (src ++ r)).or (if src <+: dst ++ r then none else h.entry (dst ++ r)) =
      h.entry (src ++ r)
    cases hr : h.entry (src ++ r) with
    | some o' => rfl
    | none =>
      -- there is nothing below `dst`, and at `dst` there is what was at `src`
      have hne : r ≠ [] := by
        rintro rfl
        rw [append_nil, hsrc] at hr
        cases hr
      rw [hempty (dst ++ r) (prefix_append dst r) (by simpa using hne), none_or, ite_self]
  · rw [if_neg hq, if_neg]
    · rfl
    · rintro ⟨-, hback⟩
      exact hq ⟨_, hback⟩

/-- **`renameat` does nothing between two links of one object, or moves the subtree.** -/
theorem Host.Wf.rename (hw : h.Wf) (hok : h.rename src dst = .ok h') : ∃ o, h.entry src = some o ∧
      ((h.entry dst = some o ∧ h' = h) ∨ (h.entry dst ≠ some o ∧ h.Moved h' src dst)) := by
  unfold Host.rename at hok
  cases hsrc : h.entry src with
  | none =>
    rw [hsrc] at hok
    cases hok
  | some o =>
    simp only [hsrc] at hok
    -- a file has nothing below it
    have hfile : (h.node o).kind ≠ .dir → h.kindAt dst.dropLast = some .dir → h.entry dst ≠ some o →
        ¬src <+: dst := by
      intro hkind hparent hdst hpre
      obtain ⟨r, rfl⟩ := hpre
      by_cases hr : r = []
      · rw [hr, append_nil] at hdst
        exact hdst hsrc
      · rw [dropLast_append_of_ne_nil hr] at hparent
        obtain ⟨o', ho', hdir⟩ := Host.entry_of_kindAt hparent
        by_cases hr' : r.dropLast = []
        · rw [hr', append_nil, hsrc] at ho'
          cases ho'
          exact hkind hdir
        · have hsrcdir := hw.dir_of_below hr' ho'
          rw [Host.kindAt_of_entry hsrc] at hsrcdir
          exact hkind (Option.some.inj hsrcdir)
    have hmoved : ¬src <+: dst → h.kindAt dst.dropLast = some .dir →
        (h.kindAt dst ≠ some .dir ∨ h.hasChild dst = false) → h.Moved (h.move src dst) src dst :=
      fun hapart hparent hbelow => ⟨hapart, hparent, fun q => hw.below_eq_none hbelow,
        Host.entry_move hsrc fun q => hw.below_eq_none hbelow, fun _ => rfl, fun _ _ => rfl, rfl⟩
    refine ⟨o, rfl, ?_⟩
    cases hperr : h.parentErrno dst with
    | some e =>
      rw [hperr] at hok
      cases hok
    | none =>
      have hparent := Host.parentErrno_eq_none hperr
      cases hdst : h.entry dst with
      | none =>
        simp only [hperr, hdst] at hok
        split_ifs at hok with hinto
        cases hok
        refine .inr ⟨by simp, hmoved (fun hpre => ?_) hparent (.inl ?_)⟩
        · by_cases hkind : (h.node o).kind = .dir
          · exact hinto ⟨hkind, isPrefixOf_iff_prefix.2 hpre⟩
          · exact hfile hkind hparent (by rw [hdst]; simp) hpre
        · unfold Host.kindAt
          rw [hdst]
          simp
      | some o' =>
        simp only [hperr, hdst] at hok
        by_cases hsame : o = o'
        · rw [if_pos hsame] at hok
          cases hok
          exact .inl ⟨by rw [hsame], rfl⟩
        · rw [if_neg hsame] at hok
          refine .inr ⟨by simpa using Ne.symm hsame, ?_⟩
          split_ifs at hok with hdir hdir' hinto hchild hdir''
          · cases hok
            exact hmoved (fun hpre => hinto ( isPrefixOf_iff_prefix.2 hpre)) hparent
              (.inr (eq_false_of_ne_true hchild))
          · cases hok
            have hbelow : h.kindAt dst ≠ some .dir := by
              rw [Host.kindAt_of_entry hdst]
              exact fun heq => hdir'' (Option.some.inj heq)
            have hm := hmoved (hfile hdir hparent (by rw [hdst]; simpa using Ne.symm hsame)) hparent
              (.inl hbelow)
            refine ⟨hm.apart, hparent, hm.empty, hm.entry, fun o₁ => Host.kind_addLinks _ o' (-1) o₁,
              fun o₁ ho₁ => ?_, rfl⟩
            unfold Host.addLinks
            rw [Host.node_setNode, if_neg]
            · rfl
            · rintro rfl
              exact ho₁ hdst

theorem Host.Moved.kindAt (hm : h.Moved h' src dst) (q : HPath) :
    h'.kindAt q = if dst <+: q then h.kindAt (src ++ q.drop dst.length)
      else if src <+: q then none else h.kindAt q := by
  unfold Host.kindAt
  rw [hm.entry]
  simp only [hm.kind]
  split_ifs <;> rfl

theorem Host.Moved.origin (hm : h.Moved h' src dst) (hq : h'.entry q = some o) :
    ∃ t, h.entry t = some o ∧ q = if src <+: t then dst ++ t.drop src.length else t := by
  rw [hm.entry] at hq
  split_ifs at hq with hqd hqs
  · obtain ⟨r, rfl⟩ := hqd
    rw [drop_left] at hq
    exact ⟨src ++ r, hq, by rw [if_pos (prefix_append src r), drop_left]⟩
  · exact ⟨q, hq, by rw [if_neg hqs]⟩

theorem Host.Moved.wf (hm : h.Moved h' src dst) (hw : h.Wf) : h'.Wf where
  closed q c o hq := by
    rw [hm.kindAt]
    rw [hm.entry] at hq
    by_cases hqd : dst <+: q
    · obtain ⟨r, rfl⟩ := hqd
      have hpre : dst <+: dst ++ r ++ [c] := by
        rw [append_assoc]
        exact prefix_append _ _
      rw [if_pos hpre, append_assoc, drop_left, ← append_assoc] at hq
      rw [if_pos (prefix_append dst r), drop_left]
      exact hw.closed _ c o hq
    · rw [if_neg hqd]
      by_cases hnew : dst <+: q ++ [c]
      · -- the parent of the new path
        have heq : dst = q ++ [c] :=
          (prefix_concat_iff.1 hnew).resolve_right hqd
        have hsrcq : ¬src <+: q := fun hpre => hm.apart (by
          rw [heq]
          exact hpre.trans (prefix_append q [c]))
        have hparent := hm.parent
        rw [heq, dropLast_concat] at hparent
        rw [if_neg hsrcq]
        exact hparent
      · rw [if_neg hnew] at hq
        split_ifs at hq with hsrc
        have hsrcq : ¬src <+: q := fun hpre => hsrc (hpre.trans (prefix_append q [c]))
        rw [if_neg hsrcq]
        exact hw.closed q c o hq
  unique q q' o hq hq' hdir := by
    rw [hm.kind] at hdir
    obtain ⟨t, ht, hback⟩ := hm.origin hq
    obtain ⟨t', ht', hback'⟩ := hm.origin hq'
    rw [hback, hback', hw.unique t t' o ht ht' hdir]
  fresh q o hq := by
    rw [hm.next]
    rw [hm.entry] at hq
    split_ifs at hq
    · exact hw.fresh _ o hq
    · exact hw.fresh q o hq

end Ish.Fs.Fakefs
