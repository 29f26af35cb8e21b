import Ish.Fs.Equiv.Fake
import Ish.Lib.Run

/-!
# Read-only bind mounts

The check of fakefs compares strings: a path is read-only if it begins with the path of a read-only bind
mount. `Sys.Sealed` says when this is enough, namely when the only way of the host into the directory
behind the mount is the link at the mount point. Then the operations that are checked cannot get there;
`utime` is not checked, `link` does not check its source, and `rename` can move the link to another path
(`readonly_bind_unchanged`).
-/

namespace Ish.Fs.Fakefs

open Lib List Option

/-! ### Paths of bind mounts -/

variable {b w : Bind} {p q m r : HPath}

theorem Component.ofBytes_bytes (c : Component) : Component.ofBytes c.bytes = some c := by
  unfold Component.ofBytes
  rw [dif_pos ⟨c.ne, c.plain⟩]

theorem consBytes_nil (names : HPath) : consBytes [] names = names := by
  unfold consBytes Component.ofBytes
  rw [dif_neg (by simp)]

theorem consBytes_bytes (c : Component) (names : HPath) : consBytes c.bytes names = c :: names := by
  unfold consBytes
  rw [c.ofBytes_bytes]

theorem components_go_append (bytes : Path) {name : Path} (hname : slash ∉ name) (path : Path) :
    components.go bytes (name ++ path) = components.go (bytes ++ name) path := by
  induction name generalizing bytes with
  | nil => rw [nil_append, append_nil]
  | cons x name ih =>
    have hx : x ≠ slash := fun h => hname (by rw [h]; exact mem_cons_self)
    rw [cons_append, components.go, if_neg hx,
      ih _ fun hmem => hname (mem_cons_of_mem _ hmem), append_assoc]
    rfl

theorem components_go_pathBytes (bytes : Path) (p : HPath) : components.go bytes (pathBytes p) = consBytes bytes p := by
  induction p generalizing bytes with
  | nil => rfl
  | cons c p ih =>
    rw [pathBytes_cons, components.go, if_pos rfl, components_go_append [] c.plain, nil_append, ih,
      consBytes_bytes]

theorem components_pathBytes (p : HPath) : components (pathBytes p) = p := by
  unfold components
  rw [components_go_pathBytes, consBytes_nil]

theorem components_slash : components [slash] = [] := rfl

theorem Bind.covers_iff (hb : b.path = pathBytes m) : b.covers (cmpPath p) = true ↔ m <+: p := by
  unfold Bind.covers cmpPath
  rw [hb, Bool.and_eq_true, isPrefixOf_iff_prefix, Bool.or_eq_true, decide_eq_true_eq, decide_eq_true_eq]
  by_cases hp : p = []
  · -- the root of the mount is compared as a slash
    subst hp
    rw [if_pos rfl]
    cases m with
    | nil => exact ⟨fun _ => prefix_refl _, fun _ => ⟨ nil_prefix, .inr rfl⟩⟩
    | cons c m =>
      refine ⟨fun h => ?_, fun h => absurd h (by simp)⟩
      obtain ⟨⟨t, ht⟩, -⟩ := h
      rw [pathBytes_cons, cons_append, List.cons.injEq, append_assoc] at ht
      exact absurd (append_eq_nil_iff.1 ht.2).1 c.ne
  · rw [if_neg hp]
    constructor
    · rintro ⟨⟨rest, hrest⟩, hb⟩
      rw [← hrest, drop_left] at hb
      obtain ⟨t, rfl, -⟩ := eq_append_of_pathBytes hb hrest.symm
      exact ⟨t, rfl⟩
    · rintro ⟨t, rfl⟩
      rw [pathBytes_append, drop_left]
      exact ⟨prefix_append _ _, boundary_pathBytes t⟩

theorem Bind.components_rest (hb : b.path = pathBytes m) : components ((cmpPath (m ++ r)).drop b.path.length) = r := by
  unfold cmpPath
  by_cases hnil : m ++ r = []
  · obtain ⟨rfl, rfl⟩ := append_eq_nil_iff.1 hnil
    rw [if_pos hnil, hb]
    exact components_slash
  · rw [if_neg hnil, hb, pathBytes_append, drop_left, components_pathBytes]

/-! ### Sealed mounts -/

variable {s s' : Sys}

/-- The paths of the host behind a read-only bind mount. -/
def Sys.Protected (s : Sys) (q : HPath) : Prop := ∃ b ∈ s.binds, b.readOnly = true ∧ b.hostPath <+: q

/-- Neither path is below the other. -/
def Apart (p q : HPath) : Prop := ¬p <+: q ∧ ¬q <+: p

theorem Apart.append_left (h : Apart p q) (r : HPath) : Apart (p ++ r) q := by
  refine ⟨fun hpre => h.1 ((prefix_append p r).trans hpre), fun hpre => ?_⟩
  rcases prefix_or_prefix_of_prefix hpre (prefix_append p r) with hqp | hpq
  · exact h.2 hqp
  · exact h.1 hpq

/-- A path that is apart from all directories behind read-only mounts. -/
def Sys.Clear (s : Sys) (q : HPath) : Prop := ∀ b ∈ s.binds, b.readOnly = true → Apart q b.hostPath

theorem Sys.Clear.not_protected (h : s.Clear q) : ¬s.Protected q := by
  rintro ⟨b, hb, hro, hpre⟩
  exact (h b hb hro).2 hpre

theorem Sys.Clear.append (h : s.Clear q) (r : HPath) : s.Clear (q ++ r) :=
  fun b hb hro => (h b hb hro).append_left r

/-- No protected path is below a clear one. -/
theorem Sys.Clear.not_prefix_of (h : s.Clear q) (hp : s.Protected p) : ¬q <+: p := by
  obtain ⟨b, hb, hro, hpre⟩ := hp
  intro hqp
  rcases prefix_or_prefix_of_prefix hqp hpre with hqb | hbq
  · exact (h b hb hro).1 hqb
  · exact (h b hb hro).2 hbq

/-- The host can meet `q` on the way to a path that is not read-only: it is in the backing tree, or on the way to
the directory of a writable bind mount or below it. -/
def Sys.OnWay (s : Sys) (q : HPath) : Prop :=
  s.root <+: q ∨ ∃ w ∈ s.binds, w.readOnly = false ∧ ¬Apart q w.hostPath

/-- The only way into a directory behind a read-only bind mount is the link at its mount point: mount
points are paths, the links that the host can meet are those of bind mounts, the directory is apart from the backing
tree and from the directories of other bind mounts, which have no mount points in them, no object in it has
a link outside, and no fd can write to one. -/
structure Sys.Sealed (s : Sys) : Prop where
  wf : s.host.Wf
  points : ∀ b ∈ s.binds, ∃ m, b.path = pathBytes m
  links : ∀ q t, s.OnWay q → s.host.kindAt q = some (.link t) →
    ∃ b ∈ s.binds, ∃ m, b.path = pathBytes m ∧ q = s.root ++ m ∧ t = b.hostPath
  tree : s.Clear s.root
  others : ∀ w ∈ s.binds, w.readOnly = false → s.Clear w.hostPath
  inner : ∀ w ∈ s.binds, w.readOnly = false → ∀ b ∈ s.binds, ∀ m, b.path = pathBytes m →
    Apart w.hostPath (s.root ++ m)
  alone : ∀ p q o, s.Protected p → s.host.entry p = some o → s.host.entry q = some o → s.Protected q
  fds : ∀ fd ∈ s.fds, fd.writable = true → ∀ p, s.Protected p → s.host.entry p ≠ some fd.object

theorem Sys.writable_of_covers (hp : s.isUnderReadonly p = false) (hb : b ∈ s.binds)
    (hcovers : b.covers (cmpPath p) = true) : b.readOnly = false := by
  unfold Sys.isUnderReadonly at hp
  rw [List.any_eq_false] at hp
  have hnot := hp b hb
  rw [hcovers, Bool.and_true] at hnot
  exact eq_false_of_ne_true hnot

namespace Sys.Sealed

variable (hs : s.Sealed)
include hs

/-- There are no links at and below the directory of a writable bind mount. -/
theorem no_links (hw : w ∈ s.binds) (hwrite : w.readOnly = false) (r t : HPath) :
    s.host.kindAt (w.hostPath ++ r) ≠ some (.link t) := by
  intro hkind
  have hway : s.OnWay (w.hostPath ++ r) := .inr ⟨w, hw, hwrite, fun h => h.2 (prefix_append _ _)⟩
  obtain ⟨b, hb, m, hm, heq, -⟩ := hs.links _ t hway hkind
  refine (hs.inner w hw hwrite b hb m hm).1 ?_
  rw [← heq]
  exact prefix_append _ _

/-- **Where a path leads that is not read-only**: to the backing tree, or behind a writable bind mount. -/
theorem walk_eq (hp : s.isUnderReadonly (q ++ p) = false) (follow : Bool) :
    s.host.walk follow (s.root ++ q) p = s.root ++ (q ++ p) ∨
      ∃ w ∈ s.binds, w.readOnly = false ∧ ∃ r, s.host.walk follow (s.root ++ q) p = w.hostPath ++ r := by
  induction p generalizing q with
  | nil => exact .inl (by rw [Host.walk, append_nil])
  | cons c p ih =>
    rw [Host.walk]
    have hnext : s.isUnderReadonly ((q ++ [c]) ++ p) = false := by
      rw [append_assoc]
      exact hp
    cases hlink : (if (decide (p = []) && !follow) = true then none
        else s.host.linkAt (s.root ++ q ++ [c])) with
    | none =>
      have hih := ih hnext
      rw [← append_assoc] at hih
      simpa only [append_assoc, singleton_append, cons_append, nil_append] using hih
    | some target =>
      -- the link of a bind mount, which is not read-only since it covers the path
      obtain ⟨-, hlink⟩ := ite_none_left_eq_some.1 hlink
      have hkind : s.host.kindAt (s.root ++ q ++ [c]) = some (.link target) := by
        unfold Host.linkAt at hlink
        split at hlink
        · next t ht =>
          cases hlink
          exact ht
        · cases hlink
      have hway : s.OnWay (s.root ++ q ++ [c]) := .inl (by rw [append_assoc]; exact prefix_append _ _)
      obtain ⟨w, hw, m, hm, heq, rfl⟩ := hs.links _ target hway hkind
      rw [append_assoc, append_cancel_left_eq] at heq
      have hcovers : w.covers (cmpPath (q ++ c :: p)) = true := by
        rw [Bind.covers_iff hm, ← heq]
        exact ⟨p, (append_cons q c p).symm⟩
      have hwrite := Sys.writable_of_covers hp hw hcovers
      exact .inr ⟨w, hw, hwrite, p, Host.walk_eq_append (hs.no_links hw hwrite) follow p⟩

theorem clear_at (hp : s.isUnderReadonly p = false) (follow : Bool) : s.Clear (s.at follow p) := by
  have hwalk := hs.walk_eq (q := []) hp follow
  rw [append_nil, nil_append] at hwalk
  unfold Sys.at
  rcases hwalk with hwalk | ⟨w, hw, hwrite, r, hwalk⟩
  · rw [hwalk]
    exact hs.tree.append p
  · rw [hwalk]
    exact (hs.others w hw hwrite).append r

theorem no_link_below (hp : s.isUnderReadonly p = false) (hr : ∀ b ∈ s.binds, b.path ≠ pathBytes (p ++ r)) (t : HPath) :
    s.host.kindAt (s.at false p ++ r) ≠ some (.link t) := by
  have hwalk := hs.walk_eq (q := []) hp false
  rw [append_nil, nil_append] at hwalk
  unfold Sys.at
  rcases hwalk with hwalk | ⟨w, hw, hwrite, r', hwalk⟩
  · intro hkind
    rw [hwalk] at hkind
    have hway : s.OnWay (s.root ++ p ++ r) := .inl (by rw [append_assoc]; exact prefix_append _ _)
    obtain ⟨b, hb, m, hm, heq, -⟩ := hs.links _ t hway hkind
    rw [append_assoc, append_cancel_left_eq] at heq
    exact hr b hb (by rw [heq, hm])
  · rw [hwalk, append_assoc]
    exact hs.no_links hw hwrite _ t

theorem walk_host (hw : w ∈ s.binds) (hwrite : w.readOnly = false) (follow : Bool) (r : HPath) :
    s.host.walk follow [] (w.hostPath ++ r) = w.hostPath ++ r := by
  -- the links of the host are apart from the directory, so none is on the way
  have hno : ∀ names cur : HPath, cur ++ names = w.hostPath ++ r →
      s.host.walk follow cur names = cur ++ names := by
    intro names
    induction names with
    | nil => exact fun cur _ => by rw [Host.walk, append_nil]
    | cons c names ih =>
      intro cur heq
      rw [append_cons] at heq
      have hnone : s.host.linkAt (cur ++ [c]) = none := by
        unfold Host.linkAt
        split
        · next t ht =>
          exfalso
          have hway : s.OnWay (cur ++ [c]) := by
            refine .inr ⟨w, hw, hwrite, fun h => ?_⟩
            rcases prefix_or_prefix_of_prefix ⟨names, heq⟩ (prefix_append w.hostPath r) with hpre | hpre
            · exact h.1 hpre
            · exact h.2 hpre
          obtain ⟨b, hb, m, hm, hq, -⟩ := hs.links _ t hway ht
          have hapart := hs.inner w hw hwrite b hb m hm
          rw [hq] at heq
          have hpre : s.root ++ m <+: w.hostPath ++ r := ⟨names, heq⟩
          exact (hapart.append_left r).2 hpre
        · rfl
      rw [Host.walk, hnone, ite_self]
      show s.host.walk follow (cur ++ [c]) names = _
      rw [ih (cur ++ [c]) heq, ← append_cons]
  exact hno _ [] rfl

theorem clear_openAt (hp : s.isUnderReadonly p = false) (flags : OpenFlags) : s.Clear (s.openAt p flags) := by
  unfold Sys.openAt
  cases htrans : s.translate p with
  | none => exact hs.clear_at hp _
  | some path =>
    unfold Sys.translate at htrans
    obtain ⟨w, hw, hpath⟩ := exists_of_findSome?_eq_some htrans
    obtain ⟨hcovers, hpath⟩ := ite_none_right_eq_some.1 hpath
    cases hpath
    obtain ⟨m, hm⟩ := hs.points w hw
    have hwrite := Sys.writable_of_covers hp hw hcovers
    obtain ⟨r, rfl⟩ := (Bind.covers_iff hm).1 hcovers
    rw [Bind.components_rest hm]
    dsimp only
    rw [hs.walk_host hw hwrite]
    exact (hs.others w hw hwrite).append r

end Sys.Sealed

/-! ### What the host calls leave alone -/

variable {h h' : Host} {P : HPath → Prop} {o : Nat} {src dst : HPath}

/-- A change of the host that leaves the paths with `P` alone; what it has outside was outside or is new,
and it makes no links. -/
structure Host.Spares (P : HPath → Prop) (h h' : Host) : Prop where
  wf : h'.Wf
  links : ∀ q t, h'.kindAt q = some (.link t) → h.kindAt q = some (.link t)
  entry : ∀ q, P q → h'.entry q = h.entry q
  node : ∀ q o, P q → h.entry q = some o → h'.node o = h.node o
  outside : ∀ q o, ¬P q → h'.entry q = some o → o = h.next ∨ ∃ t, ¬P t ∧ h.entry t = some o

theorem Host.Spares.refl (hw : h.Wf) : h.Spares P h :=
  ⟨hw, fun _ _ hk => hk, fun _ _ => rfl, fun _ _ _ _ => rfl, fun q _ hq ho => .inr ⟨q, hq, ho⟩⟩

/-- An object changes that is at no path with `P`. -/
theorem Host.Wf.spares_setNode (hw : h.Wf) {n : Node} (hn : n.kind = (h.node o).kind)
    (ho : ∀ q, P q → h.entry q ≠ some o) : h.Spares P (h.setNode o n) := by
  have hsame := h.sameTree_setNode hn
  refine ⟨hsame.wf hw, fun q t hk => ?_, fun _ _ => rfl, fun q o' hq hentry => ?_,
    fun q o' hq hentry => .inr ⟨q, hq, hentry⟩⟩
  · rwa [hsame.kindAt] at hk
  · rw [Host.node_setNode, if_neg]
    rintro rfl
    exact ho q hq hentry

theorem Host.Wf.spares_makes (hw : h.Wf) (hm : h.Makes h' p) (hp : ¬P p) : h.Spares P h' := by
  have hentry := hm.entry
  refine ⟨hm.wf hw, fun q t hk => ?_, fun q hq => ?_, fun q o hq ho => ?_, fun q o hq ho => ?_⟩
  · by_contra hne
    exact hm.kindAt_ne hw hne hk
  · rw [hentry, if_neg]
    rintro rfl
    exact hp hq
  · obtain ⟨kind, data, -, rfl⟩ := hm.made
    exact hw.node_add kind data ho
  · rw [hentry] at ho
    split_ifs at ho
    · cases ho
      exact .inl rfl
    · exact .inr ⟨q, hq, ho⟩

theorem Host.Wf.spares_link (hw : h.Wf) (hok : h.link src dst = .ok h') (hsrc : ¬P src) (hdst : ¬P dst)
    (hlink : ∀ t, h.kindAt src ≠ some (.link t))
    (halone : ∀ p q o, P p → h.entry p = some o → h.entry q = some o → P q) : h.Spares P h' := by
  obtain ⟨o, hsome, hdir, hnone, hparent, heq⟩ := Host.link_eq_ok hok
  have hentry : ∀ q, h'.entry q = if q = dst then some o else h.entry q := by
    rw [heq]
    exact h.entry_insert dst o 1
  refine ⟨hw.link hok, fun q t hk => ?_, fun q hq => ?_, fun q o' hq ho' => ?_, fun q o' hq ho' => ?_⟩
  · rw [Host.kindAt_link hok] at hk
    split_ifs at hk
    · exact absurd hk (hlink t)
    · exact hk
  · rw [hentry, if_neg]
    rintro rfl
    exact hdst hq
  · rw [heq]
    unfold Host.addLinks
    rw [Host.node_setNode, if_neg]
    rintro rfl
    exact hsrc (halone q src o' hq ho' hsome)
  · rw [hentry] at ho'
    split_ifs at ho'
    · cases ho'
      exact .inr ⟨src, hsrc, hsome⟩
    · exact .inr ⟨q, hq, ho'⟩

theorem Host.Wf.spares_removed (hw : h.Wf) (hr : h.Removed h' p) (hp : ¬P p)
    (halone : ∀ p q o, P p → h.entry p = some o → h.entry q = some o → P q) : h.Spares P h' := by
  refine ⟨hr.wf hw, fun q t hk => ?_, fun q hq => ?_, fun q o hq ho => ?_, fun q o hq ho => ?_⟩
  · rw [hr.kindAt] at hk
    exact (ite_none_left_eq_some.1 hk).2
  · rw [hr.entry, if_neg]
    rintro rfl
    exact hp hq
  · exact hr.node o fun hentry => hp (halone q p o hq ho hentry)
  · rw [hr.entry] at ho
    exact .inr ⟨q, hq, (ite_none_left_eq_some.1 ho).2⟩

theorem Host.Wf.spares_moved (hw : h.Wf) (hm : h.Moved h' src dst) (hsrc : ∀ q, P q → ¬src <+: q)
    (hdst : ∀ q, P q → ¬dst <+: q) (hlinks : ∀ r t, h.kindAt (src ++ r) ≠ some (.link t))
    (halone : ∀ p q o, P p → h.entry p = some o → h.entry q = some o → P q) : h.Spares P h' := by
  refine ⟨hm.wf hw, fun q t hk => ?_, fun q hq => ?_, fun q o hq ho => ?_, fun q o hq ho => ?_⟩
  · rw [hm.kindAt] at hk
    split_ifs at hk
    · exact absurd hk (hlinks _ t)
    · exact hk
  · rw [hm.entry, if_neg (hdst q hq), if_neg (hsrc q hq)]
  · refine hm.node o fun hentry => hdst dst ?_ (prefix_refl dst)
    exact halone q dst o hq ho hentry
  · obtain ⟨t, ht, heq⟩ := hm.origin ho
    refine .inr ⟨t, fun hP => ?_, ht⟩
    rw [if_neg (hsrc t hP)] at heq
    rw [heq] at hq
    exact hq hP

/-! ### Steps -/

/-- A step of a sealed mount that leaves the protected paths alone. -/
structure Sys.StepSpares (s s' : Sys) : Prop where
  root : s'.root = s.root
  binds : s'.binds = s.binds
  host : s.host.Spares s.Protected s'.host
  fds : ∀ fd ∈ s'.fds, fd.writable = true →
    (∃ fd₀ ∈ s.fds, fd₀.writable = true ∧ fd₀.object = fd.object) ∨
      ∀ p, s.Protected p → s.host.entry p ≠ some fd.object

theorem Sys.Sealed.of_step (hs : s.Sealed) (h : s.StepSpares s') : s'.Sealed := by
  have hprot : ∀ q, s'.Protected q ↔ s.Protected q := by
    intro q
    unfold Sys.Protected
    rw [h.binds]
  have hclear : ∀ q, s.Clear q → s'.Clear q := by
    intro q hq
    unfold Sys.Clear
    rw [h.binds]
    exact hq
  refine ⟨h.host.wf, ?_, fun q t hway hk => ?_, ?_, fun w hw hwrite => ?_, fun w hw hwrite b hb m hm => ?_,
    fun p q o hp ho ho' => ?_, fun fd hfd hwrite p hp hentry => ?_⟩
  · rw [h.binds]
    exact hs.points
  · unfold Sys.OnWay at hway
    rw [h.binds, h.root] at hway ⊢
    exact hs.links q t hway (h.host.links q t hk)
  · rw [h.root]
    exact hclear _ hs.tree
  · rw [h.binds] at hw
    exact hclear _ (hs.others w hw hwrite)
  · rw [h.binds] at hw hb
    rw [h.root]
    exact hs.inner w hw hwrite b hb m hm
  · rw [hprot] at hp ⊢
    rw [h.host.entry p hp] at ho
    by_contra hq
    rcases h.host.outside q o hq ho' with rfl | ⟨t, ht, hot⟩
    · exact (hs.wf.fresh p _ ho).ne rfl
    · exact ht (hs.alone p t o hp ho hot)
  · rw [hprot] at hp
    rw [h.host.entry p hp] at hentry
    rcases h.fds fd hfd hwrite with ⟨fd₀, hmem, hwrite₀, hobject⟩ | hnot
    · exact hs.fds fd₀ hmem hwrite₀ p hp (by rw [hobject]; exact hentry)
    · exact hnot p hp hentry

/-- The host changes outside, and the fds stay. -/
theorem Sys.StepSpares.of_host (hsame : (s'.root, s'.binds, s'.fds) = (s.root, s.binds, s.fds))
    (hhost : s.host.Spares s.Protected s'.host) : s.StepSpares s' := by
  simp only [Prod.mk.injEq] at hsame
  refine ⟨hsame.1, hsame.2.1, hhost, fun fd hfd hwrite => .inl ⟨fd, ?_, hwrite, rfl⟩⟩
  rw [← hsame.2.2]
  exact hfd

theorem Sys.Sealed.spares_same (hs : s.Sealed)
    (hsame : (s'.root, s'.binds, s'.fds, s'.host) = (s.root, s.binds, s.fds, s.host)) : s.StepSpares s' := by
  simp only [Prod.mk.injEq] at hsame
  refine .of_host (by rw [hsame.1, hsame.2.1, hsame.2.2.1]) ?_
  rw [hsame.2.2.2]
  exact .refl hs.wf

theorem Sys.Sealed.object_clear (hs : s.Sealed) (hq : s.Clear q) (ho : s.host.entry q = some o) :
    ∀ p, s.Protected p → s.host.entry p ≠ some o :=
  fun p hp hentry => hq.not_protected (hs.alone p q o hp hentry ho)

/-- The operations for which the check of strings is enough: `utime` is not of a path under a read-only
bind mount, the source of `link` is neither, nor a mount point, and `rename` moves no mount point. -/
def Sys.BindSafe (s : Sys) : Act → Prop
  | .utime p _ _ => s.isUnderReadonly p = false
  | .link src _ _ => s.isUnderReadonly src = false ∧ ∀ b ∈ s.binds, b.path ≠ pathBytes src
  | .rename src _ _ => ∀ b ∈ s.binds, ∀ r, b.path ≠ pathBytes (src ++ r)
  | _ => True

namespace Sys.Sealed

variable (hs : s.Sealed)
include hs

/-- The host opens an object: what it is, and what has become of the host. -/
theorem openat {flags : OpenFlags} (hclear : flags.intent = true → s.Clear q)
    (hok : s.host.openat q flags = .ok (h', o)) : s.host.Spares s.Protected h' ∧
      (flags.intent = true → ∀ p, s.Protected p → s.host.entry p ≠ some o) := by
  have hintent : ∀ {b : Bool}, flags.trunc = true ∨ flags.creat = true → flags.intent = true := by
    intro _ h
    unfold OpenFlags.intent
    rcases h with h | h <;> simp [h]
  rcases Host.openat_eq_ok hok with ⟨hentry, rfl | ⟨htrunc, rfl⟩⟩ | ⟨hcreat, hnone, hparent, rfl, rfl⟩
  · exact ⟨.refl hs.wf, fun hi => hs.object_clear (hclear hi) hentry⟩
  · have hq := hclear (hintent (b := true) (.inl htrunc))
    exact ⟨hs.wf.spares_setNode rfl (hs.object_clear hq hentry), fun _ => hs.object_clear hq hentry⟩
  · have hq := hclear (hintent (b := true) (.inr hcreat))
    exact ⟨hs.wf.spares_makes ⟨hnone, hparent, .file, [], by simp, rfl⟩ hq.not_protected,
      fun _ p _ hentry => (hs.wf.fresh p _ hentry).ne rfl⟩

theorem spares_openFile (p : HPath) (flags : OpenFlags) (mode : BitVec 32) (cred : Cred)
    (fault : Bool) : s.StepSpares (s.openFile p flags mode cred fault).1 := by
  unfold Sys.openFile
  by_cases hro : (flags.intent && s.isUnderReadonly p) = true
  · rw [if_pos hro]
    exact hs.spares_same rfl
  rw [if_neg hro]
  by_cases hfault : fault = true
  · rw [if_pos hfault]
    exact hs.spares_same rfl
  rw [if_neg hfault]
  cases hopen : s.host.openat (s.openAt p flags) flags with
  | error e => exact hs.spares_same rfl
  | ok r =>
    obtain ⟨host, object⟩ := r
    have hclear : flags.intent = true → s.Clear (s.openAt p flags) := by
      intro hintent
      refine hs.clear_openAt (eq_false_of_ne_true fun h => hro ?_) flags
      rw [hintent, h]
      rfl
    obtain ⟨hhost, hobject⟩ := hs.openat hclear hopen
    obtain ⟨db, hdb⟩ := ({ s with host := host } : Sys).openInode_db p flags
      ⟨mode ||| sIfreg, cred.euid, cred.egid, 0⟩
    dsimp only
    rw [hdb]
    unfold Sys.addFd
    split_ifs
    · exact .of_host rfl hhost
    · refine ⟨rfl, rfl, hhost, fun fd hfd hwrite => ?_⟩
      rcases mem_append.1 hfd with hfd | hfd
      · exact .inl ⟨fd, hfd, hwrite, rfl⟩
      · rw [mem_singleton.1 hfd] at hwrite ⊢
        refine .inr (hobject ?_)
        have hw : flags.writable = true := hwrite
        unfold OpenFlags.writable at hw
        unfold OpenFlags.intent
        rw [hw]
        rfl

theorem spares_make {kind : Kind} {data : List UInt8} (hkind : ∀ t, kind ≠ .link t)
    (hp : s.isUnderReadonly p = false) (hok : s.host.make (s.at false p) kind data = .ok h') :
    s.host.Spares s.Protected h' := by
  obtain ⟨hnone, hparent, heq⟩ := Host.make_eq_ok hok
  exact hs.wf.spares_makes ⟨hnone, hparent, kind, data, hkind, heq⟩ (hs.clear_at hp false).not_protected

variable {fault : Bool}

theorem spares_link {out : Outcome} (hsrc : s.isUnderReadonly src = false)
    (hpoint : ∀ b ∈ s.binds, b.path ≠ pathBytes src) (h : s.link src dst fault = some (s', out)) : s.StepSpares s' := by
  unfold Sys.link at h
  split_ifs at h with hdst hfault
  · cases h
    exact hs.spares_same rfl
  · cases h
    exact hs.spares_same rfl
  · cases hlink : s.host.link (s.at false src) (s.at false dst) with
    | error e =>
      rw [hlink] at h
      cases h
      exact hs.spares_same rfl
    | ok host =>
      rw [hlink] at h
      obtain ⟨db, -, heq⟩ := map_eq_some_iff.1 h
      cases heq
      have hno := hs.no_link_below (r := []) hsrc (by simpa using hpoint)
      rw [append_nil] at hno
      exact .of_host rfl (hs.wf.spares_link hlink (hs.clear_at hsrc false).not_protected
        (hs.clear_at (eq_false_of_ne_true hdst) false).not_protected hno hs.alone)

theorem spares_remove {call : Sys → Except HostErrno Host}
    (hcall : ∀ s₁ : Sys, s₁.host = s.host → s₁.root = s.root → ∀ host, call s₁ = .ok host →
      s.host.Removed host (s.at false p)) : s.StepSpares (s.remove p call).1 := by
  unfold Sys.remove
  split_ifs with hro
  · exact hs.spares_same rfl
  · obtain ⟨db, hdb⟩ := s.ensureBound_eq p
    dsimp only
    rw [hdb]
    cases hc : call { s with db := db } with
    | error e => exact hs.spares_same rfl
    | ok host =>
      have hhost : s.host.Spares s.Protected host :=
        hs.wf.spares_removed (hcall { s with db := db } rfl rfl host hc)
          (hs.clear_at (eq_false_of_ne_true hro) false).not_protected hs.alone
      dsimp only
      unfold Sys.inodeCheckOrphaned
      split_ifs
      · exact .of_host rfl hhost
      · exact .of_host rfl hhost

theorem spares_rename (hpoint : ∀ b ∈ s.binds, ∀ r, b.path ≠ pathBytes (src ++ r)) :
    s.StepSpares (s.rename src dst fault).1 := by
  unfold Sys.rename
  split_ifs with hro
  · exact hs.spares_same rfl
  · cases hr : s.hostRename src dst fault with
    | error e => exact hs.spares_same rfl
    | ok host =>
      have hsrc : s.isUnderReadonly src = false := eq_false_of_ne_true fun h => hro (by rw [h]; rfl)
      have hdst : s.isUnderReadonly dst = false :=
        eq_false_of_ne_true fun h => hro (by rw [h, Bool.or_true])
      unfold Sys.hostRename at hr
      split_ifs at hr
      obtain ⟨o, -, ⟨-, rfl⟩ | ⟨-, hmoved⟩⟩ := hs.wf.rename hr
      · exact hs.spares_same rfl
      · refine .of_host rfl (hs.wf.spares_moved hmoved (fun q hq => (hs.clear_at hsrc false).not_prefix_of hq)
          (fun q hq => (hs.clear_at hdst false).not_prefix_of hq) (fun r t => ?_) hs.alone)
        exact hs.no_link_below hsrc (fun b hb => hpoint b hb r) t

theorem spares_symlink (target : List UInt8) (link : HPath) (cred : Cred) (fault : SymlinkFault) :
    s.StepSpares (s.symlink target link cred fault).1 := by
  unfold Sys.symlink
  split_ifs with hro hopen
  · exact hs.spares_same rfl
  · exact hs.spares_same rfl
  · cases hmake : s.host.make (s.at false link) .file target with
    | error e => exact hs.spares_same rfl
    | ok host =>
      have hhost := hs.spares_make (by simp) (eq_false_of_ne_true hro) hmake
      cases fault with
      | write => exact hs.spares_same rfl
      | _ => exact .of_host rfl hhost

theorem spares_mknod (p : HPath) (mode : BitVec 32) (dev : Nat) (cred : Cred) (fault : Bool) :
    s.StepSpares (s.mknod p mode dev cred fault).1 := by
  unfold Sys.mknod
  split_ifs with hro
  · exact hs.spares_same rfl
  · cases hmake : s.hostMknod p mode fault with
    | error e => cases e <;> exact hs.spares_same rfl
    | ok host =>
      unfold Sys.hostMknod at hmake
      cases hkind : mknodKind mode with
      | none =>
        rw [hkind] at hmake
        cases hmake
      | some kind =>
        simp only [hkind] at hmake
        split_ifs at hmake
        exact .of_host rfl (hs.spares_make (mknodKind_ne_link hkind) (eq_false_of_ne_true hro) hmake)

theorem spares_truncate (p : HPath) (hp : s.isUnderReadonly p = false) (size : Nat) :
    s.StepSpares (s.truncate p size).1 := by
  unfold Sys.truncate
  cases hopen : s.host.openat (s.at true p) ⟨false, true, false, false, false, false⟩ with
  | error e => exact hs.spares_same rfl
  | ok r =>
    obtain ⟨host, o⟩ := r
    rcases Host.openat_eq_ok hopen with ⟨hentry, rfl | ⟨htrunc, -⟩⟩ | ⟨hcreat, -⟩
    · dsimp only
      split_ifs
      · exact .of_host rfl (hs.wf.spares_setNode rfl (hs.object_clear (hs.clear_at hp true) hentry))
      · exact hs.spares_same rfl
    · cases htrunc
    · cases hcreat

theorem spares_setattr_db (p : HPath) (stat : IshStat → IshStat) : s.StepSpares
    (let s₁ := if (s.db.pathReadStat (pathBytes p)).isNone then s.ensureBound p else s
    (match s₁.db.pathReadStat (pathBytes p) with
    | none => (s₁, Outcome.failed)
    | some (inode, st) => ({ s₁ with db := s₁.db.inodeWriteStat inode (stat st) }, .ok))).1 := by
  obtain ⟨db, hdb⟩ : ∃ db, (if (s.db.pathReadStat (pathBytes p)).isNone then s.ensureBound p else s) =
      { s with db := db } := by
    split_ifs
    · exact s.ensureBound_eq p
    · exact ⟨s.db, rfl⟩
  dsimp only
  rw [hdb]
  split
  · exact hs.spares_same rfl
  · exact hs.spares_same rfl

theorem spares_setattr (p : HPath) (attr : Attr) (fault : Bool) : s.StepSpares (s.setattr p attr fault).1 := by
  unfold Sys.setattr
  by_cases hro : s.isUnderReadonly p = true
  · rw [if_pos hro]
    exact hs.spares_same rfl
  rw [if_neg hro]
  cases attr with
  | size size =>
    dsimp only
    split_ifs
    · exact hs.spares_same rfl
    · exact hs.spares_truncate p (eq_false_of_ne_true hro) size
  | uid uid => exact hs.spares_setattr_db p fun stat => stat.setattr (.uid uid)
  | gid gid => exact hs.spares_setattr_db p fun stat => stat.setattr (.gid gid)
  | mode mode => exact hs.spares_setattr_db p fun stat => stat.setattr (.mode mode)

theorem spares_mkdir (p : HPath) (mode : BitVec 32) (cred : Cred) (fault : Bool) :
    s.StepSpares (s.mkdir p mode cred fault).1 := by
  unfold Sys.mkdir
  split_ifs with hro hfault
  · exact hs.spares_same rfl
  · exact hs.spares_same rfl
  · cases hmake : s.host.make (s.at false p) .dir [] with
    | error e => exact hs.spares_same rfl
    | ok host =>
      exact .of_host rfl (hs.spares_make (by simp) (eq_false_of_ne_true hro) hmake)

theorem spares_utime (p : HPath) (hp : s.isUnderReadonly p = false) (mtime : Nat) (fault : Bool) :
    s.StepSpares (s.utime p mtime fault).1 := by
  unfold Sys.utime
  split_ifs
  · exact hs.spares_same rfl
  · cases htime : s.host.utimens (s.at true p) mtime with
    | error e => exact hs.spares_same rfl
    | ok host =>
      obtain ⟨o, hentry, rfl⟩ := Host.utimens_eq_ok htime
      exact .of_host rfl (hs.wf.spares_setNode rfl (hs.object_clear (hs.clear_at hp true) hentry))

variable {fd : Fd}

theorem spares_setData (hfd : fd ∈ s.fds) (hwrite : fd.writable = true) (data : List UInt8) :
    s.StepSpares { s with host := s.host.setData fd.object data } :=
  .of_host rfl (hs.wf.spares_setNode rfl (hs.fds fd hfd hwrite))

theorem spares_write (hfd : fd ∈ s.fds) (data : List UInt8) (fault : Bool) :
    s.StepSpares (s.write fd data fault).1 := by
  unfold Sys.write
  split_ifs with hnot
  · exact hs.spares_same rfl
  · rw [not_or, not_or] at hnot
    exact hs.spares_setData hfd (by rw [← Bool.not_eq_false]; exact hnot.2.1) data

theorem spares_fsetattr (hfd : fd ∈ s.fds) {attr : Attr} {out : Outcome}
    (h : s.fsetattr fd attr fault = some (s', out)) : s.StepSpares s' := by
  have hdb : ∀ attr : Attr, ((s.db.inodeReadStat fd.fakeInode).map fun stat =>
      (({ s with db := s.db.inodeWriteStat fd.fakeInode (stat.setattr attr) } : Sys), Outcome.ok)) =
        some (s', out) → s.StepSpares s' := by
    intro attr h
    obtain ⟨stat, -, heq⟩ := map_eq_some_iff.1 h
    cases heq
    exact hs.spares_same rfl
  cases attr with
  | size size =>
    simp only [Sys.fsetattr] at h
    split_ifs at h with hfault hw
    · cases h
      exact hs.spares_same rfl
    · cases h
      exact hs.spares_setData hfd hw.1 _
    · cases h
      exact hs.spares_same rfl
  | uid _ | gid _ | mode _ => exact hdb _ h

theorem spares_fd {i : Nat} {fd' : Fd} (hfd : fd ∈ s.fds) (hfds : s'.fds = s.fds.set i fd')
    (hobject : fd'.object = fd.object) (hwritable : fd'.writable = fd.writable)
    (hroot : s'.root = s.root) (hbinds : s'.binds = s.binds) (hhost : s'.host = s.host) : s.StepSpares s' := by
  refine ⟨hroot, hbinds, by rw [hhost]; exact .refl hs.wf, fun g hg hwrite => .inl ?_⟩
  rw [hfds] at hg
  rcases mem_or_eq_of_mem_set hg with hg | rfl
  · exact ⟨g, hg, hwrite, rfl⟩
  · exact ⟨fd, hfd, by rw [← hwritable]; exact hwrite, hobject.symm⟩

theorem spares_fdClose (hfd : fd ∈ s.fds) (i : Nat) : s.StepSpares (s.fdClose i fd) := by
  unfold Sys.fdClose Sys.inodeRelease
  dsimp only
  split_ifs <;> exact hs.spares_fd hfd rfl rfl rfl rfl rfl rfl

theorem spares_openRest (hfd : fd ∈ s.fds) (i : Nat) (how : OpenEnd) :
    s.StepSpares (s.openRest i fd how).1 := by
  unfold Sys.openRest
  split_ifs
  · exact hs.spares_fdClose hfd i
  · unfold Sys.fdClose Sys.inodeRelease
    dsimp only
    split_ifs <;> exact hs.spares_fd hfd (set_set _) rfl rfl rfl rfl rfl
  · exact hs.spares_fd hfd rfl rfl rfl rfl rfl rfl

/-- **What a step does to a sealed mount.** -/
theorem stepSpares {a : Act} (hsafe : s.BindSafe a) (hstep : s.step a = some s') : s.StepSpares s' := by
  obtain ⟨⟨t, out⟩, h, rfl⟩ := map_eq_some_iff.1 hstep
  have hof : ∀ {r : Sys × Outcome}, s.StepSpares r.1 → some r = some (t, out) → s.StepSpares t := by
    rintro r hr heq
    cases heq
    exact hr
  have hmem : ∀ {i : Nat} {fd : Fd}, s.fds[i]? = some fd → fd ∈ s.fds := mem_of_getElem?
  cases a with
  | openFile p flags mode cred fault => exact hof (hs.spares_openFile p flags mode cred fault) h
  | openRest i how =>
    obtain ⟨fd, hfd, -, -, h⟩ := Sys.withFd_eq_some h
    exact hof (hs.spares_openRest (hmem hfd) i how) h
  | dup i =>
    obtain ⟨fd, hfd, -, -, h⟩ := Sys.withFd_eq_some h
    cases h
    exact hs.spares_fd (hmem hfd) rfl rfl rfl rfl rfl rfl
  | close i =>
    obtain ⟨fd, hfd, -, -, h⟩ := Sys.withFd_eq_some h
    exact hof (hs.spares_fdClose (hmem hfd) i) h
  | write i data fault =>
    obtain ⟨fd, hfd, -, -, h⟩ := Sys.withFd_eq_some h
    exact hof (hs.spares_write (hmem hfd) data fault) h
  | fsetattr i attr fault =>
    obtain ⟨fd, hfd, -, -, h⟩ := Sys.withFd_eq_some h
    exact hs.spares_fsetattr (hmem hfd) h
  | link src dst fault => exact hs.spares_link hsafe.1 hsafe.2 h
  | unlink p fault =>
    refine hof (hs.spares_remove fun s₁ hhost hroot host hok => ?_) h
    split_ifs at hok
    unfold Sys.at at hok ⊢
    rw [hhost, hroot] at hok
    exact Host.removed_of_unlink hok
  | rmdir p fault =>
    refine hof (hs.spares_remove fun s₁ hhost hroot host hok => ?_) h
    split_ifs at hok
    unfold Sys.at at hok ⊢
    rw [hhost, hroot] at hok
    exact Host.removed_of_rmdir hok
  | rename src dst fault => exact hof (hs.spares_rename hsafe) h
  | symlink target link cred fault => exact hof (hs.spares_symlink target link cred fault) h
  | mknod p mode dev cred fault => exact hof (hs.spares_mknod p mode dev cred fault) h
  | mkdir p mode cred fault => exact hof (hs.spares_mkdir p mode cred fault) h
  | setattr p attr fault => exact hof (hs.spares_setattr p attr fault) h
  | utime p mtime fault => exact hof (hs.spares_utime p hsafe mtime fault) h

end Sys.Sealed

/-- The paths behind read-only bind mounts are as they were. -/
structure Sys.Untouched (s₀ s : Sys) : Prop where
  binds : s.binds = s₀.binds
  entry : ∀ q, s₀.Protected q → s.host.entry q = s₀.host.entry q
  node : ∀ q o, s₀.Protected q → s₀.host.entry q = some o → s.host.node o = s₀.host.node o

theorem Sys.Untouched.step {s₀ : Sys} (hu : s₀.Untouched s) (h : s.StepSpares s') : s₀.Untouched s' := by
  have hprot : ∀ {q}, s₀.Protected q → s.Protected q := by
    intro q hq
    unfold Sys.Protected
    rw [hu.binds]
    exact hq
  refine ⟨h.binds.trans hu.binds, fun q hq => ?_, fun q o hq ho => ?_⟩
  · rw [h.host.entry q (hprot hq), hu.entry q hq]
  · rw [h.host.node q o (hprot hq) (by rw [hu.entry q hq]; exact ho), hu.node q o hq ho]

/-- **Read-only bind mounts are read-only** in a sealed mount, as long as no operation is `utime` or `link`
of a path under one, or moves a mount point. -/
theorem readonly_bind_unchanged {s₀ : Sys} (hs : s₀.Sealed) : ∀ s, Run Sys.step Sys.BindSafe s₀ s → s₀.Untouched s := by
  intro s hrun
  have hinv : s.Sealed ∧ s₀.Untouched s := by
    refine hrun.inv (fun s => s.Sealed ∧ s₀.Untouched s) ?_
      ⟨hs, rfl, fun _ _ => rfl, fun _ _ _ _ => rfl⟩
    rintro s a t ⟨hsealed, hu⟩ hsafe hstep
    have hspares := hsealed.stepSpares hsafe hstep
    exact ⟨hsealed.of_step hspares, hu.step hspares⟩
  exact hinv.2

def nameC : Component := ⟨[0x63], by decide, by decide⟩

/-- A mount at `/a` of the host, with the directory `/b` of the host bound read-only to `/c`; there is a
file in it. -/
def boundMount : Sys where
  host := ⟨⟨[⟨[], 0⟩, ⟨[nameA], 1⟩, ⟨[nameA, nameC], 2⟩, ⟨[nameB], 3⟩, ⟨[nameB, nameA], 4⟩], by
      unfold List.NodupKeys
      decide⟩,
    fun o => ⟨if o = 2 then .link [nameB] else if o = 4 then .file else .dir, [], 1, 0⟩, 5⟩
  root := [nameA]
  binds := [⟨pathBytes [nameC], [nameB], true⟩]
  db := ⟨AList.singleton [] 1, AList.singleton 1 ⟨⟨sIfdir ||| 0o755#32, 0, 0, 0⟩, 0⟩, 1⟩
  inodes _ := 0
  fds := []

theorem boundMount_entry (h : boundMount.host.entry q = some o) :
    q = [] ∧ o = 0 ∨ q = [nameA] ∧ o = 1 ∨ q = [nameA, nameC] ∧ o = 2 ∨ q = [nameB] ∧ o = 3 ∨
      q = [nameB, nameA] ∧ o = 4 := by
  have hmem := AList.mem_lookup_iff.1 h
  simpa [boundMount] using hmem

/-- No object has two links. -/
theorem boundMount_injective (hp : boundMount.host.entry p = some o)
    (hq : boundMount.host.entry q = some o) : p = q := by
  symm
  rcases boundMount_entry hp with ⟨rfl, rfl⟩ | ⟨rfl, rfl⟩ | ⟨rfl, rfl⟩ | ⟨rfl, rfl⟩ | ⟨rfl, rfl⟩ <;>
    simpa using boundMount_entry hq

theorem boundMount_closed (p : HPath) (c : Component) (o : Nat)
    (hp : boundMount.host.entry (p ++ [c]) = some o) : boundMount.host.kindAt p = some .dir := by
  have hdrop : p = (p ++ [c]).dropLast := dropLast_concat.symm
  rw [hdrop]
  rcases boundMount_entry hp with ⟨h, -⟩ | ⟨h, -⟩ | ⟨h, -⟩ | ⟨h, -⟩ | ⟨h, -⟩ <;> rw [h] <;> rfl

theorem boundMount_sealed : boundMount.Sealed := by
  have hro : ∀ b ∈ boundMount.binds, b = ⟨pathBytes [nameC], [nameB], true⟩ := by simp [boundMount]
  refine ⟨⟨boundMount_closed, fun p q o hp hq _ => boundMount_injective hp hq, fun p o hp => ?_⟩,
    fun b hb => ?_, fun q t _ hk => ?_, fun b hb _ => ?_, fun w hw hwrite => ?_, fun w hw hwrite => ?_,
    fun p q o hp ho ho' => ?_, fun fd hfd => absurd hfd not_mem_nil⟩
  · rcases boundMount_entry hp with h | h | h | h | h <;> rw [h.2] <;> decide
  · exact ⟨[nameC], by rw [hro b hb]⟩
  · obtain ⟨o, hentry, ho⟩ := Host.entry_of_kindAt hk
    rcases boundMount_entry hentry with ⟨rfl, rfl⟩ | ⟨rfl, rfl⟩ | ⟨rfl, rfl⟩ | ⟨rfl, rfl⟩ | ⟨rfl, rfl⟩ <;>
      cases ho
    exact ⟨_, mem_singleton.2 rfl, [nameC], rfl, rfl, rfl⟩
  · rw [hro b hb]
    unfold Apart
    decide
  · rw [hro w hw] at hwrite
    cases hwrite
  · rw [hro w hw] at hwrite
    cases hwrite
  · rw [← boundMount_injective ho ho']
    exact hp

/-- A file is opened for writing behind the mount, which fails, and one is made in the backing tree. -/
def boundRun : List Act :=
  [.openFile [nameC, nameA] ⟨true, false, false, true, false, false⟩ 0 ⟨0, 0⟩ false, createAct nameA]

theorem boundRun_isSome : (boundRun.foldlM Sys.step boundMount).isSome := by decide

def afterBound : Sys := Option.get _ boundRun_isSome

theorem readonly_bind_unchanged_boundRun : boundMount.Sealed ∧ Run Sys.step Sys.BindSafe boundMount afterBound ∧
      boundMount.Untouched afterBound ∧ afterBound.host.entry [nameA, nameA] = some 5 := by
  have hrun : Run Sys.step Sys.BindSafe boundMount afterBound := by
    refine Run.of_foldlM (fun a ha s => ?_) (some_get boundRun_isSome).symm
    simp only [boundRun, mem_cons, not_mem_nil, or_false] at ha
    rcases ha with rfl | rfl <;> trivial
  exact ⟨boundMount_sealed, hrun, readonly_bind_unchanged boundMount_sealed _ hrun, by decide⟩

/-- The time of the file behind the mount is set. -/
def utimeRun : List Act := [.utime [nameC, nameA] 7 false]

theorem utimeRun_isSome : (utimeRun.foldlM Sys.step boundMount).isSome := by decide

def afterUtime : Sys := Option.get _ utimeRun_isSome

/-- `utime` is not checked. -/
theorem readonly_bind_changed_utimeRun : boundMount.Sealed ∧ Run Sys.step anyStep boundMount afterUtime ∧
      boundMount.isUnderReadonly [nameC, nameA] = true ∧ boundMount.Protected [nameB, nameA] ∧
      boundMount.host.entry [nameB, nameA] = some 4 ∧ (boundMount.host.node 4).mtime = 0 ∧
      (afterUtime.host.node 4).mtime = 7 ∧ ¬boundMount.Untouched afterUtime := by
  have hprot : boundMount.Protected [nameB, nameA] :=
    ⟨_, mem_singleton.2 rfl, rfl, [nameA], rfl⟩
  have hentry : boundMount.host.entry [nameB, nameA] = some 4 := by decide
  have hafter : (afterUtime.host.node 4).mtime = 7 := by decide
  refine ⟨boundMount_sealed, Run.of_foldlM (fun _ _ _ => trivial) (some_get utimeRun_isSome).symm,
    by decide, hprot, hentry, rfl, hafter, fun hu => ?_⟩
  have hnode := hu.node _ 4 hprot hentry
  rw [hnode] at hafter
  cases hafter

end Ish.Fs.Fakefs
