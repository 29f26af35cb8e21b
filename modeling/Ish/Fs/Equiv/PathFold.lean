import Ish.Fs.Equiv.Path

/-!
# Path normalisation as a fold

What `__path_normalize` is for: the names of a path are folded over the stack of names it starts from, where a
dot does nothing, a double dot pops a name and everything else is pushed (`push`). `resolve` is that fold, over
lists of names and without a buffer: it stops at a name that is a symbolic link and begins again with the path in
which the link is replaced by what it holds (`linkPath`), and a name with a slash behind it has to be a directory
that the caller may search (`refusal`).

`__path_normalize` gives what `resolve` gives, its errors included.
-/

namespace Ish.Fs

open Lib

/-- A name is put on the stack of the names before it. -/
def push (names : List Path) (w : Path) : List Path :=
  if w = [dot] then names else if w = [dot, dot] then names.dropLast else names ++ [w]

theorem push_name {names : List Path} {w : Path} (hw : IsName w) : push names w = names ++ [w] := by
  rw [push, if_neg hw.2.1, if_neg hw.2.2]

section Resolve

variable (fs : Tree) (cred : Cred) (follow : Bool)

/-- The fold over the names of `p`, which does not begin with a slash; `expand` begins again behind a link and
is `none` when no more links may be followed. -/
def resolve.walk (expand : Option (Path → Except Errno (List Path))) :
    Nat → List Path → Path → Except Errno (List Path)
  | 0, names, _ => .ok names
  | fuel + 1, names, p =>
    if p = [] then .ok names
    else
      let w := p.takeWhile (· ≠ slash)
      let behind := p.dropWhile (· ≠ slash)
      let rest := behind.dropWhile (· = slash)
      let go := walk expand fuel (push names w) rest
      if w = [dot] ∨ w = [dot, dot] then go
      else if maxPath - 2 ≤ size names + w.length then .error .enametoolong
      -- the last name is not looked at unless links are followed there too
      else if ¬(follow ∨ rest ≠ []) then go
      else
        match fs.readlink (unwords slash (names ++ [w])), expand with
        | some _, none => .error .eloop
        | some link, some expand =>
          if maxPath ≤ size names + 1 + link.length ∨ maxPath ≤ (linkPath names link rest).length then
            .error .enametoolong
          else expand (linkPath names link rest)
        | none, _ =>
          match if behind = [] then none else refusal fs cred (unwords slash (names ++ [w])) with
          | some e => .error e
          | none => go

/-- The names that `path` leads to from the directory `names`, where `links` links may be followed. -/
def resolve : Nat → List Path → Path → Except Errno (List Path)
  | 0, names, path => resolve.walk fs cred follow none (path.length + 1) names (path.dropWhile (· = slash))
  | links + 1, names, path =>
    resolve.walk fs cred follow (some (resolve links [])) (path.length + 1) names (path.dropWhile (· = slash))

end Resolve

/-- The bytes of the names, or the error. -/
def answer : Except Errno (List Path) → Except Stop Path
  | .ok names => .ok (unwords slash names)
  | .error e => .error (.err e)

/-! ### The main loop -/

theorem finish_eq {c : Cursor} {names : List Path} (h : c.Ok names) : finish c = answer (.ok names) := by
  have hroom := h.room
  unfold finish
  rw [h.length, if_neg (by omega), h.reverse, pathIsNormalized_unwords h.isWord, if_pos rfl]
  rfl

section Loop

variable {fs : Tree} {cred : Cred} {flags : Flags} {expand : Option (Path → Except Stop Path)}
  {expand' : Option (Path → Except Errno (List Path))}

/-- **The main loop** gives what the fold over its names gives, if the recursive call does for the path of a
link. -/
theorem loop_eq (hexpand : ∀ path, path.head? = some slash → path.length < maxPath →
      expand.map (fun f => f path) = expand'.map fun f => answer (f path)) :
    ∀ (fuel fuel' : Nat) (c : Cursor) (names : List Path), c.Ok names → roomy names (words slash c.p) →
      c.p.length < fuel → c.p.length < fuel' →
      loop fs cred flags expand fuel c = answer (resolve.walk fs cred flags.follow expand' fuel' names c.p) := by
  intro fuel
  induction fuel with
  | zero =>
    intro _ c names _ _ hlt
    exact absurd hlt (Nat.not_lt_zero _)
  | succ fuel ih =>
    intro fuel' c names hok hroomy hlt hlt'
    obtain ⟨fuel', rfl⟩ : ∃ k, fuel' = k + 1 := ⟨fuel' - 1, by omega⟩
    rw [resolve.walk]
    by_cases hp : c.p = []
    · rw [loop, if_pos hp, if_pos hp]
      exact finish_eq hok
    rw [loop, if_neg hp, if_neg hp]
    obtain ⟨w, rest, hw, hrest, heq, hwords⟩ := hok.word hp
    rw [hwords, roomy] at hroomy
    -- the turns that just go on
    have hnext : ∀ {c' : Cursor}, c'.Ok (push names w) → c.Passes c' (words slash rest) →
        roomy (push names w) (words slash rest) → loop fs cred flags expand fuel c' =
          answer (resolve.walk fs cred flags.follow expand' fuel' (push names w) (rest.dropWhile (· = slash))) := by
      intro c' hok' hpass hroomy'
      have hlength := hpass.length
      have hp' := hpass.next
      rw [heq, dropWhile_word hw.2 hrest] at hp'
      rw [← hp']
      exact ih fuel' c' _ hok' (by rw [hpass.words]; exact hroomy') (by omega) (by omega)
    have hword : c.p.takeWhile (· ≠ slash) = w := by rw [heq, takeWhile_word hw.2 hrest]
    have hbehind : c.p.dropWhile (· ≠ slash) = rest := by rw [heq, dropWhile_word hw.2 hrest]
    dsimp only
    rw [hword, hbehind]
    split_ifs at hroomy with hdot hdotdot hfull hlong
    · obtain ⟨c', hturn, hok', hpass⟩ := turn_dot fs cred flags expand.isSome hok (hdot ▸ heq) hrest
      have hpush : push names w = names := if_pos hdot
      rw [hturn, if_pos (Or.inl hdot)]
      exact hnext (hpush.symm ▸ hok') hpass (hpush.symm ▸ hroomy)
    · obtain ⟨c', hturn, hok', hpass⟩ := turn_dotDot fs cred flags expand.isSome hok (hdotdot ▸ heq) hrest
      have hpush : push names w = names.dropLast := by rw [push, if_neg hdot, if_pos hdotdot]
      rw [hturn, if_pos (Or.inr hdotdot)]
      exact hnext (hpush ▸ hok') hpass (hpush ▸ hroomy)
    · rw [turn_long fs cred flags expand.isSome hok heq ⟨hw, hdot, hdotdot⟩ hrest (by omega) hlong,
        if_neg (not_or.2 ⟨hdot, hdotdot⟩), if_pos hlong]
      rfl
    · have hname : IsName w := ⟨hw, hdot, hdotdot⟩
      obtain ⟨c', hturn, hok', hpass, b, hb, hslash⟩ := turn_name fs cred flags expand.isSome hok heq
        hname hrest (by omega)
      have hgo := hnext (push_name hname ▸ hok') hpass (push_name hname ▸ hroomy)
      have hp' := hpass.next
      rw [hbehind] at hp'
      rw [hturn, if_neg (not_or.2 ⟨hdot, hdotdot⟩), if_neg (by omega), ← hp']
      rw [← hp'] at hgo
      unfold afterName
      by_cases hlook : flags.follow ∨ c'.p ≠ []
      · rw [if_pos hlook, if_neg (not_not.2 hlook), lookup_eq fs cred expand.isSome hok' hb hslash]
        cases fs.readlink (unwords slash (names ++ [w])) with
        | none =>
          dsimp only
          cases (if rest = [] then none else refusal fs cred (unwords slash (names ++ [w]))) with
          | some e => rfl
          | none => exact hgo
        | some link =>
          cases expand with
          | none =>
            cases expand' with
            | none => rfl
            | some f' => cases hexpand [slash] rfl (by decide)
          | some f =>
            cases expand' with
            | none => cases hexpand [slash] rfl (by decide)
            | some f' =>
              dsimp only
              rw [Option.isSome_some, expandLink_eq hok']
              by_cases hbig : maxPath ≤ size names + 1 + link.length ∨ maxPath ≤ (linkPath names link c'.p).length
              · rw [if_pos hbig, if_pos hbig]
                rfl
              · rw [if_neg hbig, if_neg hbig]
                have hshort := Nat.not_le.1 (not_or.1 hbig).2
                exact Option.some.inj (hexpand _ (head?_linkPath names link c'.p) hshort)
      · rw [if_neg hlook, if_pos hlook]
        exact hgo

end Loop

/-! ### The whole call -/

theorem normalizeFrom_eq {fs : Tree} {cred : Cred} {flags : Flags} {expand : Option (Path → Except Stop Path)}
    {expand' : Option (Path → Except Errno (List Path))}
    (hexpand : ∀ path, path.head? = some slash → path.length < maxPath →
      expand.map (fun f => f path) = expand'.map fun f => answer (f path))
    {at' : Option Path} (hat : IsStart at') {path : Path} (hne : path ≠ []) (hlen : (atBytes at').length < maxPath)
    (hroomy : roomy (words slash (atBytes at')) (words slash path)) :
    normalizeFrom fs cred flags expand at' path = answer (resolve.walk fs cred flags.follow expand'
      (path.length + 1) (words slash (atBytes at')) (path.dropWhile (· = slash))) := by
  obtain ⟨-, hwords, hle, -⟩ := skipSlashes_spec path none
  have hp := skipSlashes_fst path none
  unfold normalizeFrom
  rw [if_neg hne, if_neg (by omega), ← hp]
  have hok := ok_start hat hlen path
  refine loop_eq hexpand (path.length + 2) (path.length + 1) _ _ hok ?_ ?_ ?_
  · change roomy _ (words slash (skipSlashes path none).1) = true
    rwa [hwords]
  · change (skipSlashes path none).1.length < _
    omega
  · change (skipSlashes path none).1.length < _
    omega

theorem normalize_eq (fs : Tree) (cred : Cred) (flags : Flags) (links : Nat) {at' : Option Path} (hat : IsStart at')
    {path : Path} (hne : path ≠ []) (hlen : (atBytes at').length < maxPath)
    (hroomy : roomy (words slash (atBytes at')) (words slash path)) : normalize fs cred flags links at' path =
      answer (resolve fs cred flags.follow links (words slash (atBytes at')) path) := by
  induction links generalizing at' path with
  | zero => exact normalizeFrom_eq (fun _ _ _ => rfl) hat hne hlen hroomy
  | succ links ih =>
    have hexpand : ∀ path, path.head? = some slash → path.length < maxPath →
        normalize fs cred flags links none path = answer (resolve fs cred flags.follow links [] path) := by
      intro path hhead hshort
      refine ih (by simp [IsStart]) ?_ (by decide) (roomy_of_head hhead hshort)
      rintro rfl
      cases hhead
    refine normalizeFrom_eq ?_ hat hne hlen hroomy
    exact fun path hhead hshort => congrArg some (hexpand path hhead hshort)

/-- **`__path_normalize` is a fold**: it answers `ENOENT` for the empty path, and for every other one exactly what
the fold over its names gives on the names of the directory it starts from, with up to five links. -/
theorem path_normalize_folds (fs : Tree) (cred : Cred) (flags : Flags) {at' : Option Path} (hat : IsStart at')
    (hlen : (atBytes at').length < maxPath) {path : Path} (hfits : Fits at' path) :
    normalize fs cred flags 5 at' path =
      if path = [] then .error (.err .enoent)
      else answer (resolve fs cred flags.follow 5 (words slash (atBytes at')) path) := by
  by_cases hne : path = []
  · rw [if_pos hne, normalize, normalizeFrom, if_pos hne]
  · rw [if_neg hne]
    exact normalize_eq fs cred flags 5 hat hne hlen ((hfits.resolve_left hne).resolve_left (Nat.not_le.2 hlen))

/-- The link `/l` to `tmp`, and the file `/f`. -/
def foldTree : Tree :=
  ⟨fun p => if p = [0x2f, 0x6c] then some [0x74, 0x6d, 0x70] else none,
    fun p => if p = [0x2f, 0x66] then some ⟨0o100644#32, 0, 0⟩ else none⟩

/-- `"l/x"`, looked up from the root, is `/tmp/x`, and `/f/` is no directory. -/
theorem path_normalize_folds_link :
    resolve foldTree ⟨0, 0⟩ true 5 [] [0x6c, 0x2f, 0x78] = .ok [[0x74, 0x6d, 0x70], [0x78]] ∧
      normalize foldTree ⟨0, 0⟩ ⟨true, false⟩ 5 none [0x6c, 0x2f, 0x78] = .ok [0x2f, 0x74, 0x6d, 0x70, 0x2f, 0x78] ∧
      resolve foldTree ⟨0, 0⟩ true 5 [] [0x66, 0x2f] = .error .enotdir ∧
      normalize foldTree ⟨0, 0⟩ ⟨true, false⟩ 5 none [0x66, 0x2f] = .error (.err .enotdir) := by
  have hat : IsStart none := nofun
  refine ⟨by decide, ?_, by decide, ?_⟩
  · rw [path_normalize_folds foldTree ⟨0, 0⟩ ⟨true, false⟩ hat (by decide) (Or.inr (Or.inr (by decide)))]
    decide
  · rw [path_normalize_folds foldTree ⟨0, 0⟩ ⟨true, false⟩ hat (by decide) (Or.inr (Or.inr (by decide)))]
    decide

end Ish.Fs
