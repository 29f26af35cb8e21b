import Ish.Fs.Path
import Ish.Lib.Words

/-!
# Path normalisation keeps to its buffer, or not

`out` always holds a path of names, each after a slash (`Cursor.Ok`), and a turn of the main loop
appends a name, deletes one, or gives up. Appending tests the room that is left only while the
bytes of the name are copied: when `out` is two bytes short of full, or one, the test comes too
late. `roomy` says that no name is appended there, and that decides the fate of the call, since a
path that comes from a symbolic link is never that long.
-/

namespace Ish.Fs

open Lib

/-! ### Names and normal paths -/

/-- A component that may stand in a normalised path. -/
def IsName (w : Path) : Prop := IsWord slash w ∧ w ≠ [dot] ∧ w ≠ [dot, dot]

/-- Empty or a sequence of names, each after a slash. -/
def Normal (p : Path) : Prop := ∃ names, (∀ w ∈ names, IsName w) ∧ p = unwords slash names

def size (names : List Path) : Nat := (unwords slash names).length

@[simp]
theorem size_append_singleton (names : List Path) (w : Path) : size (names ++ [w]) = size names + w.length + 1 := by
  simp only [size, unwords_append, unwords_cons, unwords_nil, List.append_nil, List.length_append, List.length_cons]
  omega

theorem size_dropLast_le (names : List Path) : size names.dropLast ≤ size names := by
  cases names.eq_nil_or_concat with
  | inl h => simp [h]
  | inr h =>
    obtain ⟨names', w, rfl⟩ := h
    rw [List.concat_eq_append, List.dropLast_concat, size_append_singleton]
    omega

/-- No name is appended when `out` holds `MAX_PATH - 2` bytes or more. -/
def roomy (names : List Path) : List Path → Bool
  | [] => true
  | w :: ws =>
    if w = [dot] then roomy names ws
    else if w = [dot, dot] then roomy names.dropLast ws
    else if size names ≥ maxPath - 2 then false
    -- the name is found to be too long
    else if size names + w.length ≥ maxPath - 2 then true
    else roomy (names ++ [w]) ws

variable {ws : List Path}

theorem roomy_of_size {names : List Path} (hws : ∀ w ∈ ws, IsWord slash w)
    (h : size names + size ws < maxPath) : roomy names ws := by
  induction ws generalizing names with
  | nil => rfl
  | cons w ws ih =>
    obtain ⟨hw, hws⟩ := List.forall_mem_cons.1 hws
    have hpos := List.length_pos_iff.2 hw.1
    have hsize : size (w :: ws) = w.length + 1 + size ws := by
      simp only [size, unwords_cons, List.length_append, List.length_cons]
    have hdrop := size_dropLast_le names
    unfold roomy
    split_ifs with hdot hdotdot hfull hlong
    · exact ih hws (by omega)
    · exact ih hws (by omega)
    · omega
    · rfl
    · exact ih hws (by rw [size_append_singleton]; omega)

/-- No path that starts with a slash is too long for `out`, if it is not too long itself. -/
theorem roomy_of_head {p : Path} (hhead : p.head? = some slash) (hlen : p.length < maxPath) :
    roomy [] (words slash p) := by
  have hle := length_unwords_words_le_of_head hhead
  refine roomy_of_size (isWord_of_mem_words p) ?_
  simp only [size, unwords_nil, List.length_nil]
  omega

/-! ### The assertions -/

theorem inName_cons_of_ne {b : UInt8} (hb : b ≠ slash) (q : Path) :
    pathIsNormalized.inName (b :: q) = pathIsNormalized.inName q := by
  cases q with
  | nil => rfl
  | cons c q => simp [pathIsNormalized.inName, hb]

theorem inName_append {w : Path} (hw : slash ∉ w) (q : Path) :
    pathIsNormalized.inName (w ++ q) = pathIsNormalized.inName q := by
  induction w with
  | nil => rfl
  | cons b w ih =>
    obtain ⟨hb, hw⟩ := not_or.1 (List.mem_cons.not.1 hw)
    rw [List.cons_append, inName_cons_of_ne (Ne.symm hb), ih hw]

theorem inName_unwords_append (hws : ∀ w ∈ ws, IsWord slash w) (q : Path) :
    pathIsNormalized.inName (unwords slash ws ++ q) = pathIsNormalized.inName q := by
  induction ws with
  | nil => rfl
  | cons w ws ih =>
    obtain ⟨⟨hne, hslash⟩, htail⟩ := List.forall_mem_cons.1 hws
    obtain ⟨b, w', rfl⟩ := List.exists_cons_of_ne_nil hne
    have hb : b ≠ slash := fun h => hslash (by simp [h])
    rw [unwords_cons, List.append_assoc]
    change pathIsNormalized.inName (slash :: b :: (w' ++ (unwords slash ws ++ q))) = _
    rw [pathIsNormalized.inName, ← ih htail, ← inName_append hslash (unwords slash ws ++ q)]
    simp [hb]

theorem pathIsNormalized_unwords (hws : ∀ w ∈ ws, IsWord slash w) :
    pathIsNormalized (unwords slash ws) := by
  have hin := inName_unwords_append hws []
  rw [List.append_nil] at hin
  cases ws with
  | nil => rfl
  | cons w ws =>
    change (slash == slash && pathIsNormalized.inName (unwords slash (w :: ws))) = true
    rw [hin]
    rfl

theorem pathIsNormalized_unwords_slash (hws : ∀ w ∈ ws, IsWord slash w) :
    pathIsNormalized (unwords slash ws ++ [slash]) := by
  have hin := inName_unwords_append hws [slash]
  cases ws with
  | nil => rfl
  | cons w ws =>
    change (slash == slash && pathIsNormalized.inName (unwords slash (w :: ws) ++ [slash])) = true
    rw [hin]
    rfl

/-! ### The inner loops -/

theorem skipSlashes_of_head {p : Path} (h : p.head? ≠ some slash) (prev : Option UInt8) :
    skipSlashes p prev = (p, prev) := by
  cases p with
  | nil => rfl
  | cons b p => exact if_neg fun hb => h (by simp [hb])

theorem skipSlashes_spec (p : Path) (prev : Option UInt8) : (skipSlashes p prev).1.head? ≠ some slash ∧
    words slash (skipSlashes p prev).1 = words slash p ∧ (skipSlashes p prev).1.length ≤ p.length ∧
    (prev.isSome → (skipSlashes p prev).2.isSome) := by
  induction p generalizing prev with
  | nil => simp [skipSlashes]
  | cons b p ih =>
    by_cases hb : b = slash
    · subst hb
      obtain ⟨hhead, hwords, hlen, hprev⟩ := ih (some slash)
      rw [skipSlashes, if_pos rfl, words_sep_cons, List.length_cons]
      exact ⟨hhead, hwords, Nat.le_succ_of_le hlen, fun _ => hprev rfl⟩
    · rw [skipSlashes_of_head (by simpa using hb)]
      exact ⟨by simpa using hb, rfl, Nat.le_refl _, id⟩

theorem skipSlashes_snd (p : Path) : (skipSlashes p (some slash)).2 = some slash := by
  induction p with
  | nil => rfl
  | cons b p ih =>
    by_cases hb : b = slash
    · rw [skipSlashes, if_pos hb, hb, ih]
    · rw [skipSlashes, if_neg hb]

/-- Where the skipping of slashes stops does not depend on the byte before. -/
theorem skipSlashes_fst (p : Path) (prev : Option UInt8) : (skipSlashes p prev).1 = p.dropWhile (· = slash) := by
  induction p generalizing prev with
  | nil => rfl
  | cons b p ih =>
    by_cases hb : b = slash
    · rw [skipSlashes, if_pos hb, ih, List.dropWhile_cons_of_pos (by simpa using hb)]
    · rw [skipSlashes, if_neg hb, List.dropWhile_cons_of_neg (by simpa using hb)]

/-- The rest of a path behind a word. -/
def AfterWord (rest : Path) : Prop := rest = [] ∨ ∃ l, rest = slash :: l

variable {w rest : Path}

theorem takeWhile_word (hw : slash ∉ w) (hrest : AfterWord rest) : (w ++ rest).takeWhile (· ≠ slash) = w := by
  have hall : ∀ b ∈ w, decide (b ≠ slash) = true := fun b hb => by
    rw [decide_eq_true_eq]
    rintro rfl
    exact hw hb
  rw [List.takeWhile_append_of_pos hall]
  rcases hrest with rfl | ⟨l, rfl⟩
  · simp
  · simp

theorem dropWhile_word (hw : slash ∉ w) (hrest : AfterWord rest) : (w ++ rest).dropWhile (· ≠ slash) = rest := by
  have hall : ∀ b ∈ w, decide (b ≠ slash) = true := fun b hb => by
    rw [decide_eq_true_eq]
    rintro rfl
    exact hw hb
  rw [List.dropWhile_append_of_pos hall]
  rcases hrest with rfl | ⟨l, rfl⟩
  · rfl
  · simp

theorem isDot_append (hw : IsWord slash w) (hrest : AfterWord rest) : isDot (w ++ rest) = decide (w = [dot]) := by
  obtain ⟨hne, hslash⟩ := hw
  match w, hne, hslash with
  | [b], _, _ => rcases hrest with rfl | ⟨l, rfl⟩ <;> simp [isDot, beq_eq_decide]
  | b :: c :: w, _, hslash =>
    have hc : c ≠ slash := fun h => hslash (by simp [h])
    simp [isDot, hc]

theorem isDotDot_append (hw : IsWord slash w) (hrest : AfterWord rest) :
    isDotDot (w ++ rest) = decide (w = [dot, dot]) := by
  obtain ⟨hne, hslash⟩ := hw
  match w, hne, hslash with
  | [b], _, _ =>
    rcases hrest with rfl | ⟨_ | ⟨c, l⟩, rfl⟩
    · simp [isDotDot]
    · simp [isDotDot, slash, dot]
    · simp [isDotDot, slash, dot]
  | [b, c], _, _ => rcases hrest with rfl | ⟨l, rfl⟩ <;> simp [isDotDot, beq_eq_decide]
  | b :: c :: d :: w, _, hslash =>
    have hd : d ≠ slash := fun h => hslash (by simp [h])
    simp [isDotDot, hd]

theorem deleteLast_word (hw : slash ∉ w) (out : List UInt8) (n : Int) :
    deleteLast (w ++ slash :: out) n = some (out, n + w.length + 1) := by
  induction w generalizing n with
  | nil => simp [deleteLast]
  | cons b w ih =>
    obtain ⟨hb, hw⟩ := not_or.1 (List.mem_cons.not.1 hw)
    rw [List.cons_append, deleteLast, if_neg (Ne.symm hb), ih hw, List.length_cons]
    congr 2
    omega

/-- A word for which there is room. -/
theorem copyName_word (hw : slash ∉ w) (hrest : AfterWord rest)
    (out : List UInt8) {n : Int} (hn : (w.length : Int) < n) (hout : out.length + w.length ≤ maxPath)
    (prev : Option UInt8) : copyName (w ++ rest) out n prev =
      .ok ⟨w.reverse ++ out, n - w.length, rest, w.getLast?.or prev⟩ := by
  induction w generalizing out n prev with
  | nil =>
    rcases hrest with rfl | ⟨l, rfl⟩
    · simp [copyName]
    · simp [copyName]
  | cons b w ih =>
    obtain ⟨hb, hw⟩ := not_or.1 (List.mem_cons.not.1 hw)
    rw [List.length_cons] at hn hout
    rw [List.cons_append, copyName, if_neg (Ne.symm hb), if_pos (by omega), if_pos (by omega),
      ih hw (b :: out) (by omega) (by rw [List.length_cons]; omega)]
    have hlast : w.getLast?.or (some b) = (b :: w).getLast?.or prev := by
      cases w with
      | nil => rfl
      | cons c w =>
        rw [List.getLast?_cons_cons, List.getLast?_eq_some_getLast (List.cons_ne_nil c w)]
        rfl
    rw [hlast, List.reverse_cons, List.append_assoc, List.length_cons]
    congr 2
    omega

theorem copyName_long (hw : slash ∉ w) (rest : Path) (out : List UInt8) {n : Int}
    (hpos : 0 < n) (hn : n ≤ w.length) (hout : out.length + n ≤ maxPath) (prev : Option UInt8) :
    ∃ c, copyName (w ++ rest) out n prev = .ok c ∧ c.n = 0 := by
  induction w generalizing out n prev with
  | nil =>
    rw [List.length_nil] at hn
    omega
  | cons b w ih =>
    obtain ⟨hb, hw⟩ := not_or.1 (List.mem_cons.not.1 hw)
    rw [List.length_cons] at hn
    rw [List.cons_append, copyName, if_neg (Ne.symm hb)]
    by_cases hone : n - 1 > 0
    · rw [if_pos hone, if_pos (by omega)]
      exact ih hw (b :: out) (by omega) (by omega) (by rw [List.length_cons]; omega) (some b)
    · rw [if_neg hone]
      exact ⟨_, rfl, by dsimp only; omega⟩

theorem copyName_full {b : UInt8} (hb : b ≠ slash) (p : Path) (out : List UInt8) {n : Int}
    (hn : n ≤ 0) (prev : Option UInt8) : copyName (b :: p) out n prev = .ok ⟨out, n - 1, b :: p, prev⟩ := by
  rw [copyName, if_neg hb, if_neg (by omega)]

/-! ### A turn of the main loop -/

/-- The state between two turns: `out` holds the names, `n` is the room left for bytes before the
null, and `p` is at a word. -/
structure Cursor.Ok (c : Cursor) (names : List Path) : Prop where
  isName : ∀ w ∈ names, IsName w
  out : c.out = (unwords slash names).reverse
  room : size names < maxPath
  n : c.n = (maxPath - 1 : Nat) - size names
  head : c.p.head? ≠ some slash

theorem Cursor.Ok.isWord {c : Cursor} {names : List Path} (h : c.Ok names) :
    ∀ w ∈ names, IsWord slash w := fun w hw => (h.isName w hw).1

theorem Cursor.Ok.length {c : Cursor} {names : List Path} (h : c.Ok names) : c.out.length = size names := by
  rw [h.out, List.length_reverse]
  rfl

theorem Cursor.Ok.reverse {c : Cursor} {names : List Path} (h : c.Ok names) : c.out.reverse = unwords slash names := by
  rw [h.out, List.reverse_reverse]

/-- The next state has the words behind the first one before it, and fewer bytes: it is at the first byte behind
that word and the slashes after it. -/
structure Cursor.Passes (c c' : Cursor) (ws : List Path) : Prop where
  words : words slash c'.p = ws
  length : c'.p.length < c.p.length
  next : c'.p = (c.p.dropWhile (· ≠ slash)).dropWhile (· = slash)

theorem Cursor.Ok.word {c : Cursor} {names : List Path} (h : c.Ok names) (hp : c.p ≠ []) :
    ∃ w rest, IsWord slash w ∧ AfterWord rest ∧ c.p = w ++ rest ∧ words slash c.p = w :: words slash rest := by
  obtain ⟨w, rest, hw, heq, hrest⟩ := exists_word_of_ne_nil hp h.head
  refine ⟨w, rest, hw, hrest, heq, ?_⟩
  rw [heq]
  rcases hrest with rfl | ⟨l, rfl⟩
  · rw [List.append_nil, words_of_isWord hw, words_nil]
  · rw [words_append_sep hw, words_sep_cons]

theorem passes_skipSlashes {c : Cursor} (c' : Cursor) (hw : IsWord slash w) (hrest : AfterWord rest)
    (hc : c.p = w ++ rest) (hc' : c'.p = rest) :
    c.Passes c'.skipSlashes (words slash rest) ∧ c'.skipSlashes.p.head? ≠ some slash := by
  obtain ⟨hhead, hwords, hlen, -⟩ := skipSlashes_spec c'.p c'.prev
  have hpos := List.length_pos_iff.2 hw.1
  refine ⟨⟨by rw [← hc']; exact hwords, ?_, ?_⟩, hhead⟩
  · change (skipSlashes c'.p c'.prev).1.length < _
    rw [hc, List.length_append, ← hc']
    omega
  · rw [hc, dropWhile_word hw.2 hrest, ← hc']
    exact skipSlashes_fst c'.p c'.prev

/-- The path that a link in the directory `names` is replaced by: what it holds, behind that directory if it is
not absolute, and the rest of the path. -/
def linkPath (names : List Path) (link rest : Path) : Path :=
  (if link.head? = some slash then cString link else unwords slash names ++ slash :: cString link) ++
    if rest = [] then [] else slash :: rest

/-- Why the caller may not go on below `dir`. A path that does not exist is no reason. -/
def refusal (fs : Tree) (cred : Cred) (dir : Path) : Option Errno :=
  match fs.stat dir with
  | none => none
  | some stat =>
    if ¬stat.isDir then some .enotdir
    else if ¬accessCheck cred stat acX then some .eacces
    else none

theorem head?_linkPath (names : List Path) (link rest : Path) : (linkPath names link rest).head? = some slash := by
  unfold linkPath
  by_cases habs : link.head? = some slash
  · obtain ⟨link', rfl⟩ := List.head?_eq_some_iff.1 habs
    rw [if_pos habs]
    rfl
  · rw [if_neg habs]
    cases names with
    | nil => rfl
    | cons v names => rfl

section Turn

variable (fs : Tree) (cred : Cred) (flags : Flags) (mayFollow : Bool)

variable {names : List Path} {c : Cursor}

theorem turn_dot (h : c.Ok names) (hp : c.p = [dot] ++ rest) (hrest : AfterWord rest) :
    ∃ c', turn fs cred flags mayFollow c = .ok (.next c') ∧ c'.Ok names ∧ c.Passes c' (words slash rest) := by
  have hw : IsWord slash [dot] := ⟨by simp, by decide⟩
  have hdot : isDot c.p = true := by rw [hp, isDot_append hw hrest]; rfl
  obtain ⟨hpass, hhead⟩ := passes_skipSlashes (c.advance 1) hw hrest hp
    (by simp [Cursor.advance, hp])
  refine ⟨_, if_pos hdot, ⟨h.isName, h.out, h.room, h.n, hhead⟩, hpass⟩

theorem Cursor.Ok.parent (h : c.Ok names) : ∃ c', c.parent = .ok c' ∧ c'.p = c.p ∧
      (c'.p.head? ≠ some slash → c'.Ok names.dropLast) := by
  unfold Cursor.parent
  cases names.eq_nil_or_concat with
  | inl hnil =>
    subst hnil
    exact ⟨c, if_pos (by rw [h.out]; rfl), rfl, fun _ => h⟩
  | inr hcons =>
    obtain ⟨names, w, rfl⟩ := hcons
    rw [List.concat_eq_append] at h ⊢
    have hw := h.isName w (by simp)
    have hout : c.out = w.reverse ++ slash :: (unwords slash names).reverse := by
      rw [h.out]
      simp
    have hroom := h.room
    have hn := h.n
    rw [size_append_singleton] at hroom hn
    rw [if_neg (by rw [hout]; simp), hout, deleteLast_word (by simpa using hw.1.2)]
    refine ⟨_, rfl, rfl, fun hhead => ?_⟩
    rw [List.dropLast_concat]
    refine ⟨fun v hv => h.isName v (by simp [hv]), rfl, by omega, ?_, hhead⟩
    dsimp only
    rw [List.length_reverse]
    omega

theorem turn_dotDot (h : c.Ok names) (hp : c.p = [dot, dot] ++ rest) (hrest : AfterWord rest) :
    ∃ c', turn fs cred flags mayFollow c = .ok (.next c') ∧ c'.Ok names.dropLast ∧ c.Passes c' (words slash rest) := by
  have hw : IsWord slash [dot, dot] := ⟨by simp, by decide⟩
  have hdot : isDot c.p = false := by rw [hp, isDot_append hw hrest]; rfl
  have hdotdot : isDotDot c.p = true := by rw [hp, isDotDot_append hw hrest]; rfl
  obtain ⟨c₁, hparent, hp₁, hok⟩ := h.parent
  obtain ⟨hpass, hhead⟩ := passes_skipSlashes (c := c) (c₁.advance 2) hw hrest hp
    (by simp [Cursor.advance, hp₁, hp])
  have hok := hok (by rw [hp₁]; exact h.head)
  refine ⟨(c₁.advance 2).skipSlashes, ?_, ⟨hok.isName, hok.out, hok.room, hok.n, hhead⟩, hpass⟩
  unfold turn
  rw [hdot, hdotdot, hparent]
  rfl

/-- A name does not end the loop early. -/
theorem turn_eq_component (hp : c.p = w ++ rest) (hw : IsName w) (hrest : AfterWord rest) :
    turn fs cred flags mayFollow c = component fs cred flags mayFollow c := by
  have hdot : isDot c.p = false := by
    rw [hp, isDot_append hw.1 hrest]
    simpa using hw.2.1
  have hdotdot : isDotDot c.p = false := by
    rw [hp, isDotDot_append hw.1 hrest]
    simpa using hw.2.2
  unfold turn
  rw [hdot, hdotdot]
  rfl

/-- What follows once the name is in `out`. -/
def afterName (c : Cursor) (start : Nat) : Except Stop Turn :=
  if flags.follow ∨ c.p ≠ [] then lookup fs cred mayFollow c start else .ok (.next c)

/-- A name for which there is room is appended. -/
theorem turn_name (h : c.Ok names) (hp : c.p = w ++ rest) (hw : IsName w) (hrest : AfterWord rest)
    (hroom : size names + w.length < maxPath - 2) : ∃ c', turn fs cred flags mayFollow c =
        afterName fs cred flags mayFollow c' (size names + 1) ∧
      c'.Ok (names ++ [w]) ∧ c.Passes c' (words slash rest) ∧ ∃ b, c'.prev = some b ∧ (b = slash ↔ rest ≠ []) := by
  have hlen := h.length
  have hn := h.n
  have hmax : maxPath = 4096 := rfl
  have hcopy := copyName_word hw.1.2 hrest (slash :: c.out) (n := c.n - 1) (by omega)
    (by rw [List.length_cons]; omega) c.prev
  obtain ⟨hpass, hhead⟩ := passes_skipSlashes (c := c)
    ⟨w.reverse ++ slash :: c.out, c.n - 1 - w.length, rest, w.getLast?.or c.prev⟩
    hw.1 hrest hp rfl
  refine ⟨_, ?_, ⟨?_, ?_, ?_, ?_, hhead⟩, hpass, ?_⟩
  · rw [turn_eq_component fs cred flags mayFollow hp hw hrest]
    unfold component Cursor.put
    rw [if_pos (by omega)]
    change (copyName c.p (slash :: c.out) (c.n - 1) c.prev >>= _) = _
    rw [hp, hcopy]
    change (if c.n - 1 - w.length = 0 then _ else _) = _
    rw [if_neg (by omega), List.length_cons, hlen]
    rfl
  · intro v hv
    rcases List.mem_append.1 hv with hv | hv
    · exact h.isName v hv
    · rw [List.mem_singleton.1 hv]
      exact hw
  · change w.reverse ++ slash :: c.out = _
    rw [h.out]
    simp
  · rw [size_append_singleton]
    omega
  · change c.n - 1 - w.length = _
    rw [size_append_singleton]
    omega
  · -- the byte before the next word is the last one of `w` or a slash
    change ∃ b, (skipSlashes rest (w.getLast?.or c.prev)).2 = some b ∧ _
    rcases hrest with rfl | ⟨l, rfl⟩
    · rw [List.getLast?_eq_some_getLast hw.1.1]
      refine ⟨_, rfl, fun hlast => ?_, fun hne => absurd rfl hne⟩
      exact absurd (hlast ▸ List.getLast_mem hw.1.1) hw.1.2
    · rw [skipSlashes, if_pos rfl]
      exact ⟨slash, skipSlashes_snd l, fun _ => List.cons_ne_nil _ _, fun _ => rfl⟩

theorem turn_long (h : c.Ok names) (hp : c.p = w ++ rest) (hw : IsName w) (hrest : AfterWord rest)
    (hfull : size names < maxPath - 2) (hlong : size names + w.length ≥ maxPath - 2) :
    turn fs cred flags mayFollow c = .error (.err .enametoolong) := by
  have hlen := h.length
  have hn := h.n
  have hmax : maxPath = 4096 := rfl
  obtain ⟨c', hcopy, hn'⟩ := copyName_long hw.1.2 rest (slash :: c.out) (n := c.n - 1) (by omega)
    (by omega) (by rw [List.length_cons]; omega) c.prev
  rw [turn_eq_component fs cred flags mayFollow hp hw hrest]
  unfold component Cursor.put
  rw [if_pos (by omega)]
  change (copyName c.p (slash :: c.out) (c.n - 1) c.prev >>= _) = _
  rw [hp, hcopy]
  change (if c'.n = 0 then _ else _) = _
  rw [if_pos hn']

/-- What a link is replaced by: its contents, behind the names before it if they are not absolute. -/
theorem expandLink_eq (h : c.Ok (names ++ [w])) (link : Path) :
    expandLink true c (size names + 1) (link.take (maxPath - (size names + 1))) =
      if maxPath ≤ size names + 1 + link.length ∨ maxPath ≤ (linkPath names link c.p).length then
        .error (.err .enametoolong)
      else .ok (.expand (linkPath names link c.p)) := by
  have hroom := h.room
  rw [size_append_singleton] at hroom
  have hbefore : c.out.reverse.take (size names + 1) = unwords slash names ++ [slash] := by
    rw [h.reverse, unwords_append, unwords_cons, unwords_nil, List.append_nil, size, List.take_append,
      List.take_of_length_le (by omega), Nat.add_sub_cancel_left]
    rfl
  unfold expandLink
  rw [if_neg (by simp), List.length_take]
  by_cases hfull : maxPath ≤ size names + 1 + link.length
  · rw [if_pos (by omega), if_pos (Or.inl hfull)]
  · rw [if_neg (by omega), List.take_of_length_le (by omega), hbefore]
    dsimp only
    rw [List.append_assoc, List.singleton_append, ← List.length_append]
    by_cases hlong : maxPath ≤ (linkPath names link c.p).length
    · rw [if_pos (Or.inr hlong)]
      exact if_pos hlong
    · rw [if_neg (not_or.2 ⟨hfull, hlong⟩)]
      exact if_neg hlong

/-- **The look at a component**, the last one of `out`, which has a slash behind it or not. -/
theorem lookup_eq (h : c.Ok (names ++ [w])) {b : UInt8} (hb : c.prev = some b) {behind : Path}
    (hslash : b = slash ↔ behind ≠ []) : lookup fs cred mayFollow c (size names + 1) =
      match fs.readlink (unwords slash (names ++ [w])) with
      | some link => expandLink mayFollow c (size names + 1) (link.take (maxPath - (size names + 1)))
      | none =>
        match if behind = [] then none else refusal fs cred (unwords slash (names ++ [w])) with
        | some e => .error (.err e)
        | none => .ok (.next c) := by
  have hroom := h.room
  unfold lookup
  rw [h.length, if_neg (by omega), h.reverse, pathIsNormalized_unwords h.isWord, if_neg (by simp)]
  cases fs.readlink (unwords slash (names ++ [w])) with
  | some link => rfl
  | none =>
    dsimp only
    unfold checkDirectory refusal
    rw [hb, h.reverse]
    dsimp only
    by_cases hbehind : behind = []
    · rw [if_pos hbehind, if_neg fun hs => hslash.1 hs hbehind]
    · rw [if_neg hbehind, if_pos (hslash.2 hbehind)]
      cases fs.stat (unwords slash (names ++ [w])) with
      | none => rfl
      | some stat =>
        dsimp only
        split_ifs
        · rfl
        · rfl
        · rfl

theorem turn_full (hp : c.p = w ++ rest) (hw : IsName w)
    (hrest : AfterWord rest) (hn : c.n ≤ 1) (hlen : c.out.length < maxPath) : turn fs cred flags mayFollow c =
      lookup fs cred mayFollow ⟨slash :: c.out, c.n - 2, c.p, c.prev⟩ (c.out.length + 1) := by
  obtain ⟨b, w', rfl⟩ := List.exists_cons_of_ne_nil hw.1.1
  have hb : b ≠ slash := fun h => hw.1.2 (by simp [h])
  rw [turn_eq_component fs cred flags mayFollow hp hw hrest]
  unfold component Cursor.put
  rw [if_pos hlen]
  change (copyName c.p (slash :: c.out) (c.n - 1) c.prev >>= _) = _
  rw [hp, List.cons_append, copyName_full hb _ _ (by omega)]
  have hskip := skipSlashes_of_head (p := b :: (w' ++ rest)) (by simpa using hb) c.prev
  change (if c.n - 1 - 1 = 0 then _ else _) = _
  rw [if_neg (by omega)]
  unfold Cursor.skipSlashes
  dsimp only
  rw [hskip, if_pos (Or.inr (by simp)), List.length_cons, show c.n - 1 - 1 = c.n - 2 by omega]

end Turn

/-! ### The main loop -/

/-- The call returns an error, or 0 with a normal path in `out` that ends before its last byte. -/
def Sound : Except Stop Path → Prop
  | .ok out => Normal out ∧ out.length < maxPath
  | .error (.err _) => True
  | .error _ => False

theorem finish_sound {c : Cursor} {names : List Path} (h : c.Ok names) : Sound (finish c) := by
  have hroom := h.room
  unfold finish
  rw [h.length, if_neg (by omega), h.reverse, pathIsNormalized_unwords h.isWord, if_pos rfl]
  exact ⟨⟨names, h.isName, rfl⟩, hroom⟩

section Loop

variable (fs : Tree) (cred : Cred) (flags : Flags) (expand : Option (Path → Except Stop Path))

/-- **The main loop**, where there is room: it ends, within its buffer. -/
theorem loop_sound (hexpand : ∀ f, expand = some f → ∀ path, path.head? = some slash →
      path.length < maxPath → Sound (f path)) :
    ∀ (fuel : Nat) (c : Cursor) (names : List Path), c.Ok names → roomy names (words slash c.p) →
      c.p.length < fuel → Sound (loop fs cred flags expand fuel c) := by
  intro fuel
  induction fuel with
  | zero =>
    intro c names _ _ hlt
    exact absurd hlt (Nat.not_lt_zero _)
  | succ fuel ih =>
    intro c names hok hroomy hlt
    by_cases hp : c.p = []
    · rw [loop, if_pos hp]
      exact finish_sound hok
    rw [loop, if_neg hp]
    obtain ⟨w, rest, hw, hrest, heq, hwords⟩ := hok.word hp
    rw [hwords, roomy] at hroomy
    -- the turns that just go on
    have hnext : ∀ {c' : Cursor} {names' : List Path}, c'.Ok names' →
        c.Passes c' (words slash rest) → roomy names' (words slash rest) →
        Sound (loop fs cred flags expand fuel c') := by
      intro c' names' hok' hpass hroomy'
      refine ih c' names' hok' (by rw [hpass.words]; exact hroomy') ?_
      have := hpass.length
      omega
    split_ifs at hroomy with hdot hdotdot hfull hlong
    · subst hdot
      obtain ⟨c', hturn, hok', hpass⟩ := turn_dot fs cred flags expand.isSome hok heq hrest
      rw [hturn]
      exact hnext hok' hpass hroomy
    · subst hdotdot
      obtain ⟨c', hturn, hok', hpass⟩ := turn_dotDot fs cred flags expand.isSome hok heq hrest
      rw [hturn]
      exact hnext hok' hpass hroomy
    · rw [turn_long fs cred flags expand.isSome hok heq ⟨hw, hdot, hdotdot⟩ hrest (by omega) hlong]
      trivial
    · obtain ⟨c', hturn, hok', hpass, hprev⟩ := turn_name fs cred flags expand.isSome hok heq
        ⟨hw, hdot, hdotdot⟩ hrest (by omega)
      rw [hturn]
      unfold afterName
      split_ifs
      · obtain ⟨b, hb, hslash⟩ := hprev
        rw [lookup_eq fs cred expand.isSome hok' hb hslash]
        cases fs.readlink (unwords slash (names ++ [w])) with
        | none =>
          dsimp only
          cases (if rest = [] then none else refusal fs cred (unwords slash (names ++ [w]))) with
          | some e => trivial
          | none => exact hnext hok' hpass hroomy
        | some link =>
          cases expand with
          | none => trivial
          | some f =>
            dsimp only
            rw [Option.isSome_some, expandLink_eq hok']
            by_cases hbig : maxPath ≤ size names + 1 + link.length ∨ maxPath ≤ (linkPath names link c'.p).length
            · rw [if_pos hbig]
              trivial
            · rw [if_neg hbig]
              exact hexpand f rfl _ (head?_linkPath names link c'.p) (Nat.not_le.1 (not_or.1 hbig).2)
      · exact hnext hok' hpass hroomy

def bareTree : Tree := ⟨fun _ => none, fun _ => none⟩

theorem lookup_bare {c : Cursor} (mayFollow : Bool) (start : Nat) (hlen : c.out.length < maxPath)
    (hnormal : pathIsNormalized c.out.reverse) : lookup bareTree cred mayFollow c start =
      if c.prev.isSome then .ok (.next c) else .error .outOfBounds := by
  unfold lookup
  rw [if_neg (by omega), hnormal, if_neg (by simp)]
  simp only [bareTree, checkDirectory]
  cases c.prev with
  | none => rfl
  | some b => simp

/-- The loop with a name to append and no room for it. -/
theorem loop_full {c : Cursor} {names : List Path} (hok : c.Ok names)
    (heq : c.p = w ++ rest) (hw : IsName w) (hrest : AfterWord rest) (hfull : size names ≥ maxPath - 2) (fuel : Nat) :
    loop bareTree cred flags expand (fuel + 2) c = .error .outOfBounds := by
  have hlen := hok.length
  have hroom := hok.room
  have hn := hok.n
  have hmax : maxPath = 4096 := rfl
  have hp : c.p ≠ [] := by
    rw [heq]
    simp [hw.1.1]
  rw [loop, if_neg hp, turn_full bareTree cred flags expand.isSome heq hw hrest (by omega)
    (by omega)]
  by_cases hlast : c.out.length + 1 < maxPath
  · have hnormal : pathIsNormalized (slash :: c.out).reverse := by
      rw [List.reverse_cons, hok.reverse]
      exact pathIsNormalized_unwords_slash hok.isWord
    rw [lookup_bare cred (c := ⟨slash :: c.out, c.n - 2, c.p, c.prev⟩) _ _ hlast hnormal]
    dsimp only
    by_cases hprev : c.prev.isSome
    · -- the slash that was put now takes the last byte
      rw [if_pos hprev]
      dsimp only
      rw [loop, if_neg hp, turn_full bareTree cred flags expand.isSome
        (c := ⟨slash :: c.out, c.n - 2, c.p, c.prev⟩) heq hw hrest (by dsimp only; omega) hlast]
      unfold lookup
      rw [if_pos (by simp only [List.length_cons]; omega)]
    · rw [if_neg hprev]
  · unfold lookup
    rw [if_pos (by simp only [List.length_cons]; omega)]

theorem loop_outOfBounds : ∀ (fuel : Nat) (c : Cursor) (names : List Path), c.Ok names →
      roomy names (words slash c.p) = false → c.p.length + 1 < fuel →
      loop bareTree cred flags expand fuel c = .error .outOfBounds := by
  intro fuel
  induction fuel with
  | zero =>
    intro c names _ _ hlt
    exact absurd hlt (Nat.not_lt_zero _)
  | succ fuel ih =>
    intro c names hok hroomy hlt
    have hp : c.p ≠ [] := by
      intro hp
      rw [hp] at hroomy
      cases hroomy
    obtain ⟨w, rest, hw, hrest, heq, hwords⟩ := hok.word hp
    rw [hwords, roomy] at hroomy
    have hnext : ∀ {c' : Cursor} {names' : List Path}, c'.Ok names' →
        c.Passes c' (words slash rest) → roomy names' (words slash rest) = false →
        loop bareTree cred flags expand fuel c' = .error .outOfBounds := by
      intro c' names' hok' hpass hroomy'
      refine ih c' names' hok' (by rw [hpass.words]; exact hroomy') ?_
      have := hpass.length
      omega
    split_ifs at hroomy with hdot hdotdot hfull hlong
    · subst hdot
      obtain ⟨c', hturn, hok', hpass⟩ := turn_dot bareTree cred flags expand.isSome hok heq hrest
      rw [loop, if_neg hp, hturn]
      exact hnext hok' hpass hroomy
    · subst hdotdot
      obtain ⟨c', hturn, hok', hpass⟩ :=
        turn_dotDot bareTree cred flags expand.isSome hok heq hrest
      rw [loop, if_neg hp, hturn]
      exact hnext hok' hpass hroomy
    · obtain ⟨fuel, rfl⟩ : ∃ k, fuel = k + 1 := ⟨fuel - 1, by
        have := List.length_pos_iff.2 hp
        omega⟩
      exact loop_full cred flags expand hok heq ⟨hw, hdot, hdotdot⟩ hrest hfull fuel
    · obtain ⟨c', hturn, hok', hpass, hprev⟩ := turn_name bareTree cred flags expand.isSome hok heq
        ⟨hw, hdot, hdotdot⟩ hrest (by omega)
      have hsome : c'.prev.isSome := Option.isSome_iff_exists.2 (hprev.imp fun _ hb => hb.1)
      have hgo : afterName bareTree cred flags expand.isSome c' (size names + 1) =
          .ok (.next c') := by
        unfold afterName
        rw [lookup_bare cred _ _ (hok'.length ▸ hok'.room)
          (by rw [hok'.reverse]; exact pathIsNormalized_unwords hok'.isWord), if_pos hsome]
        split_ifs
        · rfl
        · rfl
      rw [loop, if_neg hp, hturn, hgo]
      exact hnext hok' hpass hroomy

end Loop

/-! ### The whole call -/

/-- A path that a call can start from: `"/"` or a normal path. -/
def IsStart (at' : Option Path) : Prop := ∀ a ∈ at', a = [slash] ∨ Normal a

variable {at' : Option Path}

theorem IsStart.names (h : IsStart at') : (∀ w ∈ words slash (atBytes at'), IsName w) ∧
      unwords slash (words slash (atBytes at')) = atBytes at' := by
  have hempty : (∀ w ∈ words slash ([] : Path), IsName w) ∧
      unwords slash (words slash ([] : Path)) = [] := ⟨by simp, rfl⟩
  cases at' with
  | none => exact hempty
  | some a =>
    by_cases ha : a = [slash]
    · rw [atBytes, if_pos ha]
      exact hempty
    · obtain ⟨names, hnames, rfl⟩ := (h a rfl).resolve_left ha
      rw [atBytes, if_neg ha, words_unwords fun w hw => (hnames w hw).1]
      exact ⟨hnames, rfl⟩

/-- The first state of the main loop. -/
theorem ok_start (h : IsStart at') (hlen : (atBytes at').length < maxPath) (path : Path) :
    (Cursor.mk (atBytes at').reverse ((maxPath - 1 : Nat) - (atBytes at').length) path
      none).skipSlashes.Ok (words slash (atBytes at')) := by
  obtain ⟨hnames, hbytes⟩ := h.names
  have hsize : size (words slash (atBytes at')) = (atBytes at').length := by
    rw [size, hbytes]
  refine ⟨hnames, ?_, ?_, ?_, (skipSlashes_spec path none).1⟩
  · rw [hbytes]
    rfl
  · rwa [hsize]
  · rw [hsize]
    rfl

/-- No name of the path is appended to `MAX_PATH - 2` bytes or more. -/
def Fits (at' : Option Path) (path : Path) : Prop :=
  path = [] ∨ (atBytes at').length ≥ maxPath ∨ roomy (words slash (atBytes at')) (words slash path)

variable {path : Path}

theorem normalizeFrom_sound (fs : Tree) (cred : Cred) (flags : Flags)
    {expand : Option (Path → Except Stop Path)} (hexpand : ∀ f, expand = some f → ∀ path,
      path.head? = some slash → path.length < maxPath → Sound (f path))
    (hat : IsStart at') (hfits : Fits at' path) :
    Sound (normalizeFrom fs cred flags expand at' path) := by
  unfold normalizeFrom
  split_ifs with hempty hlong
  · trivial
  · trivial
  · obtain ⟨-, hwords, hlen, -⟩ := skipSlashes_spec path none
    refine loop_sound fs cred flags expand hexpand _ _ _ (ok_start hat (by omega) path) ?_ ?_
    · change roomy _ (words slash (skipSlashes path none).1) = true
      rw [hwords]
      exact (hfits.resolve_left hempty).resolve_left hlong
    · change (skipSlashes path none).1.length < _
      omega

/-- **`__path_normalize`**, where there is room, with any number of links. -/
theorem normalize_sound (fs : Tree) (cred : Cred) (flags : Flags) (links : Nat)
    (hat : IsStart at') (hfits : Fits at' path) : Sound (normalize fs cred flags links at' path) := by
  induction links generalizing at' path with
  | zero => exact normalizeFrom_sound fs cred flags (by simp) hat hfits
  | succ links ih =>
    refine normalizeFrom_sound fs cred flags ?_ hat hfits
    rintro f ⟨⟩ path hhead hlen
    exact ih (by simp [IsStart]) (Or.inr (Or.inr (roomy_of_head hhead hlen)))

theorem normalize_outOfBounds (cred : Cred) (flags : Flags) (links : Nat)
    (hat : IsStart at') (hfits : ¬ Fits at' path) :
    normalize bareTree cred flags links at' path = .error .outOfBounds := by
  obtain ⟨hempty, hlong, hroomy⟩ : path ≠ [] ∧ ¬ (atBytes at').length ≥ maxPath ∧
      roomy (words slash (atBytes at')) (words slash path) = false := by
    simpa [Fits, not_or] using hfits
  have hfrom : ∀ expand, normalizeFrom bareTree cred flags expand at' path =
      .error .outOfBounds := by
    intro expand
    unfold normalizeFrom
    rw [if_neg hempty, if_neg hlong]
    obtain ⟨-, hwords, hlen, -⟩ := skipSlashes_spec path none
    refine loop_outOfBounds cred flags expand _ _ _ (ok_start hat (by omega) path) ?_ ?_
    · change roomy _ (words slash (skipSlashes path none).1) = false
      rwa [hwords]
    · change (skipSlashes path none).1.length + 1 < _
      omega
  cases links with
  | zero => exact hfrom _
  | succ links => exact hfrom _

/-- **Memory safety of path normalisation.**  Whatever the filesystems contain and for all flags,
the call ends within its buffers, with an error or with a normal path that fits, exactly if no
name of the path comes to be appended to `MAX_PATH - 2` bytes or more. -/
theorem path_normalize_safe_iff {at' : Option Path} (hat : IsStart at') (path : Path) :
    (∀ fs cred flags, Sound (normalize fs cred flags 5 at' path)) ↔ Fits at' path := by
  constructor
  · intro h
    by_contra hfits
    have hsound := h bareTree ⟨0, 0⟩ ⟨true, false⟩
    rw [normalize_outOfBounds _ _ 5 hat hfits] at hsound
    exact hsound
  · intro hfits fs cred flags
    exact normalize_sound fs cred flags 5 hat hfits

/-- `"/tmp"` -/
def tmpDir : Path := [0x2f, 0x74, 0x6d, 0x70]

/-- `"x/../y"`, looked up from `/tmp`. -/
theorem path_normalize_safe_tmpDir : IsStart (some tmpDir) ∧ ∀ fs cred flags,
      Sound (normalize fs cred flags 5 (some tmpDir) [0x78, 0x2f, 0x2e, 0x2e, 0x2f, 0x79]) := by
  have hname : IsName [0x74, 0x6d, 0x70] := ⟨⟨by decide, by decide⟩, by decide, by decide⟩
  have hat : IsStart (some tmpDir) := by
    rintro a ⟨⟩
    exact Or.inr ⟨[[0x74, 0x6d, 0x70]], by simpa using hname, rfl⟩
  exact ⟨hat, (path_normalize_safe_iff hat _).2 (Or.inr (Or.inr (by decide)))⟩

/-- The path of a directory, 4095 bytes long, whose names have at most 254 bytes. -/
def deepDir : Path :=
  unwords slash (List.replicate 16 (List.replicate 254 0x61) ++ [List.replicate 14 0x61])

/-- Looking up the name `b` in that directory puts the slash into the last byte of `out` and the
null behind it. -/
theorem path_normalize_overflows : deepDir.length = 4095 ∧
      normalize bareTree ⟨1000, 1000⟩ ⟨true, false⟩ 5 (some deepDir) [0x62] = .error .outOfBounds := by
  constructor
  · decide +kernel
  · decide +kernel

end Ish.Fs
