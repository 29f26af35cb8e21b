import Mathlib.Data.List.Infix

/-!
# Decoding a stream that arrives in chunks

A `Decoder` looks at the start of a buffer and gives a value with the length of what it has used, or asks for
more, or fails. `drain` calls it until it asks for more, `feed` appends one chunk after the other and drains
each time; an error ends both, with the values before it. If every value of a list is read from its encoding
(`Reads`), then the values come out in order however the encodings are cut into chunks (`feed_eq`). A decoder
that is `Stable` gives the same for every cut of any stream (`Stable.feed_agrees`).
-/

namespace Ish.Lib

open List

/-- One step of decoding; what is decoded was in the buffer. -/
structure Decoder (α T ε : Type) where
  step : List α → Except ε (Option (T × Nat))
  pos : ∀ {buf v n}, step buf = .ok (some (v, n)) → 0 < n
  le : ∀ {buf v n}, step buf = .ok (some (v, n)) → n ≤ buf.length
  empty : step [] = .ok none

/-- What a loop of steps gives: the values, what is left in the buffer, and the error that has ended it. -/
@[ext]
structure Drained (α T ε : Type) where
  values : List T
  rest : List α
  error : Option ε

/-- Values that came before. -/
def Drained.prepend {α T ε : Type} (vs : List T) (r : Drained α T ε) : Drained α T ε := { r with values := vs ++ r.values }

/-- The same values and the same error; also the same rest, unless an error came before all was there. -/
structure Drained.Agrees {α T ε : Type} (r whole : Drained α T ε) : Prop where
  values : r.values = whole.values
  error : r.error = whole.error
  part : r.rest <+: whole.rest
  rest : r.error = none → r.rest = whole.rest

namespace Decoder

variable {α T ε : Type} {d : Decoder α T ε}

/-- Steps until more is needed, or one fails. -/
def drain (d : Decoder α T ε) (buf : List α) : Drained α T ε :=
  match _h : d.step buf with
  | .error e => ⟨[], buf, some e⟩
  | .ok none => ⟨[], buf, none⟩
  | .ok (some (v, n)) => (drain d (buf.drop n)).prepend [v]
termination_by buf.length
decreasing_by
  have hpos := d.pos _h
  have hle := d.le _h
  rw [length_drop]
  omega

variable {buf : List α}

theorem drain_none (h : d.step buf = .ok none) : d.drain buf = ⟨[], buf, none⟩ := by
  rw [drain]
  split
  · next e he => rw [h] at he; cases he
  · rfl
  · next v n hv => rw [h] at hv; cases hv

theorem drain_some {v : T} {n : Nat} (h : d.step buf = .ok (some (v, n))) :
    d.drain buf = (d.drain (buf.drop n)).prepend [v] := by
  rw [drain]
  split
  · next e he => rw [h] at he; cases he
  · next hn => rw [h] at hn; cases hn
  · next v' n' hv =>
    rw [h] at hv
    cases hv
    rfl

/-- Chunks that are appended and drained one by one, until one fails. -/
def feed (d : Decoder α T ε) : List α → List (List α) → Drained α T ε
  | buf, [] => ⟨[], buf, none⟩
  | buf, chunk :: chunks =>
    let r := d.drain (buf ++ chunk)
    match r.error with
    | some _ => r
    | none => (feed d r.rest chunks).prepend r.values

/-- `bs` is an encoding of `v`: it is decoded whatever comes after it, and nothing is decoded from a part. -/
structure Reads (d : Decoder α T ε) (v : T) (bs : List α) : Prop where
  whole : ∀ rest, d.step (bs ++ rest) = .ok (some (v, bs.length))
  part : ∀ p, p <+: bs → p ≠ bs → d.step p = .ok none

theorem Reads.ne_nil {v : T} {bs : List α} (h : d.Reads v bs) : bs ≠ [] := by
  rintro rfl
  exact absurd (d.pos (h.whole [])) (by simp)

def encoded (items : List (T × List α)) : List α := (items.map Prod.snd).flatten

/-- What is left when more is needed: a part of the first encoding, nothing at the end. -/
def Pending : List (T × List α) → List α → Prop
  | [], buf => buf = []
  | (_, bs) :: _, buf => buf <+: bs ∧ buf ≠ bs

variable {items : List (T × List α)}

theorem pending_nil (h : ∀ x ∈ items, d.Reads x.1 x.2) : Pending items [] := by
  cases items with
  | nil => rfl
  | cons x items => exact ⟨ nil_prefix, (h x (by simp)).ne_nil.symm⟩

/-- **Draining gives the values that are there in full.** -/
theorem drain_eq {more : List α} (h : ∀ x ∈ items, d.Reads x.1 x.2) (hbuf : buf ++ more = encoded items) :
    ∃ done todo rest, items = done ++ todo ∧ d.drain buf = ⟨done.map Prod.fst, rest, none⟩ ∧
      rest ++ more = encoded todo ∧ Pending todo rest := by
  induction items generalizing buf with
  | nil =>
    obtain ⟨rfl, rfl⟩ := append_eq_nil_iff.mp hbuf
    exact ⟨[], [], [], rfl, drain_none d.empty, rfl, rfl⟩
  | cons x items ih =>
    obtain ⟨v, bs⟩ := x
    have hread := h (v, bs) (by simp)
    have hflat : encoded ((v, bs) :: items) = bs ++ encoded items := rfl
    rw [hflat] at hbuf
    -- the first encoding is there, or a part of it
    rcases append_eq_append_iff.mp hbuf with ⟨as, hbs, hmore⟩ | ⟨buf', rfl, hmore⟩
    · by_cases has : as = []
      · subst has
        rw [append_nil] at hbs
        subst hbs
        obtain ⟨done, todo, rest, rfl, hdrain, hrest, hpending⟩ :=
          ih (fun y hy => h y (mem_cons_of_mem _ hy)) (show [] ++ more = encoded items from hmore)
        refine ⟨(v, bs) :: done, todo, rest, rfl, ?_, hrest, hpending⟩
        have hstep := hread.whole []
        rw [append_nil] at hstep
        rw [drain_some hstep, drop_length, hdrain]
        rfl
      · refine ⟨[], (v, bs) :: items, buf, rfl, ?_, hbuf.trans hflat.symm, ?_⟩
        · exact drain_none (hread.part buf ⟨as, hbs.symm⟩ fun heq => has (by rw [heq] at hbs; simpa using hbs))
        · exact ⟨⟨as, hbs.symm⟩, fun heq => has (by rw [heq] at hbs; simpa using hbs)⟩
    · obtain ⟨done, todo, rest, rfl, hdrain, hrest, hpending⟩ :=
        ih (fun y hy => h y (mem_cons_of_mem _ hy)) hmore.symm
      refine ⟨(v, bs) :: done, todo, rest, rfl, ?_, hrest, hpending⟩
      rw [drain_some (hread.whole buf'), drop_left, hdrain]
      rfl

/-- **However the encodings are cut, the values come out in order and nothing is left.** -/
theorem feed_eq {chunks : List (List α)} (h : ∀ x ∈ items, d.Reads x.1 x.2) (hpending : Pending items buf)
    (hbuf : buf ++ chunks.flatten = encoded items) : d.feed buf chunks = ⟨items.map Prod.fst, [], none⟩ := by
  induction chunks generalizing items buf with
  | nil =>
    rw [flatten_nil, append_nil] at hbuf
    cases items with
    | nil =>
      subst hbuf
      rfl
    | cons x items =>
      -- the whole of the first encoding would be there
      obtain ⟨⟨as, has⟩, hne⟩ := hpending
      have hflat : buf = x.2 ++ encoded items := hbuf
      rw [hflat, append_assoc] at has
      have hnil := append_eq_nil_iff.mp (append_right_eq_self.mp has)
      rw [hnil.1, append_nil] at hflat
      exact absurd hflat hne
  | cons chunk chunks ih =>
    rw [flatten_cons, ← append_assoc] at hbuf
    obtain ⟨done, todo, rest, rfl, hdrain, hrest, hpending'⟩ := drain_eq h hbuf
    have hfeed := ih (fun x hx => h x (mem_append_right _ hx)) hpending' hrest
    rw [feed, hdrain]
    dsimp only
    rw [hfeed, map_append]
    rfl

/-- More bytes do not change what a buffer is decoded to, unless it asks for them. -/
def Stable (d : Decoder α T ε) : Prop := ∀ buf more, d.step buf ≠ .ok none → d.step (buf ++ more) = d.step buf

theorem drain_error {e : ε} (h : d.step buf = .error e) : d.drain buf = ⟨[], buf, some e⟩ := by
  rw [drain]
  split
  · next e' he => rw [h] at he; cases he; rfl
  · next hn => rw [h] at hn; cases hn
  · next v n hv => rw [h] at hv; cases hv

/-- What was drained of a part need not be looked at again. -/
theorem Stable.drain_append (hd : d.Stable) (more : List α) : d.drain (buf ++ more) =
    match (d.drain buf).error with
    | some _ => { d.drain buf with rest := (d.drain buf).rest ++ more }
    | none => (d.drain ((d.drain buf).rest ++ more)).prepend (d.drain buf).values := by
  induction buf using drain.induct d with
  | case1 buf e h =>
    rw [drain_error h, drain_error ((hd buf more (by rw [h]; nofun)).trans h)]
  | case2 buf h =>
    rw [drain_none h]
    rfl
  | case3 buf v n h ih =>
    rw [drain_some h, drain_some ((hd buf more (by rw [h]; nofun)).trans h), drop_append_of_le_length (d.le h), ih]
    cases hr : d.drain (buf.drop n) with
    | mk values rest error => cases error <;> rfl

theorem step_of_drain (h : (d.drain buf).error = none) : d.step (d.drain buf).rest = .ok none := by
  induction buf using drain.induct d with
  | case1 buf e hstep => rw [drain_error hstep] at h; cases h
  | case2 buf hstep => rw [drain_none hstep]; exact hstep
  | case3 buf v n hstep ih =>
    rw [drain_some hstep] at h ⊢
    exact ih h

/-- **However a stream is cut, it is decoded as if it came at once.** -/
theorem Stable.feed_agrees (hd : d.Stable) (hbuf : d.step buf = .ok none) (chunks : List (List α)) :
    (d.feed buf chunks).Agrees (d.drain (buf ++ chunks.flatten)) := by
  induction chunks generalizing buf with
  | nil =>
    rw [flatten_nil, append_nil, drain_none hbuf]
    exact ⟨rfl, rfl, prefix_rfl, fun _ => rfl⟩
  | cons chunk chunks ih =>
    rw [flatten_cons, ← append_assoc, hd.drain_append, feed]
    dsimp only
    cases h : (d.drain (buf ++ chunk)).error with
    | some e => exact ⟨rfl, h, prefix_append _ _, fun hnone => nomatch h.symm.trans hnone⟩
    | none =>
      obtain ⟨hvalues, herror, hpart, hrest⟩ := ih (step_of_drain h)
      exact ⟨congrArg ((d.drain (buf ++ chunk)).values ++ ·) hvalues, herror, hpart, hrest⟩

/-- **What is drained and what is left make up the buffer.** -/
theorem drain_spec (d : Decoder α T ε) (buf : List α) :
    ∃ items : List (T × List α), items.map Prod.fst = (d.drain buf).values ∧ buf = encoded items ++ (d.drain buf).rest ∧
      ∀ x ∈ items, ∃ more, d.step (x.2 ++ more) = .ok (some (x.1, x.2.length)) := by
  induction buf using drain.induct d with
  | case1 buf e hstep => rw [drain_error hstep]; exact ⟨[], rfl, rfl, nofun⟩
  | case2 buf hstep => rw [drain_none hstep]; exact ⟨[], rfl, rfl, nofun⟩
  | case3 buf v n hstep ih =>
    rw [drain_some hstep]
    obtain ⟨items, hfst, hbuf, hitems⟩ := ih
    have hlen : (buf.take n).length = n := length_take_of_le (d.le hstep)
    refine ⟨(v, buf.take n) :: items, congrArg (v :: ·) hfst, ?_, fun x hx => ?_⟩
    · rw [show encoded ((v, buf.take n) :: items) = buf.take n ++ encoded items from rfl, append_assoc]
      exact (take_append_drop n buf).symm.trans (congrArg _ hbuf)
    · rcases mem_cons.1 hx with rfl | hx
      · exact ⟨buf.drop n, by rw [take_append_drop, hlen, hstep]⟩
      · exact hitems x hx

end Decoder

end Ish.Lib
