import Ish.Fs.Dir

/-!
# Listings

Without a fault a call writes the entries that fit and stays behind them (`loop_of_no_fault`). A call for which
not even the next entry fits returns 0 as at the end of the directory, and a copy that fails has passed its
entry (`loop_of_fault`).
-/

namespace Ish.Dirents

/-! ### What a listing is to be -/

def Layout.total (l : Layout) (es : List DirEntry) : Nat := (es.map l.reclen).sum

/-- What a call at `pos` is to return: whole records of the next entries, and none only at the end; or an error, and the
position is kept. The error is `EINVAL` if the next entry does not fit. -/
def Dir.CallRight (d : Dir) (l : Layout) (pos : Nat) (c : Call) : Prop :=
  let r := sysGetdentsCommon d l pos c.count c.faults
  (∀ e ∈ (d.entries.drop pos).head?, c.count.toNat < l.reclen e → r.ret = .error .einval) ∧
  match r.ret with
  | .ok n => r.written ++ d.entries.drop r.pos = d.entries.drop pos ∧ n = l.total r.written ∧
      (n = 0 → d.entries.drop pos = [])
  | .error _ => r.pos = pos

/-- A property of each of the calls, at the position where it is made. -/
def Dir.Each (d : Dir) (l : Layout) (P : Nat → Call → Prop) (pos : Nat) : List Call → Prop
  | [] => True
  | c :: rest => P pos c ∧ d.Each l P (sysGetdentsCommon d l pos c.count c.faults).pos rest

/-- **A complete listing**: each call is right, and what they have returned, and what is left, is the directory. -/
def Dir.Complete (d : Dir) (l : Layout) (calls : List Call) : Prop :=
  (d.list l 0 calls).1 ++ d.entries.drop (d.list l 0 calls).2 = d.entries ∧ d.Each l (d.CallRight l) 0 calls

/-- The entries that go into a buffer. -/
def Layout.fitting (l : Layout) : Nat → List DirEntry → List DirEntry
  | _, [] => []
  | room, e :: rest => if l.reclen e > room then [] else e :: l.fitting (room - l.reclen e) rest

/-- **The condition** for a call: the next entry fits, what fits is less than 2 GiB, and no copy fails. -/
def Dir.CallFits (d : Dir) (l : Layout) (pos : Nat) (c : Call) : Prop :=
  let es := l.fitting c.count.toNat (d.entries.drop pos)
  (∀ e ∈ (d.entries.drop pos).head?, l.reclen e ≤ c.count.toNat) ∧ l.total es < 0x80000000 ∧
    ∀ i < es.length, c.faults i = false

variable {d : Dir} {l : Layout}

theorem Layout.reclen_pos (l : Layout) (e : DirEntry) : 0 < l.reclen e := by
  cases l <;> exact Nat.succ_pos _

theorem total_cons (e : DirEntry) (es : List DirEntry) : l.total (e :: es) = l.reclen e + l.total es := rfl

theorem total_fitting_le (room : Nat) (es : List DirEntry) : l.total (l.fitting room es) ≤ room := by
  induction es generalizing room with
  | nil => exact Nat.zero_le _
  | cons e rest ih =>
    unfold Layout.fitting
    split_ifs with hlarge
    · exact Nat.zero_le _
    · have := ih (room - l.reclen e)
      rw [total_cons]
      omega

/-- Without a fault the loop writes what fits. -/
theorem loop_of_no_fault {faults : Nat → Bool} {count : Nat} {rest : List DirEntry} {pos used done : Nat}
    (hused : used ≤ count) (h : ∀ i < (l.fitting (count - used) rest).length, faults (done + i) = false) :
    sysGetdentsCommon.loop d l faults count rest pos used done =
      ⟨.ok (((used + l.total (l.fitting (count - used) rest) : Nat) : Int).bmod 0x100000000),
        pos + (l.fitting (count - used) rest).length, l.fitting (count - used) rest⟩ := by
  induction rest generalizing pos used done with
  | nil => simp [sysGetdentsCommon.loop, Layout.fitting, Layout.total, d.lawful]
  | cons e rest ih =>
    unfold sysGetdentsCommon.loop
    unfold Layout.fitting at h ⊢
    split_ifs at h ⊢ with hlarge hfault
    · simp [Layout.total, d.lawful]
    · exact absurd hfault (by simpa using h 0 (Nat.succ_pos _))
    · have hroom : count - (used + l.reclen e) = count - used - l.reclen e := by omega
      rw [ih (by omega) fun i hi => ?_, hroom]
      · dsimp only
        rw [total_cons, List.length_cons, Nat.add_assoc used, Nat.add_right_comm pos]
        rfl
      · rw [hroom] at hi
        rw [Nat.add_right_comm]
        exact h (i + 1) (Nat.succ_lt_succ hi)

theorem loop_of_fault {faults : Nat → Bool} {count : Nat} {rest : List DirEntry} {pos used done : Nat}
    (h : ∃ i < (l.fitting (count - used) rest).length, faults (done + i) = true) :
    (sysGetdentsCommon.loop d l faults count rest pos used done).ret = .error .efault ∧
      pos < (sysGetdentsCommon.loop d l faults count rest pos used done).pos := by
  induction rest generalizing pos used done with
  | nil =>
    obtain ⟨i, hi, -⟩ := h
    exact absurd hi (Nat.not_lt_zero i)
  | cons e rest ih =>
    obtain ⟨i, hi, hfault⟩ := h
    unfold sysGetdentsCommon.loop
    unfold Layout.fitting at hi
    split_ifs at hi ⊢ with hlarge hnow
    · exact absurd hi (Nat.not_lt_zero i)
    · exact ⟨rfl, Nat.lt_succ_self pos⟩
    · cases i with
      | zero => exact absurd hfault hnow
      | succ i =>
        have hroom : count - (used + l.reclen e) = count - used - l.reclen e := by omega
        have hlater := @ih (pos + 1) (used + l.reclen e) (done + 1)
          ⟨i, by rw [hroom]; exact Nat.lt_of_succ_lt_succ hi, by rw [Nat.add_right_comm]; exact hfault⟩
        exact ⟨hlater.1, (Nat.lt_succ_self pos).trans hlater.2⟩

theorem fitting_append_drop (room : Nat) (es : List DirEntry) :
    l.fitting room es ++ es.drop (l.fitting room es).length = es := by
  induction es generalizing room with
  | nil => rfl
  | cons e rest ih =>
    unfold Layout.fitting
    split_ifs
    · rfl
    · rw [List.length_cons, List.drop_succ_cons, List.cons_append, ih]

theorem callRight_iff (pos : Nat) (c : Call) : d.CallRight l pos c ↔ d.CallFits l pos c := by
  unfold Dir.CallRight Dir.CallFits sysGetdentsCommon
  dsimp only
  have hroom := total_fitting_le (l := l) c.count.toNat (d.entries.drop pos)
  have hcount := c.count.isLt
  have hsplit := fitting_append_drop (l := l) c.count.toNat (d.entries.drop pos)
  rw [List.drop_drop] at hsplit
  by_cases hfault : ∃ i < (l.fitting c.count.toNat (d.entries.drop pos)).length, c.faults i = true
  · have hloop := @loop_of_fault d l c.faults c.count.toNat (d.entries.drop pos) pos 0 0 (by simpa using hfault)
    obtain ⟨i, hi, htrue⟩ := hfault
    refine iff_of_false (fun h => ?_) fun h => absurd htrue (by simp [h.2.2 i hi])
    rw [hloop.1] at h
    exact absurd h.2 (Nat.ne_of_gt hloop.2)
  · have hnone : ∀ i < (l.fitting c.count.toNat (d.entries.drop pos)).length, c.faults i = false := by simpa using hfault
    rw [loop_of_no_fault (Nat.zero_le _) (by simpa using hnone)]
    simp only [Nat.sub_zero, Nat.zero_add]
    generalize hes : l.fitting c.count.toNat (d.entries.drop pos) = es at *
    constructor
    · rintro ⟨hhead, -, hret, -⟩
      rw [Int.bmod_def] at hret
      refine ⟨fun e he => ?_, by omega, hnone⟩
      by_contra hlarge
      exact absurd (hhead e he (Nat.lt_of_not_le hlarge)) nofun
    · rintro ⟨hhead, hsmall, -⟩
      have hret : (l.total es : Int).bmod 0x100000000 = l.total es := Int.bmod_eq_of_le (by omega) (by omega)
      refine ⟨fun e he hlarge => absurd (hhead e he) (by omega), hsplit, hret, fun hzero => ?_⟩
      cases hrest : d.entries.drop pos with
      | nil => rfl
      | cons e rest =>
        -- the next entry is in the buffer, and a record is not empty
        have hfits := hhead e (by rw [hrest]; rfl)
        have hpos := l.reclen_pos e
        rw [hrest, Layout.fitting, if_neg (by omega)] at hes
        rw [hret, ← hes, total_cons] at hzero
        omega

theorem list_append_drop {pos : Nat} {calls : List Call} (h : d.Each l (d.CallRight l) pos calls) :
    (d.list l pos calls).1 ++ d.entries.drop (d.list l pos calls).2 = d.entries.drop pos := by
  induction calls generalizing pos with
  | nil => rfl
  | cons c rest ih =>
    have hrest := ih h.2
    have hcall := h.1.2
    unfold Dir.list
    dsimp only at hcall ⊢
    cases hret : (sysGetdentsCommon d l pos c.count c.faults).ret with
    | ok n =>
      rw [hret] at hcall
      rw [List.append_assoc, hrest]
      exact hcall.1
    | error err =>
      rw [hret] at hcall
      rw [hcall] at hrest ⊢
      exact hrest

/-- **Listing a directory is complete** exactly if in each call the next entry fits, no copy fails, and what is copied
has a positive size. -/
theorem getdents_complete_iff (d : Dir) (l : Layout) (calls : List Call) :
    d.Complete l calls ↔ d.Each l (d.CallFits l) 0 calls := by
  have hright : d.CallRight l = d.CallFits l := funext₂ fun pos c => propext (callRight_iff pos c)
  rw [← hright]
  exact ⟨fun h => h.2, fun h => ⟨list_append_drop h, h⟩⟩

/-- A buffer that is too small looks like the end of the directory, and an entry that could not be copied is not
returned again. -/
theorem getdents_loses_entry : let d : Dir := ⟨[⟨1, [97], by decide⟩], id, id, fun _ => rfl⟩
    (sysGetdentsCommon d .dirent64 0 20 fun _ => false).ret = .ok 0 ∧
      d.list .dirent64 0 [⟨64, fun _ => true⟩, ⟨64, fun _ => false⟩] = ([], 1) ∧
      ¬ d.Complete .dirent64 [⟨20, fun _ => false⟩] := by
  refine ⟨by decide, by decide, fun h => ?_⟩
  exact absurd (((callRight_iff 0 _).1 h.2.1).1 _ rfl) (by decide)

end Ish.Dirents
