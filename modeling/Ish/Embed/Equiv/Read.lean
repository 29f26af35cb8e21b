import Ish.Embed.Session
import Ish.Lib.Run

/-!
# Waiting for output

`read` looks at the buffer and then creates the future that a notification ends. A call that records after the look and
notifies before the future exists is missed, and `read` then waits until its deadline. If no call does so, a wait that
no call is about to end is one for which nothing is recorded (`read_sleeps_of_run`).
-/

namespace Ish.Embed

open Lib

variable {after cap : Nat} {r r' : Reading}

/-- No call records and notifies between the look and the creation of the future. -/
def Reading.Careful (r : Reading) : ReadAct → Prop
  | .notify true => r.pc ≠ .idle
  | _ => True

/-- Whatever is recorded will be notified, or will be seen by the next look. -/
def Reading.Attended (after : Nat) (r : Reading) : Prop :=
  r.session.recorded after = true →
    (r.pc = .idle → 0 < r.newer) ∧ (r.pc = .sleep false → 0 < r.older + r.newer)

theorem takePage_ne_nil {taken : Nat} {cs : List OutputChunk} (h : cs.any (fun c => after < c.seq) = true) :
    takePage after cap taken false cs ≠ [] := by
  induction cs with
  | nil => cases h
  | cons c cs ih =>
    rw [takePage]
    split_ifs with hold hfull hlast
    · refine ih ?_
      rwa [List.any_cons, decide_eq_false (by omega), Bool.false_or] at h
    · exact hfull.2.elim
    · exact List.cons_ne_nil _ _
    · exact List.cons_ne_nil _ _

/-- A look that does not return has found that nothing is recorded. -/
theorem recorded_of_look {s : Session}
    (h : (!(s.tryCollect after cap).chunks.isEmpty || (s.tryCollect after cap).closed) = false) :
    s.recorded after = false := by
  obtain ⟨hchunks, hclosed⟩ := Bool.or_eq_false_iff.1 h
  refine Bool.or_eq_false_iff.2 ⟨?_, hclosed⟩
  by_contra hany
  rw [Bool.not_eq_false] at hany
  rw [Bool.not_eq_false', List.isEmpty_iff] at hchunks
  exact takePage_ne_nil hany hchunks

/-- A call that does not notify has recorded nothing. -/
theorem record_of_not_notifies {s : Session} {c : Call} (h : s.notifies c = false) : s.record c = s := by
  cases c with
  | output c => exact if_pos (Nat.not_le.1 (decide_eq_false_iff_not.1 h))
  | _ => cases h

theorem Reading.Attended.step (h : r.Attended after) {a : ReadAct} (hok : r.Careful a)
    (hstep : r.step after cap a = some r') : r'.Attended after := by
  cases a with
  | record c =>
    cases hstep
    intro hrec
    dsimp only at hrec ⊢
    cases hnot : r.session.notifies c with
    | true => exact ⟨fun _ => Nat.succ_pos _, fun _ => Nat.succ_pos _⟩
    | false =>
      rw [record_of_not_notifies hnot] at hrec
      exact h hrec
  | notify recent =>
    cases recent with
    | true =>
      refine guarded hstep fun _ _ => ⟨fun hpc => ?_, fun hpc => ?_⟩
      · cases hr : r.pc with
        | idle => exact absurd hr hok
        | _ => rw [hr] at hpc; cases hpc
      · cases hr : r.pc with
        | _ => rw [hr] at hpc; cases hpc
    | false =>
      refine guarded hstep fun _ hrec => ⟨fun hpc => ?_, fun hpc => ?_⟩
      · cases hr : r.pc with
        | idle => exact (h hrec).1 hr
        | _ => rw [hr] at hpc; cases hpc
      · cases hr : r.pc with
        | _ => rw [hr] at hpc; cases hpc
  | look =>
    refine guarded hstep fun _ hrec => ?_
    dsimp only at hrec ⊢
    -- what is recorded is seen, and then `read` returns
    cases hout : !(r.session.tryCollect after cap).chunks.isEmpty || (r.session.tryCollect after cap).closed with
    | true => exact ⟨nofun, nofun⟩
    | false => exact absurd hrec (by rw [recorded_of_look hout]; exact Bool.false_ne_true)
  | create expired =>
    refine guarded hstep fun hidle hrec => ?_
    cases expired with
    | true => exact ⟨nofun, nofun⟩
    | false => exact ⟨nofun, fun _ => Nat.add_pos_right _ ((h hrec).1 hidle)⟩
  | wake | timeout => exact guarded hstep fun _ _ => ⟨nofun, nofun⟩

/-- **The wait of a read**: if no call falls between a look and the future that follows it, then `read` waits, with no
notification to come, only if nothing is recorded. -/
theorem read_sleeps_of_run {s : Session} {n : Nat}
    (hrun : Run (Reading.step after cap) Reading.Careful ⟨s, n, 0, .look⟩ r) (hpc : r.pc = .sleep false)
    (hnone : r.older + r.newer = 0) : r.session.recorded after = false := by
  have hinv := hrun.inv (Reading.Attended after) (fun _ _ _ h hok hstep => h.step hok hstep)
    (fun _ => ⟨nofun, nofun⟩)
  by_contra hrec
  have hpos := (hinv (Bool.not_eq_false _ ▸ hrec)).2 hpc
  omega

/-- A read that waits before anything came. -/
theorem read_sleeps_early : ∃ r : Reading, r.pc = .sleep false ∧ r.older + r.newer = 0 ∧
    r.session.recorded 0 = false :=
  ⟨⟨.new, 0, 0, .sleep false⟩, rfl, rfl, read_sleeps_of_run (show Run (Reading.step 0 1) Reading.Careful
    ⟨.new, 0, 0, .look⟩ _ from .tail (.create false) (.single .look trivial rfl) trivial rfl) rfl rfl⟩

/-- Output is recorded and notified between the look and the wait. -/
theorem read_sleeps_on_output :
    let c : OutputChunk := ⟨1, .stdout, [97]⟩
    (List.foldlM (Reading.step 0 1) ⟨.new, 0, 0, .look⟩
      [.look, .record (.output c), .notify true, .create false]).map
        (fun r => (r.pc, r.older + r.newer, r.session.recorded 0)) = some (.sleep false, 0, true) := by
  decide

end Ish.Embed
