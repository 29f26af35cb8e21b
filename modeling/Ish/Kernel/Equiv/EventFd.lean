import Ish.Kernel.EventFd

/-!
# What an event counter counts

Whatever the threads do, nothing is lost or counted twice, the counter does not overflow, and nobody sleeps who could
go on (`eventfd_of_run`).
-/

namespace Ish.EventFd

open Lib Function

variable {τ : Type} [DecidableEq τ]

/-- A call that goes on does not overflow. -/
theorem Call.apply_spec {call : Call} {val : BitVec 64} (hcall : call ≠ .write max64) (h : call.blocked val = false) :
    val.toNat + call.written = call.returned val + (call.apply val).toNat ∧ call.apply val < max64 := by
  cases call with
  | read => exact ⟨rfl, show 0 < max64 by decide⟩
  | write increment =>
    have hlt : ¬max64 - increment ≤ val := by simpa [blocked] using h
    have hne : increment ≠ max64 := fun heq => hcall (congrArg write heq)
    unfold written returned apply
    bv_omega

/-- A thread is not in a call that is refused, and sleeps only if it has to. -/
def Pc.Ok (val : BitVec 64) : Pc → Prop
  | away => True
  | asleep call => call ≠ .write max64 ∧ call.blocked val
  | woken call => call ≠ .write max64

/-- What every run keeps. -/
structure State.Inv (initval : BitVec 32) (s : State τ) : Prop where
  sum : initval.toNat + s.written = s.returned + s.val.toNat
  bound : s.val < max64
  threads : ∀ t, (s.threads t).Ok s.val

variable {s s' : State τ} {initval : BitVec 32} (h : s.Inv initval)

theorem Pc.Ok.notify {val : BitVec 64} {pc : Pc} (h : pc.Ok val) (val' : BitVec 64) : pc.notify.Ok val' := by
  cases pc with
  | away => trivial
  | asleep call => exact h.1
  | woken call => exact h

include h

theorem State.Inv.goto (t : τ) {pc : Pc} (hpc : pc.Ok s.val) : (s.goto t pc).Inv initval :=
  ⟨h.sum, h.bound, (forall_update_iff _ (p := fun _ => Pc.Ok s.val)).2 ⟨hpc, fun t' _ => h.threads t'⟩⟩

theorem State.Inv.turn (t : τ) {call : Call} (hcall : call ≠ .write max64) (nonblock : Bool) :
    (s.turn t call nonblock).Inv initval := by
  have hsum := h.sum
  unfold State.turn
  split_ifs with hblocked hnon
  · exact h.goto t trivial
  · exact h.goto t ⟨hcall, hblocked⟩
  · obtain ⟨happly, hbound⟩ := Call.apply_spec hcall (Bool.not_eq_true _ ▸ hblocked)
    refine ⟨by dsimp only; omega, hbound, ?_⟩
    exact (forall_update_iff _ (p := fun _ => Pc.Ok _)).2 ⟨trivial, fun t' _ => (h.threads t').notify _⟩

theorem State.Inv.step {a : Act τ} (hstep : s.step a = some s') : s'.Inv initval := by
  unfold State.step at hstep
  cases a with
  | call t call nonblock =>
    dsimp only at hstep
    split_ifs at hstep with haway hcall <;> cases hstep
    · exact h
    · exact h.turn t hcall nonblock
  | retry t nonblock =>
    have ht := h.threads t
    dsimp only at hstep
    split at hstep
    · next call hpc =>
      cases hstep
      rw [hpc] at ht
      exact h.turn t ht nonblock
    · cases hstep
  | spurious t =>
    cases hstep
    exact h.goto t ((h.threads t).notify _)
  | interrupt t =>
    obtain ⟨-, hstep⟩ := Option.ite_none_left_eq_some.1 hstep
    cases hstep
    exact h.goto t trivial

omit h

/-- **Event counters.** -/
theorem eventfd_of_run (h : Run State.step anyStep (init initval) s) :
    initval.toNat + s.written = s.returned + s.val.toNat ∧ s.val.toNat ≤ 2 ^ 64 - 2 ∧
      (∀ t call, s.threads t = .asleep call → call.blocked s.val) ∧
      s.poll = (!Call.read.blocked s.val, !(Call.write 1).blocked s.val) := by
  have hinv := h.inv (State.Inv initval) (fun s _ _ hs _ hstep => hs.step hstep)
    ⟨by simp [init]; omega, by unfold init; bv_omega, fun _ => trivial⟩
  refine ⟨hinv.sum, by have := hinv.bound; bv_omega, fun t call ht => ?_, ?_⟩
  · have hok := hinv.threads t
    rw [ht] at hok
    exact hok.2
  · simp [State.poll, Call.blocked, ← BitVec.not_le]

/-- A reader sleeps until another thread has written 5. -/
def readRun : List (Act Bool) := [.call true .read false, .call false (.write 5) false, .retry true false]

theorem eventfd_of_run_read : ∃ s, readRun.foldlM State.step (init 0) = some s ∧ s.returned = 5 ∧
    s.val.toNat ≤ 2 ^ 64 - 2 := by
  obtain ⟨s, hs⟩ : ∃ s, readRun.foldlM State.step (init 0) = some s := ⟨_, rfl⟩
  exact ⟨s, hs, by cases hs; rfl, (eventfd_of_run (.of_foldlM (fun _ _ _ => trivial) hs)).2.1⟩

end Ish.EventFd
