import Ish.Embed.Supervisor

/-!
# Input is written without gaps

A frame is written as far as the kernel takes its bytes before the first error (`taken`). `lossless_iff`: what
reaches the child is a prefix of the payloads exactly if the kernel takes no byte after a frame that it has not
taken whole. The master of a terminal does not block, so its answer `EAGAIN` cuts a frame short while later ones
are still written.
-/

namespace Ish.Embed

open List

variable {α : Type} {target : Target} {frames : List (WriteFrame α)}

/-- What is written is a prefix of all payloads. -/
def Lossless (target : Target) (frames : List (WriteFrame α)) : Prop :=
  handleWrites (some target) frames <+: (frames.map WriteFrame.bytes).flatten

/-- The number of bytes that the kernel takes before its first error. -/
def taken : List WriteAnswer → Nat
  | [] => 0
  | .wrote n :: as => n + taken as
  | .eintr :: as => taken as
  | .epipe :: _ => 0
  | .eagain :: _ => 0

/-- The kernel takes all bytes of a frame if it takes a byte of a later one. -/
def Gapless (frames : List (WriteFrame α)) : Prop :=
  frames.Pairwise fun f g => g.bytes ≠ [] → taken g.answers ≠ 0 → f.bytes.length ≤ taken f.answers

/-- A frame is written as far as the kernel takes it. -/
theorem writeLoop_eq_take (bs : List α) (as : List WriteAnswer) : writeLoop bs as = bs.take (taken as) := by
  fun_induction writeLoop bs as with
  | case1 => exact take_nil.symm
  | case3 b bs n as ih => rw [ih, taken, take_add]
  | case4 b bs as ih => exact ih
  | _ => exact take_zero.symm

theorem handleWrites_cons (f : WriteFrame α) (fs : List (WriteFrame α)) : handleWrites (some target) (f :: fs) =
    f.bytes.take (taken f.answers) ++ handleWrites (some target) fs := by
  rw [← writeLoop_eq_take]
  rfl

theorem handleWrites_eq_nil_iff :
    handleWrites (some target) frames = [] ↔ ∀ f ∈ frames, f.bytes = [] ∨ taken f.answers = 0 := by
  induction frames with
  | nil => exact iff_of_true rfl nofun
  | cons f fs ih => rw [handleWrites_cons, append_eq_nil_iff, ih, forall_mem_cons, take_eq_nil_iff, or_comm]

theorem mem_of_mem_handleWrites {b : α} (h : b ∈ handleWrites (some target) frames) :
    b ∈ (frames.map WriteFrame.bytes).flatten := by
  obtain ⟨l, hl, hb⟩ := mem_flatten.1 h
  obtain ⟨f, hf, rfl⟩ := mem_map.1 hl
  rw [writeLoop_eq_take] at hb
  exact mem_flatten.2 ⟨f.bytes, mem_map_of_mem hf, mem_of_mem_take hb⟩

/-- **Input of a session.** Bytes are told apart by their places, so they are distinct. -/
theorem lossless_iff (hdistinct : (frames.map WriteFrame.bytes).flatten.Nodup) :
    Lossless target frames ↔ Gapless frames := by
  induction frames with
  | nil => exact iff_of_true nil_prefix Pairwise.nil
  | cons f fs ih =>
    rw [map_cons, flatten_cons] at hdistinct
    obtain ⟨-, hfs, hdisj⟩ := nodup_append'.1 hdistinct
    -- what is left of the first frame comes before everything else
    have hcons : Lossless target (f :: fs) ↔ handleWrites (some target) fs <+:
        f.bytes.drop (taken f.answers) ++ (fs.map WriteFrame.bytes).flatten := by
      have hbytes := congrArg (· ++ (fs.map WriteFrame.bytes).flatten) (take_append_drop (taken f.answers) f.bytes).symm
      unfold Lossless
      rw [handleWrites_cons, map_cons, flatten_cons, hbytes, append_assoc]
      exact prefix_append_right_inj _
    rw [hcons, Gapless, pairwise_cons]
    by_cases hall : f.bytes.length ≤ taken f.answers
    · rw [drop_eq_nil_of_le hall, nil_append]
      exact (ih hfs).trans ⟨fun h => ⟨fun _ _ _ _ => hall, h⟩, And.right⟩
    · constructor
      · intro h
        have hsilent : handleWrites (some target) fs = [] := by
          cases hw : handleWrites (some target) fs with
          | nil => rfl
          | cons c cs =>
            -- the first byte that is written later would be the first that was not written
            obtain ⟨b, bs, hleft⟩ := exists_cons_of_ne_nil (mt drop_eq_nil_iff.1 hall)
            rw [hw, hleft, cons_append, cons_prefix_cons] at h
            have hb : b ∈ handleWrites (some target) fs := by simp [hw, h.1]
            have hf : b ∈ f.bytes := mem_of_mem_drop (hleft ▸ mem_cons_self)
            exact absurd (mem_of_mem_handleWrites hb) (disjoint_left.1 hdisj hf)
        have hnone := handleWrites_eq_nil_iff.1 hsilent
        have hlater (f : WriteFrame α) : ∀ g ∈ fs, g.bytes ≠ [] → taken g.answers ≠ 0 →
            f.bytes.length ≤ taken f.answers :=
          fun g hg hbytes htaken => absurd (hnone g hg) (not_or.2 ⟨hbytes, htaken⟩)
        exact ⟨hlater f, pairwise_of_forall_mem_list fun f _ g hg => hlater f g hg⟩
      · rintro ⟨hfirst, -⟩
        rw [handleWrites_eq_nil_iff.2 fun g hg => ?_]
        · exact nil_prefix
        · by_contra hg'
          exact hall (hfirst g hg (not_or.1 hg').1 (not_or.1 hg').2)

/-- Two frames on a pipe, the first in two parts. -/
theorem lossless_pipe :
    let frames : List (WriteFrame Nat) := [⟨[0, 1], [.wrote 1, .eintr, .wrote 1]⟩, ⟨[2], [.wrote 1]⟩]
    (frames.map WriteFrame.bytes).flatten.Nodup ∧ (Lossless .pipe frames ↔ Gapless frames) :=
  ⟨by decide, lossless_iff (by decide)⟩

/-- A terminal takes two bytes of the first frame, is full, and then takes the second frame. -/
theorem input_lost :
    let frames : List (WriteFrame Nat) := [⟨[0, 1, 2], [.wrote 2, .eagain]⟩, ⟨[3], [.wrote 1]⟩]
    stdinTarget true false = some .master ∧ handleWrites (some .master) frames = [0, 1, 3] ∧
      ¬ Lossless .master frames := by
  refine ⟨rfl, rfl, fun h => ?_⟩
  exact absurd h (show ¬ [0, 1, 3] <+: [0, 1, 2, 3] by decide)

end Ish.Embed
