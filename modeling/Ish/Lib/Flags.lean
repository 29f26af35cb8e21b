import Mathlib.Data.BitVec

/-!
# Bit masks as C conditions

`hasAny f mask` is the truth value of the C expression `f & mask`. The lemmas push the test
through `|`, `&` and `& ~`, so that a proof about a word of flags never looks at its bits: the
side conditions relate two masks only, and on concrete masks they are closed by `decide`.
-/

namespace Ish.Lib

variable {w : Nat}

/-- The C condition `f & mask`: some bit of `mask` is set in `f`. -/
def hasAny (f mask : BitVec w) : Bool :=
  f &&& mask != 0#w

theorem hasAny_eq_false_iff (f mask : BitVec w) : hasAny f mask = false ↔ f &&& mask = 0#w := by
  simp [hasAny]

@[simp]
theorem hasAny_zero_left (mask : BitVec w) : hasAny 0#w mask = false := by
  simp [hasAny]

/-- A union of flags meets the mask iff one of the two does. -/
@[simp]
theorem hasAny_or (a b mask : BitVec w) : hasAny (a ||| b) mask = (hasAny a mask || hasAny b mask) := by
  unfold hasAny
  rw [BitVec.and_or_distrib_right, Bool.eq_iff_iff]
  simp only [bne_iff_ne, ne_eq, BitVec.or_eq_zero_iff, Bool.or_eq_true]
  tauto

theorem hasAny_or_right (f a b : BitVec w) : hasAny f (a ||| b) = (hasAny f a || hasAny f b) := by
  unfold hasAny
  rw [BitVec.and_or_distrib_left, Bool.eq_iff_iff]
  simp only [bne_iff_ne, ne_eq, BitVec.or_eq_zero_iff, Bool.or_eq_true]
  tauto

/-- Restricting the flags to a superset of the mask does not change the test. -/
theorem hasAny_and_of_subset {a b mask : BitVec w} (h : b &&& mask = mask) : hasAny (a &&& b) mask = hasAny a mask := by
  unfold hasAny
  rw [BitVec.and_assoc, h]

theorem hasAny_and_of_disjoint {a b mask : BitVec w} (h : b &&& mask = 0#w) : hasAny (a &&& b) mask = false := by
  rw [hasAny_eq_false_iff, BitVec.and_assoc, h, BitVec.and_zero]

theorem hasAny_of_not_added {f g mask part : BitVec w} (h : hasAny (f &&& ~~~g) mask = false)
    (hpart : part &&& mask = part) (hf : hasAny f part) : hasAny g part := by
  by_contra hg
  rw [Bool.not_eq_true, hasAny_eq_false_iff] at hg
  rw [hasAny_eq_false_iff] at h
  have hzero : f &&& part = 0#w := by
    ext i hi
    have hg' := congrArg (fun x : BitVec w => x[i]) hg
    have h' := congrArg (fun x : BitVec w => x[i]) h
    have hp' := congrArg (fun x : BitVec w => x[i]) hpart
    simp only [BitVec.getElem_and, BitVec.getElem_not, BitVec.getElem_zero] at hg' h' hp' ⊢
    cases hfi : f[i] <;> cases hpi : part[i] <;> simp_all
  rw [(hasAny_eq_false_iff f part).2 hzero] at hf
  exact absurd hf (by simp)

end Ish.Lib
