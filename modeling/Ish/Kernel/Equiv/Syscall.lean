import Ish.Kernel.Syscall

/-!
# What reaches the guest

A handler ends with a value or with an error, in 32 or in 64 bits. Every error reaches the guest, and so does
every value that is not in the window of 4095 values below `2 ^ 32`: in there a value has the bits of an error
of 32 bits, and is extended like one (`syscall_result_iff`). Addresses of pages are never in the window,
positions in a file may be.
-/

namespace Ish.Syscall

open BitVec

inductive Result where
  | dword (value : BitVec 32)
  | qword (value : BitVec 64)
  | error32 (e : Nat)
  | error64 (e : Nat)

/-- The `int64_t` that the caller of the handler reads. -/
def Result.raw : Result → BitVec 64
  | .dword value => value.setWidth 64
  | .qword value => value
  | .error32 e => (-BitVec.ofNat 32 e).setWidth 64
  | .error64 e => -BitVec.ofNat 64 e

/-- What the guest should find in `x0`. -/
def Result.meant : Result → BitVec 64
  | .dword value => value.setWidth 64
  | .qword value => value
  | .error32 e | .error64 e => -BitVec.ofNat 64 e

/-- Error numbers are from 1 to 4095. -/
def Result.Valid : Result → Prop
  | .dword _ | .qword _ => True
  | .error32 e | .error64 e => 1 ≤ e ∧ e ≤ 4095

/-- The result fits the return type of the fast paths, which answer `-1` if they were not taken. -/
def Result.Fast : Result → Prop
  | .dword value => value ≠ -1#32
  | .error32 e => e ≠ 1
  | .qword _ | .error64 _ => False

/-- A value that has the bits of an error of 32 bits. -/
def Result.InWindow : Result → Prop
  | .dword value => 2 ^ 32 - 4095 ≤ value.toNat
  | .qword value => 2 ^ 32 - 4095 ≤ value.toNat ∧ value.toNat < 2 ^ 32
  | .error32 _ | .error64 _ => False

theorem isErrno_iff (v : BitVec 32) : IsErrno v ↔ 2 ^ 32 - 4095 ≤ v.toNat := by
  have hlt := v.isLt
  rw [IsErrno, toInt_eq_toNat_cond]
  split_ifs <;> omega

theorem sshiftRight_eq_zero_iff (x : BitVec 64) : x.sshiftRight 32 = 0#64 ↔ x.toNat < 2 ^ 32 := by
  have hlt := x.isLt
  rw [← toInt_inj, toInt_sshiftRight, Int.shiftRight_eq_div_pow, toInt_eq_toNat_cond]
  split_ifs with hsmall
  · simp
    omega
  · simp
    omega

/-- An error of 32 bits becomes one of 64 bits. -/
theorem toNat_signExtend_of_isErrno {v : BitVec 32} (h : IsErrno v) :
    (v.signExtend 64).toNat = v.toNat + (2 ^ 64 - 2 ^ 32) := by
  rw [isErrno_iff] at h
  have hmsb : v.msb = true := msb_eq_true_iff_two_mul_ge.2 (by omega)
  rw [toNat_signExtend, hmsb, toNat_setWidth_of_le (by omega), if_pos rfl]

theorem toNat_writeback (x : BitVec 64) : (writeback x).toNat =
      if 2 ^ 32 - 4095 ≤ x.toNat ∧ x.toNat < 2 ^ 32 then x.toNat + (2 ^ 64 - 2 ^ 32) else x.toNat := by
  have hlow : x.toNat < 2 ^ 32 → (x.setWidth 32).toNat = x.toNat := fun hlt => by
    rw [toNat_setWidth, Nat.mod_eq_of_lt hlt]
  unfold writeback
  dsimp only
  by_cases hwindow : 2 ^ 32 - 4095 ≤ x.toNat ∧ x.toNat < 2 ^ 32
  · have herrno : IsErrno (x.setWidth 32) := (isErrno_iff _).2 (by rw [hlow hwindow.2]; exact hwindow.1)
    rw [if_pos hwindow, if_pos ⟨(sshiftRight_eq_zero_iff x).2 hwindow.2, herrno⟩, toNat_signExtend_of_isErrno herrno,
      hlow hwindow.2]
  · rw [if_neg hwindow, if_neg]
    rintro ⟨hshift, herrno⟩
    have hlt := (sshiftRight_eq_zero_iff x).1 hshift
    rw [isErrno_iff, hlow hlt] at herrno
    exact hwindow ⟨herrno, hlt⟩

theorem writebackFast_eq (v : BitVec 32) : writebackFast v = writeback (v.setWidth 64) := by
  have hlt := v.isLt
  have hwide : (v.setWidth 64).toNat = v.toNat := toNat_setWidth_of_le (by omega)
  rw [← toNat_inj, toNat_writeback, hwide, writebackFast]
  by_cases herrno : IsErrno v
  · rw [if_pos herrno, if_pos ⟨(isErrno_iff v).1 herrno, hlt⟩, toNat_signExtend_of_isErrno herrno]
  · rw [if_neg herrno, if_neg fun h => herrno ((isErrno_iff v).2 h.1), hwide]

theorem writeback_raw_iff {r : Result} (hr : r.Valid) : writeback r.raw = r.meant ↔ ¬r.InWindow := by
  rw [← toNat_inj, toNat_writeback]
  cases r with
  | dword value =>
    have hlt := value.isLt
    simp only [Result.raw, Result.meant, Result.InWindow, toNat_setWidth_of_le (by omega : 32 ≤ 64)]
    split_ifs <;> omega
  | qword value =>
    change (if 2 ^ 32 - 4095 ≤ value.toNat ∧ value.toNat < 2 ^ 32 then _ else _) = value.toNat ↔ ¬(_ ∧ _)
    split_ifs with hwindow
    · exact ⟨fun h => by omega, fun h => absurd hwindow h⟩
    · exact ⟨fun _ => hwindow, fun _ => rfl⟩
  | error32 e =>
    obtain ⟨hpos, hle⟩ := hr
    have hraw : (Result.error32 e).raw.toNat = 2 ^ 32 - e := by
      rw [Result.raw, toNat_setWidth_of_le (by omega), toNat_neg, toNat_ofNat]
      omega
    have hmeant : (Result.error32 e).meant.toNat = 2 ^ 64 - e := by
      rw [Result.meant, toNat_neg, toNat_ofNat]
      omega
    rw [hraw, hmeant, if_pos (by omega)]
    exact ⟨fun _ => id, fun _ => by omega⟩
  | error64 e =>
    obtain ⟨hpos, hle⟩ := hr
    have hraw : (Result.error64 e).raw.toNat = 2 ^ 64 - e := by
      rw [Result.raw, toNat_neg, toNat_ofNat]
      omega
    change (if _ ∧ (Result.error64 e).raw.toNat < 2 ^ 32 then _ else _) = (Result.error64 e).raw.toNat ↔ ¬False
    rw [hraw, if_neg (by omega)]
    exact ⟨fun _ => id, fun _ => rfl⟩

/-- **Results of system calls.**  A handler's result, by the slow or by the fast path, is in `x0` as it was meant
if and only if it is not a value in the window; addresses of pages are not in it. -/
theorem syscall_result_iff {r : Result} (hr : r.Valid) (fast : BitVec 32) (handler : Option (BitVec 64))
    (x0 : BitVec 64) : (∀ num, num ≠ 139 → (num = 80 ∨ num = 63 ∨ num = 64 → fast = -1#32) →
      (handle num fast (some r.raw) x0 = r.meant ↔ ¬r.InWindow)) ∧ (∀ num, num = 80 ∨ num = 63 ∨ num = 64 → r.Fast →
      (handle num (r.raw.setWidth 32) handler x0 = r.meant ↔ ¬r.InWindow)) ∧
    ∀ page, page * 4096 < 2 ^ 64 → ¬(Result.qword (BitVec.ofNat 64 (page * 4096))).InWindow := by
  refine ⟨fun num hnum hfast => ?_, fun num hnum hnarrow => ?_, fun page hpage hwindow => ?_⟩
  · have hslow : handle num fast (some r.raw) x0 = writeback r.raw := by
      unfold handle
      rw [if_neg fun h => h.2 (hfast h.1)]
      exact if_neg hnum
    rw [hslow]
    exact writeback_raw_iff hr
  · have hraw : (r.raw.setWidth 32).setWidth 64 = r.raw ∧ r.raw.setWidth 32 ≠ -1#32 := by
      cases r with
      | dword value =>
        have hne : value ≠ -1#32 := hnarrow
        exact ⟨by simp [Result.raw], by simpa [Result.raw] using hne⟩
      | error32 e =>
        refine ⟨by simp [Result.raw], fun heq => hnarrow ?_⟩
        have hone := congrArg BitVec.toNat heq
        obtain ⟨hpos, hle⟩ := hr
        simp [Result.raw] at hone
        omega
      | qword value => exact hnarrow.elim
      | error64 e => exact hnarrow.elim
    unfold handle
    rw [if_pos ⟨hnum, hraw.2⟩, writebackFast_eq, hraw.1]
    exact writeback_raw_iff hr
  · obtain ⟨hlow, hhigh⟩ := hwindow
    rw [toNat_ofNat, Nat.mod_eq_of_lt hpage] at hlow hhigh
    omega

/-- A file whose `lseek` goes to the offset. -/
def plainFile : Option (Option (BitVec 64 → BitVec 32 → BitVec 64)) := some (some fun off _ => off)

/-- The position `2 ^ 31` reaches the guest. -/
theorem syscall_result_small : sysLseek64 plainFile (2 ^ 31) 0 = (Result.qword (2 ^ 31)).raw ∧
    handle 62 (-1) (some (Result.qword (2 ^ 31)).raw) 0 = 2 ^ 31 :=
  ⟨rfl, ((syscall_result_iff (r := .qword (2 ^ 31)) trivial (-1) none 0).1 62 (by decide) (by decide)).2 (by
    intro h
    exact absurd h.1 (by decide))⟩

/-- The position `2 ^ 32 - 1` becomes an error. -/
theorem lseek64_becomes_error : sysLseek64 plainFile 0xFFFFFFFF 0 = 0xFFFFFFFF ∧
      handle 62 (-1) (some (sysLseek64 plainFile 0xFFFFFFFF 0)) 0 = -1 :=
  ⟨by decide, by decide⟩

end Ish.Syscall
