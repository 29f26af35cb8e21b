import Mathlib

/-!
# The SHA-256 helpers

The helpers of `asbestos/guest-arm64/crypto_helpers.c`. With distinct operand registers a helper is a function from the
lanes of its operands to those of the first. They compute four rounds and the next four words
(`sha256_rounds_schedule`).
-/

namespace Ish.Crypto

abbrev Word := BitVec 32

/-- A register of four lanes. -/
abbrev Lanes := Fin 4 → Word

def rotr32 (x : Word) (n : ℕ) : Word := x >>> n ||| x <<< (32 - n)

def sha256Sigma0 (x : Word) : Word := rotr32 x 2 ^^^ rotr32 x 13 ^^^ rotr32 x 22

def sha256Sigma1 (x : Word) : Word := rotr32 x 6 ^^^ rotr32 x 11 ^^^ rotr32 x 25

def sha256Sig0 (x : Word) : Word := rotr32 x 7 ^^^ rotr32 x 18 ^^^ x >>> 3

def sha256Sig1 (x : Word) : Word := rotr32 x 17 ^^^ rotr32 x 19 ^^^ x >>> 10

def sha256Ch (e f g : Word) : Word := (e &&& f) ^^^ (~~~e &&& g)

def sha256Maj (a b c : Word) : Word := (a &&& b) ^^^ (a &&& c) ^^^ (b &&& c)

/-- The loop of `sha256h_helper` and `sha256h2_helper`, on the variables `a` to `d` and `e` to `h`. -/
def sha256Loop (abcd efgh vm : Lanes) : Lanes × Lanes :=
  (List.finRange 4).foldl (fun (s, t) i =>
    let t1 := t 3 + sha256Sigma1 (t 0) + sha256Ch (t 0) (t 1) (t 2) + vm i
    let t2 := sha256Sigma0 (s 0) + sha256Maj (s 0) (s 1) (s 2)
    (![t1 + t2, s 0, s 1, s 2], ![s 3 + t1, t 0, t 1, t 2])) (abcd, efgh)

def sha256hHelper (qd qn vm : Lanes) : Lanes := (sha256Loop qd qn vm).1

def sha256h2Helper (qd qn vm : Lanes) : Lanes := (sha256Loop qn qd vm).2

def sha256su0Helper (vd vn : Lanes) : Lanes :=
  ![vd 0 + sha256Sig0 (vd 1), vd 1 + sha256Sig0 (vd 2), vd 2 + sha256Sig0 (vd 3), vd 3 + sha256Sig0 (vn 0)]

/-- The last two assignments read what the first two have left. -/
def sha256su1Helper (vd vn vm : Lanes) : Lanes :=
  let d0 := vd 0 + sha256Sig1 (vm 2) + vn 1
  let d1 := vd 1 + sha256Sig1 (vm 3) + vn 2
  ![d0, d1, vd 2 + sha256Sig1 d0 + vn 3, vd 3 + sha256Sig1 d1 + vm 0]

/-! ### The standard -/

/-- One round on the variables `a` to `h`, with a word and its constant added. -/
def sha256Round (s : Fin 8 → Word) (wk : Word) : Fin 8 → Word :=
  let s0 := (s 0).rotateRight 2 ^^^ (s 0).rotateRight 13 ^^^ (s 0).rotateRight 22
  let s1 := (s 4).rotateRight 6 ^^^ (s 4).rotateRight 11 ^^^ (s 4).rotateRight 25
  let t1 := s 7 + s1 + (s 4 &&& s 5 ^^^ ~~~s 4 &&& s 6) + wk
  ![t1 + (s0 + (s 0 &&& s 1 ^^^ s 0 &&& s 2 ^^^ s 1 &&& s 2)), s 0, s 1, s 2, s 3 + t1, s 4, s 5, s 6]

/-- The schedule: the words of a block, and then the recurrence. -/
def sha256Schedule (w : ℕ → Word) (t : ℕ) : Word :=
  if t < 16 then w t
  else
    let x := sha256Schedule w (t - 2)
    let y := sha256Schedule w (t - 15)
    (x.rotateRight 17 ^^^ x.rotateRight 19 ^^^ x >>> 10) + sha256Schedule w (t - 7) +
      (y.rotateRight 7 ^^^ y.rotateRight 18 ^^^ y >>> 3) + sha256Schedule w (t - 16)

theorem rotr32_eq (x : Word) {n : ℕ} (h : n < 32) : rotr32 x n = x.rotateRight n :=
  (BitVec.rotateRight_eq_rotateRightAux_of_lt h).symm

theorem sha256Schedule_add (w : ℕ → Word) (t : ℕ) : let W := sha256Schedule w
    W (t + 16) = W t + sha256Sig0 (W (t + 1)) + sha256Sig1 (W (t + 14)) + W (t + 9) := by
  dsimp only
  rw [sha256Schedule, if_neg (by omega)]
  simp (disch := decide) only [sha256Sig0, sha256Sig1, rotr32_eq]
  rw [show t + 16 - 2 = t + 14 from rfl, show t + 16 - 15 = t + 1 from rfl, show t + 16 - 7 = t + 9 from rfl,
    Nat.add_sub_cancel]
  ac_rfl

/-- Word `t` of the sixteen in four registers. -/
def words (r : Fin 4 → Lanes) (t : ℕ) : Word := r (Fin.ofNat 4 (t / 4)) (Fin.ofNat 4 t)

/-- **Rounds and schedule.** -/
theorem sha256_rounds_schedule (s : Fin 8 → Word) (wk : Lanes) (r : Fin 4 → Lanes) :
    let abcd := fun i : Fin 4 => s (i.castAdd 4)
    let efgh := fun i : Fin 4 => s (i.natAdd 4)
    let s' := (List.ofFn wk).foldl sha256Round s
    (∀ i, sha256hHelper abcd efgh wk i = s' (i.castAdd 4) ∧ sha256h2Helper efgh abcd wk i = s' (i.natAdd 4)) ∧
      ∀ i, sha256su1Helper (sha256su0Helper (r 0) (r 1)) (r 2) (r 3) i = sha256Schedule (words r) (i + 16) := by
  refine ⟨?_, ?_⟩
  · have hround : sha256Loop (fun i => s (i.castAdd 4)) (fun i => s (i.natAdd 4)) wk =
        let s' := (List.ofFn wk).foldl sha256Round s
        (![s' 0, s' 1, s' 2, s' 3], ![s' 4, s' 5, s' 6, s' 7]) := by
      simp (disch := decide) only [sha256Loop, sha256Sigma0, sha256Sigma1, rotr32_eq]
      rfl
    intro i
    rw [sha256hHelper, sha256h2Helper, hround]
    fin_cases i <;> exact ⟨rfl, rfl⟩
  · have hlt : ∀ {t}, t < 16 → sha256Schedule (words r) t = words r t := fun h => by rw [sha256Schedule, if_pos h]
    have h16 := sha256Schedule_add (words r) 0
    have h17 := sha256Schedule_add (words r) 1
    have h18 := sha256Schedule_add (words r) 2
    have h19 := sha256Schedule_add (words r) 3
    simp (disch := decide) only [hlt, Nat.reduceAdd] at h16 h17 h18 h19
    intro i
    fin_cases i
    · exact Eq.trans (by rfl) h16.symm
    · exact Eq.trans (by rfl) h17.symm
    · -- made from the first of the four
      rw [h16] at h18
      exact Eq.trans (by rfl) h18.symm
    · rw [h17] at h19
      exact Eq.trans (by rfl) h19.symm

end Ish.Crypto
