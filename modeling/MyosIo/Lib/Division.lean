import Mathlib.Algebra.Order.Ring.Int
import Mathlib.Tactic.Linarith
import Mathlib.Tactic.Ring

/-! A quotient digit is estimated from leading digits, and a long division goes from one partial
dividend to the next. -/
namespace MyosIo

variable {B b s X l d : ℤ} {j k : ℕ}

/-- The estimate that rounds the dividend up and the divisor down is not too small. -/
theorem le_estimate (hX : 0 ≤ X) (hb : 0 < b) (hs : 0 < s) (hV : 0 < b / s) :
    X / b ≤ (X / s + 1) / (b / s) := by
  have hq : 0 ≤ X / b := Int.ediv_nonneg hX hb.le
  have hlead : X / b * (b / s) ≤ X / s := by
    rw [Int.le_ediv_iff_mul_le hs, mul_assoc]
    calc X / b * (b / s * s) ≤ X / b * b :=
          mul_le_mul_of_nonneg_left (Int.ediv_mul_le b hs.ne') hq
      _ ≤ X := Int.ediv_mul_le X hb.ne'
  rw [Int.le_ediv_iff_mul_le hV]
  omega

/-- The estimate that rounds the other way is not too large. -/
theorem estimate_le (hX : 0 ≤ X) (hb : 0 < b) (hs : 0 < s) : X / s / (b / s + 1) ≤ X / b := by
  have hV : 0 < b / s + 1 := by
    have := Int.ediv_nonneg hb.le hs.le
    omega
  have hp : 0 ≤ X / s / (b / s + 1) := Int.ediv_nonneg (Int.ediv_nonneg hX hs.le) hV.le
  rw [Int.le_ediv_iff_mul_le hb]
  calc X / s / (b / s + 1) * b
      ≤ X / s / (b / s + 1) * ((b / s + 1) * s) :=
        mul_le_mul_of_nonneg_left (Int.lt_ediv_add_one_mul_self b hs).le hp
    _ = X / s / (b / s + 1) * (b / s + 1) * s := (mul_assoc _ _ _).symm
    _ ≤ X / s * s := mul_le_mul_of_nonneg_right (Int.ediv_mul_le _ hV.ne') hs.le
    _ ≤ X := Int.ediv_mul_le X hs.ne'

/-- The estimate from the leading digits of `X` and `b` is at most one too large. -/
def Close (b X s : ℤ) : Prop := b / s ≠ 0 ∧ (X / s + 1) / (b / s) ≤ X / b + 1

instance : Decidable (Close b X s) := inferInstanceAs (Decidable (_ ∧ _))

/-- The leading digits of a long enough divisor leave an error below one. -/
theorem close_of_large (hX : 0 ≤ X) (hb : 0 < b) (hs : 0 < s)
    (hlead : X / s < (b / s) * (b / s)) : Close b X s := by
  have hV₀ : 0 ≤ b / s := Int.ediv_nonneg hb.le hs.le
  have hT : 0 ≤ X / s := Int.ediv_nonneg hX hs.le
  have hV : 0 < b / s := by
    refine lt_of_le_of_ne hV₀ fun hz => ?_
    rw [← hz, mul_zero] at hlead
    omega
  refine ⟨hV.ne', ?_⟩
  have hlow := estimate_le hX hb hs
  generalize b / s = V at *
  generalize X / s = T at *
  have hstep : (T + 1) / V ≤ T / (V + 1) + 1 := by
    have hrem := Int.lt_ediv_add_one_mul_self T (show 0 < V + 1 by omega)
    have hsmall : T / (V + 1) + 1 ≤ V := by
      have : T / (V + 1) < V := Int.ediv_lt_of_lt_mul (by omega) (by nlinarith)
      omega
    rw [← Int.lt_add_one_iff]
    refine Int.ediv_lt_of_lt_mul hV ?_
    nlinarith
  omega

/-- The digits of the quotient below the first one come from the remainder. -/
theorem division_step (hb : 0 < b) :
    (l + B ^ k * X) / b = B ^ k * (X / b) + (l + B ^ k * (X % b)) / b := by
  have hsplit : l + B ^ k * X = l + B ^ k * (X % b) + B ^ k * (X / b) * b := by
    conv_lhs => rw [← Int.emod_add_mul_ediv X b]
    ring
  rw [hsplit, Int.add_mul_ediv_right _ _ hb.ne', add_comm]

/-- The digits below the first one leave room for it. -/
theorem rest_bounds (hb : 0 < b) (hl : 0 ≤ l ∧ l < B ^ k) :
    0 ≤ (l + B ^ k * (X % b)) / b ∧ (l + B ^ k * (X % b)) / b < B ^ k := by
  have hrem₀ := Int.emod_nonneg X hb.ne'
  have hrem : X % b + 1 ≤ b := Int.emod_lt_of_pos X hb
  have hpow : 0 ≤ B ^ k := by omega
  have hmul := Int.mul_le_mul_of_nonneg_left hrem hpow
  have hmul₀ := Int.mul_nonneg hpow hrem₀
  rw [mul_add, mul_one] at hmul
  exact ⟨Int.ediv_nonneg (by omega) hb.le, Int.ediv_lt_of_lt_mul hb (by omega)⟩

/-- A number above `k` digits is read off. -/
theorem high_unique {P u v q q' : ℤ} (hu : 0 ≤ u ∧ u < P) (hv : 0 ≤ v ∧ v < P)
    (h : u + P * q = P * q' + v) : q = q' ∧ u = v := by
  have hP : P ≠ 0 := by omega
  have hdiv := congrArg (· / P) h
  rw [Int.add_mul_ediv_left _ _ hP, add_comm (P * q'), Int.add_mul_ediv_left _ _ hP,
    Int.ediv_eq_zero_of_lt hu.1 hu.2, Int.ediv_eq_zero_of_lt hv.1 hv.2, zero_add, zero_add] at hdiv
  subst hdiv
  exact ⟨rfl, by omega⟩

/-- The partial dividend is what is left of the leading digits. -/
theorem window_eq (hl : 0 ≤ l ∧ l < B ^ k) (hX : 0 ≤ X ∧ X < b * B) :
    (l + B ^ k * X) / B ^ k % (b * B) = X := by
  have hpow : B ^ k ≠ 0 := by omega
  rw [Int.add_mul_ediv_left _ _ hpow, Int.ediv_eq_zero_of_lt hl.1 hl.2, zero_add,
    Int.emod_eq_of_lt hX.1 hX.2]

/-- The partial dividends further down do not change when a digit is taken off. -/
theorem window_lower (hB : 0 < B) (hj : j < k) :
    (l + B ^ k * X) / B ^ j % (b * B) = (l + B ^ k * (X % b)) / B ^ j % (b * B) := by
  obtain ⟨i, rfl⟩ : ∃ i, k = j + (i + 1) := ⟨k - j - 1, by omega⟩
  have hsplit : l + B ^ (j + (i + 1)) * X =
      l + B ^ (j + (i + 1)) * (X % b) + B ^ j * (b * B * (B ^ i * (X / b))) := by
    conv_lhs => rw [← Int.emod_add_mul_ediv X b]
    rw [pow_add, pow_succ]
    ring
  rw [hsplit, Int.add_mul_ediv_left _ _ (pow_pos hB j).ne', Int.add_mul_emod_self_left]

end MyosIo
