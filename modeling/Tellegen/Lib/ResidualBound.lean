import Mathlib.Analysis.Matrix.Normed

/-!
Approximate inverses. A matrix whose product with a guess is near the identity is invertible, and the guess
bounds its inverse; the distance is the largest column sum of absolute values.
-/

open scoped NNReal

namespace ResidualBound

section Ring

variable {R : Type*} [NormedRing R] {a x y : R} {r : ℝ}

theorem norm_inverse_le (hy : a * y = 1) (hr : ‖1 - x * a‖ ≤ r) (hr1 : r < 1) : ‖y‖ ≤ ‖x‖ / (1 - r) := by
  have hsplit : y = x + (1 - x * a) * y := by
    rw [sub_mul, one_mul, mul_assoc, hy, mul_one, add_sub_cancel]
  have hbound : ‖y‖ ≤ ‖x‖ + r * ‖y‖ := by
    calc ‖y‖ = ‖x + (1 - x * a) * y‖ := by rw [← hsplit]
      _ ≤ ‖x‖ + ‖(1 - x * a) * y‖ := norm_add_le _ _
      _ ≤ ‖x‖ + ‖1 - x * a‖ * ‖y‖ := by
        gcongr
        exact norm_mul_le _ _
      _ ≤ ‖x‖ + r * ‖y‖ := by gcongr
  rw [le_div_iff₀ (sub_pos.mpr hr1)]
  linarith

theorem isUnit_of_residual [CompleteSpace R] (hr : ‖1 - x * a‖ < 1) : IsUnit (x * a) := by
  have hunit := isUnit_one_sub_of_norm_lt_one hr
  rwa [sub_sub_cancel] at hunit

end Ring

section Norm

variable {ι : Type*} [Fintype ι]

attribute [local instance] Matrix.linftyOpNormedAddCommGroup

noncomputable def oneNorm (A : Matrix ι ι ℝ) : ℝ :=
  ((Finset.univ.sup fun j => ∑ i, ‖A i j‖₊ : ℝ≥0) : ℝ)

theorem oneNorm_eq (A : Matrix ι ι ℝ) : oneNorm A = ‖A.transpose‖ := by
  rw [Matrix.linfty_opNorm_def]
  rfl

theorem oneNorm_nonneg (A : Matrix ι ι ℝ) : 0 ≤ oneNorm A := NNReal.coe_nonneg _

theorem oneNorm_le {A : Matrix ι ι ℝ} {c : ℝ} (hc : 0 ≤ c) (h : ∀ j, ∑ i, |A i j| ≤ c) : oneNorm A ≤ c := by
  lift c to ℝ≥0 using hc
  rw [oneNorm, NNReal.coe_le_coe]
  apply Finset.sup_le
  intro j _
  rw [← NNReal.coe_le_coe, NNReal.coe_sum]
  exact h j

end Norm

section Matrix

variable {ι : Type*} [Fintype ι] [DecidableEq ι]

attribute [local instance] Matrix.linftyOpNormedRing Matrix.linftyOpNormedSpace

variable {A X : Matrix ι ι ℝ} {r : ℝ}

/-- A guess with a residual below one proves a matrix invertible. -/
theorem isUnit_det_of_residual (hr : oneNorm (1 - A * X) ≤ r) (hr1 : r < 1) : IsUnit A.det := by
  rw [oneNorm_eq, Matrix.transpose_sub, Matrix.transpose_one, Matrix.transpose_mul] at hr
  have := FiniteDimensional.complete ℝ (Matrix ι ι ℝ)
  have hunit := isUnit_of_residual (lt_of_le_of_lt hr hr1)
  rw [Matrix.isUnit_iff_isUnit_det, Matrix.det_mul, Matrix.det_transpose, Matrix.det_transpose] at hunit
  exact isUnit_of_mul_isUnit_right hunit

theorem oneNorm_inv_le (hr : oneNorm (1 - A * X) ≤ r) (hr1 : r < 1) :
    oneNorm A⁻¹ ≤ oneNorm X / (1 - r) := by
  have hunit := isUnit_det_of_residual hr hr1
  rw [oneNorm_eq, Matrix.transpose_sub, Matrix.transpose_one, Matrix.transpose_mul] at hr
  rw [oneNorm_eq, oneNorm_eq]
  have hinv : A.transpose * A⁻¹.transpose = 1 := by
    rw [← Matrix.transpose_mul, Matrix.nonsing_inv_mul A hunit, Matrix.transpose_one]
  exact norm_inverse_le hinv hr hr1

/-- The condition number in the largest column sum. -/
noncomputable def condition (A : Matrix ι ι ℝ) : ℝ := oneNorm A * oneNorm A⁻¹

theorem condition_le {m s : ℝ} (hm : oneNorm A ≤ m) (hs : oneNorm X ≤ s) (hr : oneNorm (1 - A * X) ≤ r)
    (hr1 : r < 1) : condition A ≤ m * s / (1 - r) := by
  have hpos : 0 < 1 - r := sub_pos.mpr hr1
  have hinv : oneNorm A⁻¹ ≤ s / (1 - r) :=
    (oneNorm_inv_le hr hr1).trans (div_le_div_of_nonneg_right hs hpos.le)
  rw [condition, mul_div_assoc]
  exact mul_le_mul hm hinv (oneNorm_nonneg _) ((oneNorm_nonneg _).trans hm)

end Matrix

end ResidualBound
