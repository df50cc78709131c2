import Mathlib.Algebra.BigOperators.Ring.List
import Mathlib.Algebra.Module.LinearMap.Defs
import Mathlib.Algebra.Order.BigOperators.Group.List
import Mathlib.Algebra.Order.Field.Basic
import Mathlib.Tactic.Linarith
import Mathlib.Tactic.Ring
import Tellegen.Lib.Instances

/-!
Least squares over an ordered field. A row is a linear functional with a
target, and a vector is judged by the squares of what it misses the targets by.
The square is a convex function of the vector, so a vector that misses every
row at right angles to a direction is best in it, the best vector of a convex
set is determined as far as the rows can tell, and the best of a half space is
on its border when the best of all is outside.
-/

set_option linter.unusedSectionVars false

namespace LeastSquares

variable {K V : Type} [Field K] [LinearOrder K] [IsStrictOrderedRing K] [AddCommGroup V] [Module K V]

abbrev Rows (K V : Type) [Field K] [AddCommGroup V] [Module K V] := List ((V →ₗ[K] K) × K)

def squaredError (rows : Rows K V) (v : V) : K := (rows.map fun row => (row.1 v - row.2) ^ 2).sum

/-- The sum over the rows of what `v` misses times what `w` gives. -/
def residualDot (rows : Rows K V) (v w : V) : K := (rows.map fun row => (row.1 v - row.2) * row.1 w).sum

/-- The sum of the squares of what a vector gives. -/
def squaredLength (rows : Rows K V) (w : V) : K := (rows.map fun row => row.1 w ^ 2).sum

theorem squaredLength_nonneg (rows : Rows K V) (w : V) : 0 ≤ squaredLength rows w := by
  apply List.sum_nonneg
  intro value hvalue
  obtain ⟨row, -, rfl⟩ := List.mem_map.mp hvalue
  exact sq_nonneg _

theorem squaredError_nonneg (rows : Rows K V) (v : V) : 0 ≤ squaredError rows v := by
  apply List.sum_nonneg
  intro value hvalue
  obtain ⟨row, -, rfl⟩ := List.mem_map.mp hvalue
  exact sq_nonneg _

/-- A vector of no length gives nothing at any row. -/
theorem eq_zero_of_squaredLength {rows : Rows K V} {w : V} (h : squaredLength rows w = 0) :
    ∀ row ∈ rows, row.1 w = 0 := by
  induction rows with
  | nil => exact fun row hrow => absurd hrow List.not_mem_nil
  | cons first rows ih =>
    have hsum : first.1 w ^ 2 + squaredLength rows w = 0 := h
    have hfirst := sq_nonneg (first.1 w)
    have hrest := squaredLength_nonneg rows w
    intro row hrow
    obtain rfl | hrow := List.mem_cons.mp hrow
    · apply pow_eq_zero_iff two_ne_zero |>.mp
      linarith
    · apply ih _ row hrow
      linarith

/-- The error at another vector. -/
theorem squaredError_add (rows : Rows K V) (v w : V) :
    squaredError rows (v + w) = squaredError rows v + 2 * residualDot rows v w + squaredLength rows w := by
  induction rows with
  | nil => simp [squaredError, residualDot, squaredLength]
  | cons row rows ih =>
    change (row.1 (v + w) - row.2) ^ 2 + squaredError rows (v + w) =
      (row.1 v - row.2) ^ 2 + squaredError rows v +
        2 * ((row.1 v - row.2) * row.1 w + residualDot rows v w) + (row.1 w ^ 2 + squaredLength rows w)
    rw [ih, map_add]
    ring

theorem residualDot_smul (rows : Rows K V) (v w : V) (t : K) :
    residualDot rows v (t • w) = t * residualDot rows v w := by
  induction rows with
  | nil => simp [residualDot]
  | cons row rows ih =>
    change (row.1 v - row.2) * row.1 (t • w) + residualDot rows v (t • w) =
      t * ((row.1 v - row.2) * row.1 w + residualDot rows v w)
    rw [ih, map_smul, smul_eq_mul]
    ring

theorem squaredLength_smul (rows : Rows K V) (w : V) (t : K) :
    squaredLength rows (t • w) = t ^ 2 * squaredLength rows w := by
  induction rows with
  | nil => simp [squaredLength]
  | cons row rows ih =>
    change row.1 (t • w) ^ 2 + squaredLength rows (t • w) = t ^ 2 * (row.1 w ^ 2 + squaredLength rows w)
    rw [ih, map_smul, smul_eq_mul]
    ring

theorem squaredLength_eq (rows : Rows K V) (w : V) :
    squaredLength rows w = residualDot rows w w - residualDot rows 0 w := by
  induction rows with
  | nil => simp [squaredLength, residualDot]
  | cons row rows ih =>
    change row.1 w ^ 2 + squaredLength rows w = (row.1 w - row.2) * row.1 w + residualDot rows w w -
      ((row.1 0 - row.2) * row.1 w + residualDot rows 0 w)
    rw [ih, map_zero]
    ring

/-- A vector that misses every row at right angles to a direction is best in it. -/
theorem squaredError_le {rows : Rows K V} {v w : V} (h : residualDot rows v (w - v) = 0) :
    squaredError rows v ≤ squaredError rows w := by
  have hw : v + (w - v) = w := add_sub_cancel v w
  have herror := squaredError_add rows v (w - v)
  have hlength := squaredLength_nonneg rows (w - v)
  rw [hw, h] at herror
  linarith

/-- Along a segment the error is a convex quadratic. -/
theorem squaredError_segment (rows : Rows K V) (v w : V) (t : K) :
    squaredError rows (v + t • (w - v)) = (1 - t) * squaredError rows v + t * squaredError rows w -
      t * (1 - t) * squaredLength rows (w - v) := by
  have hw : v + (w - v) = w := add_sub_cancel v w
  have hend := squaredError_add rows v (w - v)
  rw [hw] at hend
  rw [squaredError_add, residualDot_smul, squaredLength_smul, hend]
  ring

/-- A vector that is as good as the best gives the same at every row, where their middle is no better. -/
theorem eq_of_best {rows : Rows K V} {v w : V} (hw : squaredError rows w ≤ squaredError rows v)
    (hmiddle : squaredError rows v ≤ squaredError rows (v + (1 / 2 : K) • (w - v))) :
    ∀ row ∈ rows, row.1 v = row.1 w := by
  have hsegment := squaredError_segment rows v w (1 / 2)
  have hlength := squaredLength_nonneg rows (w - v)
  have hzero : squaredLength rows (w - v) = 0 := by linarith
  intro row hrow
  have hrow := eq_zero_of_squaredLength hzero row hrow
  rw [map_sub, sub_eq_zero] at hrow
  exact hrow.symm

/-- Where the best of all vectors is outside a half space, the best of its border is the best of the half space. -/
theorem squaredError_border {rows : Rows K V} (g : V →ₗ[K] K) {best border w : V}
    (hbest : ∀ w, squaredError rows best ≤ squaredError rows w) (hout : g best < 0)
    (hborder : ∀ w, g w = 0 → squaredError rows border ≤ squaredError rows w) (hw : 0 ≤ g w) :
    squaredError rows border ≤ squaredError rows w := by
  have hpositive : 0 < g w - g best := by linarith
  set t := -g best / (g w - g best) with ht
  have hmul : t * (g w - g best) = -g best := div_mul_cancel₀ _ (ne_of_gt hpositive)
  have hnonneg : 0 ≤ t := div_nonneg (by linarith) (le_of_lt hpositive)
  have hle : t ≤ 1 := (div_le_one hpositive).mpr (by linarith)
  -- where the segment from the best vector crosses the border
  have hcross : g (best + t • (w - best)) = 0 := by
    rw [map_add, map_smul, map_sub, smul_eq_mul, hmul, add_neg_cancel]
  have hsegment := squaredError_segment rows best w t
  have hlength := mul_nonneg (mul_nonneg hnonneg (sub_nonneg.mpr hle)) (squaredLength_nonneg rows (w - best))
  have hconvex : (1 - t) * squaredError rows best + t * squaredError rows w ≤ squaredError rows w := by
    have hshare := mul_le_mul_of_nonneg_left (hbest w) (sub_nonneg.mpr hle)
    linarith
  have hfirst := hborder _ hcross
  linarith

end LeastSquares
