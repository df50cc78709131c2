import Mathlib.Analysis.CStarAlgebra.Classes
import Mathlib.Analysis.SpecialFunctions.Pow.Continuity

/-!
Functions of a complex variable that keep its direction and have a profile of
its magnitude, and profiles joined of two at a point. Such a function is
continuous away from zero exactly where its profile is, and a joined profile is
continuous at the joint exactly when its two parts agree there.
-/

open Filter Topology

namespace RadialMap

/-- The direction of `u`, times the profile at its magnitude on a base. -/
noncomputable def radial (base : ℝ) (profile : ℝ → ℂ) (u : ℂ) : ℂ :=
  u / (‖u‖ : ℂ) * profile (‖u‖ / base)

variable {base : ℝ} {profile : ℝ → ℂ} {u : ℂ}

theorem continuousAt_magnitude (base : ℝ) (u : ℂ) : ContinuousAt (fun u : ℂ => ‖u‖ / base) u :=
  continuous_norm.continuousAt.div_const base

theorem ofReal_norm_ne_zero (hu : u ≠ 0) : ((‖u‖ : ℝ) : ℂ) ≠ 0 :=
  Complex.ofReal_ne_zero.mpr (norm_ne_zero_iff.mpr hu)

theorem continuousAt_radial (hu : u ≠ 0) (h : ContinuousAt profile (‖u‖ / base)) :
    ContinuousAt (radial base profile) u := by
  have hnorm : ContinuousAt (fun u : ℂ => ((‖u‖ : ℝ) : ℂ)) u :=
    Complex.continuous_ofReal.continuousAt.comp continuous_norm.continuousAt
  have hdirection : ContinuousAt (fun u : ℂ => u / ((‖u‖ : ℝ) : ℂ)) u :=
    continuousAt_id.div hnorm (ofReal_norm_ne_zero hu)
  have hprofile : ContinuousAt (fun u : ℂ => profile (‖u‖ / base)) u :=
    ContinuousAt.comp (f := fun u : ℂ => ‖u‖ / base) h (continuousAt_magnitude base u)
  exact hdirection.mul hprofile

/-- The point of a magnitude on the ray through `u`. -/
noncomputable def ray (base : ℝ) (u : ℂ) (r : ℝ) : ℂ := u / (‖u‖ : ℂ) * ((base * r : ℝ) : ℂ)

theorem ray_magnitude (hbase : 0 < base) (hu : u ≠ 0) : ray base u (‖u‖ / base) = u := by
  rw [ray, mul_div_cancel₀ _ hbase.ne', div_mul_cancel₀ _ (ofReal_norm_ne_zero hu)]

/-- On a ray a radial function is its profile, turned. -/
theorem radial_ray (hbase : 0 < base) (hu : u ≠ 0) {r : ℝ} (hr : 0 < r) :
    radial base profile (ray base u r) = u / (‖u‖ : ℂ) * profile r := by
  have hpos : 0 < base * r := mul_pos hbase hr
  have hne : ((base * r : ℝ) : ℂ) ≠ 0 := Complex.ofReal_ne_zero.mpr hpos.ne'
  have hunit : ‖u / (‖u‖ : ℂ)‖ = 1 := by
    rw [norm_div, Complex.norm_real, norm_norm, div_self (norm_ne_zero_iff.mpr hu)]
  have hnorm : ‖ray base u r‖ = base * r := by
    rw [ray, norm_mul, hunit, one_mul, Complex.norm_real, Real.norm_of_nonneg hpos.le]
  rw [radial, hnorm, ray, mul_div_cancel_right₀ _ hne, mul_div_cancel_left₀ r hbase.ne']

/-- Away from zero a radial function is continuous where its profile is. -/
theorem continuousAt_radial_iff (hbase : 0 < base) (hu : u ≠ 0) :
    ContinuousAt (radial base profile) u ↔ ContinuousAt profile (‖u‖ / base) := by
  constructor
  · intro h
    have hr : 0 < ‖u‖ / base := div_pos (norm_pos_iff.mpr hu) hbase
    have hray : ContinuousAt (ray base u) (‖u‖ / base) :=
      (continuous_const.mul (Complex.continuous_ofReal.comp
        (continuous_const.mul continuous_id))).continuousAt
    have hback : ContinuousAt (radial base profile) (ray base u (‖u‖ / base)) := by
      rwa [ray_magnitude hbase hu]
    have hcomp : ContinuousAt (fun r => radial base profile (ray base u r)) (‖u‖ / base) :=
      ContinuousAt.comp (f := ray base u) (g := radial base profile) hback hray
    have hdirection : u / (‖u‖ : ℂ) ≠ 0 := div_ne_zero hu (ofReal_norm_ne_zero hu)
    have hturned : ContinuousAt
        (fun r => (u / (‖u‖ : ℂ))⁻¹ * radial base profile (ray base u r)) (‖u‖ / base) :=
      continuousAt_const.mul hcomp
    apply hturned.congr
    filter_upwards [lt_mem_nhds hr] with x hx
    rw [radial_ray hbase hu hx, inv_mul_cancel_left₀ hdirection]
  · exact continuousAt_radial hu

/-! ### Joined profiles -/

/-- The first profile up to the joint, the second beyond it. -/
noncomputable def joined (joint : ℝ) (first second : ℝ → ℂ) (r : ℝ) : ℂ :=
  if r ≤ joint then first r else second r

variable {joint r : ℝ} {first second : ℝ → ℂ}

theorem joined_of_le (h : r ≤ joint) : joined joint first second r = first r := if_pos h

theorem joined_of_lt (h : joint < r) : joined joint first second r = second r :=
  if_neg (not_le.mpr h)

theorem joined_eventuallyEq_of_lt (h : r < joint) : joined joint first second =ᶠ[𝓝 r] first := by
  filter_upwards [gt_mem_nhds h] with x hx
  exact joined_of_le (le_of_lt hx)

theorem joined_eventuallyEq_of_gt (h : joint < r) : joined joint first second =ᶠ[𝓝 r] second := by
  filter_upwards [lt_mem_nhds h] with x hx
  exact joined_of_lt hx

theorem continuousAt_joined_of_lt (h : r < joint) :
    ContinuousAt (joined joint first second) r ↔ ContinuousAt first r :=
  continuousAt_congr (joined_eventuallyEq_of_lt h)

theorem continuousAt_joined_of_gt (h : joint < r) :
    ContinuousAt (joined joint first second) r ↔ ContinuousAt second r :=
  continuousAt_congr (joined_eventuallyEq_of_gt h)

/-- At the joint the limits from both sides are the values of the parts. -/
theorem continuousAt_joined_iff (hfirst : ContinuousAt first joint)
    (hsecond : ContinuousAt second joint) :
    ContinuousAt (joined joint first second) joint ↔ first joint = second joint := by
  have hvalue : joined joint first second joint = first joint := joined_of_le (le_refl joint)
  constructor
  · intro h
    have hlimit : Tendsto (joined joint first second) (𝓝[>] joint) (𝓝 (first joint)) := by
      rw [← hvalue]
      exact h.tendsto.mono_left nhdsWithin_le_nhds
    have hbeyond : Tendsto second (𝓝[>] joint) (𝓝 (second joint)) :=
      hsecond.tendsto.mono_left nhdsWithin_le_nhds
    have hsame : joined joint first second =ᶠ[𝓝[>] joint] second := by
      filter_upwards [self_mem_nhdsWithin] with x hx
      exact joined_of_lt hx
    exact tendsto_nhds_unique hlimit (hbeyond.congr' hsame.symm)
  · intro h
    rw [continuousAt_iff_continuous_left'_right']
    constructor
    · have hsame : joined joint first second =ᶠ[𝓝[<] joint] first := by
        filter_upwards [self_mem_nhdsWithin] with x hx
        exact joined_of_le (le_of_lt hx)
      exact hfirst.continuousWithinAt.congr_of_eventuallyEq hsame hvalue
    · have hsame : joined joint first second =ᶠ[𝓝[>] joint] second := by
        filter_upwards [self_mem_nhdsWithin] with x hx
        exact joined_of_lt hx
      exact hsecond.continuousWithinAt.congr_of_eventuallyEq hsame (hvalue.trans h)

end RadialMap
