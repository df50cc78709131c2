import Mathlib.Analysis.InnerProductSpace.Orthonormal

/-!
Orthogonalization of a family of vectors by pivots. One residual is scaled to
length one and its part is subtracted from all of them, so the residuals stay
orthogonal to the pivots and each differs from its vector by something that the
pivots span. The pivots so far bound the rank from below, and give it once
nothing is left.
-/

open Submodule Module

namespace Orthogonalization

variable {E ι : Type*} [NormedAddCommGroup E] [InnerProductSpace ℝ E]

/-- Vectors of length one, each orthogonal to the others. -/
structure UnitList (basis : List E) : Prop where
  unit : ∀ q ∈ basis, ‖q‖ = 1
  orthogonal : basis.Pairwise fun p q => inner ℝ p q = 0

theorem UnitList.nil : UnitList ([] : List E) :=
  ⟨fun _ h => absurd h List.not_mem_nil, List.Pairwise.nil⟩

theorem UnitList.append {basis : List E} (h : UnitList basis) {q : E} (hunit : ‖q‖ = 1)
    (horthogonal : ∀ p ∈ basis, inner ℝ p q = 0) : UnitList (basis ++ [q]) := by
  constructor
  case unit =>
    intro p hp
    obtain hp | hp := List.mem_append.mp hp
    · exact h.unit p hp
    · rw [List.mem_singleton.mp hp, hunit]
  case orthogonal =>
    rw [List.pairwise_append]
    refine ⟨h.orthogonal, List.pairwise_singleton _ _, ?_⟩
    intro p hp r hr
    rw [List.mem_singleton.mp hr]
    exact horthogonal p hp

theorem UnitList.orthonormal {basis : List E} (h : UnitList basis) : Orthonormal ℝ basis.get := by
  constructor
  · exact fun i => h.unit _ (List.get_mem basis i)
  · intro i j hij
    obtain hlt | hlt := lt_or_gt_of_ne hij
    · exact List.pairwise_iff_get.mp h.orthogonal i j hlt
    · change inner ℝ (basis.get i) (basis.get j) = 0
      rw [real_inner_comm]
      exact List.pairwise_iff_get.mp h.orthogonal j i hlt

noncomputable def without (b v : E) : E := v - inner ℝ v b • b

theorem without_of_inner {b v : E} (h : inner ℝ v b = (0 : ℝ)) : without b v = v := by
  rw [without, h, zero_smul, sub_zero]

theorem without_without {b : E} (hb : ‖b‖ = 1) (v : E) :
    without b (without b v) = without b v := by
  apply without_of_inner
  rw [without, inner_sub_left, inner_smul_left, real_inner_self_eq_norm_sq, hb, conj_trivial, one_pow,
    mul_one, sub_self]

theorem without_self {v : E} (hv : v ≠ 0) : without (‖v‖⁻¹ • v) v = 0 := by
  have hnorm : ‖v‖ ≠ 0 := norm_ne_zero_iff.mpr hv
  have hfactor : ‖v‖⁻¹ * ‖v‖ ^ 2 * ‖v‖⁻¹ = 1 := by
    field_simp
  rw [without, inner_smul_right, real_inner_self_eq_norm_sq, smul_smul, hfactor, one_smul, sub_self]

def spanOf (basis : List E) : Submodule ℝ E := span ℝ {q | q ∈ basis}

theorem spanOf_eq_range (basis : List E) : spanOf basis = span ℝ (Set.range basis.get) := by
  rw [spanOf, Set.range_list_get]

theorem UnitList.finrank {basis : List E} (h : UnitList basis) :
    finrank ℝ (spanOf basis) = basis.length := by
  rw [spanOf_eq_range, finrank_span_eq_card h.orthonormal.linearIndependent, Fintype.card_fin]

theorem mem_spanOf {basis : List E} {q : E} (h : q ∈ basis) : q ∈ spanOf basis := subset_span h

theorem spanOf_mono {basis basis' : List E} (h : ∀ q ∈ basis, q ∈ basis') :
    spanOf basis ≤ spanOf basis' := span_mono h

/-! ### Residuals -/

/-- The residuals `r` that the pivots leave of the vectors `a`. -/
structure Residuals (a : ι → E) (basis : List E) (r : ι → E) : Prop where
  units : UnitList basis
  span : ∀ i, a i - r i ∈ spanOf basis
  orthogonal : ∀ i, ∀ q ∈ basis, inner ℝ q (r i) = 0
  inside : ∀ q ∈ basis, q ∈ Submodule.span ℝ (Set.range a)

theorem residuals_start (a : ι → E) : Residuals a [] a := by
  constructor
  case units => exact UnitList.nil
  case span =>
    intro i
    rw [sub_self]
    exact zero_mem _
  case orthogonal => exact fun _ _ h => absurd h List.not_mem_nil
  case inside => exact fun _ h => absurd h List.not_mem_nil

variable {a r : ι → E} {basis : List E}

theorem Residuals.mem_range (h : Residuals a basis r) (i : ι) :
    r i ∈ Submodule.span ℝ (Set.range a) := by
  have hspan : spanOf basis ≤ Submodule.span ℝ (Set.range a) := span_le.mpr h.inside
  have hself : a i ∈ Submodule.span ℝ (Set.range a) := subset_span (Set.mem_range_self i)
  have hdifference := Submodule.sub_mem _ hself (hspan (h.span i))
  rwa [sub_sub_cancel] at hdifference

/-- A residual that is not zero becomes the next pivot. -/
theorem Residuals.pivot (h : Residuals a basis r) {p : ι} (hp : r p ≠ 0) {q : E}
    (hq : q = ‖r p‖⁻¹ • r p) : Residuals a (basis ++ [q]) fun i => r i - inner ℝ (r i) q • q := by
  have hunit : ‖q‖ = 1 := by
    rw [hq, norm_smul, norm_inv, norm_norm, inv_mul_cancel₀ (norm_ne_zero_iff.mpr hp)]
  have horthogonal : ∀ b ∈ basis, inner ℝ b q = 0 := by
    intro b hb
    rw [hq, inner_smul_right, h.orthogonal p b hb, mul_zero]
  have hself : inner ℝ q q = (1 : ℝ) := by
    rw [real_inner_self_eq_norm_sq, hunit, one_pow]
  constructor
  case units => exact h.units.append hunit horthogonal
  case span =>
    intro i
    have hold : a i - r i ∈ spanOf (basis ++ [q]) :=
      spanOf_mono (fun b hb => List.mem_append_left _ hb) (h.span i)
    have hnew : inner ℝ (r i) q • q ∈ spanOf (basis ++ [q]) :=
      Submodule.smul_mem _ _ (mem_spanOf (List.mem_append_right _ List.mem_cons_self))
    have hsum := Submodule.add_mem _ hold hnew
    rwa [sub_add] at hsum
  case orthogonal =>
    intro i b hb
    rw [inner_sub_right, inner_smul_right]
    obtain hb | hb := List.mem_append.mp hb
    · rw [h.orthogonal i b hb, horthogonal b hb, mul_zero, sub_zero]
    · rw [List.mem_singleton.mp hb, hself, mul_one, real_inner_comm, sub_self]
  case inside =>
    intro b hb
    obtain hb | hb := List.mem_append.mp hb
    · exact h.inside b hb
    · rw [List.mem_singleton.mp hb, hq]
      exact Submodule.smul_mem _ _ (h.mem_range p)

/-! ### Rank -/

noncomputable def rankOf (a : ι → E) : ℕ := finrank ℝ (Submodule.span ℝ (Set.range a))

theorem Residuals.length_le_rank [Finite ι] (h : Residuals a basis r) : basis.length ≤ rankOf a := by
  have hspan : spanOf basis ≤ Submodule.span ℝ (Set.range a) := span_le.mpr h.inside
  have hfinite : Module.Finite ℝ (Submodule.span ℝ (Set.range a)) :=
    Module.Finite.span_of_finite ℝ (Set.finite_range a)
  rw [← h.units.finrank]
  exact Submodule.finrank_mono hspan

/-- With nothing left over the pivots are as many as the rank. -/
theorem Residuals.length_eq_rank (h : Residuals a basis r) (hzero : ∀ i, r i = 0) :
    basis.length = rankOf a := by
  have hspan : spanOf basis = Submodule.span ℝ (Set.range a) := by
    apply le_antisymm (span_le.mpr h.inside)
    rw [span_le]
    rintro _ ⟨i, rfl⟩
    have hmem := h.span i
    rwa [hzero i, sub_zero] at hmem
  rw [← h.units.finrank, hspan, rankOf]

/-- Vectors scaled by factors that are not zero span the same. -/
theorem rankOf_smul {c : ι → ℝ} {b : ι → E} (h : ∀ i, a i = c i • b i) (hback : ∀ i, ∃ x : ℝ, b i = x • a i) :
    rankOf a = rankOf b := by
  have hspan : Submodule.span ℝ (Set.range a) = Submodule.span ℝ (Set.range b) := by
    apply le_antisymm
    · rw [span_le]
      rintro _ ⟨i, rfl⟩
      rw [h i]
      exact Submodule.smul_mem _ _ (subset_span (Set.mem_range_self i))
    · rw [span_le]
      rintro _ ⟨i, rfl⟩
      obtain ⟨x, hx⟩ := hback i
      rw [hx]
      exact Submodule.smul_mem _ _ (subset_span (Set.mem_range_self i))
  rw [rankOf, rankOf, hspan]

end Orthogonalization
