import Mathlib.Analysis.InnerProductSpace.PiL2
import Tellegen.Lib.CarriedEquations
import Tellegen.SeedProjection

/-!
The projection in exact arithmetic. The basis is orthonormal, so the result differs from the default within the
span of the rows. Where no row is within the pivot threshold of the earlier ones without depending on them, the
basis has the span of the rows, and a consistent system is met at the one such point.
-/

set_option linter.unusedSectionVars false

open Binary64 hiding max min
open Orthogonalization Submodule

namespace Tellegen.McOpf

section

variable [DecimalText ℝ] {n : ℕ}

namespace Projection

/-! ### Lists as vectors -/

noncomputable def vec (n : ℕ) (l : List ℝ) : EuclideanSpace ℝ (Fin n) := WithLp.toLp 2 fun i => l.getD i 0

theorem vec_apply (l : List ℝ) (i : Fin n) : vec n l i = l.getD i 0 := rfl

theorem vec_injective {a b : List ℝ} (ha : a.length = n) (hb : b.length = n) (h : vec n a = vec n b) : a = b := by
  apply List.ext_getElem (by omega)
  intro i hi hi'
  have hvalue : vec n a ⟨i, by omega⟩ = vec n b ⟨i, by omega⟩ := congrFun (congrArg WithLp.ofLp h) _
  rw [vec_apply, vec_apply] at hvalue
  simpa [List.getD_eq_getElem?_getD, hi, hi'] using hvalue

theorem getD_addMultiple (factor : ℝ) {q prev : List ℝ} (h : q.length = prev.length) (i : ℕ) :
    (addMultiple factor q prev).getD i 0 = q.getD i 0 + factor * prev.getD i 0 := by
  fun_induction addMultiple factor q prev generalizing i with
  | case1 a q p prev ih =>
    cases i with
    | zero => rfl
    | succ i =>
      rw [List.getD_cons_succ, List.getD_cons_succ, List.getD_cons_succ]
      exact ih (by simpa using h) i
  | case2 q prev hnone =>
    match q, prev, hnone, h with
    | [], [], _, _ => simp
    | a :: q, p :: prev, hnone, _ => exact absurd rfl (hnone a q p prev rfl)

@[simp] theorem length_addMultiple (factor : ℝ) (q prev : List ℝ) :
    (addMultiple factor q prev).length = q.length := by
  fun_induction addMultiple factor q prev with
  | case1 a q p prev ih => rw [List.length_cons, ih, List.length_cons]
  | case2 => rfl

theorem vec_addMultiple (factor : ℝ) {q prev : List ℝ} (h : q.length = prev.length) :
    vec n (addMultiple factor q prev) = vec n q + factor • vec n prev := by
  ext i
  exact getD_addMultiple factor h i

theorem subtractMultiple_eq (dot : ℝ) (q prev : List ℝ) :
    subtractMultiple dot q prev = addMultiple (-dot) q prev := by
  fun_induction subtractMultiple dot q prev with
  | case1 a q p prev ih => rw [addMultiple, ih, neg_mul, sub_eq_add_neg]
  | case2 q prev hnone => rw [addMultiple.eq_2 _ _ _ hnone]

@[simp] theorem length_subtractMultiple (dot : ℝ) (q prev : List ℝ) :
    (subtractMultiple dot q prev).length = q.length := by
  rw [subtractMultiple_eq, length_addMultiple]

theorem vec_subtractMultiple (dot : ℝ) {q prev : List ℝ} (h : q.length = prev.length) :
    vec n (subtractMultiple dot q prev) = vec n q - dot • vec n prev := by
  rw [subtractMultiple_eq, vec_addMultiple _ h, neg_smul, sub_eq_add_neg]

theorem getD_map_mul (l : List ℝ) (x : ℝ) (i : ℕ) : (l.map fun v => x * v).getD i 0 = x * l.getD i 0 := by
  rw [List.getD_eq_getElem?_getD, List.getD_eq_getElem?_getD, List.getElem?_map]
  cases l[i]? with
  | none => exact (mul_zero x).symm
  | some v => rfl

theorem vec_map_mul (l : List ℝ) (x : ℝ) : vec n (l.map fun v => x * v) = x • vec n l := by
  ext i
  exact getD_map_mul l x i

theorem vec_map_div (l : List ℝ) (x : ℝ) : vec n (l.map fun v => v / x) = x⁻¹ • vec n l := by
  have hmap : (l.map fun v => v / x) = l.map fun v => x⁻¹ * v := by
    apply List.map_congr_left
    intro v _
    rw [div_eq_inv_mul]
  rw [hmap, vec_map_mul]

theorem dot_eq {a b : List ℝ} (ha : a.length = n) (hb : b.length = n) : dot a b = inner ℝ (vec n a) (vec n b) := by
  have hinner : inner ℝ (vec n a) (vec n b) = ∑ i : Fin n, a.getD i 0 * b.getD i 0 := by
    rw [PiLp.inner_apply]
    apply Finset.sum_congr rfl
    intro i _
    rw [vec_apply, vec_apply, RCLike.inner_apply, conj_trivial, mul_comm]
  rw [hinner, dot, sum_real]
  induction a generalizing b n with
  | nil =>
    subst ha
    rfl
  | cons x a ih =>
    match b, hb with
    | [], hb => simp at ha hb; omega
    | y :: b, hb =>
      obtain rfl : n = a.length + 1 := ha.symm
      have hrest := ih (n := a.length) rfl (by simpa using hb) (by
        rw [PiLp.inner_apply]
        apply Finset.sum_congr rfl
        intro i _
        rw [vec_apply, vec_apply, RCLike.inner_apply, conj_trivial, mul_comm])
      rw [List.zipWith_cons_cons, List.sum_cons, Fin.sum_univ_succ, hrest]
      rfl

theorem norm_eq {q : List ℝ} (hq : q.length = n) :
    Libm.sqrt (Binary64.sum (q.map fun v => v * v)) = ‖vec n q‖ := by
  have hzip : (q.map fun v => v * v) = List.zipWith (fun a b => a * b) q q := by
    rw [List.zipWith_self]
  rw [hzip]
  change Real.sqrt (dot q q) = _
  rw [dot_eq hq hq, real_inner_self_eq_norm_sq, Real.sqrt_sq (norm_nonneg _)]

theorem abs_real (a : ℝ) : Binary64.abs a = |a| := exact_abs _ a

theorem abs_le_largest {row : List ℝ} {v : ℝ} (hv : v ∈ row) : |v| ≤ largest row := by
  have hle := (le_foldl_max (row.map Binary64.abs) 0).2 (Binary64.abs v) (List.mem_map_of_mem hv)
  rwa [abs_real] at hle

theorem vec_eq_zero {row : List ℝ} (h : largest row = 0) : vec n row = 0 := by
  ext i
  rw [vec_apply, List.getD_eq_getElem?_getD]
  cases hget : row[(i : ℕ)]? with
  | none => rfl
  | some v =>
    have hle := abs_le_largest (List.mem_of_getElem? hget)
    rw [h] at hle
    exact abs_eq_zero.mp (le_antisymm hle (abs_nonneg v))

/-! ### The basis -/

/-- A row and its right-hand side as an equation. -/
noncomputable def eqn (n : ℕ) (entry : List ℝ × ℝ) : Equation (EuclideanSpace ℝ (Fin n)) := (vec n entry.1, entry.2)

theorem orthogonalize_eqn {basis : List (List ℝ × ℝ)} (hbasis : ∀ e ∈ basis, e.1.length = n) (row : List ℝ × ℝ)
    (hrow : row.1.length = n) :
    (orthogonalize basis row).1.length = n ∧
      eqn n (orthogonalize basis row) = sweep (basis.map (eqn n)) (eqn n row) := by
  induction basis generalizing row with
  | nil => exact ⟨hrow, rfl⟩
  | cons e basis ih =>
    have he := hbasis e List.mem_cons_self
    have hrest := ih (fun e he => hbasis e (List.mem_cons_of_mem _ he))
      (subtractMultiple (dot row.1 e.1) row.1 e.1, row.2 - dot row.1 e.1 * e.2)
      ((length_subtractMultiple _ _ _).trans hrow)
    refine ⟨hrest.1, hrest.2.trans ?_⟩
    rw [List.map_cons, sweep, sweep, List.foldl_cons]
    congr 1
    rw [eqn, eqn, eqn, lessen, vec_subtractMultiple _ (hrow.trans he.symm), dot_eq hrow he]

/-- A row scaled to a largest coefficient of one. -/
noncomputable def scaled (n : ℕ) (entry : List ℝ × ℝ) : Equation (EuclideanSpace ℝ (Fin n)) :=
  ((largest entry.1)⁻¹ • vec n entry.1, entry.2 / largest entry.1)

theorem pivotThreshold_pos : 0 < (pivotThreshold : ℝ) := by
  change (0 : ℝ) < ((1 / 10 ^ 10 : ℚ) : ℝ)
  positivity

/-- A row that is zero is left out, where its right-hand side is nearly zero too, and what is left of another row
joins the basis where it is longer than the threshold. -/
theorem addRow_cases {basis : List (List ℝ × ℝ)} (hbasis : ∀ e ∈ basis, e.1.length = n) {row : List ℝ}
    (hrow : row.length = n) (target : ℝ) :
    largest row = 0 ∧ addRow basis (row, target) =
        (if ((1 / 10 ^ 10 : ℚ) : ℝ) < |target| then none else some basis) ∨
      largest row ≠ 0 ∧ ∃ q b, q.length = n ∧
        eqn n (q, b) = sweep (basis.map (eqn n)) (sweep (basis.map (eqn n)) (scaled n (row, target))) ∧
        addRow basis (row, target) = some (if pivotThreshold < ‖vec n q‖ then
          basis ++ [(q.map fun v => v / ‖vec n q‖, b / ‖vec n q‖)] else basis) := by
  by_cases hzero : largest row = 0
  · refine Or.inl ⟨hzero, ?_⟩
    have htest : eq (largest row) 0 = true := decide_eq_true hzero
    rw [addRow]
    dsimp only
    rw [if_neg (by exact Bool.false_ne_true), if_pos htest, abs_real]
    by_cases hlarge : ((1 / 10 ^ 10 : ℚ) : ℝ) < |target|
    · rw [if_pos hlarge]
      exact if_pos (decide_eq_true hlarge)
    · rw [if_neg hlarge]
      exact if_neg fun hlt => hlarge (of_decide_eq_true hlt)
  · refine Or.inr ⟨hzero, ?_⟩
    have hlength : (row.map fun v => v / largest row).length = n := by
      rw [List.length_map, hrow]
    obtain ⟨hfirstLength, hfirst⟩ := orthogonalize_eqn hbasis (row.map fun v => v / largest row,
      target / largest row) hlength
    obtain ⟨hsecondLength, hsecond⟩ := orthogonalize_eqn hbasis _ hfirstLength
    have hscaled : eqn n (row.map fun v => v / largest row, target / largest row) = scaled n (row, target) := by
      rw [eqn, scaled, vec_map_div]
    rw [hfirst, hscaled] at hsecond
    refine ⟨_, _, hsecondLength, hsecond, ?_⟩
    have htest : ¬ eq (largest row) 0 = true := fun h => hzero (of_decide_eq_true h)
    rw [addRow]
    dsimp only
    rw [if_neg (by exact Bool.false_ne_true), if_neg htest, norm_eq hsecondLength]
    set result := orthogonalize basis (orthogonalize basis (row.map fun v => v / largest row,
      target / largest row))
    by_cases hlong : pivotThreshold < ‖vec n result.1‖
    · rw [if_pos hlong]
      exact if_pos (decide_eq_true hlong)
    · rw [if_neg hlong]
      exact if_neg fun hlt => hlong (of_decide_eq_true hlt)

def rowSpan (n : ℕ) (system : List (List ℝ × ℝ)) : Submodule ℝ (EuclideanSpace ℝ (Fin n)) :=
  span ℝ {v | ∃ entry ∈ system, vec n entry.1 = v}

theorem mem_rowSpan {system : List (List ℝ × ℝ)} {entry : List ℝ × ℝ} (h : entry ∈ system) :
    vec n entry.1 ∈ rowSpan n system := subset_span ⟨entry, h, rfl⟩

theorem rowSpan_mono {system system' : List (List ℝ × ℝ)} (h : ∀ entry ∈ system, entry ∈ system') :
    rowSpan n system ≤ rowSpan n system' := by
  apply span_mono
  rintro v ⟨entry, hentry, rfl⟩
  exact ⟨entry, h entry hentry, rfl⟩

/-- An orthonormal basis within the span of the rows `system`. -/
structure Within (n : ℕ) (system basis : List (List ℝ × ℝ)) : Prop where
  lengths : ∀ e ∈ basis, e.1.length = n
  units : UnitList ((basis.map (eqn n)).map Prod.fst)
  inside : spanOf ((basis.map (eqn n)).map Prod.fst) ≤ rowSpan n system

theorem within_nil : Within n [] [] := by
  constructor
  case lengths => exact fun e he => absurd he List.not_mem_nil
  case units => exact UnitList.nil
  case inside =>
    apply span_le.mpr
    exact fun v hv => absurd hv List.not_mem_nil

theorem map_append_unit (basis : List (List ℝ × ℝ)) (e : List ℝ × ℝ) :
    ((basis ++ [e]).map (eqn n)).map Prod.fst = (basis.map (eqn n)).map Prod.fst ++ [vec n e.1] := by
  rw [List.map_append, List.map_append]
  rfl

/-- What two sweeps leave of a row: orthogonal to the basis, and the row but for something in its span. -/
theorem residual_of_sweeps {system basis : List (List ℝ × ℝ)} (h : Within n system basis) {row : List ℝ}
    {target : ℝ} {q : List ℝ} {b : ℝ} (hq : eqn n (q, b) =
      sweep (basis.map (eqn n)) (sweep (basis.map (eqn n)) (scaled n (row, target)))) :
    (scaled n (row, target)).1 - vec n q ∈ spanOf ((basis.map (eqn n)).map Prod.fst) ∧
      ∀ p ∈ (basis.map (eqn n)).map Prod.fst, inner ℝ p (vec n q) = 0 := by
  have hvec : vec n q = (sweep (basis.map (eqn n)) (sweep (basis.map (eqn n)) (scaled n (row, target)))).1 :=
    congrArg Prod.fst hq
  constructor
  · have hfirst := sweep_span (basis.map (eqn n)) (scaled n (row, target))
    have hsecond := sweep_span (basis.map (eqn n)) (sweep (basis.map (eqn n)) (scaled n (row, target)))
    have hsum := Submodule.add_mem _ hfirst hsecond
    rw [sub_add_sub_cancel] at hsum
    rw [hvec]
    exact hsum
  · rw [hvec]
    exact sweep_orthogonal h.units _

theorem Within.extend {system basis : List (List ℝ × ℝ)} (h : Within n system basis) {row : List ℝ} {target : ℝ}
    {q : List ℝ} {b : ℝ} (hlength : q.length = n) (hq : eqn n (q, b) =
      sweep (basis.map (eqn n)) (sweep (basis.map (eqn n)) (scaled n (row, target))))
    (hpositive : 0 < ‖vec n q‖) :
    Within n (system ++ [(row, target)]) (basis ++ [(q.map fun v => v / ‖vec n q‖, b / ‖vec n q‖)]) := by
  obtain ⟨hspan, horthogonal⟩ := residual_of_sweeps h hq
  have hgrow : rowSpan n system ≤ rowSpan n (system ++ [(row, target)]) :=
    rowSpan_mono fun entry hentry => List.mem_append_left _ hentry
  have hunit : vec n (q.map fun v => v / ‖vec n q‖) = ‖vec n q‖⁻¹ • vec n q := vec_map_div q _
  constructor
  case lengths =>
    intro e he
    obtain he | he := List.mem_append.mp he
    · exact h.lengths e he
    · rw [List.mem_singleton.mp he]
      exact (List.length_map _).trans hlength
  case units =>
    rw [map_append_unit]
    apply h.units.append
    · dsimp only
      rw [hunit, norm_smul, norm_inv, norm_norm, inv_mul_cancel₀ (ne_of_gt hpositive)]
    · intro p hp
      dsimp only
      rw [hunit, inner_smul_right, horthogonal p hp, mul_zero]
  case inside =>
    rw [map_append_unit]
    apply span_le.mpr
    intro v hv
    obtain hv | hv := List.mem_append.mp hv
    · exact hgrow (h.inside (mem_spanOf hv))
    · have hrow : (scaled n (row, target)).1 ∈ rowSpan n (system ++ [(row, target)]) :=
        Submodule.smul_mem _ _ (mem_rowSpan (List.mem_append_right _ List.mem_cons_self))
      have hresidual := Submodule.sub_mem _ hrow (hgrow (h.inside hspan))
      rw [sub_sub_cancel] at hresidual
      rw [List.mem_singleton.mp hv]
      dsimp only
      rw [hunit]
      exact Submodule.smul_mem _ _ hresidual

theorem Within.mono {system basis : List (List ℝ × ℝ)} (h : Within n system basis) (entry : List ℝ × ℝ) :
    Within n (system ++ [entry]) basis :=
  ⟨h.lengths, h.units, le_trans h.inside (rowSpan_mono fun _ hentry => List.mem_append_left _ hentry)⟩

theorem Within.addRow {system basis basis' : List (List ℝ × ℝ)} (h : Within n system basis) {row : List ℝ}
    (hrow : row.length = n) {target : ℝ} (hadded : Projection.addRow basis (row, target) = some basis') :
    Within n (system ++ [(row, target)]) basis' := by
  obtain ⟨-, hresult⟩ | ⟨-, q, b, hlength, hq, hresult⟩ := addRow_cases h.lengths hrow target
  · rw [hresult] at hadded
    split at hadded
    · exact nomatch hadded
    · obtain rfl := Option.some.inj hadded
      exact h.mono _
  · rw [hresult] at hadded
    obtain rfl := Option.some.inj hadded
    split
    case isTrue hlong => exact h.extend hlength hq (lt_trans pivotThreshold_pos hlong)
    case isFalse => exact h.mono _

/-! ### Consistent systems -/

/-- The point meets every row. -/
def Meets (n : ℕ) (x : EuclideanSpace ℝ (Fin n)) (system : List (List ℝ × ℝ)) : Prop :=
  ∀ entry ∈ system, inner ℝ (vec n entry.1) x = entry.2

/-- Each row depends on the earlier ones or, scaled to a largest coefficient of one, is farther than the pivot
threshold from their span. -/
def Separated (n : ℕ) (system : List (List ℝ × ℝ)) : Prop :=
  ∀ before row target after, system = before ++ (row, target) :: after → vec n row ∈ rowSpan n before ∨
    ∀ w ∈ rowSpan n before, pivotThreshold < ‖(largest row)⁻¹ • vec n row - w‖

structure Reaches (n : ℕ) (x : EuclideanSpace ℝ (Fin n)) (system basis : List (List ℝ × ℝ)) : Prop where
  within : Within n system basis
  covers : rowSpan n system ≤ spanOf ((basis.map (eqn n)).map Prod.fst)
  holds : ∀ p ∈ basis.map (eqn n), Holds x p

theorem rowSpan_append_le {system : List (List ℝ × ℝ)} {entry : List ℝ × ℝ}
    {S : Submodule ℝ (EuclideanSpace ℝ (Fin n))} (h : rowSpan n system ≤ S) (hentry : vec n entry.1 ∈ S) :
    rowSpan n (system ++ [entry]) ≤ S := by
  apply span_le.mpr
  rintro v ⟨other, hother, rfl⟩
  obtain hother | hother := List.mem_append.mp hother
  · exact h (mem_rowSpan hother)
  · rw [List.mem_singleton.mp hother]
    exact hentry

theorem Reaches.addRow {x : EuclideanSpace ℝ (Fin n)} {system basis : List (List ℝ × ℝ)}
    (h : Reaches n x system basis) {row : List ℝ} (hrow : row.length = n) {target : ℝ}
    (hmeets : inner ℝ (vec n row) x = target)
    (hseparated : vec n row ∈ rowSpan n system ∨
      ∀ w ∈ rowSpan n system, pivotThreshold < ‖(largest row)⁻¹ • vec n row - w‖) :
    ∃ basis', Projection.addRow basis (row, target) = some basis' ∧
      Reaches n x (system ++ [(row, target)]) basis' := by
  obtain ⟨hzero, hresult⟩ | ⟨hscale, q, b, hlength, hq, hresult⟩ := addRow_cases h.within.lengths hrow target
  · have hvec : vec n row = 0 := vec_eq_zero hzero
    have htarget : target = 0 := by
      rw [← hmeets, hvec, inner_zero_left]
    have hsmall : ¬ ((1 / 10 ^ 10 : ℚ) : ℝ) < |target| := by
      rw [htarget, abs_zero, not_lt]
      positivity
    rw [if_neg hsmall] at hresult
    refine ⟨basis, hresult, h.within.mono _, rowSpan_append_le h.covers ?_, h.holds⟩
    dsimp only
    rw [hvec]
    exact zero_mem _
  · obtain ⟨hspan, horthogonal⟩ := residual_of_sweeps h.within hq
    have hscaled : Holds x (scaled n (row, target)) := by
      rw [Holds, scaled, inner_smul_left, hmeets, conj_trivial, div_eq_inv_mul]
    have hholds : Holds x (eqn n (q, b)) := by
      rw [hq, sweep_holds h.holds, sweep_holds h.holds]
      exact hscaled
    have hback : vec n row = largest row • (scaled n (row, target)).1 := by
      change vec n row = largest row • ((largest row)⁻¹ • vec n row)
      rw [smul_smul, mul_inv_cancel₀ hscale, one_smul]
    refine ⟨_, hresult, ?_⟩
    obtain hdependent | hfar := hseparated
    · -- a row of the span leaves nothing
      have hmem : (scaled n (row, target)).1 ∈ spanOf ((basis.map (eqn n)).map Prod.fst) :=
        Submodule.smul_mem _ _ (h.covers hdependent)
      have hnone : vec n q = 0 := eq_zero_of_mem_span hspan horthogonal hmem
      have hshort : ¬ pivotThreshold < ‖vec n q‖ := by
        rw [hnone, norm_zero, not_lt]
        exact le_of_lt pivotThreshold_pos
      rw [if_neg hshort]
      exact ⟨h.within.mono _, rowSpan_append_le h.covers (h.covers hdependent), h.holds⟩
    · have hlong : pivotThreshold < ‖vec n q‖ := by
        have hdistance := hfar _ (h.within.inside hspan)
        change pivotThreshold < ‖(scaled n (row, target)).1 - ((scaled n (row, target)).1 - vec n q)‖ at hdistance
        rwa [sub_sub_cancel] at hdistance
      have hpositive : 0 < ‖vec n q‖ := lt_trans pivotThreshold_pos hlong
      rw [if_pos hlong]
      have hunit : vec n (q.map fun v => v / ‖vec n q‖) = ‖vec n q‖⁻¹ • vec n q := vec_map_div q _
      refine ⟨h.within.extend hlength hq hpositive, ?_, ?_⟩
      · rw [map_append_unit]
        have hold : ∀ {v}, v ∈ spanOf ((basis.map (eqn n)).map Prod.fst) →
            v ∈ spanOf ((basis.map (eqn n)).map Prod.fst ++ [vec n (q.map fun v => v / ‖vec n q‖)]) :=
          fun hv => spanOf_mono (fun p hp => List.mem_append_left _ hp) hv
        apply rowSpan_append_le (fun v hv => hold (h.covers hv))
        have hnew : vec n q ∈ spanOf ((basis.map (eqn n)).map Prod.fst ++
            [vec n (q.map fun v => v / ‖vec n q‖)]) := by
          have hmember := mem_spanOf (List.mem_append_right ((basis.map (eqn n)).map Prod.fst)
            (List.mem_singleton_self (vec n (q.map fun v => v / ‖vec n q‖))))
          have hsmul := Submodule.smul_mem _ ‖vec n q‖ hmember
          rw [hunit, smul_smul, mul_inv_cancel₀ (ne_of_gt hpositive), one_smul, ← hunit] at hsmul
          exact hsmul
        dsimp only
        rw [hback]
        apply Submodule.smul_mem
        have hsum := Submodule.add_mem _ (hold hspan) hnew
        rwa [sub_add_cancel] at hsum
      · intro p hp
        rw [List.map_append] at hp
        obtain hp | hp := List.mem_append.mp hp
        · exact h.holds p hp
        · rw [List.mem_singleton.mp hp, Holds, eqn]
          dsimp only
          rw [hunit, inner_smul_left, conj_trivial, div_eq_inv_mul]
          exact congrArg (fun value => ‖vec n q‖⁻¹ * value) hholds

theorem Reaches.drop {x : EuclideanSpace ℝ (Fin n)} {system basis : List (List ℝ × ℝ)}
    (h : Reaches n x system basis) {row : List ℝ} (hrow : row.length = n) (target : ℝ) (hscale : largest row ≠ 0)
    {w : EuclideanSpace ℝ (Fin n)} (hw : w ∈ rowSpan n system)
    (hnear : ‖(largest row)⁻¹ • vec n row - w‖ ≤ pivotThreshold) :
    Projection.addRow basis (row, target) = some basis := by
  obtain ⟨hzero, -⟩ | ⟨-, q, b, hlength, hq, hresult⟩ := addRow_cases h.within.lengths hrow target
  · exact absurd hzero hscale
  · obtain ⟨hspan, horthogonal⟩ := residual_of_sweeps h.within hq
    have hshort := le_trans (norm_le_of_orthogonal hspan horthogonal (h.covers hw)) hnear
    rw [hresult, if_neg (not_lt.mpr hshort)]

/-! ### The projection -/

theorem foldlM_within {system : List (List ℝ × ℝ)} (hlengths : ∀ entry ∈ system, entry.1.length = n)
    {basis : List (List ℝ × ℝ)} (h : system.foldlM Projection.addRow [] = some basis) : Within n system basis := by
  suffices ∀ (rest before basis basis' : List (List ℝ × ℝ)), (∀ entry ∈ rest, entry.1.length = n) →
      Within n before basis → rest.foldlM Projection.addRow basis = some basis' →
      Within n (before ++ rest) basis' from
    this system [] [] basis hlengths within_nil h
  intro rest
  induction rest with
  | nil =>
    intro before basis basis' _ hbefore hfold
    obtain rfl := Option.some.inj hfold
    rw [List.append_nil]
    exact hbefore
  | cons entry rest ih =>
    intro before basis basis' hrest hbefore hfold
    obtain ⟨row, target⟩ := entry
    rw [List.foldlM_cons] at hfold
    obtain ⟨next, hnext, hfold⟩ := Option.bind_eq_some_iff.mp hfold
    have hrow : row.length = n := hrest (row, target) List.mem_cons_self
    have hstep := ih (before ++ [(row, target)]) next basis'
      (fun other hother => hrest other (List.mem_cons_of_mem _ hother)) (hbefore.addRow hrow hnext) hfold
    rwa [List.append_assoc, List.singleton_append] at hstep

theorem reaches_nil (x : EuclideanSpace ℝ (Fin n)) : Reaches n x [] [] := by
  refine ⟨within_nil, ?_, fun p hp => absurd hp List.not_mem_nil⟩
  apply span_le.mpr
  rintro v ⟨entry, hentry, -⟩
  exact absurd hentry List.not_mem_nil

theorem foldlM_reaches {system : List (List ℝ × ℝ)} (hlengths : ∀ entry ∈ system, entry.1.length = n)
    {x : EuclideanSpace ℝ (Fin n)} (hmeets : Meets n x system) (hseparated : Separated n system) :
    ∃ basis, system.foldlM Projection.addRow [] = some basis ∧ Reaches n x system basis := by
  suffices ∀ (rest before basis : List (List ℝ × ℝ)), before ++ rest = system → Reaches n x before basis →
      ∃ basis', rest.foldlM Projection.addRow basis = some basis' ∧ Reaches n x system basis' from
    this system [] [] rfl (reaches_nil x)
  intro rest
  induction rest with
  | nil =>
    intro before basis hsplit hbefore
    rw [List.append_nil] at hsplit
    exact ⟨basis, rfl, hsplit ▸ hbefore⟩
  | cons entry rest ih =>
    intro before basis hsplit hbefore
    obtain ⟨row, target⟩ := entry
    have hmem : (row, target) ∈ system := by
      rw [← hsplit]
      exact List.mem_append_right _ List.mem_cons_self
    obtain ⟨next, hnext, hreaches⟩ := hbefore.addRow (hlengths _ hmem) (hmeets _ hmem)
      (hseparated before row target rest hsplit.symm)
    obtain ⟨basis', hfold, hlast⟩ := ih (before ++ [(row, target)]) next
      (by rw [List.append_assoc, List.singleton_append, hsplit]) hreaches
    refine ⟨basis', ?_, hlast⟩
    rw [List.foldlM_cons, hnext]
    exact hfold

theorem correct_eq {basis : List (List ℝ × ℝ)} (hbasis : ∀ e ∈ basis, e.1.length = n) (default : List ℝ)
    (hdefault : default.length = n) :
    (correct basis default).length = n ∧
      vec n (correct basis default) = corrected (vec n default) (basis.map (eqn n)) := by
  have hfold : ∀ x : List ℝ, x.length = n →
      (basis.foldl (fun x (e : List ℝ × ℝ) => addMultiple (e.2 - dot e.1 default) x e.1) x).length = n ∧
        vec n (basis.foldl (fun x (e : List ℝ × ℝ) => addMultiple (e.2 - dot e.1 default) x e.1) x) =
          (basis.map (eqn n)).foldl (fun x p => x + (p.2 - inner ℝ p.1 (vec n default)) • p.1) (vec n x) := by
    induction basis with
    | nil => exact fun x hx => ⟨hx, rfl⟩
    | cons e basis ih =>
      intro x hx
      have he := hbasis e List.mem_cons_self
      have hrest := ih (fun e he => hbasis e (List.mem_cons_of_mem _ he))
        (addMultiple (e.2 - dot e.1 default) x e.1) ((length_addMultiple _ _ _).trans hx)
      rw [List.foldl_cons, List.map_cons, List.foldl_cons]
      rw [vec_addMultiple _ (hx.trans he.symm), dot_eq he hdefault] at hrest
      rw [dot_eq he hdefault]
      exact hrest
  exact hfold default hdefault

theorem holdsAt_iff {x : List ℝ} (hx : x.length = n) {entry : List ℝ × ℝ} (hentry : entry.1.length = n) :
    holdsAt x entry = true ↔
      |inner ℝ (vec n entry.1) (vec n x) - entry.2| ≤ ((1 / 10 ^ 8 : ℚ) : ℝ) * (1 + |entry.2|) := by
  rw [← dot_eq hentry hx, ← not_lt]
  change (true && !decide (((1 / 10 ^ 8 : ℚ) : ℝ) * (1 + Binary64.abs entry.2) <
    Binary64.abs (dot entry.1 x - entry.2))) = true ↔ _
  rw [Bool.true_and, Bool.not_eq_true', decide_eq_false_iff_not, abs_real, abs_real]

/-- A system with its rows in another order, each scaled by a factor that is not zero. -/
def Rescaled (system system' : List (List ℝ × ℝ)) : Prop :=
  ∃ factors : List (ℝ × List ℝ × ℝ), (∀ f ∈ factors, f.1 ≠ 0) ∧ factors.map Prod.snd = system ∧
    system'.Perm (factors.map fun f => (f.2.1.map fun v => f.1 * v, f.1 * f.2.2))

theorem Rescaled.meets {system system' : List (List ℝ × ℝ)} (h : Rescaled system system')
    (x : EuclideanSpace ℝ (Fin n)) : Meets n x system ↔ Meets n x system' := by
  obtain ⟨factors, hnonzero, rfl, hperm⟩ := h
  have hrow : ∀ f ∈ factors, inner ℝ (vec n (f.2.1.map fun v => f.1 * v)) x = f.1 * f.2.2 ↔
      inner ℝ (vec n f.2.1) x = f.2.2 := by
    intro f hf
    rw [vec_map_mul, inner_smul_left, conj_trivial]
    exact mul_right_inj' (hnonzero f hf)
  constructor
  · intro hmeets entry hentry
    obtain ⟨f, hf, rfl⟩ := List.mem_map.mp (hperm.mem_iff.mp hentry)
    exact (hrow f hf).mpr (hmeets f.2 (List.mem_map_of_mem hf))
  · intro hmeets entry hentry
    obtain ⟨f, hf, rfl⟩ := List.mem_map.mp hentry
    exact (hrow f hf).mp (hmeets _ (hperm.mem_iff.mpr (List.mem_map_of_mem hf)))

theorem Rescaled.span_le {system system' : List (List ℝ × ℝ)} (h : Rescaled system system') :
    rowSpan n system' ≤ rowSpan n system := by
  obtain ⟨factors, hnonzero, rfl, hperm⟩ := h
  apply Submodule.span_le.mpr
  rintro v ⟨entry, hentry, rfl⟩
  obtain ⟨f, hf, rfl⟩ := List.mem_map.mp (hperm.mem_iff.mp hentry)
  dsimp only
  rw [vec_map_mul]
  exact Submodule.smul_mem _ _ (mem_rowSpan (List.mem_map_of_mem hf))

end Projection

open Projection

theorem lengths_zip {rows : List (List ℝ)} (hrows : ∀ row ∈ rows, row.length = n) (rhs : List ℝ) :
    ∀ entry ∈ rows.zip rhs, entry.1.length = n :=
  fun _ hentry => hrows _ (List.of_mem_zip hentry).1

theorem project_near {rows : List (List ℝ)} {rhs default x : List ℝ}
    (hrows : ∀ row ∈ rows, row.length = default.length) (h : project rows rhs default = some x) :
    x.length = default.length ∧
      (∀ entry ∈ rows.zip rhs, |inner ℝ (vec default.length entry.1) (vec default.length x) - entry.2| ≤
        ((1 / 10 ^ 8 : ℚ) : ℝ) * (1 + |entry.2|)) ∧
      vec default.length x - vec default.length default ∈ rowSpan default.length (rows.zip rhs) := by
  have hlengths := lengths_zip hrows rhs
  rw [project] at h
  obtain ⟨basis, hbasis, h⟩ := Option.bind_eq_some_iff.mp h
  have hwithin := foldlM_within hlengths hbasis
  obtain ⟨hlength, hvec⟩ := correct_eq hwithin.lengths default rfl
  dsimp only at h
  split at h
  case isTrue => exact nomatch h
  case isFalse =>
    split at h
    case isFalse => exact nomatch h
    case isTrue hall =>
      obtain rfl := Option.some.inj h
      refine ⟨hlength, ?_, ?_⟩
      · intro entry hentry
        exact (holdsAt_iff hlength (hlengths entry hentry)).mp (List.all_eq_true.mp hall entry hentry)
      · rw [hvec]
        exact hwithin.inside (corrected_span _ _)

theorem project_meets {rows : List (List ℝ)} {rhs default : List ℝ}
    (hrows : ∀ row ∈ rows, row.length = default.length)
    (hseparated : Separated default.length (rows.zip rhs))
    (hconsistent : ∃ x, Meets default.length x (rows.zip rhs)) :
    ∃ x, project rows rhs default = some x ∧ Meets default.length (vec default.length x) (rows.zip rhs) := by
  obtain ⟨point, hpoint⟩ := hconsistent
  have hlengths := lengths_zip hrows rhs
  obtain ⟨basis, hbasis, hreaches⟩ := foldlM_reaches hlengths hpoint hseparated
  obtain ⟨hlength, hvec⟩ := correct_eq hreaches.within.lengths default rfl
  have hmeets : Meets default.length (vec default.length (correct basis default)) (rows.zip rhs) := by
    intro entry hentry
    have hcorrected := corrected_holds hreaches.within.units (vec default.length default)
    have hsame : inner ℝ (vec default.length entry.1)
        (vec default.length (correct basis default) - point) = (0 : ℝ) := by
      apply inner_eq_zero_of_mem_span (hreaches.covers (mem_rowSpan hentry))
      intro v hv
      obtain ⟨p, hp, rfl⟩ := List.mem_map.mp hv
      rw [hvec, inner_sub_right, hcorrected p hp, hreaches.holds p hp, sub_self]
    rw [inner_sub_right, sub_eq_zero] at hsame
    rw [hsame, hpoint entry hentry]
  have hall : (rows.zip rhs).all (holdsAt (correct basis default)) = true := by
    rw [List.all_eq_true]
    intro entry hentry
    rw [holdsAt_iff hlength (hlengths entry hentry), hmeets entry hentry, sub_self, abs_zero]
    positivity
  have hfinite : ¬ ((correct basis default).any fun v => !isFinite v) = true := by
    intro hany
    obtain ⟨v, -, hv⟩ := List.any_eq_true.mp hany
    exact nomatch hv
  refine ⟨correct basis default, ?_, hmeets⟩
  rw [project, hbasis]
  change (if ((correct basis default).any fun v => !isFinite v) = true then none
    else if (rows.zip rhs).all (holdsAt (correct basis default)) = true then some (correct basis default)
      else none) = _
  rw [if_neg hfinite, if_pos hall]

/-- A result is near enough to the rows and differs from the default within their span. A consistent system whose
rows, scaled to a largest coefficient of one, depend on the earlier ones or are farther than the pivot threshold
from their span has one, which is the same for every order and scaling of the rows with this property. -/
theorem project_projects (rows : List (List ℝ)) (rhs default : List ℝ)
    (hrows : ∀ row ∈ rows, row.length = default.length) :
    (∀ x, project rows rhs default = some x →
      x.length = default.length ∧
      (∀ entry ∈ rows.zip rhs, |inner ℝ (vec default.length entry.1) (vec default.length x) - entry.2| ≤
        ((1 / 10 ^ 8 : ℚ) : ℝ) * (1 + |entry.2|)) ∧
      vec default.length x - vec default.length default ∈ rowSpan default.length (rows.zip rhs)) ∧
    (Separated default.length (rows.zip rhs) → (∃ x, Meets default.length x (rows.zip rhs)) →
      ∃ x, project rows rhs default = some x ∧ Meets default.length (vec default.length x) (rows.zip rhs) ∧
        ∀ (rows' : List (List ℝ)) (rhs' : List ℝ), (∀ row ∈ rows', row.length = default.length) →
          Rescaled (rows.zip rhs) (rows'.zip rhs') → Separated default.length (rows'.zip rhs') →
          project rows' rhs' default = some x) := by
  refine ⟨fun x hx => project_near hrows hx, ?_⟩
  intro hseparated hconsistent
  obtain ⟨x, hx, hmeets⟩ := project_meets hrows hseparated hconsistent
  refine ⟨x, hx, hmeets, ?_⟩
  intro rows' rhs' hrows' hrescaled hseparated'
  obtain ⟨x', hx', hmeets'⟩ := project_meets hrows' hseparated' ⟨_, hrescaled.meets _ |>.mp hmeets⟩
  obtain ⟨hlength, -, hspan⟩ := project_near hrows hx
  obtain ⟨hlength', -, hspan'⟩ := project_near hrows' hx'
  have hmeetsBoth := (hrescaled.meets _).mpr hmeets'
  have hsame : vec default.length x = vec default.length x' := by
    apply unique_point hspan (hrescaled.span_le hspan')
    rintro v ⟨entry, hentry, rfl⟩
    rw [hmeets entry hentry, hmeetsBoth entry hentry]
  rw [hx', vec_injective hlength hlength' hsame]

/-! ### Two coordinates -/

theorem inner_pair (a b : ℝ) (x : EuclideanSpace ℝ (Fin 2)) : inner ℝ (vec 2 [a, b]) x = a * x 0 + b * x 1 := by
  rw [PiLp.inner_apply, Fin.sum_univ_two]
  simp [vec, mul_comm]

theorem far_of_coordinate {v : EuclideanSpace ℝ (Fin 2)} {threshold : ℝ} (i : Fin 2) (h : threshold < |v i|) :
    threshold < ‖v‖ := by
  have hle := PiLp.norm_apply_le v i
  rw [Real.norm_eq_abs] at hle
  exact lt_of_lt_of_le h hle

theorem eq_zero_of_mem_rowSpan_nil {w : EuclideanSpace ℝ (Fin n)} (hw : w ∈ rowSpan n []) : w = 0 := by
  have hempty : rowSpan n [] = ⊥ := by
    apply Submodule.span_eq_bot.mpr
    rintro v ⟨entry, hentry, -⟩
    exact absurd hentry List.not_mem_nil
  rw [hempty] at hw
  exact (Submodule.mem_bot ℝ).mp hw

theorem largest_pair (a b : ℝ) : largest [a, b] = max (max 0 |a|) |b| := by
  simp [largest, abs_real, max_real]

theorem pivotThreshold_lt {a : ℝ} (h : ((1 / 10 ^ 10 : ℚ) : ℝ) < a) : (pivotThreshold : ℝ) < a := h

end

open Projection

@[reducible] local instance pairText : DecimalText ℝ := ⟨fun _ => ""⟩

/-- A row on the first coordinate, and a multiple of it. -/
theorem separated_multiples {a : ℝ} (ha : a ≠ 0) (b s t : ℝ) : Separated 2 [([a, 0], s), ([b, 0], t)] := by
  intro before row target after hsplit
  match before, hsplit with
  | [], hsplit =>
    obtain ⟨rfl, rfl⟩ := Prod.mk.inj (List.cons.inj hsplit).1
    right
    intro w hw
    rw [eq_zero_of_mem_rowSpan_nil hw, sub_zero, largest_pair]
    apply far_of_coordinate 0
    apply pivotThreshold_lt
    have hunit : |(|a|)⁻¹ * a| = 1 := by
      rw [abs_mul, abs_inv, abs_abs, inv_mul_cancel₀ (abs_ne_zero.mpr ha)]
    have hlargest : max (max 0 |a|) |(0 : ℝ)| = |a| := by
      rw [abs_zero, max_eq_right (abs_nonneg a), max_eq_left (abs_nonneg a)]
    rw [hlargest, PiLp.smul_apply]
    change _ < |(|a|)⁻¹ * a|
    rw [hunit]
    norm_num
  | [_], hsplit =>
    obtain ⟨rfl, hrest⟩ := List.cons.inj hsplit
    obtain ⟨rfl, rfl⟩ := Prod.mk.inj (List.cons.inj hrest).1
    left
    have hmultiple : vec 2 [b, 0] = (b / a) • vec 2 [a, 0] := by
      ext i
      fin_cases i
      · exact (div_mul_cancel₀ b ha).symm
      · exact (mul_zero _).symm
    rw [hmultiple]
    exact Submodule.smul_mem _ _ (mem_rowSpan List.mem_cons_self)
  | _ :: _ :: before, hsplit => simp at hsplit

/-- The second row is twice the first. The same rows in the other order, one of them halved, give the same result. -/
theorem project_projects_dependent : ∃ x, project [[2, 0], [4, 0]] [4, 8] [1, 7] = some x ∧
    Meets 2 (vec 2 x) [([2, 0], 4), ([4, 0], 8)] ∧ project [[4, 0], [1, 0]] [8, 2] [1, 7] = some x := by
  have hrows : ∀ (a b : ℝ), ∀ row ∈ [([a, 0] : List ℝ), [b, 0]], row.length = ([1, 7] : List ℝ).length := by
    intro a b row hrow
    obtain rfl | rfl := List.mem_pair.mp hrow
    · rfl
    · rfl
  have hconsistent : Meets 2 (WithLp.toLp 2 ![2, 0]) [([2, 0], 4), ([4, 0], 8)] := by
    intro entry hentry
    obtain rfl | rfl := List.mem_pair.mp hentry
    · rw [inner_pair]
      norm_num
    · rw [inner_pair]
      norm_num
  have hrescaled : Rescaled [([2, 0], 4), ([4, 0], 8)] [([4, 0], 8), ([1, 0], 2)] := by
    refine ⟨[(1 / 2, [2, 0], 4), (1, [4, 0], 8)], by simp, rfl, ?_⟩
    norm_num
    exact List.Perm.swap _ _ _
  obtain ⟨x, hx, hmeets, hsame⟩ := (project_projects [[2, 0], [4, 0]] [4, 8] [1, 7] (hrows 2 4)).2
    (separated_multiples two_ne_zero 4 4 8) ⟨_, hconsistent⟩
  exact ⟨x, hx, hmeets, hsame [[4, 0], [1, 0]] [8, 2] (hrows 4 1) hrescaled
    (separated_multiples four_ne_zero 1 8 2)⟩

/-- The system `x = 0`, `10⁶ x + 10⁻⁵ y = 1` has a solution, and its second row is farther than the threshold from
the first. Scaled to a largest coefficient of one it is not, and there is no result. -/
theorem project_none_scaled :
    (∀ w ∈ rowSpan 2 [], (pivotThreshold : ℝ) < ‖vec 2 [1, 0] - w‖) ∧
      (∀ w ∈ rowSpan 2 [([1, 0], 0)], (pivotThreshold : ℝ) < ‖vec 2 [10 ^ 6, 1 / 10 ^ 5] - w‖) ∧
      (∃ x, Meets 2 x [([1, 0], 0), ([10 ^ 6, 1 / 10 ^ 5], 1)]) ∧
      project [[(1 : ℝ), 0], [10 ^ 6, 1 / 10 ^ 5]] [0, 1] [0, 0] = none := by
  have hlargest : largest [(10 : ℝ) ^ 6, 1 / 10 ^ 5] = 10 ^ 6 := by
    rw [largest_pair]
    norm_num
  refine ⟨?_, ?_, ?_, ?_⟩
  · intro w hw
    rw [eq_zero_of_mem_rowSpan_nil hw, sub_zero]
    apply far_of_coordinate 0
    apply pivotThreshold_lt
    norm_num [vec]
  · intro w hw
    have hsecond : w 1 = 0 := by
      induction hw using Submodule.span_induction with
      | mem v hv =>
        obtain ⟨entry, hentry, rfl⟩ := hv
        rw [List.mem_singleton.mp hentry]
        rfl
      | zero => rfl
      | add v v' _ _ hv hv' => rw [PiLp.add_apply, hv, hv', add_zero]
      | smul t v _ hv => rw [PiLp.smul_apply, hv, smul_zero]
    apply far_of_coordinate 1
    apply pivotThreshold_lt
    rw [PiLp.sub_apply, hsecond]
    norm_num [vec]
  · refine ⟨WithLp.toLp 2 ![0, 10 ^ 5], ?_⟩
    intro entry hentry
    obtain rfl | hentry := List.mem_cons.mp hentry
    · rw [inner_pair]
      norm_num
    · rw [List.mem_singleton.mp hentry, inner_pair]
      norm_num
  · -- the first row is the basis, and the second is left out
    have hfirst : ∃ basis, addRow [] ([(1 : ℝ), 0], 0) = some basis ∧ Reaches 2 0 [([(1 : ℝ), 0], 0)] basis := by
      apply (reaches_nil 0).addRow rfl (inner_zero_right _)
      right
      intro w hw
      rw [eq_zero_of_mem_rowSpan_nil hw, sub_zero, largest_pair]
      apply far_of_coordinate 0
      apply pivotThreshold_lt
      norm_num [vec]
    obtain ⟨basis, hbasis, hreaches⟩ := hfirst
    have hdropped : addRow basis ([(10 : ℝ) ^ 6, 1 / 10 ^ 5], 1) = some basis := by
      apply hreaches.drop rfl 1 _ (mem_rowSpan List.mem_cons_self)
      · rw [hlargest, EuclideanSpace.norm_eq, Fin.sum_univ_two]
        change _ ≤ ((1 / 10 ^ 10 : ℚ) : ℝ)
        apply Real.sqrt_le_iff.mpr
        norm_num [vec]
      · rw [hlargest]
        norm_num
    obtain ⟨hlength, hvec⟩ := correct_eq hreaches.within.lengths [(0 : ℝ), 0] rfl
    have hdefault : vec 2 [(0 : ℝ), 0] = 0 := by
      ext i
      fin_cases i
      · rfl
      · rfl
    have hzero : vec 2 (correct basis [(0 : ℝ), 0]) = 0 := by
      have hcorrected := corrected_holds hreaches.within.units (vec 2 [(0 : ℝ), 0])
      have hspan := corrected_span (vec 2 [(0 : ℝ), 0]) (basis.map (eqn 2))
      have hnone : (0 : EuclideanSpace ℝ (Fin 2)) - vec 2 [(0 : ℝ), 0] ∈
          spanOf ((basis.map (eqn 2)).map Prod.fst) := by
        rw [hdefault, sub_zero]
        exact zero_mem _
      rw [hvec]
      apply unique_point hspan hnone
      intro v hv
      obtain ⟨p, hp, rfl⟩ := List.mem_map.mp hv
      rw [hcorrected p hp, hreaches.holds p hp]
    have hfold : ([([(1 : ℝ), 0], (0 : ℝ)), ([10 ^ 6, 1 / 10 ^ 5], 1)] : List (List ℝ × ℝ)).foldlM addRow [] =
        some basis := by
      rw [List.foldlM_cons, hbasis]
      change List.foldlM addRow basis [([(10 : ℝ) ^ 6, 1 / 10 ^ 5], 1)] = some basis
      rw [List.foldlM_cons, hdropped]
      rfl
    have hmissed : holdsAt (correct basis [(0 : ℝ), 0]) ([(10 : ℝ) ^ 6, 1 / 10 ^ 5], 1) = false := by
      rw [Bool.eq_false_iff]
      intro hholds
      have hnear := (holdsAt_iff (n := 2) hlength rfl).mp hholds
      rw [hzero, inner_zero_right] at hnear
      norm_num at hnear
    rw [project]
    change ([([(1 : ℝ), 0], (0 : ℝ)), ([10 ^ 6, 1 / 10 ^ 5], 1)] : List (List ℝ × ℝ)).foldlM addRow [] >>= _ = none
    rw [hfold]
    change (if _ then none else if (holdsAt _ _ && (holdsAt (correct basis [(0 : ℝ), 0])
      ([(10 : ℝ) ^ 6, 1 / 10 ^ 5], 1) && true)) = true then some _ else none) = none
    rw [hmissed, Bool.false_and, Bool.and_false, if_neg Bool.false_ne_true, ite_self]

end Tellegen.McOpf
