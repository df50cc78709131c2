import Tellegen.Lib.Complex64
import Tellegen.Lib.ResidualBound
import Tellegen.Lib.Triplets

/-!
The check of a factorization of an equilibrated KKT matrix: one backsolve for each column of the inverse, a
residual and a condition bound. Whatever the backsolves return, a matrix that passes is invertible.
-/

open Binary64 hiding max min
open ResidualBound Matrix

namespace Tellegen.McOpf

inductive SensitivityErrorKind where
  | missingDuals | staleResult | invalidResult | unreliableDuals | unsupportedParameter | unsupportedOutput
  | invalidRequest | derivativeEvaluation | singularKkt | linearSolveFailure
  deriving DecidableEq

structure SensitivityError where
  kind : SensitivityErrorKind
  message : String
  deriving DecidableEq

section Model

variable {F : Type} [Binary64 F] {n : ℕ}

def refused : SensitivityError :=
  ⟨.singularKkt, "singular or numerically unstable equilibrated KKT inverse"⟩

def epsilon : F := lit (1 / 2 ^ 52)

def scaledEntries (entries : List (Fin n × Fin n × F)) (scale : Fin n → F) : List (Fin n × Fin n × F) :=
  entries.map fun (r, c, v) => (r, c, v * scale r * scale c)

def columnSums (scaled : List (Fin n × Fin n × F)) : Fin n → F :=
  Triplets.gather (scaled.map fun (_, c, v) => (c, Binary64.abs v))

/-- What the products of a residual add up to without their signs. -/
def magnitudes (scaled : List (Fin n × Fin n × F)) (x b : Fin n → F) : Fin n → F :=
  scaled.foldl (fun m (r, c, v) => Function.update m r (m r + Binary64.abs (v * x c))) b

def roundoff (n : ℕ) : F := (lit 3 * Binary64.ofNat n + lit 4) * epsilon

def inflation (n : ℕ) : F := 1 / (1 - roundoff n)

def gamma (n : ℕ) : F := roundoff n * inflation n

def matrixNorm (scaled : List (Fin n × Fin n × F)) : F :=
  ((List.finRange n).map (columnSums scaled)).foldl Binary64.max 0 * inflation n

/-- The largest norms of the columns of the inverse and of the residual so far. -/
structure InverseNorms (F : Type) where
  inverse : F
  residual : F

def unitColumn (column : Fin n) : Fin n → F := Function.update (fun _ => 0) column 1

def columnNorm (x : Fin n → F) : F :=
  Binary64.sum ((List.finRange n).map fun i => Binary64.abs (x i)) * inflation n

def residualBound (scaled : List (Fin n × Fin n × F)) (x : Fin n → F) (column : Fin n) : F :=
  let residual := Triplets.residual scaled x (unitColumn column)
  let magnitude := magnitudes scaled x (unitColumn column)
  Binary64.sum ((List.finRange n).map fun i => Binary64.abs (residual i) + gamma n * magnitude i) * inflation n

def qualifyColumn (solve : (Fin n → F) → Fin n → F) (scaled : List (Fin n × Fin n × F))
    (norms : InverseNorms F) (column : Fin n) : Except SensitivityError (InverseNorms F) :=
  let x := solve (unitColumn column)
  let norm := columnNorm x
  if ¬ isFinite norm then .error refused
  else
    let inverseNorm := Binary64.max norms.inverse norm
    let bound := residualBound scaled x column
    if ¬ isFinite bound ∨ le (lit (1 / 2)) bound then .error refused
    else
      let residualNorm := Binary64.max norms.residual bound
      let conditionBound := matrixNorm scaled * inverseNorm / (1 - residualNorm)
      if ¬ isFinite conditionBound ∨ lt (lit (10 ^ 12)) conditionBound then .error refused
      else .ok ⟨inverseNorm, residualNorm⟩

/-- Checks every column of the inverse that the backsolves stand for. -/
def qualifyInverse (solve : (Fin n → F) → Fin n → F) (entries : List (Fin n × Fin n × F))
    (scale : Fin n → F) : Except SensitivityError Unit :=
  if n = 0 then .error refused
  else if le (lit (1 / 2)) (roundoff n : F) then .error refused
  else do
    let _ ← (List.finRange n).foldlM (qualifyColumn solve (scaledEntries entries scale)) ⟨0, 0⟩
    .ok ()

end Model

section Exact

variable [DecimalText ℝ] {n : ℕ}

theorem finRange_sum (f : Fin n → ℝ) : Binary64.sum ((List.finRange n).map f) = ∑ i, f i := by
  rw [sum_real, Fin.sum_univ_def]

theorem abs_eq (a : ℝ) : Binary64.abs a = |a| := exact_abs DecimalText.text a

/-! ### Norms -/

theorem sum_abs_matrix_le (scaled : List (Fin n × Fin n × ℝ)) (j : Fin n) :
    ∑ i, |Triplets.matrix scaled i j| ≤ columnSums scaled j := by
  induction scaled with
  | nil => simp [columnSums, Triplets.gather]
  | cons entry rest ih =>
    obtain ⟨r, c, v⟩ := entry
    have hsplit : columnSums ((r, c, v) :: rest) j = (Pi.single c |v| : Fin n → ℝ) j + columnSums rest j := by
      rw [columnSums, List.map_cons, Triplets.gather_cons, abs_eq]
      rfl
    have hsingle : ∑ i, |Matrix.single r c v i j| = (Pi.single c |v| : Fin n → ℝ) j := by
      by_cases hj : c = j
      · subst hj
        rw [Pi.single_eq_same, Finset.sum_eq_single r]
        · rw [Matrix.single_apply_same]
        · intro i _ hi
          rw [Matrix.single_apply_of_row_ne (Ne.symm hi), abs_zero]
        · exact fun h => absurd (Finset.mem_univ r) h
      · rw [Pi.single_eq_of_ne (Ne.symm hj)]
        apply Finset.sum_eq_zero
        intro i _
        rw [Matrix.single_apply_of_col_ne _ _ hj, abs_zero]
    rw [hsplit, Triplets.matrix_cons, ← hsingle]
    calc ∑ i, |(Matrix.single r c v + Triplets.matrix rest) i j|
        ≤ ∑ i, (|Matrix.single r c v i j| + |Triplets.matrix rest i j|) :=
          Finset.sum_le_sum fun i _ => abs_add_le _ _
      _ = ∑ i, |Matrix.single r c v i j| + ∑ i, |Triplets.matrix rest i j| := Finset.sum_add_distrib
      _ ≤ ∑ i, |Matrix.single r c v i j| + columnSums rest j := by gcongr

theorem magnitudes_nonneg (scaled : List (Fin n × Fin n × ℝ)) (x : Fin n → ℝ) {b : Fin n → ℝ}
    (hb : ∀ i, 0 ≤ b i) : ∀ i, 0 ≤ magnitudes scaled x b i := by
  induction scaled generalizing b with
  | nil => exact hb
  | cons entry rest ih =>
    obtain ⟨r, c, v⟩ := entry
    rw [magnitudes, List.foldl_cons]
    apply ih
    intro i
    change 0 ≤ Function.update b r (b r + Binary64.abs (v * x c)) i
    by_cases hi : i = r
    · subst hi
      rw [Function.update_self, abs_eq]
      exact add_nonneg (hb i) (abs_nonneg _)
    · rw [Function.update_of_ne hi]
      exact hb i

section Allowance

variable (hn : (roundoff n : ℝ) < 1 / 2)
include hn

theorem one_le_inflation : (1 : ℝ) ≤ inflation n := by
  have hnonneg : (0 : ℝ) ≤ roundoff n := by
    have hepsilon : (0 : ℝ) ≤ epsilon := Rat.cast_nonneg.mpr (by norm_num)
    have hthree : (0 : ℝ) ≤ lit 3 := Rat.cast_nonneg.mpr (by norm_num)
    have hfour : (0 : ℝ) ≤ lit 4 := Rat.cast_nonneg.mpr (by norm_num)
    have hcount : (0 : ℝ) ≤ Binary64.ofNat n := Rat.cast_nonneg.mpr (Nat.cast_nonneg n)
    exact mul_nonneg (add_nonneg (mul_nonneg hthree hcount) hfour) hepsilon
  rw [inflation, le_div_iff₀ (by linarith), one_mul]
  linarith

theorem le_mul_inflation {a : ℝ} (ha : 0 ≤ a) : a ≤ a * inflation n :=
  le_mul_of_one_le_right ha (one_le_inflation hn)

theorem oneNorm_le_matrixNorm (scaled : List (Fin n × Fin n × ℝ)) :
    oneNorm (Triplets.matrix scaled) ≤ matrixNorm scaled := by
  obtain ⟨hzero, hall⟩ := le_foldl_max ((List.finRange n).map (columnSums scaled)) 0
  refine le_trans ?_ (le_mul_inflation hn hzero)
  apply oneNorm_le hzero
  intro j
  apply (sum_abs_matrix_le scaled j).trans
  exact hall _ (List.mem_map_of_mem (List.mem_finRange j))

theorem sum_abs_le_columnNorm (x : Fin n → ℝ) : ∑ i, |x i| ≤ columnNorm x := by
  have hsum : Binary64.sum ((List.finRange n).map fun i => Binary64.abs (x i)) = ∑ i, |x i| := by
    rw [finRange_sum]
    exact Finset.sum_congr rfl fun i _ => abs_eq _
  rw [columnNorm, hsum]
  exact le_mul_inflation hn (Finset.sum_nonneg fun i _ => abs_nonneg _)

theorem sum_abs_le_residualBound (scaled : List (Fin n × Fin n × ℝ)) (x : Fin n → ℝ) (column : Fin n) :
    ∑ i, |((Pi.single column 1 : Fin n → ℝ) - Triplets.matrix scaled *ᵥ x) i| ≤ residualBound scaled x column := by
  have hunit : unitColumn column = (Pi.single column 1 : Fin n → ℝ) := rfl
  have hgamma : (0 : ℝ) ≤ gamma n := by
    have hone := one_le_inflation hn
    have hroundoff : (roundoff n : ℝ) = 1 - 1 / inflation n := by
      rw [inflation, one_div_one_div, sub_sub_cancel]
    have hinv : 1 / (inflation n : ℝ) ≤ 1 := (div_le_one (by linarith)).mpr hone
    rw [gamma, hroundoff]
    exact mul_nonneg (sub_nonneg.mpr hinv) (by linarith)
  have hmagnitudes := magnitudes_nonneg scaled x (b := unitColumn column) fun i => by
    rw [hunit, Pi.single_apply]
    split <;> norm_num
  have hterms : ∀ i, |((Pi.single column 1 : Fin n → ℝ) - Triplets.matrix scaled *ᵥ x) i| ≤
      Binary64.abs (Triplets.residual scaled x (unitColumn column) i) +
        gamma n * magnitudes scaled x (unitColumn column) i := by
    intro i
    rw [abs_eq, Triplets.residual_eq, hunit]
    exact le_add_of_nonneg_right (mul_nonneg hgamma (hunit ▸ hmagnitudes i))
  rw [residualBound, finRange_sum]
  apply (Finset.sum_le_sum fun i _ => hterms i).trans
  apply le_mul_inflation hn
  exact Finset.sum_nonneg fun i _ => (abs_nonneg _).trans (hterms i)

end Allowance

/-! ### The columns -/

/-- The matrix whose columns the backsolves return. -/
noncomputable def inverseGuess (solve : (Fin n → ℝ) → Fin n → ℝ) : Matrix (Fin n) (Fin n) ℝ :=
  Matrix.of fun i j => solve (unitColumn j) i

theorem residual_column (solve : (Fin n → ℝ) → Fin n → ℝ) (B : Matrix (Fin n) (Fin n) ℝ) (i j : Fin n) :
    (1 - B * inverseGuess solve) i j = ((Pi.single j 1 : Fin n → ℝ) - B *ᵥ solve (unitColumn j)) i := by
  rw [Matrix.sub_apply, Pi.sub_apply, Matrix.one_apply, Pi.single_apply]
  rfl

/-- What holds of the norms when the columns of `seen` have passed. -/
structure Qualified (solve : (Fin n → ℝ) → Fin n → ℝ) (scaled : List (Fin n × Fin n × ℝ)) (seen : List (Fin n))
    (norms : InverseNorms ℝ) : Prop where
  inverse : ∀ j ∈ seen, ∑ i, |inverseGuess solve i j| ≤ norms.inverse
  residual : ∀ j ∈ seen, ∑ i, |(1 - Triplets.matrix scaled * inverseGuess solve) i j| ≤ norms.residual
  small : norms.residual < 1 / 2
  bound : seen ≠ [] → matrixNorm scaled * norms.inverse / (1 - norms.residual) ≤ 10 ^ 12

theorem half_le_iff (a : ℝ) : le (lit (1 / 2)) a = true ↔ 1 / 2 ≤ a := by
  have hhalf : (lit (1 / 2) : ℝ) = 1 / 2 := by
    change ((1 / 2 : ℚ) : ℝ) = 1 / 2
    norm_num
  rw [← hhalf]
  exact decide_eq_true_iff

theorem Qualified.column (hn : (roundoff n : ℝ) < 1 / 2) {solve : (Fin n → ℝ) → Fin n → ℝ}
    {scaled : List (Fin n × Fin n × ℝ)} {seen : List (Fin n)} {norms next : InverseNorms ℝ}
    (h : Qualified solve scaled seen norms) {column : Fin n}
    (hstep : qualifyColumn solve scaled norms column = .ok next) :
    Qualified solve scaled (seen ++ [column]) next := by
  have hnorm : ∑ i, |inverseGuess solve i column| ≤ columnNorm (solve (unitColumn column)) :=
    sum_abs_le_columnNorm hn (solve (unitColumn column))
  have hresidual : ∑ i, |(1 - Triplets.matrix scaled * inverseGuess solve) i column| ≤
      residualBound scaled (solve (unitColumn column)) column := by
    simp only [residual_column]
    exact sum_abs_le_residualBound hn scaled _ column
  unfold qualifyColumn at hstep
  dsimp only at hstep
  set bound := residualBound scaled (solve (unitColumn column)) column
  split at hstep
  · exact nomatch hstep
  split at hstep
  · exact nomatch hstep
  case isFalse hbound =>
    split at hstep
    · exact nomatch hstep
    case isFalse hcondition =>
      obtain rfl := Except.ok.inj hstep
      rw [not_or, half_le_iff] at hbound
      rw [not_or] at hcondition
      refine { inverse := ?_, residual := ?_, small := ?_, bound := fun _ => ?_ }
      · intro j hj
        dsimp only
        rw [max_real]
        rcases List.mem_append.mp hj with hj | hj
        · exact (h.inverse j hj).trans (le_max_left _ _)
        · obtain rfl := List.mem_singleton.mp hj
          exact hnorm.trans (le_max_right _ _)
      · intro j hj
        dsimp only
        rw [max_real]
        rcases List.mem_append.mp hj with hj | hj
        · exact (h.residual j hj).trans (le_max_left _ _)
        · obtain rfl := List.mem_singleton.mp hj
          exact hresidual.trans (le_max_right _ _)
      · dsimp only
        rw [max_real]
        exact max_lt h.small (not_le.mp hbound.2)
      · have hlimit : (lit (10 ^ 12) : ℝ) = 10 ^ 12 := by
          change ((10 ^ 12 : ℚ) : ℝ) = 10 ^ 12
          norm_num
        rw [← hlimit]
        exact not_lt.mp fun hlt => hcondition.2 (decide_eq_true hlt)

theorem Qualified.all (hn : (roundoff n : ℝ) < 1 / 2) {solve : (Fin n → ℝ) → Fin n → ℝ}
    {scaled : List (Fin n × Fin n × ℝ)} {rest seen : List (Fin n)} {norms last : InverseNorms ℝ}
    (h : Qualified solve scaled seen norms)
    (hrun : rest.foldlM (qualifyColumn solve scaled) norms = .ok last) :
    Qualified solve scaled (seen ++ rest) last := by
  induction rest generalizing seen norms with
  | nil =>
    obtain rfl := Except.ok.inj hrun
    rwa [List.append_nil]
  | cons column rest ih =>
    rw [List.foldlM_cons] at hrun
    cases hstep : qualifyColumn solve scaled norms column with
    | error e =>
      rw [hstep] at hrun
      exact nomatch hrun
    | ok next =>
      rw [hstep] at hrun
      have hrest := ih (h.column hn hstep) hrun
      rwa [List.append_assoc] at hrest

theorem error_eq_refused {solve : (Fin n → ℝ) → Fin n → ℝ} {entries : List (Fin n × Fin n × ℝ)}
    {scale : Fin n → ℝ} {e : SensitivityError} (h : qualifyInverse solve entries scale = .error e) :
    e = refused := by
  have hcolumn : ∀ (norms : InverseNorms ℝ) (column : Fin n) (e : SensitivityError),
      qualifyColumn solve (scaledEntries entries scale) norms column = .error e → e = refused := by
    intro norms column e he
    unfold qualifyColumn at he
    dsimp only at he
    split_ifs at he
    all_goals exact (Except.error.inj he).symm
  have hfold : ∀ (rest : List (Fin n)) (norms : InverseNorms ℝ) (e : SensitivityError),
      rest.foldlM (qualifyColumn solve (scaledEntries entries scale)) norms = .error e → e = refused := by
    intro rest
    induction rest with
    | nil => exact fun norms e he => nomatch he
    | cons column rest ih =>
      intro norms e he
      rw [List.foldlM_cons] at he
      cases hstep : qualifyColumn solve (scaledEntries entries scale) norms column with
      | error e' =>
        rw [hstep] at he
        obtain rfl := Except.error.inj he
        exact hcolumn _ _ _ hstep
      | ok next =>
        rw [hstep] at he
        exact ih next e he
  unfold qualifyInverse at h
  split at h
  · exact (Except.error.inj h).symm
  split at h
  · exact (Except.error.inj h).symm
  cases hrun : (List.finRange n).foldlM (qualifyColumn solve (scaledEntries entries scale)) ⟨0, 0⟩ with
  | error e' =>
    rw [hrun] at h
    obtain rfl := Except.error.inj h
    exact hfold _ _ _ hrun
  | ok last =>
    rw [hrun] at h
    exact nomatch h

/-- A matrix whose inverse qualifies is invertible and well conditioned, whatever the backsolves return; a
singular one is always refused. -/
theorem qualify_inverse_sound (solve : (Fin n → ℝ) → Fin n → ℝ) (entries : List (Fin n × Fin n × ℝ))
    (scale : Fin n → ℝ) :
    let B := Triplets.matrix (scaledEntries entries scale)
    (qualifyInverse solve entries scale = .ok () → IsUnit B.det ∧ condition B ≤ 10 ^ 12) ∧
      (B.det = 0 → qualifyInverse solve entries scale = .error refused) := by
  have hsound : qualifyInverse solve entries scale = .ok () →
      IsUnit (Triplets.matrix (scaledEntries entries scale)).det ∧
        condition (Triplets.matrix (scaledEntries entries scale)) ≤ 10 ^ 12 := by
    intro hok
    unfold qualifyInverse at hok
    set scaled := scaledEntries entries scale
    split at hok
    · exact nomatch hok
    case isFalse hdim =>
      split at hok
      · exact nomatch hok
      case isFalse hround =>
        rw [half_le_iff, not_le] at hround
        cases hrun : (List.finRange n).foldlM (qualifyColumn solve scaled) ⟨0, 0⟩ with
        | error e =>
          rw [hrun] at hok
          exact nomatch hok
        | ok last =>
          have hstart : Qualified solve scaled [] ⟨0, 0⟩ :=
            { inverse := fun j hj => absurd hj List.not_mem_nil
              residual := fun j hj => absurd hj List.not_mem_nil
              small := by norm_num, bound := fun h => absurd rfl h }
          have hall := hstart.all hround hrun
          rw [List.nil_append] at hall
          have hpos : 0 < n := Nat.pos_of_ne_zero hdim
          have hne : List.finRange n ≠ [] := List.ne_nil_of_mem (List.mem_finRange ⟨0, hpos⟩)
          have hmem := List.mem_finRange (n := n)
          have hinverse : oneNorm (inverseGuess solve) ≤ last.inverse :=
            oneNorm_le ((Finset.sum_nonneg fun i _ => abs_nonneg _).trans (hall.inverse ⟨0, hpos⟩ (hmem _)))
              fun j => hall.inverse j (hmem j)
          have hresidual : oneNorm (1 - Triplets.matrix scaled * inverseGuess solve) ≤ last.residual :=
            oneNorm_le ((Finset.sum_nonneg fun i _ => abs_nonneg _).trans (hall.residual ⟨0, hpos⟩ (hmem _)))
              fun j => hall.residual j (hmem j)
          have hlt : last.residual < 1 := hall.small.trans (by norm_num)
          refine ⟨isUnit_det_of_residual hresidual hlt, ?_⟩
          exact (condition_le (oneNorm_le_matrixNorm hround scaled) hinverse hresidual hlt).trans
            (hall.bound hne)
  refine ⟨hsound, fun hdet => ?_⟩
  cases hresult : qualifyInverse solve entries scale with
  | ok _ =>
    have hunit := (hsound hresult).1
    rw [hdet] at hunit
    exact absurd hunit not_isUnit_zero
  | error e => rw [error_eq_refused hresult]

end Exact

section Sample

@[reducible] local instance inverseText : DecimalText ℝ := ⟨fun _ => ""⟩

theorem roundoff_two : (roundoff 2 : ℝ) = 10 / 2 ^ 52 := by
  change (((3 : ℚ) : ℝ) * (((2 : ℕ) : ℚ) : ℝ) + ((4 : ℚ) : ℝ)) * ((1 / 2 ^ 52 : ℚ) : ℝ) = 10 / 2 ^ 52
  norm_num

/-- The rows `(2, 1)` and `(0, 1)`. -/
def upperEntries : List (Fin 2 × Fin 2 × ℝ) := [(0, 0, 2), (0, 1, 1), (1, 1, 1)]

/-- The solution of the upper triangular system. -/
noncomputable def upperSolve (b : Fin 2 → ℝ) : Fin 2 → ℝ := ![b 0 / 2 - b 1 / 2, b 1]

theorem upperSolve_unit : upperSolve (unitColumn 0) = ![1 / 2, 0] ∧
    upperSolve (unitColumn 1) = ![-1 / 2, 1] := by
  constructor <;> ext i <;> fin_cases i <;> norm_num [upperSolve, unitColumn]

theorem scaled_upperEntries : scaledEntries upperEntries (fun _ => 1) = upperEntries := by
  simp [scaledEntries, upperEntries]

theorem columnNorm_pair (a b : ℝ) : columnNorm ![a, b] = (|a| + |b|) * inflation 2 := by
  rw [columnNorm, finRange_sum, Fin.sum_univ_two, abs_eq, abs_eq]
  rfl

theorem matrixNorm_upperEntries : matrixNorm upperEntries = 2 * (inflation 2 : ℝ) := by
  have hsums : columnSums upperEntries 0 = 2 ∧ columnSums upperEntries 1 = 2 := by
    constructor <;> norm_num [columnSums, upperEntries, Triplets.gather, abs_eq]
  rw [matrixNorm]
  change Binary64.max (Binary64.max 0 (columnSums upperEntries 0)) (columnSums upperEntries 1) *
    inflation 2 = 2 * inflation 2
  rw [hsums.1, hsums.2, max_real, max_real]
  norm_num

theorem residualBound_upperEntries :
    residualBound upperEntries ![1 / 2, 0] 0 = 2 * gamma 2 * (inflation 2 : ℝ) ∧
      residualBound upperEntries ![-1 / 2, 1] 1 = 4 * gamma 2 * (inflation 2 : ℝ) := by
  constructor
  · rw [residualBound, finRange_sum, Fin.sum_univ_two]
    norm_num [Triplets.residual, magnitudes, upperEntries, unitColumn, abs_eq, mul_comm]
  · rw [residualBound, finRange_sum, Fin.sum_univ_two]
    norm_num [Triplets.residual, magnitudes, upperEntries, unitColumn, abs_eq]
    left
    ring

theorem qualifyColumn_eq_ok {n : ℕ} {solve : (Fin n → ℝ) → Fin n → ℝ}
    {scaled : List (Fin n × Fin n × ℝ)} {norms : InverseNorms ℝ} {column : Fin n}
    (hbound : residualBound scaled (solve (unitColumn column)) column < 1 / 2)
    (hcondition : matrixNorm scaled * Max.max norms.inverse (columnNorm (solve (unitColumn column))) /
      (1 - Max.max norms.residual (residualBound scaled (solve (unitColumn column)) column)) ≤ 10 ^ 12) :
    qualifyColumn solve scaled norms column =
      .ok ⟨Max.max norms.inverse (columnNorm (solve (unitColumn column))),
        Max.max norms.residual (residualBound scaled (solve (unitColumn column)) column)⟩ := by
  have hfinite : ∀ a : ℝ, ¬ ¬ isFinite a = true := fun a => not_not.mpr rfl
  have hlimit : (lit (10 ^ 12) : ℝ) = 10 ^ 12 := by
    change ((10 ^ 12 : ℚ) : ℝ) = 10 ^ 12
    norm_num
  unfold qualifyColumn
  simp only [max_real]
  have hsmall : ¬ (¬ isFinite (residualBound scaled (solve (unitColumn column)) column) = true ∨
      le (lit (1 / 2)) (residualBound scaled (solve (unitColumn column)) column) = true) := by
    rw [not_or, half_le_iff]
    exact ⟨hfinite _, not_le.mpr hbound⟩
  rw [if_neg (hfinite _), if_neg hsmall, if_neg]
  rw [not_or, hlimit]
  exact ⟨hfinite _, fun h => absurd (of_decide_eq_true h) (not_lt.mpr hcondition)⟩

theorem qualifyInverse_upperEntries : qualifyInverse upperSolve upperEntries (fun _ => 1) = .ok () := by
  have hround : ¬ le (lit (1 / 2)) (roundoff 2 : ℝ) = true := by
    rw [half_le_iff, roundoff_two]
    norm_num
  have hfirst : qualifyColumn upperSolve upperEntries ⟨0, 0⟩ 0 =
      .ok ⟨Max.max 0 ((|1 / 2| + |0|) * inflation 2), Max.max 0 (2 * gamma 2 * inflation 2)⟩ := by
    rw [qualifyColumn_eq_ok, upperSolve_unit.1, columnNorm_pair, residualBound_upperEntries.1]
    · rw [upperSolve_unit.1, residualBound_upperEntries.1, gamma, inflation, roundoff_two]
      norm_num
    · rw [upperSolve_unit.1, residualBound_upperEntries.1, columnNorm_pair, matrixNorm_upperEntries,
        gamma, inflation, roundoff_two]
      norm_num
  have hsecond : ∃ norms, qualifyColumn upperSolve upperEntries
      ⟨Max.max 0 ((|1 / 2| + |0|) * inflation 2), Max.max 0 (2 * gamma 2 * inflation 2)⟩ 1 = .ok norms := by
    rw [qualifyColumn_eq_ok]
    · exact ⟨_, rfl⟩
    · rw [upperSolve_unit.2, residualBound_upperEntries.2, gamma, inflation, roundoff_two]
      norm_num
    · rw [upperSolve_unit.2, residualBound_upperEntries.2, columnNorm_pair, matrixNorm_upperEntries,
        gamma, inflation, roundoff_two]
      norm_num
  obtain ⟨norms, hsecond⟩ := hsecond
  have hcolumns : List.finRange 2 = [0, 1] := rfl
  rw [qualifyInverse, if_neg (by decide), if_neg hround, scaled_upperEntries, hcolumns,
    List.foldlM_cons, hfirst]
  change ((qualifyColumn upperSolve upperEntries _ 1 >>= pure) >>= _) = _
  rw [hsecond]
  rfl

/-- An upper triangular matrix with its inverse. -/
theorem qualify_inverse_sound_upper :
    qualifyInverse upperSolve upperEntries (fun _ => 1) = .ok () ∧
      IsUnit (Triplets.matrix (scaledEntries upperEntries fun _ => 1)).det :=
  ⟨qualifyInverse_upperEntries,
    ((qualify_inverse_sound upperSolve upperEntries fun _ => 1).1 qualifyInverse_upperEntries).1⟩

end Sample

end Tellegen.McOpf
