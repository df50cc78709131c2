import Tellegen.Lib.LeastSquares
import Tellegen.Preparation

/-!
Fitted costs in exact arithmetic, where the thresholds are tests for zero. The fit is the best of all convex
quadratics, and the only one, so neither the order of the breakpoints nor the scale of power makes a difference.
-/

set_option linter.unusedSectionVars false

open Binary64 hiding max min

namespace Tellegen.Preparation

variable [DecimalText ℝ]

def Thresholds.exact : Thresholds ℝ := ⟨0, 0⟩

theorem real_abs (a : ℝ) : Binary64.abs a = |a| := exact_abs _ a

/-! ### Elimination -/

def Solves (a : Matrix3 ℝ) (b x : Fin 3 → ℝ) : Prop := ∀ r, ∑ c, a r c * x c = b r

theorem solves_swap (a : Matrix3 ℝ) (b x : Fin 3 → ℝ) (e : Equiv.Perm (Fin 3)) :
    Solves (fun r => a (e r)) (fun r => b (e r)) x ↔ Solves a b x := by
  constructor
  · intro h r
    have hrow := h (e.symm r)
    dsimp only at hrow
    rwa [e.apply_symm_apply] at hrow
  · exact fun h r => h (e r)

/-- The columns before `k` are zero below the diagonal. -/
def Cleared (k : ℕ) (a : Matrix3 ℝ) : Prop := ∀ r c : Fin 3, (c : ℕ) < k → c < r → a r c = 0

/-- Elimination is exact in the columns that it leaves out too: the pivot row is zero in them. -/
theorem eliminate_row {a : Matrix3 ℝ} {i : Fin 3} (hcleared : Cleared i a) (b : Fin 3 → ℝ) {r : Fin 3}
    (hr : i < r) (c : Fin 3) : (eliminate a b i).1 r c = a r c - a r i / a i i * a i c := by
  change (if i < r ∧ i ≤ c then _ else _) = _
  by_cases hc : i ≤ c
  · rw [if_pos ⟨hr, hc⟩]
  · have hlt := not_le.mp hc
    rw [if_neg fun h => hc h.2, hcleared i c hlt hlt, mul_zero, sub_zero]

theorem eliminate_above (a : Matrix3 ℝ) (b : Fin 3 → ℝ) {i r : Fin 3} (hr : ¬ i < r) (c : Fin 3) :
    (eliminate a b i).1 r c = a r c := if_neg fun h => hr h.1

theorem solves_eliminate {a : Matrix3 ℝ} {i : Fin 3} (hcleared : Cleared i a) (b x : Fin 3 → ℝ) :
    Solves (eliminate a b i).1 (eliminate a b i).2 x ↔ Solves a b x := by
  have hsum : ∀ r, i < r → ∑ c, (eliminate a b i).1 r c * x c =
      ∑ c, a r c * x c - a r i / a i i * ∑ c, a i c * x c := by
    intro r hr
    rw [Finset.mul_sum, ← Finset.sum_sub_distrib]
    apply Finset.sum_congr rfl
    intro c _
    rw [eliminate_row hcleared b hr]
    ring
  have hsame : ∀ r, ¬ i < r → ∑ c, (eliminate a b i).1 r c * x c = ∑ c, a r c * x c := by
    intro r hr
    apply Finset.sum_congr rfl
    intro c _
    rw [eliminate_above a b hr]
  have hpivot : (eliminate a b i).2 i = b i := if_neg (lt_irrefl i)
  constructor
  · intro h r
    have hi := h i
    rw [hsame i (lt_irrefl i), hpivot] at hi
    have hr := h r
    by_cases hlt : i < r
    · have hb : (eliminate a b i).2 r = b r - a r i / a i i * b i := if_pos hlt
      rw [hsum r hlt, hb, hi] at hr
      linarith
    · have hb : (eliminate a b i).2 r = b r := if_neg hlt
      rw [hsame r hlt, hb] at hr
      exact hr
  · intro h r
    by_cases hlt : i < r
    · have hb : (eliminate a b i).2 r = b r - a r i / a i i * b i := if_pos hlt
      rw [hsum r hlt, hb, h r, h i]
    · have hb : (eliminate a b i).2 r = b r := if_neg hlt
      rw [hsame r hlt, hb, h r]

theorem pivotRow_greatest (a : Matrix3 ℝ) (i : Fin 3) :
    i ≤ pivotRow a i ∧ ∀ r, i ≤ r → |a r i| ≤ |a (pivotRow a i) i| := by
  have hfold : ∀ (below : List (Fin 3)) (first : Fin 3), i ≤ first → (∀ r ∈ below, i < r) →
      let pivot := below.foldl (fun pivot r => if lt (Binary64.abs (a pivot i)) (Binary64.abs (a r i)) then r
        else pivot) first
      i ≤ pivot ∧ ∀ r ∈ first :: below, |a r i| ≤ |a pivot i| := by
    intro below
    induction below with
    | nil =>
      intro first hfirst _
      refine ⟨hfirst, ?_⟩
      intro r hr
      rw [List.mem_singleton.mp hr]
      exact le_refl _
    | cons second below ih =>
      intro first hfirst hbelow
      have hrest : ∀ r ∈ below, i < r := fun r hr => hbelow r (List.mem_cons_of_mem _ hr)
      rw [List.foldl_cons]
      split
      case isTrue hlt =>
        have hlt : |a first i| < |a second i| := by
          have hdecide := of_decide_eq_true hlt
          rwa [real_abs, real_abs] at hdecide
        obtain ⟨hpivot, hgreatest⟩ := ih second (le_of_lt (hbelow second List.mem_cons_self)) hrest
        refine ⟨hpivot, ?_⟩
        intro r hr
        obtain rfl | hr := List.mem_cons.mp hr
        · exact le_trans (le_of_lt hlt) (hgreatest second List.mem_cons_self)
        · exact hgreatest r hr
      case isFalse hge =>
        have hge : |a second i| ≤ |a first i| := by
          have hdecide := of_decide_eq_false (Bool.eq_false_iff.mpr hge)
          rw [real_abs, real_abs, not_lt] at hdecide
          exact hdecide
        obtain ⟨hpivot, hgreatest⟩ := ih first hfirst hrest
        refine ⟨hpivot, ?_⟩
        intro r hr
        obtain rfl | hr := List.mem_cons.mp hr
        · exact hgreatest r List.mem_cons_self
        · obtain rfl | hr := List.mem_cons.mp hr
          · exact le_trans hge (hgreatest first List.mem_cons_self)
          · exact hgreatest r (List.mem_cons_of_mem _ hr)
  have hbelow : ∀ r, r ∈ rowsBelow i ↔ i < r := by
    intro r
    rw [rowsBelow, List.mem_filter, decide_eq_true_eq, and_iff_right (List.mem_finRange r)]
  obtain ⟨hpivot, hgreatest⟩ := hfold (rowsBelow i) i (le_refl i) fun r hr => (hbelow r).mp hr
  refine ⟨hpivot, ?_⟩
  intro r hr
  apply hgreatest r
  obtain rfl | hlt := eq_or_lt_of_le hr
  · exact List.mem_cons_self
  · exact List.mem_cons_of_mem _ ((hbelow r).mpr hlt)

/-- The system after the first `k` columns. -/
structure Stage (k : ℕ) (a₀ : Matrix3 ℝ) (b₀ : Fin 3 → ℝ) (system : Matrix3 ℝ × (Fin 3 → ℝ)) : Prop where
  solves : ∀ x, Solves system.1 system.2 x ↔ Solves a₀ b₀ x
  null : ∀ x, Solves system.1 0 x ↔ Solves a₀ 0 x
  cleared : Cleared k system.1
  diagonal : ∀ i : Fin 3, (i : ℕ) < k → system.1 i i ≠ 0

theorem stage_start (a : Matrix3 ℝ) (b : Fin 3 → ℝ) : Stage 0 a b (a, b) :=
  ⟨fun _ => Iff.rfl, fun _ => Iff.rfl, fun _ _ h => absurd h (Nat.not_lt_zero _), fun _ h =>
    absurd h (Nat.not_lt_zero _)⟩

theorem Cleared.swap {a : Matrix3 ℝ} {i p : Fin 3} (h : Cleared i a) (hp : i ≤ p) :
    Cleared i fun r => a (Equiv.swap i p r) := by
  intro r c hc hr
  have hci : c < i := hc
  dsimp only
  by_cases hri : r = i
  · rw [hri, Equiv.swap_apply_left]
    exact h p c hc (lt_of_lt_of_le hci hp)
  · by_cases hrp : r = p
    · rw [hrp, Equiv.swap_apply_right]
      exact h i c hc hci
    · rw [Equiv.swap_apply_of_ne_of_ne hri hrp]
      exact h r c hc hr

theorem Stage.next {a₀ : Matrix3 ℝ} {b₀ : Fin 3 → ℝ} {system next : Matrix3 ℝ × (Fin 3 → ℝ)} {i : Fin 3}
    (h : Stage i a₀ b₀ system) (hnext : pivotColumn .exact system i = some next) : Stage (i + 1) a₀ b₀ next := by
  obtain ⟨a, b⟩ := system
  rw [pivotColumn] at hnext
  split at hnext
  case isTrue => exact nomatch hnext
  case isFalse hpivot =>
    obtain ⟨hbelow, -⟩ := pivotRow_greatest a i
    set p := pivotRow a i
    set swapped : Matrix3 ℝ := fun r => a (Equiv.swap i p r) with hswapped
    obtain rfl := Option.some.inj hnext
    have hcleared : Cleared i swapped := h.cleared.swap hbelow
    have hnonzero : swapped i i ≠ 0 := by
      intro hzero
      apply hpivot
      rw [hswapped] at hzero
      dsimp only at hzero
      rw [Equiv.swap_apply_left] at hzero
      rw [hzero, real_abs, abs_zero]
      exact decide_eq_true (le_refl (0 : ℝ))
    have hnull : (eliminate swapped 0 i).2 = 0 := by
      funext r
      change (if i < r then (0 : ℝ) - swapped r i / swapped i i * 0 else 0) = 0
      rw [mul_zero, sub_zero, ite_self]
    constructor
    case solves =>
      intro x
      rw [solves_eliminate hcleared, solves_swap, h.solves]
    case null =>
      intro x
      have hsame := solves_eliminate hcleared 0 x
      rw [hnull] at hsame
      change Solves (eliminate swapped 0 i).1 0 x ↔ _
      rw [hsame, ← h.null]
      exact solves_swap a 0 x (Equiv.swap i p)
    case cleared =>
      intro r c hc hr
      by_cases hir : i < r
      · rw [eliminate_row hcleared _ hir]
        by_cases hci : c = i
        · rw [hci, div_mul_cancel₀ _ hnonzero, sub_self]
        · have hlt : (c : ℕ) < i := by
            have hne : (c : ℕ) ≠ i := fun heq => hci (Fin.ext heq)
            omega
          rw [hcleared r c hlt hr, hcleared i c hlt hlt, mul_zero, sub_zero]
      · have hlt : (c : ℕ) < i := lt_of_lt_of_le hr (not_lt.mp hir)
        rw [eliminate_above swapped _ hir, hcleared r c hlt hr]
    case diagonal =>
      intro j hj
      have hij : ¬ i < j := by
        rw [not_lt, Fin.le_def]
        omega
      change (eliminate swapped _ i).1 j j ≠ 0
      rw [eliminate_above swapped _ hij]
      by_cases hji : j = i
      · rw [hji]
        exact hnonzero
      · have hlt : j < i := lt_of_le_of_ne (not_lt.mp hij) hji
        have hself : Equiv.swap i p j = j :=
          Equiv.swap_apply_of_ne_of_ne hji fun heq => absurd hbelow (not_le.mpr (heq ▸ hlt))
        rw [hswapped]
        dsimp only
        rw [hself]
        exact h.diagonal j hlt

theorem Stage.singular {a₀ : Matrix3 ℝ} {b₀ : Fin 3 → ℝ} {system : Matrix3 ℝ × (Fin 3 → ℝ)} {i : Fin 3}
    (h : Stage i a₀ b₀ system) (hnone : pivotColumn .exact system i = none) : ∃ v ≠ 0, Solves a₀ 0 v := by
  obtain ⟨a, b⟩ := system
  rw [pivotColumn] at hnone
  split at hnone
  case isFalse => exact nomatch hnone
  case isTrue hpivot =>
    have hzero : ∀ r, i ≤ r → a r i = 0 := by
      intro r hr
      have hle : |a (pivotRow a i) i| ≤ 0 := by
        have hdecide := of_decide_eq_true hpivot
        rwa [real_abs] at hdecide
      exact abs_eq_zero.mp (le_antisymm (le_trans ((pivotRow_greatest a i).2 r hr) hle) (abs_nonneg _))
    have hcleared := h.cleared
    have hdiagonal := h.diagonal
    suffices ∃ v ≠ 0, Solves a 0 v by
      obtain ⟨v, hv, hsolves⟩ := this
      exact ⟨v, hv, (h.null v).mp hsolves⟩
    fin_cases i
    · refine ⟨![1, 0, 0], fun heq => one_ne_zero (congrFun heq 0), ?_⟩
      intro r
      have hr : a r 0 = 0 := hzero r (Fin.zero_le r)
      rw [Fin.sum_univ_three]
      simp [hr]
    · have h00 : a 0 0 ≠ 0 := hdiagonal 0 (by decide)
      have h10 : a 1 0 = 0 := hcleared 1 0 (by decide) (by decide)
      have h20 : a 2 0 = 0 := hcleared 2 0 (by decide) (by decide)
      have h11 : a 1 1 = 0 := hzero 1 (by decide)
      have h21 : a 2 1 = 0 := hzero 2 (by decide)
      refine ⟨![-(a 0 1) / a 0 0, 1, 0], fun heq => one_ne_zero (congrFun heq 1), ?_⟩
      intro r
      rw [Fin.sum_univ_three]
      fin_cases r
      · simp [mul_div_cancel₀ _ h00]
      · simp [h10, h11]
      · simp [h20, h21]
    · have h00 : a 0 0 ≠ 0 := hdiagonal 0 (by decide)
      have h11 : a 1 1 ≠ 0 := hdiagonal 1 (by decide)
      have h10 : a 1 0 = 0 := hcleared 1 0 (by decide) (by decide)
      have h20 : a 2 0 = 0 := hcleared 2 0 (by decide) (by decide)
      have h21 : a 2 1 = 0 := hcleared 2 1 (by decide) (by decide)
      have h22 : a 2 2 = 0 := hzero 2 (by decide)
      refine ⟨![(-(a 0 2) + a 0 1 * (a 1 2 / a 1 1)) / a 0 0, -(a 1 2 / a 1 1), 1],
        fun heq => one_ne_zero (congrFun heq 2), ?_⟩
      intro r
      rw [Fin.sum_univ_three]
      fin_cases r
      · simp [mul_div_cancel₀ _ h00]
      · simp [h10, mul_div_cancel₀ _ h11]
      · simp [h20, h21, h22]

theorem backSubstitute_solves {a₀ : Matrix3 ℝ} {b₀ : Fin 3 → ℝ} {a : Matrix3 ℝ} {b : Fin 3 → ℝ}
    (h : Stage 3 a₀ b₀ (a, b)) :
    Solves a₀ b₀ ((List.finRange 3).reverse.foldl (backSubstitute a b) fun _ => 0) := by
  rw [← h.solves]
  set x := (List.finRange 3).reverse.foldl (backSubstitute a b) fun _ => 0 with hx
  have hsecond : x 2 = b 2 / a 2 2 := rfl
  have hfirst : x 1 = (b 1 - a 1 2 * x 2) / a 1 1 := rfl
  have hzeroth : x 0 = (b 0 - a 0 1 * x 1 - a 0 2 * x 2) / a 0 0 := rfl
  have h10 : a 1 0 = 0 := h.cleared 1 0 (by decide) (by decide)
  have h20 : a 2 0 = 0 := h.cleared 2 0 (by decide) (by decide)
  have h21 : a 2 1 = 0 := h.cleared 2 1 (by decide) (by decide)
  have h0 : a 0 0 * x 0 = b 0 - a 0 1 * x 1 - a 0 2 * x 2 := by
    rw [hzeroth, mul_div_cancel₀ _ (h.diagonal 0 (by decide))]
  have h1 : a 1 1 * x 1 = b 1 - a 1 2 * x 2 := by
    rw [hfirst, mul_div_cancel₀ _ (h.diagonal 1 (by decide))]
  have h2 : a 2 2 * x 2 = b 2 := by
    rw [hsecond, mul_div_cancel₀ _ (h.diagonal 2 (by decide))]
  intro r
  dsimp only
  rw [Fin.sum_univ_three]
  fin_cases r
  · change a 0 0 * x 0 + a 0 1 * x 1 + a 0 2 * x 2 = b 0
    linarith
  · change a 1 0 * x 0 + a 1 1 * x 1 + a 1 2 * x 2 = b 1
    rw [h10]
    linarith
  · change a 2 0 * x 0 + a 2 1 * x 1 + a 2 2 * x 2 = b 2
    rw [h20, h21]
    linarith

theorem solve3x3_solves {a : Matrix3 ℝ} (hregular : ∀ v, Solves a 0 v → v = 0) (b : Fin 3 → ℝ) :
    ∃ x, solve3x3 .exact a b = some x ∧ Solves a b x := by
  have hstep : ∀ {i : Fin 3} {system : Matrix3 ℝ × (Fin 3 → ℝ)}, Stage i a b system →
      ∃ next, pivotColumn .exact system i = some next ∧ Stage (i + 1) a b next := by
    intro i system hstage
    cases hnext : pivotColumn .exact system i with
    | none =>
      obtain ⟨v, hv, hsolves⟩ := hstage.singular hnext
      exact absurd (hregular v hsolves) hv
    | some next => exact ⟨next, rfl, hstage.next hnext⟩
  obtain ⟨first, hfirst, hstage⟩ := hstep (i := 0) (stage_start a b)
  obtain ⟨second, hsecond, hstage⟩ := hstep (i := 1) hstage
  obtain ⟨third, hthird, hstage⟩ := hstep (i := 2) hstage
  have hlist : List.finRange 3 = [0, 1, 2] := by decide
  have hfold : (List.finRange 3).foldlM (pivotColumn .exact) (a, b) = some third := by
    rw [hlist, List.foldlM_cons, hfirst]
    change List.foldlM (pivotColumn .exact) first [1, 2] = some third
    rw [List.foldlM_cons, hsecond]
    change List.foldlM (pivotColumn .exact) second [2] = some third
    rw [List.foldlM_cons, hthird]
    rfl
  refine ⟨_, ?_, backSubstitute_solves hstage⟩
  rw [solve3x3, hfold]
  rfl

/-! ### Breakpoints -/

open LeastSquares

noncomputable def valueAt (x : ℝ) : Quadratic ℝ →ₗ[ℝ] ℝ where
  toFun v := v.1 * x ^ 2 + v.2.1 * x + v.2.2
  map_add' v w := by
    simp only [Prod.fst_add, Prod.snd_add]
    ring
  map_smul' t v := by
    simp only [Prod.smul_fst, Prod.smul_snd, smul_eq_mul, RingHom.id_apply]
    ring

theorem valueAt_apply (x : ℝ) (v : Quadratic ℝ) : valueAt x v = v.1 * x ^ 2 + v.2.1 * x + v.2.2 := rfl

noncomputable def curvature : Quadratic ℝ →ₗ[ℝ] ℝ := LinearMap.fst ℝ ℝ (ℝ × ℝ)

noncomputable def rowsOf (points : Points ℝ) : Rows ℝ (Quadratic ℝ) := points.map fun p => (valueAt p.1, p.2)

/-- The sum of the squares of what a quadratic misses the breakpoints by. -/
noncomputable def fitError (points : Points ℝ) (v : Quadratic ℝ) : ℝ :=
  (points.map fun p => (v.1 * p.1 ^ 2 + v.2.1 * p.1 + v.2.2 - p.2) ^ 2).sum

theorem fitError_eq (points : Points ℝ) (v : Quadratic ℝ) : fitError points v = squaredError (rowsOf points) v := by
  rw [fitError, squaredError, rowsOf, List.map_map]
  rfl

noncomputable def total (points : Points ℝ) (f : ℝ × ℝ → ℝ) : ℝ := (points.map f).sum

theorem total_cons (p : ℝ × ℝ) (points : Points ℝ) (f : ℝ × ℝ → ℝ) :
    total (p :: points) f = f p + total points f := rfl

theorem moments_eq (points : Points ℝ) : moments points =
    ⟨total points fun _ => 1, total points fun p => p.1, total points fun p => p.1 * p.1,
      total points fun p => p.1 * p.1 * p.1, total points fun p => p.1 * p.1 * (p.1 * p.1),
      total points fun p => p.2, total points fun p => p.1 * p.2, total points fun p => p.1 * p.1 * p.2⟩ := by
  have hfold : ∀ m : Moments ℝ, points.foldl Moments.add m =
      ⟨m.s0 + total points fun _ => 1, m.s1 + total points fun p => p.1, m.s2 + total points fun p => p.1 * p.1,
        m.s3 + total points fun p => p.1 * p.1 * p.1, m.s4 + total points fun p => p.1 * p.1 * (p.1 * p.1),
        m.t0 + total points fun p => p.2, m.t1 + total points fun p => p.1 * p.2,
        m.t2 + total points fun p => p.1 * p.1 * p.2⟩ := by
    induction points with
    | nil =>
      intro m
      simp [total]
    | cons p points ih =>
      intro m
      rw [List.foldl_cons, ih]
      simp only [Moments.add, total_cons, add_assoc]
  rw [moments, hfold]
  simp only [zero_add]

theorem lineSums_eq (points : Points ℝ) : lineSums points =
    (total points fun p => p.1, total points fun p => p.1 * p.1, total points fun p => p.2,
      total points fun p => p.1 * p.2) := by
  have hfold : ∀ sums : ℝ × ℝ × ℝ × ℝ,
      points.foldl (fun (sums : ℝ × ℝ × ℝ × ℝ) (p : ℝ × ℝ) =>
        (sums.1 + p.1, sums.2.1 + p.1 * p.1, sums.2.2.1 + p.2, sums.2.2.2 + p.1 * p.2)) sums =
      (sums.1 + total points fun p => p.1, sums.2.1 + total points fun p => p.1 * p.1,
        sums.2.2.1 + total points fun p => p.2, sums.2.2.2 + total points fun p => p.1 * p.2) := by
    induction points with
    | nil =>
      intro sums
      simp [total]
    | cons p points ih =>
      intro sums
      rw [List.foldl_cons, ih]
      simp only [total_cons, add_assoc]
  have hsums := hfold (0, 0, 0, 0)
  simp only [zero_add] at hsums
  exact hsums

theorem residualDot_eq (points : Points ℝ) (v w : Quadratic ℝ) :
    let m := moments points
    residualDot (rowsOf points) v w =
      w.1 * (m.s4 * v.1 + m.s3 * v.2.1 + m.s2 * v.2.2 - m.t2) +
      w.2.1 * (m.s3 * v.1 + m.s2 * v.2.1 + m.s1 * v.2.2 - m.t1) +
      w.2.2 * (m.s2 * v.1 + m.s1 * v.2.1 + m.s0 * v.2.2 - m.t0) := by
  rw [moments_eq]
  dsimp only
  induction points with
  | nil => simp [residualDot, rowsOf, total]
  | cons p points ih =>
    have hcons : residualDot (rowsOf (p :: points)) v w =
        (v.1 * p.1 ^ 2 + v.2.1 * p.1 + v.2.2 - p.2) * (w.1 * p.1 ^ 2 + w.2.1 * p.1 + w.2.2) +
          residualDot (rowsOf points) v w := rfl
    rw [hcons, ih]
    simp only [total_cons]
    ring

def Distinct (points : Points ℝ) : Prop := (points.map Prod.fst).Nodup

theorem eq_zero_of_three {v : Quadratic ℝ} {x y z : ℝ} (hxy : x ≠ y) (hxz : x ≠ z) (hyz : y ≠ z)
    (hx : valueAt x v = 0) (hy : valueAt y v = 0) (hz : valueAt z v = 0) : v = 0 := by
  obtain ⟨q, l, c⟩ := v
  rw [valueAt_apply] at hx hy hz
  dsimp only at hx hy hz
  have hfirst : q * (x + y) + l = 0 := by
    apply mul_left_cancel₀ (sub_ne_zero.mpr hxy)
    linarith
  have hsecond : q * (x + z) + l = 0 := by
    apply mul_left_cancel₀ (sub_ne_zero.mpr hxz)
    linarith
  have hq : q = 0 := by
    apply mul_left_cancel₀ (sub_ne_zero.mpr hyz)
    linarith
  have hl : l = 0 := by
    rw [hq] at hfirst
    linarith
  have hc : c = 0 := by
    rw [hq, hl] at hx
    linarith
  rw [hq, hl, hc]
  rfl

theorem eq_zero_of_two {v : Quadratic ℝ} (hline : v.1 = 0) {x y : ℝ} (hxy : x ≠ y) (hx : valueAt x v = 0)
    (hy : valueAt y v = 0) : v = 0 := by
  obtain ⟨q, l, c⟩ := v
  rw [valueAt_apply] at hx hy
  dsimp only at hline hx hy
  rw [hline] at hx hy
  have hl : l = 0 := by
    apply mul_left_cancel₀ (sub_ne_zero.mpr hxy)
    linarith
  have hc : c = 0 := by
    rw [hl] at hx
    linarith
  rw [hline, hl, hc]
  rfl

/-! ### The best fit -/

theorem fitError_perm {points points' : Points ℝ} (h : points.Perm points') (v : Quadratic ℝ) :
    fitError points v = fitError points' v := by
  rw [fitError, fitError]
  exact (h.map _).sum_eq

theorem valueAt_of_length {points : Points ℝ} {w : Quadratic ℝ} (h : squaredLength (rowsOf points) w = 0)
    {p : ℝ × ℝ} (hp : p ∈ points) : valueAt p.1 w = 0 :=
  eq_zero_of_squaredLength h (valueAt p.1, p.2) (List.mem_map_of_mem hp)

theorem eq_zero_of_values {points : Points ℝ} (hdistinct : Distinct points) (hlength : 3 ≤ points.length)
    {w : Quadratic ℝ} (h : ∀ p ∈ points, valueAt p.1 w = 0) : w = 0 := by
  match points, hlength, hdistinct with
  | p₁ :: p₂ :: p₃ :: rest, _, hdistinct =>
    rw [Distinct, List.map_cons, List.map_cons, List.map_cons, List.nodup_cons, List.nodup_cons] at hdistinct
    obtain ⟨hfirst, hsecond, -⟩ := hdistinct
    rw [List.mem_cons, List.mem_cons, not_or, not_or] at hfirst
    rw [List.mem_cons, not_or] at hsecond
    apply eq_zero_of_three hfirst.1 hfirst.2.1 hsecond.1
    · exact h p₁ List.mem_cons_self
    · exact h p₂ (List.mem_cons_of_mem _ List.mem_cons_self)
    · exact h p₃ (List.mem_cons_of_mem _ (List.mem_cons_of_mem _ List.mem_cons_self))

theorem eq_zero_of_line_values {points : Points ℝ} (hdistinct : Distinct points) (hlength : 2 ≤ points.length)
    {w : Quadratic ℝ} (hline : w.1 = 0) (h : ∀ p ∈ points, valueAt p.1 w = 0) : w = 0 := by
  match points, hlength, hdistinct with
  | p₁ :: p₂ :: rest, _, hdistinct =>
    rw [Distinct, List.map_cons, List.map_cons, List.nodup_cons, List.mem_cons, not_or] at hdistinct
    apply eq_zero_of_two hline hdistinct.1.1
    · exact h p₁ List.mem_cons_self
    · exact h p₂ (List.mem_cons_of_mem _ List.mem_cons_self)

/-- The normal equations of three or more breakpoints have one solution, which is the best of all quadratics. -/
theorem quadraticFit_best {points : Points ℝ} (hdistinct : Distinct points) (hlength : 3 ≤ points.length) :
    ∃ best, (∀ w, fitError points best ≤ fitError points w) ∧
      quadraticFit .exact points = if 0 ≤ best.1 then some best else none := by
  set m := moments points with hm
  set a : Matrix3 ℝ := ![![m.s4, m.s3, m.s2], ![m.s3, m.s2, m.s1], ![m.s2, m.s1, m.s0]] with ha
  have hregular : ∀ v, Solves a 0 v → v = 0 := by
    intro v hv
    have h0 : m.s4 * v 0 + m.s3 * v 1 + m.s2 * v 2 = 0 := by
      have hrow := hv 0
      rwa [Fin.sum_univ_three] at hrow
    have h1 : m.s3 * v 0 + m.s2 * v 1 + m.s1 * v 2 = 0 := by
      have hrow := hv 1
      rwa [Fin.sum_univ_three] at hrow
    have h2 : m.s2 * v 0 + m.s1 * v 1 + m.s0 * v 2 = 0 := by
      have hrow := hv 2
      rwa [Fin.sum_univ_three] at hrow
    have hzero : squaredLength (rowsOf points) (v 0, v 1, v 2) = 0 := by
      rw [squaredLength_eq, residualDot_eq, residualDot_eq, ← hm]
      simp only [Prod.fst_zero, Prod.snd_zero, mul_zero, add_zero, h0, h1, h2]
      ring
    have hnone := eq_zero_of_values hdistinct hlength fun p hp => valueAt_of_length hzero hp
    obtain ⟨hv0, hv1, hv2⟩ : v 0 = 0 ∧ v 1 = 0 ∧ v 2 = 0 := by
      simpa [Prod.ext_iff] using hnone
    funext i
    fin_cases i
    · exact hv0
    · exact hv1
    · exact hv2
  obtain ⟨x, hx, hsolves⟩ := solve3x3_solves hregular ![m.t2, m.t1, m.t0]
  refine ⟨(x 0, x 1, x 2), ?_, ?_⟩
  · intro w
    have h0 : m.s4 * x 0 + m.s3 * x 1 + m.s2 * x 2 = m.t2 := by
      have hrow := hsolves 0
      rwa [Fin.sum_univ_three] at hrow
    have h1 : m.s3 * x 0 + m.s2 * x 1 + m.s1 * x 2 = m.t1 := by
      have hrow := hsolves 1
      rwa [Fin.sum_univ_three] at hrow
    have h2 : m.s2 * x 0 + m.s1 * x 1 + m.s0 * x 2 = m.t0 := by
      have hrow := hsolves 2
      rwa [Fin.sum_univ_three] at hrow
    rw [fitError_eq, fitError_eq]
    apply squaredError_le
    rw [residualDot_eq, ← hm]
    dsimp only
    rw [h0, h1, h2]
    ring
  · rw [quadraticFit]
    dsimp only
    rw [hx]
    change (if decide ((0 : ℝ) ≤ x 0) = true then _ else _) = _
    by_cases hconvex : 0 ≤ x 0
    · rw [if_pos hconvex, if_pos (decide_eq_true hconvex)]
    · rw [if_neg hconvex, if_neg fun hle => hconvex (of_decide_eq_true hle)]

theorem total_one (points : Points ℝ) : (total points fun _ => 1) = points.length := by
  rw [total, List.map_const', List.sum_replicate, nsmul_eq_mul, mul_one]

theorem linearFit_best {points : Points ℝ} (hdistinct : Distinct points) (hlength : 2 ≤ points.length) :
    (linearFit .exact points).1 = 0 ∧
      ∀ w : Quadratic ℝ, w.1 = 0 → fitError points (linearFit .exact points) ≤ fitError points w := by
  set m := moments points with hm
  have hsums := lineSums_eq points
  have hmoments := moments_eq points
  rw [← hm] at hmoments
  have hn : (ofNat points.length : ℝ) = m.s0 := by
    rw [hmoments]
    dsimp only
    rw [total_one]
    change (((points.length : ℚ)) : ℝ) = points.length
    norm_cast
  have hpositive : m.s0 ≠ 0 := by
    rw [hmoments]
    dsimp only
    rw [total_one]
    have hne : points.length ≠ 0 := by omega
    exact_mod_cast hne
  have hdet : m.s0 * m.s2 - m.s1 * m.s1 ≠ 0 := by
    intro hzero
    have hlengthZero : squaredLength (rowsOf points) (0, m.s0, -m.s1) = 0 := by
      rw [squaredLength_eq, residualDot_eq, residualDot_eq, ← hm]
      simp only [Prod.fst_zero, Prod.snd_zero, mul_zero]
      linear_combination m.s0 * hzero
    have hnone := eq_zero_of_line_values hdistinct hlength rfl fun p hp => valueAt_of_length hlengthZero hp
    have hs0 : m.s0 = 0 := congrArg (fun v : Quadratic ℝ => v.2.1) hnone
    exact hpositive hs0
  set slope := (m.s0 * m.t1 - m.s1 * m.t0) / (m.s0 * m.s2 - m.s1 * m.s1) with hslope
  have hfit : linearFit .exact points = (0, slope, (m.t0 - slope * m.s1) / m.s0) := by
    rw [linearFit, hsums, hn, hslope, hmoments]
    dsimp only
    rw [if_neg]
    intro hle
    have hle := of_decide_eq_true hle
    rw [real_abs] at hle
    have hzero : (Thresholds.exact : Thresholds ℝ).epsilon = 0 := rfl
    rw [hzero, zero_mul, zero_mul] at hle
    apply hdet
    rw [hmoments]
    exact abs_eq_zero.mp (le_antisymm hle (abs_nonneg _))
  have hmul : slope * (m.s0 * m.s2 - m.s1 * m.s1) = m.s0 * m.t1 - m.s1 * m.t0 := div_mul_cancel₀ _ hdet
  have hintercept : m.s0 * ((m.t0 - slope * m.s1) / m.s0) = m.t0 - slope * m.s1 := mul_div_cancel₀ _ hpositive
  have hfirst : m.s2 * slope + m.s1 * ((m.t0 - slope * m.s1) / m.s0) = m.t1 := by
    apply mul_left_cancel₀ hpositive
    linear_combination hmul + m.s1 * hintercept
  have hsecond : m.s1 * slope + m.s0 * ((m.t0 - slope * m.s1) / m.s0) = m.t0 := by
    linear_combination hintercept
  rw [hfit]
  refine ⟨rfl, ?_⟩
  rintro ⟨q, l, c⟩ hline
  dsimp only at hline
  rw [fitError_eq, fitError_eq]
  apply squaredError_le
  rw [residualDot_eq, ← hm, hline]
  dsimp only [Prod.fst_sub, Prod.snd_sub]
  linear_combination (l - slope) * hfirst + (c - (m.t0 - slope * m.s1) / m.s0) * hsecond

/-- The best of all convex quadratics, of the least degree that the breakpoints allow. -/
structure Best (points : Points ℝ) (v : Quadratic ℝ) : Prop where
  convex : 0 ≤ v.1
  least : ∀ w : Quadratic ℝ, 0 ≤ w.1 → fitError points v ≤ fitError points w
  line : points.length ≤ 2 → v.1 = 0
  level : points.length ≤ 1 → v.2.1 = 0
  nothing : points.length = 0 → v = 0

theorem Best.perm {points points' : Points ℝ} {v : Quadratic ℝ} (h : Best points v)
    (hperm : points.Perm points') : Best points' v := by
  have hlength := hperm.length_eq
  constructor
  case convex => exact h.convex
  case least =>
    intro w hw
    rw [← fitError_perm hperm, ← fitError_perm hperm]
    exact h.least w hw
  case line =>
    rw [← hlength]
    exact h.line
  case level =>
    rw [← hlength]
    exact h.level
  case nothing =>
    rw [← hlength]
    exact h.nothing

theorem Best.unique {points : Points ℝ} (hdistinct : Distinct points) {v w : Quadratic ℝ} (hv : Best points v)
    (hw : Best points w) : v = w := by
  have hsame : ∀ p ∈ points, valueAt p.1 (v - w) = 0 := by
    intro p hp
    have hmiddle : 0 ≤ (v + (1 / 2 : ℝ) • (w - v)).1 := by
      have hfirst := hv.convex
      have hsecond := hw.convex
      change 0 ≤ v.1 + 1 / 2 * (w.1 - v.1)
      linarith
    have hother := hw.least v hv.convex
    have hbetween := hv.least _ hmiddle
    rw [fitError_eq, fitError_eq] at hother hbetween
    have hvalues := eq_of_best hother hbetween (valueAt p.1, p.2) (List.mem_map_of_mem hp)
    rw [map_sub, sub_eq_zero]
    exact hvalues
  by_cases hmany : 3 ≤ points.length
  · exact sub_eq_zero.mp (eq_zero_of_values hdistinct hmany hsame)
  · have hline : (v - w).1 = 0 := by
      rw [Prod.fst_sub, hv.line (by omega), hw.line (by omega), sub_zero]
    by_cases htwo : 2 ≤ points.length
    · exact sub_eq_zero.mp (eq_zero_of_line_values hdistinct htwo hline hsame)
    · match points, htwo, hv, hw, hsame with
      | [], _, hv, hw, _ => rw [hv.nothing rfl, hw.nothing rfl]
      | [p], _, hv, hw, hsame =>
        have hlevel : (v - w).2.1 = 0 := by
          rw [Prod.snd_sub, Prod.fst_sub, hv.level (le_refl 1), hw.level (le_refl 1), sub_zero]
        have hvalue := hsame p List.mem_cons_self
        rw [valueAt_apply, hline, hlevel, zero_mul, zero_mul, zero_add, zero_add] at hvalue
        apply sub_eq_zero.mp
        exact Prod.ext hline (Prod.ext hlevel hvalue)
      | _ :: _ :: _, htwo, _, _, _ =>
        rw [List.length_cons, List.length_cons] at htwo
        omega

theorem fitError_nonneg (points : Points ℝ) (v : Quadratic ℝ) : 0 ≤ fitError points v := by
  rw [fitError_eq]
  exact squaredError_nonneg _ _

theorem best_of_nil : Best [] 0 := by
  refine ⟨le_refl _, ?_, fun _ => rfl, fun _ => rfl, fun _ => rfl⟩
  intro w _
  rw [fitError, List.map_nil, List.sum_nil]
  exact fitError_nonneg [] w

theorem best_of_single (p : ℝ × ℝ) : Best [p] (0, 0, p.2) := by
  refine ⟨le_refl _, ?_, fun _ => rfl, fun _ => rfl, fun h => absurd h one_ne_zero⟩
  intro w _
  have hzero : fitError [p] (0, 0, p.2) = 0 := by
    rw [fitError, List.map_singleton, List.sum_singleton]
    ring
  rw [hzero]
  exact fitError_nonneg [p] w

theorem best_of_pair {p₁ p₂ : ℝ × ℝ} (hdistinct : Distinct [p₁, p₂]) :
    Best [p₁, p₂] (linearFit .exact [p₁, p₂]) := by
  obtain ⟨hline, hbest⟩ := linearFit_best hdistinct (le_refl 2)
  have hne : p₁.1 - p₂.1 ≠ 0 := by
    rw [Distinct, List.map_cons, List.map_singleton, List.nodup_cons, List.mem_singleton] at hdistinct
    exact sub_ne_zero.mpr hdistinct.1
  set slope := (p₁.2 - p₂.2) / (p₁.1 - p₂.1) with hslope
  have hmul : slope * (p₁.1 - p₂.1) = p₁.2 - p₂.2 := div_mul_cancel₀ _ hne
  have hthrough : fitError [p₁, p₂] (0, slope, p₁.2 - slope * p₁.1) = 0 := by
    have hsecond : 0 * p₂.1 ^ 2 + slope * p₂.1 + (p₁.2 - slope * p₁.1) - p₂.2 = 0 := by linarith
    rw [fitError, List.map_cons, List.map_singleton, List.sum_cons, List.sum_singleton, hsecond]
    ring
  have hzero := hbest (0, slope, p₁.2 - slope * p₁.1) rfl
  rw [hthrough] at hzero
  constructor
  case convex => rw [hline]
  case least => exact fun w _ => le_trans hzero (fitError_nonneg _ w)
  case line => exact fun _ => hline
  case level => exact fun h => absurd h (by simp)
  case nothing => exact fun h => absurd h (by simp)

/-- Where the best quadratic is not convex, the best line is the best of the convex ones. -/
theorem best_of_many {points : Points ℝ} (hdistinct : Distinct points) (hlength : 3 ≤ points.length) :
    Best points ((quadraticFit .exact points).getD (linearFit .exact points)) := by
  obtain ⟨best, hbest, hfit⟩ := quadraticFit_best hdistinct hlength
  obtain ⟨hline, hborder⟩ := linearFit_best hdistinct (by omega)
  have hdegree : ∀ v, Best points v ↔ 0 ≤ v.1 ∧ ∀ w : Quadratic ℝ, 0 ≤ w.1 → fitError points v ≤ fitError points w := by
    intro v
    constructor
    · exact fun h => ⟨h.convex, h.least⟩
    · rintro ⟨hconvex, hleast⟩
      exact ⟨hconvex, hleast, by omega, by omega, by omega⟩
  rw [hfit, hdegree]
  by_cases hconvex : 0 ≤ best.1
  · rw [if_pos hconvex, Option.getD_some]
    exact ⟨hconvex, fun w _ => hbest w⟩
  · rw [if_neg hconvex, Option.getD_none, hline]
    refine ⟨le_refl _, ?_⟩
    simp only [fitError_eq] at hbest hborder ⊢
    intro w hw
    exact squaredError_border curvature hbest (not_le.mp hconvex) hborder hw

end Tellegen.Preparation
