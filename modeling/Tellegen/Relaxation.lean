import Mathlib.Analysis.SpecialFunctions.Trigonometric.Bounds
import Tellegen.ConicProgram

/-!
The conic program is a relaxation of AC OPF: an operating point that meets the
power balance and the active limits of the network lifts to a point of the
program, at the same cost.
-/

set_option linter.unusedSectionVars false

open Binary64 Blocks

namespace Tellegen.Ac

open SocWrLayout

section Exact

variable [DecimalText ℝ]

/-! ### Operating points -/

structure OperatingPoint (net : AcNetwork ℝ) where
  v : Fin net.n → Complex64 ℝ
  pg : Fin net.k → ℝ
  qg : Fin net.k → ℝ

namespace OperatingPoint

variable {net : AcNetwork ℝ} (point : OperatingPoint net)

/-- The oriented product of the voltages at the ends of a branch. -/
noncomputable def product (e : Fin net.m) : Complex64 ℝ :=
  point.v (net.brFrom e) * (point.v (net.brTo e)).conj

noncomputable def flowFrom (e : Fin net.m) : Complex64 ℝ :=
  let y := net.branchAdmittance e
  point.v (net.brFrom e) *
    (y.yff * point.v (net.brFrom e) + y.yft * point.v (net.brTo e)).conj

noncomputable def flowTo (e : Fin net.m) : Complex64 ℝ :=
  let y := net.branchAdmittance e
  point.v (net.brTo e) * (y.ytf * point.v (net.brFrom e) + y.ytt * point.v (net.brTo e)).conj

/-- The power balance at every bus, and the limits that are active. -/
structure Feasible : Prop where
  realBalance : ∀ i, (∑ g, if net.genBus g = i then point.pg g else 0) - net.pd i -
      net.gs i * (point.v i).normSqr =
    ∑ e, ((if net.brFrom e = i then (point.flowFrom e).re else 0) +
      if net.brTo e = i then (point.flowTo e).re else 0)
  reactiveBalance : ∀ i, (∑ g, if net.genBus g = i then point.qg g else 0) - net.qd i +
      net.bs i * (point.v i).normSqr =
    ∑ e, ((if net.brFrom e = i then (point.flowFrom e).im else 0) +
      if net.brTo e = i then (point.flowTo e).im else 0)
  voltage : ∀ i, net.voltageBoundActive i = true →
    net.vmMin i ≤ (point.v i).norm ∧ (point.v i).norm ≤ net.vmMax i
  capability : ∀ g, net.generatorCapabilityActive g = true →
    (net.pmin g ≤ point.pg g ∧ point.pg g ≤ net.pmax g) ∧
      net.qmin g ≤ point.qg g ∧ point.qg g ≤ net.qmax g
  thermal : ∀ e, net.thermalLimitActive e = true →
    (point.flowFrom e).norm ≤ net.rateA e ∧ (point.flowTo e).norm ≤ net.rateA e
  angle : ∀ e, net.angleBoundActive e = true →
    net.angmin e ≤ Libm.atan2 (point.product e).im (point.product e).re ∧
      Libm.atan2 (point.product e).im (point.product e).re ≤ net.angmax e

noncomputable def generationCost : ℝ := ∑ g, net.generatorCost g (point.pg g)

noncomputable def lift : Column net → ℝ
  | .pg g => point.pg g
  | .qg g => point.qg g
  | .w i => (point.v i).normSqr
  | .wr e => (point.product e).re
  | .wi e => (point.product e).im
  | .pf e => (point.flowFrom e).re
  | .pt e => (point.flowTo e).re
  | .qf e => (point.flowFrom e).im
  | .qt e => (point.flowTo e).im
  | .cost g _ => net.generatorCost g (point.pg g)

noncomputable def programPoint : ℕ → ℝ := Function.extend Column.index point.lift 0

theorem programPoint_index (column : Column net) :
    point.programPoint column.index = point.lift column :=
  (fills_columns net).injective.extend_apply _ _ _

/-! ### Equality rows -/

theorem normSqr_tap (tap shift : ℝ) :
    (Complex64.fromPolar tap shift).normSqr = tap * tap := by
  have hunit := Real.sin_sq_add_cos_sq shift
  change tap * Real.cos shift * (tap * Real.cos shift) +
    tap * Real.sin shift * (tap * Real.sin shift) = tap * tap
  linear_combination tap * tap * hunit

theorem normSqr_tap_conj (tap shift : ℝ) :
    (Complex64.fromPolar tap shift).conj.normSqr = tap * tap := by
  rw [← normSqr_tap tap shift, Complex64.normSqr, Complex64.normSqr]
  simp

theorem branchAdmittance_closed {e : Fin net.m} (h : net.sw e = 1) :
    net.branchAdmittance e =
      { yff := ⟨(net.g e + net.gFr e) / (net.tap e * net.tap e),
          (net.b e + net.bFr e) / (net.tap e * net.tap e)⟩
        yft := ⟨ohmAlong net 1 e / (net.tap e * net.tap e),
          ohmAcross net 1 e / (net.tap e * net.tap e)⟩
        ytf := ⟨ohmAlong net (-1) e / (net.tap e * net.tap e),
          ohmAcross net (-1) e / (net.tap e * net.tap e)⟩
        ytt := ⟨net.g e + net.gTo e, net.b e + net.bTo e⟩ } := by
  have hdiv : ∀ a c : Complex64 ℝ, a / c =
      ⟨(a.re * c.re + a.im * c.im) / c.normSqr, (a.im * c.re - a.re * c.im) / c.normSqr⟩ :=
    fun _ _ => rfl
  have hpolar : Complex64.fromPolar (net.tap e) (net.shift e) =
      ⟨net.tap e * Libm.cos (net.shift e), net.tap e * Libm.sin (net.shift e)⟩ := rfl
  rw [AcNetwork.branchAdmittance, h]
  simp only [hdiv, normSqr_tap, normSqr_tap_conj, ohmAlong, ohmAcross]
  rw [hpolar]
  congr 1 <;> ext <;> simp [Complex64.divReal]

theorem flowFrom_re {e : Fin net.m} (h : net.sw e = 1) : (point.flowFrom e).re =
    ((net.g e + net.gFr e) * (point.v (net.brFrom e)).normSqr +
      ohmAlong net 1 e * (point.product e).re + ohmAcross net 1 e * (point.product e).im) /
        (net.tap e * net.tap e) := by
  simp only [flowFrom, branchAdmittance_closed h, product, Complex64.normSqr, Complex64.mul_re,
    Complex64.mul_im, Complex64.add_re, Complex64.add_im, Complex64.conj_re, Complex64.conj_im]
  ring

theorem flowFrom_im {e : Fin net.m} (h : net.sw e = 1) : (point.flowFrom e).im =
    (-(net.b e + net.bFr e) * (point.v (net.brFrom e)).normSqr -
      ohmAcross net 1 e * (point.product e).re + ohmAlong net 1 e * (point.product e).im) /
        (net.tap e * net.tap e) := by
  simp only [flowFrom, branchAdmittance_closed h, product, Complex64.normSqr, Complex64.mul_re,
    Complex64.mul_im, Complex64.add_re, Complex64.add_im, Complex64.conj_re, Complex64.conj_im]
  ring

theorem flowTo_re {e : Fin net.m} (h : net.sw e = 1) : (point.flowTo e).re =
    (net.g e + net.gTo e) * (point.v (net.brTo e)).normSqr +
      (ohmAlong net (-1) e * (point.product e).re - ohmAcross net (-1) e * (point.product e).im) /
        (net.tap e * net.tap e) := by
  simp only [flowTo, branchAdmittance_closed h, product, Complex64.normSqr, Complex64.mul_re,
    Complex64.mul_im, Complex64.add_re, Complex64.add_im, Complex64.conj_re, Complex64.conj_im]
  ring

theorem flowTo_im {e : Fin net.m} (h : net.sw e = 1) : (point.flowTo e).im =
    -(net.b e + net.bTo e) * (point.v (net.brTo e)).normSqr -
      (ohmAcross net (-1) e * (point.product e).re + ohmAlong net (-1) e * (point.product e).im) /
        (net.tap e * net.tap e) := by
  simp only [flowTo, branchAdmittance_closed h, product, Complex64.normSqr, Complex64.mul_re,
    Complex64.mul_im, Complex64.add_re, Complex64.add_im, Complex64.conj_re, Complex64.conj_im]
  ring

theorem slack_point (r : Row net) :
    (assembleConicOpf net).slack point.programPoint r.index = rowSlack net point.lift r := by
  rw [slack_index]
  congr 1
  exact funext point.programPoint_index

theorem rowSlack_balance (h : point.Feasible) (i : Fin net.n) :
    rowSlack net point.lift (.pbal i) = 0 ∧ rowSlack net point.lift (.qbal i) = 0 := by
  have hreal := h.realBalance i
  have hreactive := h.reactiveBalance i
  rw [rowSlack_pbal, rowSlack_qbal]
  simp only [lift]
  constructor
  · rw [← hreal]
    ring
  · rw [← hreactive]
    ring

theorem rowSlack_ohm {e : Fin net.m} (h : net.sw e = 1) :
    (rowSlack net point.lift (.ohmPf e) = 0 ∧ rowSlack net point.lift (.ohmQf e) = 0) ∧
      rowSlack net point.lift (.ohmPt e) = 0 ∧ rowSlack net point.lift (.ohmQt e) = 0 := by
  rw [rowSlack_ohmPf, rowSlack_ohmQf, rowSlack_ohmPt, rowSlack_ohmQt]
  simp only [lift]
  rw [point.flowFrom_re h, point.flowFrom_im h, point.flowTo_re h, point.flowTo_im h]
  simp

theorem equalities (hclosed : ∀ e, net.sw e = 1) (h : point.Feasible) {i : ℕ} (hi : i < nEq net) :
    (assembleConicOpf net).slack point.programPoint i = 0 := by
  obtain ⟨block, rfl⟩ := (fills_equalityBlocks net).covers i (Nat.zero_le i) hi
  rcases block with i | i | e | e | e | e
  · rw [Sum.elim_inl, Nat.zero_add]
    exact (point.slack_point (.pbal i)).trans (point.rowSlack_balance h i).1
  · exact (point.slack_point (.qbal i)).trans (point.rowSlack_balance h i).2
  · exact (point.slack_point (.ohmPf e)).trans (point.rowSlack_ohm (hclosed e)).1.1
  · exact (point.slack_point (.ohmQf e)).trans (point.rowSlack_ohm (hclosed e)).1.2
  · exact (point.slack_point (.ohmPt e)).trans (point.rowSlack_ohm (hclosed e)).2.1
  · exact (point.slack_point (.ohmQt e)).trans (point.rowSlack_ohm (hclosed e)).2.2

/-! ### Inequality rows -/

theorem norm_mul_self (a : Complex64 ℝ) : a.norm * a.norm = a.normSqr :=
  Real.mul_self_sqrt (add_nonneg (mul_self_nonneg _) (mul_self_nonneg _))

theorem norm_nonneg (a : Complex64 ℝ) : 0 ≤ a.norm := Real.sqrt_nonneg _

theorem rowSlack_voltage (h : point.Feasible) {i : Fin net.n}
    (hmin : net.voltageBoundActive i = true → 0 ≤ net.vmMin i) :
    0 ≤ rowSlack net point.lift (.wub i) ∧ 0 ≤ rowSlack net point.lift (.wlb i) := by
  rw [rowSlack_wub, rowSlack_wlb]
  by_cases hactive : net.voltageBoundActive i = true
  · obtain ⟨hlow, hhigh⟩ := h.voltage i hactive
    rw [if_pos hactive, if_pos hactive]
    simp only [lift]
    rw [← norm_mul_self]
    constructor
    · exact sub_nonneg.mpr (mul_self_le_mul_self (norm_nonneg _) hhigh)
    · exact sub_nonneg.mpr (mul_self_le_mul_self (hmin hactive) hlow)
  · rw [if_neg hactive, if_neg hactive]
    exact ⟨zero_le_one, zero_le_one⟩

theorem rowSlack_capability (h : point.Feasible) (g : Fin net.k) :
    (0 ≤ rowSlack net point.lift (.pgub g) ∧ 0 ≤ rowSlack net point.lift (.pglb g)) ∧
      0 ≤ rowSlack net point.lift (.qgub g) ∧ 0 ≤ rowSlack net point.lift (.qglb g) := by
  rw [rowSlack_pgub, rowSlack_pglb, rowSlack_qgub, rowSlack_qglb]
  by_cases hactive : net.generatorCapabilityActive g = true
  · obtain ⟨⟨hpmin, hpmax⟩, hqmin, hqmax⟩ := h.capability g hactive
    rw [if_pos hactive, if_pos hactive, if_pos hactive, if_pos hactive]
    exact ⟨⟨sub_nonneg.mpr hpmax, sub_nonneg.mpr hpmin⟩, sub_nonneg.mpr hqmax, sub_nonneg.mpr hqmin⟩
  · rw [if_neg hactive, if_neg hactive, if_neg hactive, if_neg hactive]
    exact ⟨⟨zero_le_one, zero_le_one⟩, zero_le_one, zero_le_one⟩

/-- An angle less than a right angle on either side is bounded by the tangents of its bounds. -/
theorem angle_rows {z : Complex64 ℝ} {low high : ℝ} (hlow : -(Real.pi / 2) < low)
    (hhigh : high < Real.pi / 2) (hle : low ≤ Libm.atan2 z.im z.re)
    (hge : Libm.atan2 z.im z.re ≤ high) :
    z.im ≤ Real.tan high * z.re ∧ Real.tan low * z.re ≤ z.im := by
  change low ≤ Complex.arg ⟨z.re, z.im⟩ at hle
  change Complex.arg ⟨z.re, z.im⟩ ≤ high at hge
  have hbelow : -(Real.pi / 2) < Complex.arg ⟨z.re, z.im⟩ := hlow.trans_le hle
  have habove : Complex.arg ⟨z.re, z.im⟩ < Real.pi / 2 := hge.trans_lt hhigh
  have hright : 0 < z.re ∨ (⟨z.re, z.im⟩ : ℂ) = 0 :=
    Complex.abs_arg_lt_pi_div_two_iff.mp (abs_lt.mpr ⟨hbelow, habove⟩)
  have hre : 0 ≤ z.re := by
    rcases hright with hpos | hzero
    · exact hpos.le
    · exact (congrArg Complex.re hzero).ge
  have him : z.im = Real.tan (Complex.arg ⟨z.re, z.im⟩) * z.re := by
    rw [Complex.tan_arg]
    rcases hright with hpos | hzero
    · exact (div_mul_cancel₀ z.im hpos.ne').symm
    · have hr : z.re = 0 := congrArg Complex.re hzero
      have hi : z.im = 0 := congrArg Complex.im hzero
      rw [hr, hi, mul_zero]
  have htanHigh : Real.tan (Complex.arg ⟨z.re, z.im⟩) ≤ Real.tan high :=
    Real.strictMonoOn_tan.monotoneOn ⟨hbelow, habove⟩ ⟨hbelow.trans_le hge, hhigh⟩ hge
  have htanLow : Real.tan low ≤ Real.tan (Complex.arg ⟨z.re, z.im⟩) :=
    Real.strictMonoOn_tan.monotoneOn ⟨hlow, hle.trans_lt habove⟩ ⟨hbelow, habove⟩ hle
  constructor
  · calc z.im = Real.tan (Complex.arg ⟨z.re, z.im⟩) * z.re := him
      _ ≤ Real.tan high * z.re := mul_le_mul_of_nonneg_right htanHigh hre
  · calc Real.tan low * z.re ≤ Real.tan (Complex.arg ⟨z.re, z.im⟩) * z.re :=
          mul_le_mul_of_nonneg_right htanLow hre
      _ = z.im := him.symm

theorem rowSlack_angle (h : point.Feasible) {e : Fin net.m}
    (hsupported : angleWindowSupported net e = true) :
    0 ≤ rowSlack net point.lift (.angub e) ∧ 0 ≤ rowSlack net point.lift (.anglb e) := by
  rw [rowSlack_angub, rowSlack_anglb]
  by_cases hactive : conicAngleBoundActive net e = true
  · rw [if_pos hactive, if_pos hactive]
    rw [conicAngleBoundActive, Bool.and_eq_true] at hactive
    obtain ⟨hbound, hnarrow⟩ := hactive
    obtain ⟨hle, hge⟩ := h.angle e hbound
    have hcovers : (le (net.angmin e) (-Tangent.pi) && le Tangent.pi (net.angmax e)) = false :=
      (Bool.not_eq_true' _).mp hnarrow
    have htwo : (lit (2 : ℚ) : ℝ) = 2 := by
      change ((2 : ℚ) : ℝ) = 2
      norm_num
    rw [angleWindowSupported, hbound, hcovers, htwo] at hsupported
    have hwindow : -(Real.pi / 2) < net.angmin e ∧ net.angmax e < Real.pi / 2 := by
      have hnot : ¬ net.angmin e ≤ -(Real.pi / 2) ∧ ¬ Real.pi / 2 ≤ net.angmax e := by
        simpa [le, Tangent.pi] using hsupported
      exact ⟨not_le.mp hnot.1, not_le.mp hnot.2⟩
    obtain ⟨hup, hlow⟩ := angle_rows hwindow.1 hwindow.2 hle hge
    exact ⟨sub_nonneg.mpr hup, sub_nonneg.mpr hlow⟩
  · rw [if_neg hactive, if_neg hactive]
    exact ⟨zero_le_one, zero_le_one⟩

theorem line_le_evaluate {cost : PiecewiseCost ℝ} {line : ℝ × ℝ} (h : line ∈ cost.segments)
    (power : ℝ) : line.1 * power + line.2 ≤ cost.evaluate power := by
  have hmem : line.1 * power + line.2 ∈
      cost.segments.map fun (slope, intercept) => slope * power + intercept :=
    List.mem_map.mpr ⟨line, h, rfl⟩
  rw [PiecewiseCost.evaluate]
  split
  case h_1 hnil =>
    rw [hnil] at hmem
    exact absurd hmem List.not_mem_nil
  case h_2 first rest hcons =>
    rw [hcons] at hmem
    obtain ⟨hstart, hrest⟩ := Binary64.le_foldl_max rest first
    rcases List.mem_cons.mp hmem with heq | htail
    · exact heq.le.trans hstart
    · exact hrest _ htail

theorem segment_mem {g : Fin net.k} (s : Fin (segmentCount net g)) {cost : PiecewiseCost ℝ}
    (h : net.piecewiseCosts g = some cost) : segment net g s ∈ cost.segments := by
  rw [segment]
  split
  case h_1 other hother =>
    obtain rfl := Option.some.inj (h.symm.trans hother)
    exact List.get_mem _ _
  case h_2 hnone =>
    rw [h] at hnone
    cases hnone

theorem rowSlack_cost (g : Fin net.k) (s : Fin (segmentCount net g)) :
    0 ≤ rowSlack net point.lift (.costSegment g s) := by
  obtain ⟨cost, hcost⟩ := Option.isSome_iff_exists.mp (isSome_of_segment net s)
  have hline := line_le_evaluate (segment_mem s hcost) (point.pg g)
  have heval : net.generatorCost g (point.pg g) = cost.evaluate (point.pg g) := by
    rw [AcNetwork.generatorCost, hcost]
  rw [rowSlack_costSegment]
  simp only [lift]
  rw [heval]
  linarith

/-- The magnitude bounds of an active voltage band are not negative. -/
def BandsNonneg (net : AcNetwork ℝ) : Prop :=
  ∀ i, net.voltageBoundActive i = true → 0 ≤ net.vmMin i

theorem inequalities (hbands : BandsNonneg net) (hangle : ∀ e, angleWindowSupported net e = true)
    (h : point.Feasible) {i : ℕ} (hle : nEq net ≤ i) (hi : i < socBase net) :
    0 ≤ (assembleConicOpf net).slack point.programPoint i := by
  obtain ⟨block, rfl⟩ := (fills_inequalityBlocks net).covers i hle hi
  rcases block with i | i | g | g | g | g | e | e | ⟨g, s⟩
  · exact (point.rowSlack_voltage h (hbands i)).1.trans_eq (point.slack_point (.wub i)).symm
  · exact (point.rowSlack_voltage h (hbands i)).2.trans_eq (point.slack_point (.wlb i)).symm
  · exact (point.rowSlack_capability h g).1.1.trans_eq (point.slack_point (.pgub g)).symm
  · exact (point.rowSlack_capability h g).1.2.trans_eq (point.slack_point (.pglb g)).symm
  · exact (point.rowSlack_capability h g).2.1.trans_eq (point.slack_point (.qgub g)).symm
  · exact (point.rowSlack_capability h g).2.2.trans_eq (point.slack_point (.qglb g)).symm
  · exact (point.rowSlack_angle h (hangle e)).1.trans_eq (point.slack_point (.angub e)).symm
  · exact (point.rowSlack_angle h (hangle e)).2.trans_eq (point.slack_point (.anglb e)).symm
  · exact (point.rowSlack_cost g s).trans_eq (point.slack_point (.costSegment g s)).symm

/-! ### Cones -/

theorem product_normSqr (e : Fin net.m) :
    (point.product e).re ^ 2 + (point.product e).im ^ 2 =
      (point.v (net.brFrom e)).normSqr * (point.v (net.brTo e)).normSqr := by
  simp only [product, Complex64.normSqr, Complex64.mul_re, Complex64.mul_im, Complex64.conj_re,
    Complex64.conj_im]
  ring

theorem inCone_of_sq {d : ℕ} {s : ℕ → ℝ} {tail : Fin d → ℝ} (htop : 0 ≤ s 0)
    (htail : ∀ i : Fin d, s (i + 1) = tail i) (hsq : ∑ i, tail i ^ 2 ≤ s 0 ^ 2) :
    InCone (.secondOrder (d + 1)) s := by
  have hsum : ∑ i ∈ Finset.range (d + 1 - 1), s (i + 1) ^ 2 = ∑ i, tail i ^ 2 := by
    rw [Nat.add_sub_cancel, Finset.sum_range]
    apply Finset.sum_congr rfl
    intro i _
    rw [htail]
  rw [InCone, hsum]
  exact Real.sqrt_le_iff.mpr ⟨htop, hsq⟩

theorem normSqr_nonneg (a : Complex64 ℝ) : 0 ≤ a.normSqr :=
  add_nonneg (mul_self_nonneg _) (mul_self_nonneg _)

theorem jabr_cone (e : Fin net.m) :
    InCone (.secondOrder 4) fun i =>
      (assembleConicOpf net).slack point.programPoint (socBase net + 4 * e + i) := by
  have hrow : ∀ part : Fin 4,
      (assembleConicOpf net).slack point.programPoint (socBase net + 4 * e + part) =
        ![((point.v (net.brFrom e)).normSqr + (point.v (net.brTo e)).normSqr) / 2,
          (point.product e).re, (point.product e).im,
          ((point.v (net.brFrom e)).normSqr - (point.v (net.brTo e)).normSqr) / 2] part :=
    fun part =>
      (point.slack_point (.jabr e part)).trans (rowSlack_jabr net point.lift e part)
  have hproduct := point.product_normSqr e
  have htop : (assembleConicOpf net).slack point.programPoint (socBase net + 4 * e + 0) =
      ((point.v (net.brFrom e)).normSqr + (point.v (net.brTo e)).normSqr) / 2 := hrow 0
  have hsum := add_nonneg (normSqr_nonneg (point.v (net.brFrom e)))
    (normSqr_nonneg (point.v (net.brTo e)))
  apply inCone_of_sq
  · rw [htop]
    exact div_nonneg hsum zero_le_two
  · intro i
    exact hrow i.succ
  · rw [htop]
    simp only [Fin.sum_univ_three, Matrix.cons_val_succ, Matrix.cons_val]
    apply le_of_eq
    linear_combination hproduct

theorem thermal_cone {a : Complex64 ℝ} {rate : ℝ} (h : a.norm ≤ rate) {s : ℕ → ℝ}
    (hs : ∀ part : Fin 3, s part = ![rate, a.re, a.im] part) : InCone (.secondOrder 3) s := by
  have htop : s 0 = rate := hs 0
  have hsq := mul_self_le_mul_self (norm_nonneg a) h
  rw [norm_mul_self, Complex64.normSqr] at hsq
  apply inCone_of_sq
  · rw [htop]
    exact (norm_nonneg a).trans h
  · intro i
    exact hs i.succ
  · rw [htop]
    simp only [Fin.sum_univ_two, Matrix.cons_val_succ, Matrix.cons_val]
    linarith

theorem thermal_cones (h : point.Feasible) {j : ℕ} (hj : j ≤ net.m) :
    InCones ((((List.finRange net.m).drop j).filter net.thermalLimitActive).flatMap
        fun _ => [.secondOrder 3, .secondOrder 3])
      (startAt (thermalBase net) (thermalHeight net) j)
      ((assembleConicOpf net).slack point.programPoint) := by
  induction hj using Nat.decreasingInduction with
  | self =>
    have hdrop : (List.finRange net.m).drop net.m = [] := List.drop_of_length_le (by simp)
    rw [hdrop]
    trivial
  | of_succ j hj ih =>
    have hlt : j < (List.finRange net.m).length := by
      rw [List.length_finRange]
      exact hj
    have hget : (List.finRange net.m)[j] = ⟨j, hj⟩ := by simp
    have hstart := startAt_succ (thermalBase net) (thermalHeight net) ⟨j, hj⟩
    simp only at hstart
    rw [List.drop_eq_getElem_cons hlt, hget]
    by_cases hactive : net.thermalLimitActive ⟨j, hj⟩ = true
    · obtain ⟨hfrom, hto⟩ := h.thermal ⟨j, hj⟩ hactive
      rw [thermalHeight_of_active net hactive] at hstart
      rw [hstart] at ih
      rw [List.filter_cons_of_pos hactive, List.flatMap_cons]
      apply inCones_append.mpr
      constructor
      · constructor
        · apply thermal_cone hfrom
          intro part
          exact (point.slack_point (.sf ⟨j, hj⟩ hactive part)).trans
            (rowSlack_sf net point.lift ⟨j, hj⟩ hactive part)
        · constructor
          · apply thermal_cone hto
            intro part
            exact (point.slack_point (.st ⟨j, hj⟩ hactive part)).trans
              (rowSlack_st net point.lift ⟨j, hj⟩ hactive part)
          · trivial
      · exact ih
    · have hzero : thermalHeight net ⟨j, hj⟩ = 0 := if_neg hactive
      rw [hzero, Nat.add_zero] at hstart
      rw [hstart] at ih
      rw [List.filter_cons_of_neg hactive]
      exact ih

theorem programPoint_feasible (hclosed : ∀ e, net.sw e = 1) (hbands : BandsNonneg net)
    (hangle : ∀ e, angleWindowSupported net e = true) (h : point.Feasible) :
    (assembleConicOpf net).Feasible point.programPoint := by
  have hthermal := point.thermal_cones h (Nat.zero_le net.m)
  rw [startAt_zero, List.drop_zero] at hthermal
  change InCones (cones net) 0 _
  rw [cones, List.cons_append, List.cons_append]
  constructor
  · intro i hi
    change (assembleConicOpf net).slack point.programPoint (0 + i) = 0
    rw [Nat.zero_add]
    exact point.equalities hclosed h hi
  constructor
  · intro i hi
    apply point.inequalities hbands hangle h
    · exact Nat.le_trans (Nat.le_of_eq (Nat.zero_add _).symm) (Nat.le_add_right _ i)
    · rw [socBase]
      simp only [Cone.dim]
      omega
  · have hbase : 0 + (Cone.zero (nEq net)).dim + (Cone.nonnegative (nIneq net)).dim = socBase net :=
      by rw [Nat.zero_add, socBase, Cone.dim, Cone.dim]
    have hsum : ((List.replicate net.m (Cone.secondOrder 4)).map Cone.dim).sum = 4 * net.m := by
      rw [List.map_replicate, List.sum_replicate, Cone.dim, smul_eq_mul, Nat.mul_comm]
    rw [hbase]
    apply inCones_append.mpr
    constructor
    · apply inCones_replicate
      intro e he
      exact point.jabr_cone ⟨e, he⟩
    · rw [hsum]
      exact hthermal

noncomputable def constantCost (net : AcNetwork ℝ) : ℝ :=
  ∑ g, if (net.piecewiseCosts g).isSome then 0 else net.cc g

theorem objective_programPoint :
    (assembleConicOpf net).objective point.programPoint + constantCost net =
      point.generationCost := by
  have hlift : (fun column : Column net => point.programPoint column.index) = point.lift :=
    funext point.programPoint_index
  rw [objective_eq, hlift, priceSum_conicEntries, constantCost, generationCost,
    ← Finset.sum_add_distrib]
  apply Finset.sum_congr rfl
  intro g _
  simp only [lift]
  cases hcost : net.piecewiseCosts g with
  | none => simp [AcNetwork.generatorCost, hcost]
  | some cost =>
    obtain ⟨hcq, hcl⟩ := net.distinctCosts g (by rw [hcost]; rfl)
    simp [hcq, hcl]

end OperatingPoint

/-- Every operating point of AC OPF is a point of the conic program at its cost, so that the
program bounds the cost from below; and the columns, rows and cones of the layout fill the
program without overlap. -/
theorem conic_opf_relaxes (net : AcNetwork ℝ) (hclosed : ∀ e, net.sw e = 1)
    (hbands : OperatingPoint.BandsNonneg net) (hangle : ∀ e, angleWindowSupported net e = true) :
    (∀ point : OperatingPoint net, point.Feasible →
      ∃ x : ℕ → ℝ, (∀ column : Column net, x column.index = point.lift column) ∧
        (assembleConicOpf net).Feasible x ∧
        (assembleConicOpf net).objective x + OperatingPoint.constantCost net =
          point.generationCost) ∧
      Fills (Column.index : Column net → ℕ) 0 (assembleConicOpf net).nvar ∧
      Fills (Row.index : Row net → ℕ) 0 (assembleConicOpf net).ncon ∧
      ((assembleConicOpf net).cones.map Cone.dim).sum = (assembleConicOpf net).ncon := by
  refine ⟨?_, ?_, ?_, ?_⟩
  · intro point h
    exact ⟨point.programPoint, point.programPoint_index,
      point.programPoint_feasible hclosed hbands hangle h, point.objective_programPoint⟩
  · rw [assembled_nvar]
    exact fills_columns net
  · rw [assembled_ncon]
    exact fills_rows net
  · rw [assembled_ncon]
    exact sum_cones net

end Exact

/-! ### A branch that feeds a load -/

section Witness

@[reducible] local instance relaxationText : DecimalText ℝ := ⟨fun _ => ""⟩

/-- A generator at one bus, a load at the other and a branch between them, with every limit active. -/
noncomputable def oneBranch : AcNetwork ℝ where
  n := 2
  m := 1
  brFrom _ := 0
  brTo _ := 1
  g _ := 1
  b _ := -10
  gFr _ := 0
  bFr _ := 0
  gTo _ := 0
  bTo _ := 0
  tap _ := 1
  shift _ := 0
  rateA _ := 2
  angmin _ := -1 / 2
  angmax _ := 1 / 2
  sw _ := 1
  gs _ := 0
  bs _ := 0
  pd := ![0, 99 / 100]
  qd := ![0, -1 / 5]
  pg _ := 0
  qg _ := 0
  k := 1
  genBus _ := 0
  pmin _ := 0
  pmax _ := 2
  qmin _ := -1
  qmax _ := 1
  cq _ := 1
  cl _ := 1
  cc _ := 1
  piecewiseCosts _ := none
  vmMin _ := 9 / 10
  vmMax _ := 11 / 10
  vmSet _ := 1
  slacks := [0]
  vaSlacks := [0]
  vmCase _ := 1
  vaCase _ := 0
  pfPv _ := false
  voltageBoundActive _ := true
  generatorCapabilityActive _ := true
  thermalLimitActive _ := true
  angleBoundActive _ := true
  distinctCosts _ h := by cases h
  separate := List.pairwise_singleton _ _
  anglesStated := rfl
  anglesFinite _ _ := rfl

noncomputable def feeding : OperatingPoint oneBranch where
  v := ![⟨1, 0⟩, ⟨1, -1 / 10⟩]
  pg _ := 1
  qg _ := -1 / 10

theorem feeding_product (e : Fin oneBranch.m) : feeding.product e = ⟨1, 1 / 10⟩ := by
  change (⟨1, 0⟩ : Complex64 ℝ) * (⟨1, -1 / 10⟩ : Complex64 ℝ).conj = _
  ext <;> norm_num

theorem feeding_flow (e : Fin oneBranch.m) :
    feeding.flowFrom e = ⟨1, -1 / 10⟩ ∧ feeding.flowTo e = ⟨-99 / 100, 1 / 5⟩ := by
  have hfrom : (feeding.v (oneBranch.brFrom e)).normSqr = 1 := by
    change (1 * 1 + 0 * 0 : ℝ) = 1
    norm_num
  have hto : (feeding.v (oneBranch.brTo e)).normSqr = 101 / 100 := by
    change (1 * 1 + -1 / 10 * (-1 / 10) : ℝ) = 101 / 100
    norm_num
  have halong : ∀ sign, ohmAlong oneBranch sign e = -1 := by
    intro sign
    change -1 * (1 * Real.cos 0) + sign * (-10 * (1 * Real.sin 0)) = -1
    rw [Real.cos_zero, Real.sin_zero]
    ring
  have hacross : ∀ sign, ohmAcross oneBranch sign e = 10 := by
    intro sign
    change - -10 * (1 * Real.cos 0) - sign * (1 * (1 * Real.sin 0)) = 10
    rw [Real.cos_zero, Real.sin_zero]
    ring
  constructor
  · ext
    · rw [feeding.flowFrom_re rfl, hfrom, halong, hacross, feeding_product]
      change ((1 + 0) * 1 + -1 * 1 + 10 * (1 / 10)) / (1 * 1) = (1 : ℝ)
      norm_num
    · rw [feeding.flowFrom_im rfl, hfrom, halong, hacross, feeding_product]
      change (-(-10 + 0) * 1 - 10 * 1 + -1 * (1 / 10)) / (1 * 1) = (-1 / 10 : ℝ)
      norm_num
  · ext
    · rw [feeding.flowTo_re rfl, hto, halong, hacross, feeding_product]
      change (1 + 0) * (101 / 100) + (-1 * 1 - 10 * (1 / 10)) / (1 * 1) = (-99 / 100 : ℝ)
      norm_num
    · rw [feeding.flowTo_im rfl, hto, halong, hacross, feeding_product]
      change -(-10 + 0) * (101 / 100) - (10 * 1 + -1 * (1 / 10)) / (1 * 1) = (1 / 5 : ℝ)
      norm_num

theorem feeding_angle (e : Fin oneBranch.m) :
    -1 / 2 ≤ Libm.atan2 (feeding.product e).im (feeding.product e).re ∧
      Libm.atan2 (feeding.product e).im (feeding.product e).re ≤ 1 / 2 := by
  have hpi := Real.two_le_pi
  have hnorm : 1 ≤ ‖(⟨1, 1 / 10⟩ : ℂ)‖ := Complex.abs_re_le_norm ⟨1, 1 / 10⟩ |>.trans' (by norm_num)
  have hsin : (1 / 2 : ℝ) - (1 / 2) ^ 3 / 6 < Real.sin (1 / 2) := Real.sin_gt_sub_cube (by norm_num)
  have hratio : 1 / 10 / ‖(⟨1, 1 / 10⟩ : ℂ)‖ ≤ 1 / 10 := div_le_self (by norm_num) hnorm
  rw [feeding_product]
  change -1 / 2 ≤ Complex.arg ⟨1, 1 / 10⟩ ∧ Complex.arg ⟨1, 1 / 10⟩ ≤ 1 / 2
  rw [Complex.arg_of_re_nonneg zero_le_one]
  constructor
  · exact le_trans (by norm_num) (Real.arcsin_nonneg.mpr (by positivity))
  · rw [Real.arcsin_le_iff_le_sin' ⟨by linarith, by linarith⟩]
    linarith

theorem norm_between {z : Complex64 ℝ} {low high : ℝ} (hhigh : 0 ≤ high)
    (h : low ^ 2 ≤ z.normSqr ∧ z.normSqr ≤ high ^ 2) : low ≤ z.norm ∧ z.norm ≤ high :=
  ⟨Real.le_sqrt_of_sq_le h.1, Real.sqrt_le_iff.mpr ⟨hhigh, h.2⟩⟩

theorem feeding_feasible : feeding.Feasible := by
  constructor
  case realBalance =>
    intro i
    simp only [feeding_flow]
    revert i
    change ∀ i : Fin 2, (∑ _ : Fin 1, if 0 = i then (1 : ℝ) else 0) - (![0, 99 / 100] : Fin 2 → ℝ) i - 0 * _ =
      ∑ _ : Fin 1, ((if 0 = i then (1 : ℝ) else 0) + if 1 = i then -99 / 100 else 0)
    rw [Fin.forall_fin_two]
    norm_num
  case reactiveBalance =>
    intro i
    simp only [feeding_flow]
    revert i
    change ∀ i : Fin 2, (∑ _ : Fin 1, if 0 = i then (-1 / 10 : ℝ) else 0) - (![0, -1 / 5] : Fin 2 → ℝ) i + 0 * _ =
      ∑ _ : Fin 1, ((if 0 = i then (-1 / 10 : ℝ) else 0) + if 1 = i then 1 / 5 else 0)
    rw [Fin.forall_fin_two]
    norm_num
  case voltage =>
    intro i _
    apply norm_between (by norm_num : (0 : ℝ) ≤ 11 / 10)
    revert i
    change ∀ i : Fin 2, true = true → (9 / 10) ^ 2 ≤ (![⟨1, 0⟩, ⟨1, -1 / 10⟩] i : Complex64 ℝ).normSqr ∧
      (![⟨1, 0⟩, ⟨1, -1 / 10⟩] i : Complex64 ℝ).normSqr ≤ (11 / 10) ^ 2
    rw [Fin.forall_fin_two]
    norm_num [Complex64.normSqr]
  case capability =>
    intro g _
    change ((0 : ℝ) ≤ 1 ∧ (1 : ℝ) ≤ 2) ∧ (-1 : ℝ) ≤ -1 / 10 ∧ (-1 / 10 : ℝ) ≤ 1
    norm_num
  case thermal =>
    intro e _
    rw [(feeding_flow e).1, (feeding_flow e).2]
    change Real.sqrt _ ≤ 2 ∧ Real.sqrt _ ≤ 2
    rw [Real.sqrt_le_iff, Real.sqrt_le_iff]
    norm_num
  case angle =>
    intro e _
    exact feeding_angle e

theorem conic_opf_relaxes_oneBranch :
    ∃ x, (assembleConicOpf oneBranch).Feasible x ∧
      (∀ e, x (Column.pf e : Column oneBranch).index = 1) ∧
      (assembleConicOpf oneBranch).objective x + OperatingPoint.constantCost oneBranch = 3 := by
  have hpi := Real.two_le_pi
  have hsupported : ∀ e, angleWindowSupported oneBranch e = true := by
    intro e
    have hlow : ¬ (-1 / 2 : ℝ) ≤ -(Real.pi / ((2 : ℚ) : ℝ)) := by
      push_cast
      linarith
    have hhigh : ¬ Real.pi / ((2 : ℚ) : ℝ) ≤ (1 / 2 : ℝ) := by
      push_cast
      linarith
    simp only [angleWindowSupported, Bool.or_eq_true, Bool.not_eq_true', Bool.or_eq_false_iff]
    exact .inr ⟨decide_eq_false hlow, decide_eq_false hhigh⟩
  have hbands : OperatingPoint.BandsNonneg oneBranch := by
    intro i _
    change (0 : ℝ) ≤ 9 / 10
    norm_num
  have hcost : feeding.generationCost = 3 := by
    change (∑ _ : Fin 1, (1 * 1 * 1 + 1 * 1 + 1 : ℝ)) = 3
    norm_num
  obtain ⟨hlift, -⟩ := conic_opf_relaxes oneBranch (fun _ => rfl) hbands hsupported
  obtain ⟨x, hcolumn, hfeasible, hobjective⟩ := hlift feeding feeding_feasible
  refine ⟨x, hfeasible, ?_, hobjective.trans hcost⟩
  intro e
  rw [hcolumn, OperatingPoint.lift, (feeding_flow e).1]

end Witness

end Tellegen.Ac
