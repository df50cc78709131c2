import Tellegen.Lib.RadialMap
import Tellegen.FixedPoint

/-!
The bounded-voltage current of a load branch as a function of the branch voltage.
In each band it keeps the direction of the voltage and has a profile of its
magnitude. The bands around the declared law are those of constant power, so
their current and that of the law meet at a bound where the law asks for the
nominal power.
-/

set_option linter.unusedSectionVars false

open Binary64 Outcome RadialMap

/-! ### Phasors as points of the plane -/

namespace Complex64

variable [DecimalText ℝ]

def toC (a : Complex64 ℝ) : ℂ := ⟨a.re, a.im⟩

def ofC (z : ℂ) : Complex64 ℝ := ⟨z.re, z.im⟩

@[simp] theorem toC_ofC (z : ℂ) : toC (ofC z) = z := rfl

@[simp] theorem ofC_toC (a : Complex64 ℝ) : ofC (toC a) = a := rfl

@[simp] theorem toC_zero : toC 0 = 0 := rfl

@[simp] theorem toC_mul (a b : Complex64 ℝ) : toC (a * b) = toC a * toC b := rfl

@[simp] theorem toC_add (a b : Complex64 ℝ) : toC (a + b) = toC a + toC b := rfl

@[simp] theorem toC_sub (a b : Complex64 ℝ) : toC (a - b) = toC a - toC b := rfl

@[simp] theorem toC_conj (a : Complex64 ℝ) : toC a.conj = (starRingEnd ℂ) (toC a) := rfl

theorem toC_injective : Function.Injective toC := by
  intro a b h
  exact Complex64.ext (congrArg Complex.re h) (congrArg Complex.im h)

theorem toC_divReal (a : Complex64 ℝ) (x : ℝ) : toC (a.divReal x) = toC a / (x : ℂ) := by
  apply Complex.ext
  · exact (Complex.div_ofReal_re (toC a) x).symm
  · exact (Complex.div_ofReal_im (toC a) x).symm

theorem toC_scale (x : ℝ) (a : Complex64 ℝ) : toC (scale x a) = (x : ℂ) * toC a := by
  apply Complex.ext
  · exact (Complex.re_ofReal_mul x (toC a)).symm
  · exact (Complex.im_ofReal_mul x (toC a)).symm

theorem norm_ofC (z : ℂ) : (ofC z).norm = ‖z‖ := by
  rw [Complex.norm_def, Complex.normSq_apply]
  rfl

theorem continuousAt_toC {α : Type} [TopologicalSpace α] {f : α → Complex64 ℝ} {a : α}
    (hre : ContinuousAt (fun a => (f a).re) a) (him : ContinuousAt (fun a => (f a).im) a) :
    ContinuousAt (fun a => toC (f a)) a := by
  have hpair : ContinuousAt (fun a => Complex.equivRealProdCLM.symm ((f a).re, (f a).im)) a :=
    Complex.equivRealProdCLM.symm.continuous.continuousAt.comp (hre.prodMk him)
  exact hpair

end Complex64

namespace Tellegen.Multiconductor

open Complex64

section

variable [DecimalText ℝ] {n : ℕ}

/-! ### Loads and options -/

/-- A load that was prepared for a network, and given other powers after that. -/
inductive BranchLoad.Prepared (T : Type) : BranchLoad ℝ n → Prop where
  | prepare {row : DistLoad ℝ T} {terminal : String → Except String (Fin n)}
      {inferred : Option (List ℝ)} {load : BranchLoad ℝ n}
      (h : prepareLoad row terminal inferred = .ok load) : load.Prepared T
  | replace {load replaced : BranchLoad ℝ n} {power : List (Complex64 ℝ)} (h : load.Prepared T)
      (hreplace : load.replacePower power = .ok replaced) : replaced.Prepared T

/-- The nominal voltages are positive, and the nominal admittance is that of the power. -/
structure BranchLoad.Rated (load : BranchLoad ℝ n) : Prop where
  positive : ∀ branch, 0 < load.nominalVoltage branch
  nominal : ∀ branch, load.nominalAdmittance branch =
    BranchLoad.admittanceOf (load.power branch) (load.nominalVoltage branch)

theorem prepareLoad_rated {T : Type} {row : DistLoad ℝ T}
    {terminal : String → Except String (Fin n)} {inferred : Option (List ℝ)}
    {load : BranchLoad ℝ n} (h : prepareLoad row terminal inferred = .ok load) : load.Rated := by
  unfold prepareLoad at h
  split at h
  case isFalse => cases h
  case isTrue hq =>
    simp only [ite_error_eq_ok, bind_eq_ok] at h
    obtain ⟨-, -, incidence, -, h⟩ := h
    split at h
    case isFalse => cases h
    case isTrue hi =>
      simp only [bind_eq_ok, ite_error_eq_ok, Except.ok.injEq] at h
      obtain ⟨nominalVoltage, -, hpositive, -, model, -, rfl⟩ := h
      simp only [List.any_eq_true, not_exists, not_and, List.mem_finRange, true_implies] at hpositive
      constructor
      case positive =>
        intro branch
        exact not_le.mp fun hle => hpositive branch (decide_eq_true hle)
      case nominal => exact fun _ => rfl

theorem replacePower_rated {load replaced : BranchLoad ℝ n} {power : List (Complex64 ℝ)}
    (hrated : load.Rated) (h : load.replacePower power = .ok replaced) : replaced.Rated := by
  unfold BranchLoad.replacePower at h
  split at h
  case isFalse => cases h
  case isTrue hlength =>
    simp only [ite_error_eq_ok, Except.ok.injEq] at h
    obtain ⟨-, -, rfl⟩ := h
    exact ⟨hrated.positive, fun _ => rfl⟩

theorem BranchLoad.Prepared.rated {T : Type} {load : BranchLoad ℝ n}
    (h : load.Prepared T) : load.Rated := by
  induction h with
  | prepare h => exact prepareLoad_rated h
  | replace h hreplace ih => exact replacePower_rated ih hreplace

structure McPfOptions.Banded (options : McPfOptions ℝ) : Prop where
  low : 0 < options.vLowPu
  lowMin : options.vLowPu < options.vMinPu
  minMax : options.vMinPu < options.vMaxPu

theorem banded_of_validateOptions {options : McPfOptions ℝ} {u : Unit}
    (h : validateOptions options = .ok u) : options.Banded := by
  rw [validateOptions, ite_error_eq_ok] at h
  have hvalid := h.1
  simp only [Bool.or_eq_true, not_or] at hvalid
  obtain ⟨⟨⟨-, hlow⟩, hmin⟩, hmax⟩ := hvalid
  exact ⟨not_le.mp fun hle => hlow (decide_eq_true hle),
    not_le.mp fun hle => hmin (decide_eq_true hle), not_le.mp fun hle => hmax (decide_eq_true hle)⟩

theorem McPfOptions.Banded.min {options : McPfOptions ℝ} (h : options.Banded) : 0 < options.vMinPu :=
  h.low.trans h.lowMin

theorem McPfOptions.Banded.max {options : McPfOptions ℝ} (h : options.Banded) : 0 < options.vMaxPu :=
  h.min.trans h.minMax

namespace BranchLoad

variable (load : BranchLoad ℝ n) (branch : Fin load.branches)

/-! ### The laws -/

/-- The power a law prescribes, at a voltage on the nominal one. -/
noncomputable def lawPower (r : ℝ) : Complex64 ℝ :=
  let s := load.power branch
  match load.model with
  | .constantPower => s
  | .constantCurrent => scale r s
  | .constantImpedance => scale (r ^ 2) s
  | .zip alphaZ alphaI alphaP betaZ betaI betaP =>
    ⟨s.re * (alphaZ branch * r ^ 2 + alphaI branch * r + alphaP branch),
      s.im * (betaZ branch * r ^ 2 + betaI branch * r + betaP branch)⟩
  | .exponential gammaP gammaQ => ⟨s.re * r ^ gammaP branch, s.im * r ^ gammaQ branch⟩

/-- The current of the prescribed power, at a voltage on the real axis. -/
noncomputable def lawCurrent (r : ℝ) : Complex64 ℝ :=
  (load.lawPower branch r).conj.divReal (load.nominalVoltage branch * r)

/-- Constant impedance is not enveloped. -/
def isImpedance : Prop := load.model = .constantImpedance

theorem continuousAt_lawPower {r : ℝ} (hr : 0 < r) :
    ContinuousAt (fun r => (load.lawPower branch r).re) r ∧
      ContinuousAt (fun r => (load.lawPower branch r).im) r := by
  have hpow : ∀ gamma : ℝ, ContinuousAt (fun r : ℝ => r ^ gamma) r := fun gamma =>
    Real.continuousAt_rpow_const r gamma (Or.inl hr.ne')
  unfold lawPower
  cases load.model with
  | constantPower => exact ⟨continuousAt_const, continuousAt_const⟩
  | constantCurrent =>
    constructor
    · exact continuousAt_id.mul continuousAt_const
    · exact continuousAt_id.mul continuousAt_const
  | constantImpedance =>
    constructor
    · exact (continuousAt_id.pow 2).mul continuousAt_const
    · exact (continuousAt_id.pow 2).mul continuousAt_const
  | zip alphaZ alphaI alphaP betaZ betaI betaP =>
    dsimp only
    constructor
    · fun_prop
    · fun_prop
  | exponential gammaP gammaQ =>
    constructor
    · exact continuousAt_const.mul (hpow _)
    · exact continuousAt_const.mul (hpow _)

theorem continuousAt_lawCurrent (hpositive : 0 < load.nominalVoltage branch) {r : ℝ} (hr : 0 < r) :
    ContinuousAt (fun r => toC (load.lawCurrent branch r)) r := by
  obtain ⟨hre, him⟩ := load.continuousAt_lawPower branch hr
  have hmagnitude : ContinuousAt (fun r => load.nominalVoltage branch * r) r :=
    continuousAt_const.mul continuousAt_id
  have hne : load.nominalVoltage branch * r ≠ 0 := (mul_pos hpositive hr).ne'
  apply continuousAt_toC
  · exact hre.div hmagnitude hne
  · exact him.neg.div hmagnitude hne

variable {load branch}

theorem zipPart_eq {s vNom ratio : ℝ} (hratio : ratio ≠ 0) (z i p : ℝ) :
    zipPart s vNom ratio z i p = s * (z * ratio ^ 2 + i * ratio + p) / (vNom * ratio) := by
  change (if decide (s = 0) = true then 0
    else s / vNom * (z * ratio + i + (if decide (p = 0) = true then 0 else p / ratio))) = _
  by_cases hs : s = 0
  · simp [hs]
  · have hinverse : (if decide (p = 0) = true then 0 else p / ratio) = p / ratio := by
      by_cases hp : p = 0
      · simp [hp]
      · rw [if_neg (by simpa using hp)]
    rw [if_neg (by simpa using hs), hinverse]
    field_simp

theorem exponentialPart_eq (s vNom : ℝ) {ratio : ℝ} (hratio : 0 < ratio) (gamma : ℝ) :
    exponentialPart s vNom ratio gamma = s * ratio ^ gamma / (vNom * ratio) := by
  change (if decide (s = 0) = true then 0 else s / vNom * ratio ^ (gamma - 1)) = _
  by_cases hs : s = 0
  · simp [hs]
  · rw [if_neg (by simpa using hs), Real.rpow_sub_one hratio.ne']
    field_simp

theorem divReal_re (a : Complex64 ℝ) (x : ℝ) : (a.divReal x).re = a.re / x := rfl

theorem divReal_im (a : Complex64 ℝ) (x : ℝ) : (a.divReal x).im = a.im / x := rfl

theorem currentAtVoltage_eq (hrated : load.Rated) {u : Complex64 ℝ} {magnitude : ℝ}
    (hmagnitude : 0 < magnitude) :
    load.currentAtVoltage branch u magnitude =
      u.divReal magnitude * load.lawCurrent branch (magnitude / load.nominalVoltage branch) := by
  have hv := hrated.positive branch
  have hratio : 0 < magnitude / load.nominalVoltage branch := div_pos hmagnitude hv
  have hback : load.nominalVoltage branch * (magnitude / load.nominalVoltage branch) = magnitude :=
    mul_div_cancel₀ magnitude hv.ne'
  have hv' := hv.ne'
  have hm' := hmagnitude.ne'
  unfold currentAtVoltage lawCurrent lawPower
  cases load.model with
  | constantPower =>
    rw [hback]
    ext
    · simp only [mul_re, conj_re, conj_im, divReal_re, divReal_im]
      ring
    · simp only [mul_im, conj_re, conj_im, divReal_re, divReal_im]
      ring
  | constantCurrent =>
    rw [hback]
    ext
    · simp only [mul_re, conj_re, conj_im, divReal_re, divReal_im, scale_re, scale_im]
      field_simp
    · simp only [mul_im, conj_re, conj_im, divReal_re, divReal_im, scale_re, scale_im]
      field_simp
      ring
  | constantImpedance =>
    dsimp only
    rw [hrated.nominal, hback, admittanceOf]
    ext
    · simp only [mul_re, conj_re, conj_im, divReal_re, divReal_im, scale_re, scale_im]
      field_simp
    · simp only [mul_im, conj_re, conj_im, divReal_re, divReal_im, scale_re, scale_im]
      field_simp
      ring
  | zip alphaZ alphaI alphaP betaZ betaI betaP =>
    simp only [zipPart_eq hratio.ne']
    congr 1
    ext
    · rfl
    · exact (neg_div _ _).symm
  | exponential gammaP gammaQ =>
    have hre := exponentialPart_eq (load.power branch).re (load.nominalVoltage branch) hratio
      (gammaP branch)
    have him := exponentialPart_eq (-(load.power branch).im) (load.nominalVoltage branch) hratio
      (gammaQ branch)
    have hpart : (if eq (load.power branch).im 0 = true then 0
        else -(load.power branch).im / load.nominalVoltage branch *
          Libm.powf (magnitude / load.nominalVoltage branch) (gammaQ branch - 1)) =
        exponentialPart (-(load.power branch).im) (load.nominalVoltage branch)
          (magnitude / load.nominalVoltage branch) (gammaQ branch) := by
      change _ = (if decide (-(load.power branch).im = 0) = true then _ else _)
      simp only [neg_eq_zero]
      rfl
    dsimp only
    rw [hpart, hre, him, mul_comm]
    congr 1
    ext
    · rfl
    · simp only [divReal_im, conj_im]
      ring

/-! ### The bands -/

noncomputable def envelopeProfile (load : BranchLoad ℝ n) (branch : Fin load.branches)
    (options : McPfOptions ℝ) : ℝ → ℂ :=
  let vNom := load.nominalVoltage branch
  let y := toC (load.nominalAdmittance branch)
  joined options.vLowPu (fun r => y * ((vNom * r : ℝ) : ℂ)) <|
    joined options.vMinPu
      (fun r => y * ((vNom * (options.vLowPu + (r - options.vLowPu) /
        (options.vMinPu - options.vLowPu) * (1 / options.vMinPu - options.vLowPu)) : ℝ) : ℂ)) <|
    joined options.vMaxPu (fun r => toC (load.lawCurrent branch r))
      fun r => y * ((vNom * r / options.vMaxPu ^ 2 : ℝ) : ℂ)

variable {options : McPfOptions ℝ}

theorem impedance_radial (hrated : load.Rated) (branch : Fin load.branches) (y : Complex64 ℝ) (u : ℂ) :
    toC (y * ofC u) =
      radial (load.nominalVoltage branch)
        (fun r => toC y * ((load.nominalVoltage branch * r : ℝ) : ℂ)) u := by
  have hv := (hrated.positive branch).ne'
  rw [radial, toC_mul, toC_ofC, mul_div_cancel₀ _ hv]
  by_cases hu : u = 0
  · simp [hu]
  · have hnorm := ofReal_norm_ne_zero hu
    field_simp

theorem envelopedCurrent_of_isImpedance (himpedance : load.isImpedance) (u : Complex64 ℝ)
    (magnitude : ℝ) :
    load.envelopedCurrent branch u magnitude options = load.nominalAdmittance branch * u := by
  unfold envelopedCurrent
  rw [himpedance]
  rfl

theorem envelopedCurrent_eq (himpedance : ¬ load.isImpedance) (u : Complex64 ℝ) (magnitude : ℝ) :
    load.envelopedCurrent branch u magnitude options =
      if magnitude / load.nominalVoltage branch ≤ options.vLowPu then
        load.nominalAdmittance branch * u
      else if magnitude / load.nominalVoltage branch ≤ options.vMinPu then
        u.divReal magnitude *
          (scale (load.nominalVoltage branch * options.vLowPu) (load.nominalAdmittance branch) +
            scale ((magnitude / load.nominalVoltage branch - options.vLowPu) /
                (options.vMinPu - options.vLowPu))
              (scale (load.nominalVoltage branch / options.vMinPu)
                  (load.nominalAdmittance branch) -
                scale (load.nominalVoltage branch * options.vLowPu)
                  (load.nominalAdmittance branch)))
      else if options.vMaxPu < magnitude / load.nominalVoltage branch then
        (load.nominalAdmittance branch).divReal (options.vMaxPu * options.vMaxPu) * u
      else load.currentAtVoltage branch u magnitude := by
  unfold envelopedCurrent
  cases hm : load.model with
  | constantImpedance => exact absurd hm himpedance
  | _ => simp only [le, lt, decide_eq_true_eq, square, Bool.false_eq_true, if_false]

theorem envelopedCurrent_radial (hrated : load.Rated) (himpedance : ¬ load.isImpedance)
    (hbanded : options.Banded) (u : ℂ) :
    toC (load.envelopedCurrent branch (ofC u) (ofC u).norm options) =
      radial (load.nominalVoltage branch) (load.envelopeProfile branch options) u := by
  have hv := hrated.positive branch
  rw [envelopedCurrent_eq himpedance, norm_ofC]
  split
  case isTrue hlow =>
    rw [impedance_radial hrated branch, radial, radial]
    unfold envelopeProfile
    rw [joined_of_le hlow]
  case isFalse hlow =>
    have hlow' := not_le.mp hlow
    have hnorm : 0 < ‖u‖ := by
      have hratio : 0 < ‖u‖ / load.nominalVoltage branch := hbanded.low.trans hlow'
      have hback := mul_pos hratio hv
      rwa [div_mul_cancel₀ _ hv.ne'] at hback
    have hnorm' : ((‖u‖ : ℝ) : ℂ) ≠ 0 := Complex.ofReal_ne_zero.mpr hnorm.ne'
    split
    case isTrue hmin =>
      unfold radial envelopeProfile
      rw [joined_of_lt hlow', joined_of_le hmin, toC_mul, toC_divReal, toC_ofC]
      congr 1
      rw [toC_add, toC_scale, toC_scale, toC_sub, toC_scale, toC_scale]
      push_cast
      ring
    case isFalse hmin =>
      have hmin' := not_le.mp hmin
      split
      case isTrue hmax =>
        unfold radial envelopeProfile
        rw [joined_of_lt hlow', joined_of_lt hmin', joined_of_lt hmax, toC_mul, toC_divReal, toC_ofC,
          mul_div_cancel₀ _ hv.ne']
        push_cast
        field_simp
      case isFalse hmax =>
        unfold radial envelopeProfile
        rw [joined_of_lt hlow', joined_of_lt hmin', joined_of_le (not_lt.mp hmax),
          currentAtVoltage_eq hrated hnorm, toC_mul, toC_divReal, toC_ofC]

/-! ### Continuity -/

theorem continuousAt_line (y : ℂ) {f : ℝ → ℝ} {r : ℝ} (hf : ContinuousAt f r) :
    ContinuousAt (fun r => y * ((f r : ℝ) : ℂ)) r :=
  continuousAt_const.mul (Complex.continuous_ofReal.continuousAt.comp hf)

theorem continuousAt_linear (a r : ℝ) : ContinuousAt (fun r => a * r) r :=
  (continuous_const.mul continuous_id).continuousAt

theorem continuousAt_transition (options : McPfOptions ℝ) (a r : ℝ) :
    ContinuousAt (fun r => a * (options.vLowPu + (r - options.vLowPu) /
      (options.vMinPu - options.vLowPu) * (1 / options.vMinPu - options.vLowPu))) r := by
  fun_prop

/-- The law asks for the nominal power at `r` exactly where its current is the constant-power one. -/
theorem lawCurrent_eq_iff (hrated : load.Rated) {r : ℝ} (hr : 0 < r) :
    toC (load.nominalAdmittance branch) * ((load.nominalVoltage branch / r : ℝ) : ℂ) =
        toC (load.lawCurrent branch r) ↔
      load.lawPower branch r = load.power branch := by
  have hv := hrated.positive branch
  have hv' : ((load.nominalVoltage branch : ℝ) : ℂ) ≠ 0 := Complex.ofReal_ne_zero.mpr hv.ne'
  have hr' : ((r : ℝ) : ℂ) ≠ 0 := Complex.ofReal_ne_zero.mpr hr.ne'
  have hleft : toC (load.nominalAdmittance branch) * ((load.nominalVoltage branch / r : ℝ) : ℂ) =
      (starRingEnd ℂ) (toC (load.power branch)) / ((load.nominalVoltage branch * r : ℝ) : ℂ) := by
    rw [hrated.nominal, admittanceOf, toC_divReal, toC_conj]
    push_cast
    field_simp
  have hne : ((load.nominalVoltage branch * r : ℝ) : ℂ) ≠ 0 :=
    Complex.ofReal_ne_zero.mpr (mul_pos hv hr).ne'
  rw [hleft, lawCurrent, toC_divReal, toC_conj, div_left_inj' hne]
  constructor
  · intro h
    exact (toC_injective ((starRingEnd ℂ).injective h)).symm
  · intro h
    rw [h]

section Profile

variable (hrated : load.Rated) (hbanded : options.Banded)

include hrated hbanded

theorem continuousAt_profile_min :
    ContinuousAt (load.envelopeProfile branch options) options.vMinPu ↔
      load.lawPower branch options.vMinPu = load.power branch := by
  have hwidth : options.vMinPu - options.vLowPu ≠ 0 := (sub_pos.mpr hbanded.lowMin).ne'
  have hlaw : ContinuousAt (joined options.vMaxPu (fun r => toC (load.lawCurrent branch r))
      fun r => toC (load.nominalAdmittance branch) *
        ((load.nominalVoltage branch * r / options.vMaxPu ^ 2 : ℝ) : ℂ)) options.vMinPu :=
    (continuousAt_joined_of_lt hbanded.minMax).mpr
      (load.continuousAt_lawCurrent branch (hrated.positive branch) hbanded.min)
  unfold envelopeProfile
  rw [continuousAt_joined_of_gt hbanded.lowMin,
    continuousAt_joined_iff (continuousAt_line _ (continuousAt_transition _ _ _)) hlaw,
    joined_of_le hbanded.minMax.le, div_self hwidth, one_mul, add_sub_cancel, mul_one_div]
  exact lawCurrent_eq_iff hrated hbanded.min

theorem continuousAt_profile_max :
    ContinuousAt (load.envelopeProfile branch options) options.vMaxPu ↔
      load.lawPower branch options.vMaxPu = load.power branch := by
  have hmax := hbanded.max.ne'
  have hhigh : ContinuousAt (fun r => load.nominalVoltage branch * r / options.vMaxPu ^ 2)
      options.vMaxPu := (continuousAt_linear _ _).div_const _
  have hratio : load.nominalVoltage branch * options.vMaxPu / options.vMaxPu ^ 2 =
      load.nominalVoltage branch / options.vMaxPu := by
    field_simp
  unfold envelopeProfile
  rw [continuousAt_joined_of_gt (hbanded.lowMin.trans hbanded.minMax),
    continuousAt_joined_of_gt hbanded.minMax,
    continuousAt_joined_iff
      (load.continuousAt_lawCurrent branch (hrated.positive branch) hbanded.max)
      (continuousAt_line _ hhigh), hratio, eq_comm]
  exact lawCurrent_eq_iff hrated hbanded.max

theorem continuousAt_profile {r : ℝ} (hr : 0 < r) (hmin : r ≠ options.vMinPu)
    (hmax : r ≠ options.vMaxPu) : ContinuousAt (load.envelopeProfile branch options) r := by
  have htransition := continuousAt_line (r := r) (toC (load.nominalAdmittance branch))
    (continuousAt_transition options (load.nominalVoltage branch) r)
  have himpedance := continuousAt_line (toC (load.nominalAdmittance branch))
    (continuousAt_linear (load.nominalVoltage branch) r)
  unfold envelopeProfile
  obtain hlow | rfl | hlow := lt_trichotomy r options.vLowPu
  · rw [continuousAt_joined_of_lt hlow]
    exact himpedance
  · rw [continuousAt_joined_iff himpedance ((continuousAt_joined_of_lt hbanded.lowMin).mpr htransition),
      joined_of_le hbanded.lowMin.le, sub_self, zero_div, zero_mul, add_zero]
  · rw [continuousAt_joined_of_gt hlow]
    obtain hmin | hmin := lt_or_gt_of_ne hmin
    · rw [continuousAt_joined_of_lt hmin]
      exact htransition
    · rw [continuousAt_joined_of_gt hmin]
      obtain hmax | hmax := lt_or_gt_of_ne hmax
      · rw [continuousAt_joined_of_lt hmax]
        exact load.continuousAt_lawCurrent branch (hrated.positive branch) hr
      · rw [continuousAt_joined_of_gt hmax]
        exact continuousAt_line _ ((continuousAt_linear _ _).div_const _)

end Profile

/-- The current of the envelope, as a function on the plane. -/
noncomputable def planeCurrent (load : BranchLoad ℝ n) (branch : Fin load.branches)
    (options : McPfOptions ℝ) (u : ℂ) : ℂ :=
  toC (load.envelopedCurrent branch (ofC u) (ofC u).norm options)

theorem planeCurrent_eq_radial (hrated : load.Rated) (himpedance : ¬ load.isImpedance)
    (hbanded : options.Banded) :
    load.planeCurrent branch options =
      radial (load.nominalVoltage branch) (load.envelopeProfile branch options) :=
  funext (envelopedCurrent_radial hrated himpedance hbanded)

theorem planeCurrent_of_isImpedance (himpedance : load.isImpedance) :
    load.planeCurrent branch options = fun u => toC (load.nominalAdmittance branch) * u := by
  funext u
  rw [planeCurrent, envelopedCurrent_of_isImpedance himpedance, toC_mul, toC_ofC]

theorem continuousAt_planeCurrent_zero (hrated : load.Rated) (hbanded : options.Banded) :
    ContinuousAt (load.planeCurrent branch options) 0 := by
  have hline : ContinuousAt (fun u => toC (load.nominalAdmittance branch) * u) 0 :=
    (continuous_const.mul continuous_id).continuousAt
  by_cases himpedance : load.isImpedance
  · rw [planeCurrent_of_isImpedance himpedance]
    exact hline
  · apply hline.congr
    have hradius : 0 < options.vLowPu * load.nominalVoltage branch :=
      mul_pos hbanded.low (hrated.positive branch)
    filter_upwards [Metric.ball_mem_nhds (0 : ℂ) hradius] with u hu
    have hratio : (ofC u).norm / load.nominalVoltage branch ≤ options.vLowPu := by
      rw [norm_ofC, div_le_iff₀ (hrated.positive branch)]
      exact (mem_ball_zero_iff.mp hu).le
    rw [planeCurrent, envelopedCurrent_eq himpedance, if_pos hratio, toC_mul, toC_ofC]

theorem continuousAt_planeCurrent_iff (hrated : load.Rated) (hbanded : options.Banded) {u : ℂ}
    (hu : u ≠ 0) :
    ContinuousAt (load.planeCurrent branch options) u ↔ load.isImpedance ∨
      ContinuousAt (load.envelopeProfile branch options) (‖u‖ / load.nominalVoltage branch) := by
  by_cases himpedance : load.isImpedance
  · rw [planeCurrent_of_isImpedance himpedance]
    constructor
    · exact fun _ => Or.inl himpedance
    · exact fun _ => (continuous_const.mul continuous_id).continuousAt
  · rw [planeCurrent_eq_radial hrated himpedance hbanded,
      continuousAt_radial_iff (hrated.positive branch) hu]
    constructor
    · exact Or.inr
    · intro h
      obtain h | h := h
      · exact absurd h himpedance
      · exact h

theorem ratio_of_norm (hrated : load.Rated) {u : ℂ} {r : ℝ} (hr : 0 < r)
    (hu : ‖u‖ = load.nominalVoltage branch * r) :
    u ≠ 0 ∧ ‖u‖ / load.nominalVoltage branch = r := by
  have hv := hrated.positive branch
  constructor
  · rw [← norm_pos_iff, hu]
    exact mul_pos hv hr
  · rw [hu, mul_div_cancel_left₀ r hv.ne']

/-! ### Powers -/

theorem lawPower_of_power_zero (hpower : load.power branch = 0) (r : ℝ) :
    load.lawPower branch r = 0 := by
  unfold lawPower
  rw [hpower]
  cases load.model with
  | constantPower => rfl
  | _ => ext <;> simp

theorem planeCurrent_of_power_zero (hrated : load.Rated) (hbanded : options.Banded)
    (hpower : load.power branch = 0) (u : ℂ) : load.planeCurrent branch options u = 0 := by
  have hnominal : toC (load.nominalAdmittance branch) = 0 := by
    rw [hrated.nominal, admittanceOf, hpower, toC_divReal, conj_zero, toC_zero, zero_div]
  have hlaw : ∀ r, toC (load.lawCurrent branch r) = 0 := by
    intro r
    rw [lawCurrent, lawPower_of_power_zero hpower, toC_divReal, conj_zero, toC_zero, zero_div]
  by_cases himpedance : load.isImpedance
  · simp only [planeCurrent_of_isImpedance himpedance, hnominal, zero_mul]
  · have hprofile : load.envelopeProfile branch options (‖u‖ / load.nominalVoltage branch) = 0 := by
      simp only [envelopeProfile, joined, hnominal, hlaw, zero_mul, ite_self]
    rw [planeCurrent_eq_radial hrated himpedance hbanded, radial, hprofile, mul_zero]

theorem envelopedCurrent_of_between (hbanded : options.Banded) {u : Complex64 ℝ} {magnitude : ℝ}
    (hmin : options.vMinPu < magnitude / load.nominalVoltage branch)
    (hmax : magnitude / load.nominalVoltage branch ≤ options.vMaxPu) :
    load.envelopedCurrent branch u magnitude options = load.currentAtVoltage branch u magnitude := by
  by_cases himpedance : load.isImpedance
  · rw [envelopedCurrent_of_isImpedance himpedance, currentAtVoltage, himpedance]
  · rw [envelopedCurrent_eq himpedance, if_neg (not_le.mpr (hbanded.lowMin.trans hmin)),
      if_neg (not_le.mpr hmin), if_neg (not_lt.mpr hmax)]

theorem planeCurrent_power (hrated : load.Rated) (hbanded : options.Banded) {u : ℂ}
    (hmin : load.nominalVoltage branch * options.vMinPu < ‖u‖)
    (hmax : ‖u‖ ≤ load.nominalVoltage branch * options.vMaxPu) :
    u * (starRingEnd ℂ) (load.planeCurrent branch options u) =
      toC (load.lawPower branch (‖u‖ / load.nominalVoltage branch)) := by
  have hv := hrated.positive branch
  have hnorm : 0 < ‖u‖ := (mul_pos hv hbanded.min).trans hmin
  have hnorm' : ((‖u‖ : ℝ) : ℂ) ≠ 0 := Complex.ofReal_ne_zero.mpr hnorm.ne'
  have hmin' : options.vMinPu < ‖u‖ / load.nominalVoltage branch := by
    rwa [lt_div_iff₀ hv, mul_comm]
  have hmax' : ‖u‖ / load.nominalVoltage branch ≤ options.vMaxPu := by
    rwa [div_le_iff₀ hv, mul_comm]
  have hsquare : u * (starRingEnd ℂ) u = ((‖u‖ : ℝ) : ℂ) ^ 2 := Complex.mul_conj' u
  rw [planeCurrent, norm_ofC, envelopedCurrent_of_between hbanded hmin' hmax',
    currentAtVoltage_eq hrated hnorm, lawCurrent, mul_div_cancel₀ _ hv.ne', toC_mul, toC_divReal,
    toC_divReal, toC_conj, toC_ofC, map_mul, map_div₀, map_div₀, Complex.conj_conj,
    Complex.conj_ofReal]
  calc u * ((starRingEnd ℂ) u / (‖u‖ : ℂ) *
        (toC (load.lawPower branch (‖u‖ / load.nominalVoltage branch)) / (‖u‖ : ℂ)))
      = u * (starRingEnd ℂ) u / (‖u‖ : ℂ) ^ 2 *
          toC (load.lawPower branch (‖u‖ / load.nominalVoltage branch)) := by ring
    _ = toC (load.lawPower branch (‖u‖ / load.nominalVoltage branch)) := by
        rw [hsquare, div_self (pow_ne_zero 2 hnorm'), one_mul]

end BranchLoad

/-- The envelope of a prepared load is continuous wherever the voltage is not at the minimum or the
maximum. At the minimum it is continuous exactly where the law asks for the nominal power there, since
the transition ends in the constant-power current, and at the maximum it is if the law does so. -/
theorem envelopedCurrent_extends {T : Type} {load : BranchLoad ℝ n} (hload : load.Prepared T)
    (branch : Fin load.branches) {options : McPfOptions ℝ} (hoptions : validateOptions options = .ok ()) :
    (∀ u : ℂ, ‖u‖ ≠ load.nominalVoltage branch * options.vMinPu →
      ‖u‖ ≠ load.nominalVoltage branch * options.vMaxPu →
        ContinuousAt (load.planeCurrent branch options) u) ∧
      (∀ u : ℂ, ‖u‖ = load.nominalVoltage branch * options.vMinPu →
        (ContinuousAt (load.planeCurrent branch options) u ↔
          load.isImpedance ∨ load.lawPower branch options.vMinPu = load.power branch)) ∧
      (∀ u : ℂ, ‖u‖ = load.nominalVoltage branch * options.vMaxPu →
        load.isImpedance ∨ load.lawPower branch options.vMaxPu = load.power branch →
          ContinuousAt (load.planeCurrent branch options) u) ∧
      (load.power branch = 0 → ∀ u, load.planeCurrent branch options u = 0) ∧
      ∀ u : ℂ, load.nominalVoltage branch * options.vMinPu < ‖u‖ →
        ‖u‖ ≤ load.nominalVoltage branch * options.vMaxPu →
          u * (starRingEnd ℂ) (load.planeCurrent branch options u) =
            toC (load.lawPower branch (‖u‖ / load.nominalVoltage branch)) := by
  have hrated := hload.rated
  have hbanded := banded_of_validateOptions hoptions
  have hv := hrated.positive branch
  refine ⟨?_, ?_, ?_, BranchLoad.planeCurrent_of_power_zero hrated hbanded,
    fun u => BranchLoad.planeCurrent_power hrated hbanded⟩
  · intro u hmin hmax
    by_cases hu : u = 0
    · rw [hu]
      exact BranchLoad.continuousAt_planeCurrent_zero hrated hbanded
    · rw [BranchLoad.continuousAt_planeCurrent_iff hrated hbanded hu]
      right
      apply BranchLoad.continuousAt_profile hrated hbanded
      · exact div_pos (norm_pos_iff.mpr hu) hv
      · rwa [Ne, div_eq_iff hv.ne', mul_comm]
      · rwa [Ne, div_eq_iff hv.ne', mul_comm]
  · intro u hnorm
    obtain ⟨hu, hratio⟩ := BranchLoad.ratio_of_norm hrated hbanded.min hnorm
    rw [BranchLoad.continuousAt_planeCurrent_iff hrated hbanded hu, hratio,
      BranchLoad.continuousAt_profile_min hrated hbanded]
  · intro u hnorm hlaw
    obtain ⟨hu, hratio⟩ := BranchLoad.ratio_of_norm hrated hbanded.max hnorm
    rwa [BranchLoad.continuousAt_planeCurrent_iff hrated hbanded hu, hratio,
      BranchLoad.continuousAt_profile_max hrated hbanded]

end

/-! ### A load of constant current -/

@[reducible] local instance pumpText : DecimalText ℝ := ⟨fun _ => ""⟩

theorem lit_real (q : ℚ) : (lit q : ℝ) = (q : ℝ) := rfl

theorem validate_default : validateOptions (McPfOptions.default : McPfOptions ℝ) = .ok () := by
  apply if_neg
  simp only [Bool.or_eq_true, not_or, Bool.not_eq_true, Bool.not_eq_false', decide_eq_false_iff_not]
  simp only [McPfOptions.default, lit_real, le, lt]
  norm_num
  exact ⟨⟨⟨⟨⟨⟨⟨rfl, rfl⟩, rfl⟩, rfl⟩, rfl⟩, rfl⟩, rfl⟩, rfl⟩

/-- A single branch of one unit of active power, drawn as a constant current. -/
noncomputable def currentRow : DistLoad ℝ Unit :=
  { name := "pump"
    bus := "a"
    configuration := .wye
    terminalMap := ["1"]
    pNom := [1]
    qNom := [0]
    voltageModel := .constantCurrent [1]
    neutralTerminal := none
    rest := () }

noncomputable def currentLoad : BranchLoad ℝ 1 :=
  let power := fun branch : Fin 1 => (⟨currentRow.pNom.get branch, currentRow.qNom.get branch⟩ : Complex64 ℝ)
  { name := "pump"
    bus := "a"
    branches := 1
    incidence := fun branch => [[(0, 1)]].get branch
    power
    nominalAdmittance := fun branch => BranchLoad.admittanceOf (power branch) 1
    referenceAdmittance := fun branch => BranchLoad.admittanceOf (power branch) 1
    nominalVoltage := fun _ => 1
    model := .constantCurrent }

theorem prepare_currentRow : prepareLoad currentRow (fun _ => .ok 0) none = .ok currentLoad := by
  have hequal : currentRow.pNom.length = currentRow.qNom.length := rfl
  have hsome : currentRow.pNom ≠ [] := List.cons_ne_nil 1 []
  have hfinite : ¬ (currentRow.pNom ++ currentRow.qNom).any (fun value => !Binary64.isFinite value) = true :=
    Bool.false_ne_true
  have hincidence : connectionIncidence currentRow (fun _ => .ok (0 : Fin 1)) =
      .ok [[((0 : Fin 1), (1 : Complex64 ℝ))]] := rfl
  have hvoltage : nominalVoltages currentRow none = .ok fun _ => (1 : ℝ) := by
    have hread : nominalVoltages currentRow none =
        coefficients "pump" "v_nom" [(1 : ℝ)] currentRow.pNom.length := rfl
    have hlength : [(1 : ℝ)].length = 1 ∨ [(1 : ℝ)].length = currentRow.pNom.length := Or.inl rfl
    rw [hread, coefficients, dif_pos hlength]
    rfl
  have hpositive : ¬ (List.finRange currentRow.pNom.length).any (fun _ => le (1 : ℝ) 0) = true := by
    have hle : le (1 : ℝ) 0 = false := decide_eq_false (by norm_num)
    rw [hle]
    exact Bool.false_ne_true
  have hcount : currentRow.pNom.length = [[((0 : Fin 1), (1 : Complex64 ℝ))]].length := rfl
  unfold prepareLoad
  rw [dif_pos hequal, if_neg hsome, if_neg hfinite, hincidence]
  simp only [bind, Except.bind]
  rw [dif_pos hcount, hvoltage]
  dsimp only
  rw [if_neg hpositive]
  rfl

def pumpBranch : Fin currentLoad.branches := (0 : Fin 1)

/-- At nominal voltage the pump draws its nominal power, and below the minimum the transition goes on
continuously to the low voltage. -/
theorem envelopedCurrent_extends_pump :
    ContinuousAt (currentLoad.planeCurrent pumpBranch McPfOptions.default) 1 ∧
      ContinuousAt (currentLoad.planeCurrent pumpBranch McPfOptions.default) (1 / 2) := by
  obtain ⟨hcontinuous, -⟩ :=
    envelopedCurrent_extends (.prepare prepare_currentRow) pumpBranch validate_default
  constructor
  · apply hcontinuous
    · rw [norm_one]
      change (1 : ℝ) ≠ 1 * ((85 / 100 : ℚ) : ℝ)
      norm_num
    · rw [norm_one]
      change (1 : ℝ) ≠ 1 * ((115 / 100 : ℚ) : ℝ)
      norm_num
  · apply hcontinuous
    · rw [norm_div, norm_one, Complex.norm_ofNat]
      change (1 / 2 : ℝ) ≠ 1 * ((85 / 100 : ℚ) : ℝ)
      norm_num
    · rw [norm_div, norm_one, Complex.norm_ofNat]
      change (1 / 2 : ℝ) ≠ 1 * ((115 / 100 : ℚ) : ℝ)
      norm_num

/-- The pump's current jumps at the minimum: below it the current tends to that of constant power. -/
theorem envelopedCurrent_jumps_pump :
    currentLoad.Prepared Unit ∧ validateOptions (McPfOptions.default : McPfOptions ℝ) = .ok () ∧
      ¬ ContinuousAt (currentLoad.planeCurrent pumpBranch McPfOptions.default) (85 / 100) := by
  have hrated : currentLoad.Rated := prepareLoad_rated prepare_currentRow
  have hbanded := banded_of_validateOptions validate_default
  have himpedance : ¬ currentLoad.isImpedance := fun h => by cases h
  have hnorm : ‖(85 / 100 : ℂ)‖ = currentLoad.nominalVoltage pumpBranch *
      (McPfOptions.default : McPfOptions ℝ).vMinPu := by
    rw [norm_div, Complex.norm_ofNat, Complex.norm_ofNat]
    change (85 / 100 : ℝ) = 1 * ((85 / 100 : ℚ) : ℝ)
    norm_num
  obtain ⟨hne, hratio⟩ := BranchLoad.ratio_of_norm hrated hbanded.min hnorm
  refine ⟨.prepare prepare_currentRow, validate_default, ?_⟩
  rw [BranchLoad.continuousAt_planeCurrent_iff hrated hbanded hne, hratio,
    BranchLoad.continuousAt_profile_min hrated hbanded]
  intro h
  obtain h | h := h
  · exact himpedance h
  · have hre : ((85 / 100 : ℚ) : ℝ) * 1 = 1 := congrArg Complex64.re h
    norm_num at hre

end Tellegen.Multiconductor
