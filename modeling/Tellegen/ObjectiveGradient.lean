import Mathlib.Analysis.Calculus.Deriv.Add
import Mathlib.Analysis.Calculus.Deriv.Mul
import Mathlib.Analysis.SpecialFunctions.Sqrt
import Mathlib.Topology.Algebra.Module.ModuleTopology
import Tellegen.Lib.Complex64
import Tellegen.Lib.KeyedSums
import Tellegen.Objective

/-!
The seeds of an evaluated objective as its derivatives, in exact arithmetic. Along a family of
solutions in which every reported quantity and every intervention moves at some rate, the value of the
objective moves at the sum of the seeds and direct terms, each times its rate. A family in which one
quantity moves gives its partial derivative.
-/

open Binary64 KeyedSums Filter Topology
open Std (ExtTreeMap)

namespace Tellegen

section

variable [DecimalText ℝ] {T : Type} {network : BalancedNetwork ℝ T}

/-! ### Moving solutions -/

/-- Solutions of one formulation and interventions, along a real parameter. What is reported at 0 is
reported throughout and moves at `quantityRate`, and interventions move at `decisionRate`. The
relaxation reports the root of the squared magnitude that it solves for. -/
structure SolutionPath (network : BalancedNetwork ℝ T) where
  response : ℝ → SolveResponse ℝ
  interventions : ℝ → Records ℝ
  formulation : Problem
  quantityRate : Operand → ElementKey → ℝ
  decisionRate : String → ℝ
  same_formulation : ∀ t, (response t).formulation = formulation
  quantity : ∀ operand key v, observable (response 0) network operand key = .ok v →
    ∃ q : ℝ → ℝ, (∀ t, observable (response t) network operand key = .ok (q t)) ∧
      HasDerivAt q (quantityRate operand key) 0
  decision : ∀ name u, (interventions 0)[name]? = some u →
    ∃ v : ℝ → ℝ, (∀ t, (interventions t)[name]? = some (v t)) ∧ HasDerivAt v (decisionRate name) 0
  magnitude : formulation = .socwr → ∀ key v,
    observable (response 0) network (.voltage .magnitude) key = .ok v →
      ∃ w : ℝ → ℝ, (∀ t, observable (response t) network (.voltage .squared) key = .ok (w t)) ∧
        ∀ t, observable (response t) network (.voltage .magnitude) key = .ok (√(w t))

namespace SolutionPath

variable (path : SolutionPath network)

/-- The chain rule with the seeds and direct terms of an evaluation. -/
noncomputable def rate (out : ObjectiveEvaluation ℝ) : ℝ :=
  (out.observables.map fun (operand, key, weight) => weight * path.quantityRate operand key).sum +
    (out.direct.toList.map fun (name, weight) => weight * path.decisionRate name).sum

/-- An evaluation along the path whose value moves at 0 at the rate of its seeds. The seeds of the
relaxation are of the quantities it solves for. -/
structure Moving (final : ℝ → ObjectiveEvaluation ℝ) : Prop where
  value : HasDerivAt (fun t => (final t).value) (path.rate (final 0)) 0
  seeds : path.formulation = .socwr → ∀ seed ∈ (final 0).observables, seed.1 ≠ .voltage .magnitude

/-- What succeeds with `out` at 0 succeeds near 0, and moves. -/
def Tracks (run : ℝ → Except String (ObjectiveEvaluation ℝ)) (out : ObjectiveEvaluation ℝ) : Prop :=
  ∃ final : ℝ → ObjectiveEvaluation ℝ, (∀ᶠ t in 𝓝 0, run t = .ok (final t)) ∧ final 0 = out ∧
    path.Moving final

/-! ### Rates -/

theorem directRate_eq (direct : Records ℝ) :
    (direct.toList.map fun (name, weight) => weight * path.decisionRate name).sum =
      gather (fun name => AddMonoidHom.mulRight (path.decisionRate name)) direct := rfl

@[simp] theorem rate_constant (value : ℝ) :
    path.rate (ObjectiveEvaluation.constant value) = 0 := by
  rw [rate, directRate_eq, ObjectiveEvaluation.constant, gather_empty, add_zero]
  rfl

theorem rate_append (out child : ObjectiveEvaluation ℝ) :
    path.rate (out.append child) = path.rate out + path.rate child := by
  rw [rate, rate, rate, directRate_eq, directRate_eq, directRate_eq, ObjectiveEvaluation.append]
  dsimp only
  rw [ObjectiveEvaluation.mergeDirect, ExtTreeMap.foldl_eq_foldl_toList, gather_foldl,
    List.map_append, List.sum_append]
  rw [gather, gather]
  ring

theorem rate_scaleDerivative (out : ObjectiveEvaluation ℝ) (scale : ℝ) :
    path.rate (out.scaleDerivative scale) = path.rate out * scale := by
  have hobservables : ∀ seeds : List (Operand × ElementKey × ℝ),
      ((seeds.map fun (operand, key, weight) => (operand, key, weight * scale)).map
        fun (operand, key, weight) => weight * path.quantityRate operand key).sum =
      (seeds.map fun (operand, key, weight) => weight * path.quantityRate operand key).sum * scale := by
    intro seeds
    induction seeds with
    | nil => simp
    | cons seed rest ih =>
      rw [List.map_cons, List.map_cons, List.sum_cons, ih, List.map_cons, List.sum_cons]
      ring
  have hdirect : ∀ entries : List (String × ℝ),
      ((entries.map fun (name, weight) => (name, weight * scale)).map
        fun (name, weight) => weight * path.decisionRate name).sum =
      (entries.map fun (name, weight) => weight * path.decisionRate name).sum * scale := by
    intro entries
    induction entries with
    | nil => simp
    | cons entry rest ih =>
      rw [List.map_cons, List.map_cons, List.sum_cons, ih, List.map_cons, List.sum_cons]
      ring
  rw [rate, rate, ObjectiveEvaluation.scaleDerivative]
  dsimp only
  rw [ExtTreeMap.toList_map, hobservables, hdirect, add_mul]

theorem finish_eq (out : ObjectiveEvaluation ℝ) :
    out.finish = .ok { out with observables := out.observables.filter fun (_, _, weight) =>
      !(Binary64.eq weight 0) } := by
  have hfinite : out.finite = true := by
    simp [ObjectiveEvaluation.finite, Binary64.isFinite]
  rw [ObjectiveEvaluation.finish, hfinite]
  rfl

theorem rate_finish (out : ObjectiveEvaluation ℝ) :
    path.rate { out with observables := out.observables.filter fun (_, _, weight) =>
      !(Binary64.eq weight 0) } = path.rate out := by
  rw [rate, rate]
  congr 1
  dsimp only
  induction out.observables with
  | nil => rfl
  | cons seed rest ih =>
    obtain ⟨operand, key, weight⟩ := seed
    rw [List.filter_cons]
    split
    case isTrue => rw [List.map_cons, List.sum_cons, ih, List.map_cons, List.sum_cons]
    case isFalse hzero =>
      have hweight : weight = 0 := by
        rw [Bool.not_eq_true, Bool.not_eq_false'] at hzero
        exact of_decide_eq_true hzero
      rw [ih, List.map_cons, List.sum_cons, hweight]
      ring

/-! ### Steps of an evaluation -/

variable {path}

theorem tracks_finish {final : ℝ → ObjectiveEvaluation ℝ} (h : path.Moving final)
    {out : ObjectiveEvaluation ℝ} (hout : (final 0).finish = .ok out) :
    path.Tracks (fun t => (final t).finish) out := by
  rw [finish_eq] at hout
  cases hout
  refine ⟨fun t => { final t with observables := (final t).observables.filter fun (_, _, weight) =>
    !(Binary64.eq weight 0) }, ?_, rfl, ?_, ?_⟩
  · exact Eventually.of_forall fun t => finish_eq (final t)
  · rw [rate_finish]
    exact h.value
  · intro hformulation seed hseed
    exact h.seeds hformulation seed (List.mem_of_mem_filter hseed)

theorem tracks_bind {run : ℝ → Except String (ObjectiveEvaluation ℝ)}
    {next : ℝ → ObjectiveEvaluation ℝ → Except String (ObjectiveEvaluation ℝ)}
    {out : ObjectiveEvaluation ℝ}
    (hrun : ∀ mid, run 0 = .ok mid → path.Tracks run mid)
    (hnext : ∀ final, path.Moving final → next 0 (final 0) = .ok out →
      path.Tracks (fun t => next t (final t)) out)
    (hout : (run 0 >>= next 0) = .ok out) : path.Tracks (fun t => run t >>= next t) out := by
  rw [Outcome.bind_eq_ok] at hout
  obtain ⟨mid, hmid, hout⟩ := hout
  obtain ⟨first, hfirst, hstart, hmoving⟩ := hrun mid hmid
  rw [← hstart] at hout
  obtain ⟨final, hfinal, hend, hlast⟩ := hnext first hmoving hout
  refine ⟨final, ?_, hend, hlast⟩
  filter_upwards [hfirst, hfinal] with t hfirst hfinal
  rw [hfirst, Outcome.ok_bind]
  exact hfinal

/-- The root of the squared magnitude moves at half the rate of the square, over the root. -/
theorem magnitudeRate_eq (hformulation : path.formulation = .socwr) {key : ElementKey} {v : ℝ}
    (hv : observable (path.response 0) network (.voltage .magnitude) key = .ok v) (hpos : 0 < v) :
    path.quantityRate (.voltage .magnitude) key =
      path.quantityRate (.voltage .squared) key / (2 * v) := by
  obtain ⟨w, hw, hroot⟩ := path.magnitude hformulation key v hv
  obtain ⟨q, hq, hqrate⟩ := path.quantity _ key v hv
  obtain ⟨s, hs, hsrate⟩ := path.quantity _ key (w 0) (hw 0)
  have hqw : q = fun t => √(w t) := by
    funext t
    exact Except.ok.inj ((hq t).symm.trans (hroot t))
  have hsw : s = w := by
    funext t
    exact Except.ok.inj ((hs t).symm.trans (hw t))
  have hv0 : √(w 0) = v := Except.ok.inj ((hroot 0).symm.trans hv)
  have hne : w 0 ≠ 0 := by
    intro hzero
    rw [hzero, Real.sqrt_zero] at hv0
    exact hpos.ne hv0
  rw [hsw] at hsrate
  rw [hqw] at hqrate
  have hsqrt := hsrate.sqrt hne
  rw [hv0] at hsqrt
  exact hqrate.unique hsqrt

theorem rate_observe (out : ObjectiveEvaluation ℝ) (value : ℝ) (operand : Operand) (key : ElementKey)
    (weight : ℝ) :
    path.rate { out with value := value, observables := out.observables ++ [(operand, key, weight)] } =
      path.rate out + weight * path.quantityRate operand key := by
  rw [rate, rate]
  dsimp only
  rw [List.map_append, List.sum_append, List.map_singleton, List.sum_singleton]
  ring

theorem tracks_weighObservable {operand : Operand} {term : ObservableWeight ℝ}
    {acc : ℝ → ObjectiveEvaluation ℝ} (hacc : path.Moving acc) {out : ObjectiveEvaluation ℝ}
    (hout : weighObservable (path.response 0) network operand (acc 0) term = .ok out) :
    path.Tracks (fun t => weighObservable (path.response t) network operand (acc t) term) out := by
  rw [weighObservable, Outcome.bind_eq_ok] at hout
  obtain ⟨v, hv, hout⟩ := hout
  obtain ⟨q, hq, hrate⟩ := path.quantity operand term.element v hv
  have hq0 : q 0 = v := Except.ok.inj ((hq 0).symm.trans hv)
  have hvalue : HasDerivAt (fun t => (acc t).value + term.weight * q t)
      (path.rate (acc 0) + term.weight * path.quantityRate operand term.element) 0 :=
    HasDerivAt.add hacc.value (HasDerivAt.const_mul term.weight hrate)
  have hrun : ∀ t, weighObservable (path.response t) network operand (acc t) term =
      if operand = .voltage .magnitude ∧ path.formulation = .socwr then
        if le (q t) 0 then .error "voltage magnitude derivative is singular at zero squared voltage"
        else .ok { acc t with value := (acc t).value + term.weight * q t
                              observables := (acc t).observables ++
                                [(.voltage .squared, term.element, term.weight / (lit 2 * q t))] }
      else .ok { acc t with value := (acc t).value + term.weight * q t
                            observables := (acc t).observables ++
                              [(operand, term.element, term.weight)] } := by
    intro t
    rw [weighObservable, hq t, Outcome.ok_bind, path.same_formulation t]
  rw [path.same_formulation 0, ← hq0] at hout
  by_cases hsocwr : operand = .voltage .magnitude ∧ path.formulation = .socwr
  · rw [if_pos hsocwr] at hout
    split at hout
    case isTrue => cases hout
    case isFalse hpos =>
      cases hout
      have hpos : 0 < q 0 := not_le.mp fun h => hpos (decide_eq_true h)
      obtain ⟨hoperand, hformulation⟩ := hsocwr
      refine ⟨fun t => { acc t with value := (acc t).value + term.weight * q t
                                    observables := (acc t).observables ++
                                      [(.voltage .squared, term.element, term.weight / (lit 2 * q t))] },
        ?_, rfl, ?_, ?_⟩
      · filter_upwards [hrate.continuousAt.eventually (lt_mem_nhds hpos)] with t ht
        have hnot : ¬ le (q t) 0 = true := fun hle => absurd (of_decide_eq_true hle) (not_le.mpr ht)
        exact ((hrun t).trans (if_pos ⟨hoperand, hformulation⟩)).trans (if_neg hnot)
      · have hmagnitude : path.quantityRate operand term.element =
            path.quantityRate (.voltage .squared) term.element / (2 * q 0) := by
          rw [hoperand]
          exact magnitudeRate_eq hformulation (by rw [← hoperand]; exact hq 0) hpos
        have hweight : term.weight / (lit 2 * q 0) * path.quantityRate (.voltage .squared) term.element =
            term.weight * path.quantityRate operand term.element := by
          have htwo : (lit 2 : ℝ) = 2 := Rat.cast_ofNat 2
          rw [hmagnitude, htwo]
          ring
        rw [rate_observe, hweight]
        exact hvalue
      · intro hformulation seed hseed
        rcases List.mem_append.mp hseed with hold | hnew
        · exact hacc.seeds hformulation seed hold
        · rw [List.mem_singleton.mp hnew]
          exact fun h => nomatch h
  · rw [if_neg hsocwr] at hout
    cases hout
    refine ⟨fun t => { acc t with value := (acc t).value + term.weight * q t
                                  observables := (acc t).observables ++
                                    [(operand, term.element, term.weight)] }, ?_, rfl, ?_, ?_⟩
    · exact Eventually.of_forall fun t => (hrun t).trans (if_neg hsocwr)
    · rw [rate_observe]
      exact hvalue
    · intro hformulation seed hseed
      rcases List.mem_append.mp hseed with hold | hnew
      · exact hacc.seeds hformulation seed hold
      · rw [List.mem_singleton.mp hnew]
        exact fun h => hsocwr ⟨h, hformulation⟩

theorem tracks_weighObservables {operand : Operand} {weights : List (ObservableWeight ℝ)}
    {acc : ℝ → ObjectiveEvaluation ℝ} (hacc : path.Moving acc) {out : ObjectiveEvaluation ℝ}
    (hout : weights.foldlM (weighObservable (path.response 0) network operand) (acc 0) = .ok out) :
    path.Tracks (fun t => weights.foldlM (weighObservable (path.response t) network operand) (acc t))
      out := by
  induction weights generalizing acc with
  | nil =>
    cases hout
    exact ⟨acc, Eventually.of_forall fun t => rfl, rfl, hacc⟩
  | cons term rest ih =>
    simp only [List.foldlM_cons] at hout ⊢
    exact tracks_bind (fun mid hmid => tracks_weighObservable hacc hmid)
      (fun final hfinal hrest => ih hfinal hrest) hout

theorem moving_constant (value : ℝ) : path.Moving fun _ => ObjectiveEvaluation.constant value where
  value := by
    rw [rate_constant]
    exact hasDerivAt_const 0 value
  seeds := fun _ _ hseed => absurd hseed List.not_mem_nil

theorem moving_append {acc child : ℝ → ObjectiveEvaluation ℝ} (hacc : path.Moving acc)
    (hchild : path.Moving child) : path.Moving fun t => (acc t).append (child t) where
  value := by
    rw [rate_append]
    exact HasDerivAt.add hacc.value hchild.value
  seeds := by
    intro hformulation seed hseed
    rcases List.mem_append.mp hseed with hold | hnew
    · exact hacc.seeds hformulation seed hold
    · exact hchild.seeds hformulation seed hnew

theorem moving_scaleDerivative {child : ℝ → ObjectiveEvaluation ℝ} (hchild : path.Moving child)
    {value scale : ℝ → ℝ}
    (hvalue : HasDerivAt value (path.rate (child 0) * scale 0) 0) :
    path.Moving fun t => { child t with value := value t }.scaleDerivative (scale t) where
  value := by
    have hrate : path.rate ({ child 0 with value := value 0 }.scaleDerivative (scale 0)) =
        path.rate (child 0) * scale 0 := rate_scaleDerivative path { child 0 with value := value 0 } (scale 0)
    rw [hrate]
    exact hvalue
  seeds := by
    intro hformulation seed hseed
    obtain ⟨old, hold, rfl⟩ := List.mem_map.mp hseed
    exact hchild.seeds hformulation old hold

theorem rate_penalty (value : ℝ) (decision : String) (weight : ℝ) :
    path.rate { value := value, observables := [], direct := (∅ : Records ℝ).insert decision weight } =
      weight * path.decisionRate decision := by
  have hinsert := gather_insert (fun name => AddMonoidHom.mulRight (path.decisionRate name))
    (∅ : Records ℝ) decision weight
  rw [ExtTreeMap.getD_empty, zero_add, gather_empty, zero_add] at hinsert
  rw [rate, directRate_eq]
  dsimp only
  rw [hinsert, List.map_nil, List.sum_nil, zero_add]
  rfl

theorem moving_penalty {decision : String} (linear quadratic : ℝ) {v : ℝ → ℝ}
    (hv : HasDerivAt v (path.decisionRate decision) 0) :
    path.Moving fun t =>
      { value := linear * v t + quadratic * v t * v t
        observables := []
        direct := (∅ : Records ℝ).insert decision (linear + lit 2 * quadratic * v t) } where
  value := by
    have htwo : (lit 2 : ℝ) = 2 := Rat.cast_ofNat 2
    have hlinear : HasDerivAt (fun t => linear * v t) (linear * path.decisionRate decision) 0 :=
      HasDerivAt.const_mul linear hv
    have hquadratic : HasDerivAt (fun t => quadratic * v t * v t)
        (quadratic * path.decisionRate decision * v 0 +
          quadratic * v 0 * path.decisionRate decision) 0 :=
      HasDerivAt.mul (HasDerivAt.const_mul quadratic hv) hv
    refine HasDerivAt.congr_deriv (HasDerivAt.add hlinear hquadratic) ?_
    rw [rate_penalty, htwo]
    ring
  seeds := fun _ _ hseed => absurd hseed List.not_mem_nil

/-! ### Objectives -/

mutual

/-- An objective that is evaluated at 0 is evaluated near 0, and moves at the rate of its seeds. -/
theorem tracks_evaluate : ∀ (objective : StudyObjective ℝ) (out : ObjectiveEvaluation ℝ),
    objective.evaluate (path.response 0) network (path.interventions 0) = .ok out →
      path.Tracks (fun t => objective.evaluate (path.response t) network (path.interventions t)) out
  | .weightedObservable operand weights, out, hout => by
      simp only [StudyObjective.evaluate] at hout ⊢
      exact tracks_bind (fun mid hmid => tracks_weighObservables (moving_constant 0) hmid)
        (fun final hfinal hend => tracks_finish hfinal hend) hout
  | .sum terms, out, hout => by
      simp only [StudyObjective.evaluate] at hout ⊢
      exact tracks_bind (fun mid hmid => tracks_evaluateTerms terms _ (moving_constant 0) mid hmid)
        (fun final hfinal hend => tracks_finish hfinal hend) hout
  | .scale factor expression, out, hout => by
      simp only [StudyObjective.evaluate] at hout ⊢
      refine tracks_bind (fun mid hmid => tracks_evaluate expression mid hmid) ?_ hout
      intro final hfinal hend
      refine tracks_finish (moving_scaleDerivative hfinal ?_) hend
      exact HasDerivAt.mul_const hfinal.value factor
  | .squaredTarget target expression, out, hout => by
      simp only [StudyObjective.evaluate] at hout ⊢
      refine tracks_bind (fun mid hmid => tracks_evaluate expression mid hmid) ?_ hout
      intro final hfinal hend
      refine tracks_finish (moving_scaleDerivative hfinal ?_) hend
      have hresidual : HasDerivAt (fun t => (final t).value - target) (path.rate (final 0)) 0 :=
        HasDerivAt.sub_const target hfinal.value
      have htwo : (lit 2 : ℝ) = 2 := Rat.cast_ofNat 2
      have hsquare := HasDerivAt.mul hresidual hresidual
      refine HasDerivAt.congr_deriv hsquare ?_
      rw [htwo]
      ring
  | .interventionPenalty decision linear quadratic, out, hout => by
      simp only [StudyObjective.evaluate] at hout ⊢
      cases hu : (path.interventions 0)[decision]? with
      | none =>
        rw [hu] at hout
        cases hout
      | some u =>
        obtain ⟨v, hv, hrate⟩ := path.decision decision u hu
        simp only [hv] at hout ⊢
        exact tracks_finish (moving_penalty linear quadratic hrate) hout

theorem tracks_evaluateTerms : ∀ (terms : List (StudyObjective ℝ)) (acc : ℝ → ObjectiveEvaluation ℝ),
    path.Moving acc → ∀ out : ObjectiveEvaluation ℝ,
    StudyObjective.evaluateTerms terms (path.response 0) network (path.interventions 0) (acc 0) =
      .ok out →
    path.Tracks (fun t => StudyObjective.evaluateTerms terms (path.response t) network
      (path.interventions t) (acc t)) out
  | [], acc, hacc, out, hout => by
      simp only [StudyObjective.evaluateTerms] at hout ⊢
      cases hout
      exact ⟨acc, Eventually.of_forall fun t => rfl, rfl, hacc⟩
  | term :: rest, acc, hacc, out, hout => by
      simp only [StudyObjective.evaluateTerms] at hout ⊢
      refine tracks_bind (fun mid hmid => tracks_evaluate term mid hmid) ?_ hout
      intro child hchild hend
      exact tracks_evaluateTerms rest _ (moving_append hacc hchild) out hend

end

/-! ### Gradients -/

def valueOf : Except String (ObjectiveEvaluation ℝ) → ℝ
  | .ok out => out.value
  | .error _ => 0

/-- What the seeds say of one quantity, under every key that names its element. -/
noncomputable def seedOf (out : ObjectiveEvaluation ℝ) (operand : Operand) (names : ElementKey → Bool) : ℝ :=
  (out.observables.map fun (seed, key, weight) =>
    if seed = operand ∧ names key = true then weight else 0).sum

variable (path)

/-- One solved quantity moves, at rate 1. The magnitude of the relaxation is not solved for, it moves
with the square. -/
structure MovesQuantity (operand : Operand) (names : ElementKey → Bool) : Prop where
  quantity : ∀ other key, ¬ (path.formulation = .socwr ∧ other = .voltage .magnitude) →
    path.quantityRate other key = if other = operand ∧ names key = true then 1 else 0
  decision : ∀ name, path.decisionRate name = 0

structure MovesDecision (decision : String) : Prop where
  quantity : ∀ operand key, path.quantityRate operand key = 0
  decision : ∀ name, path.decisionRate name = if name = decision then 1 else 0

variable {path}

theorem rate_movesQuantity {operand : Operand} {names : ElementKey → Bool}
    (hmoves : path.MovesQuantity operand names) {out : ObjectiveEvaluation ℝ}
    (hseeds : path.formulation = .socwr → ∀ seed ∈ out.observables, seed.1 ≠ .voltage .magnitude) :
    path.rate out = seedOf out operand names := by
  have hdirect : (out.direct.toList.map fun (name, weight) => weight * path.decisionRate name).sum = 0 := by
    apply List.sum_eq_zero
    intro x hx
    obtain ⟨⟨name, weight⟩, _, rfl⟩ := List.mem_map.mp hx
    change weight * path.decisionRate name = 0
    rw [hmoves.decision name, mul_zero]
  rw [rate, hdirect, add_zero, seedOf]
  congr 1
  apply List.map_congr_left
  rintro ⟨seed, key, weight⟩ hseed
  have hsolved : ¬ (path.formulation = .socwr ∧ seed = .voltage .magnitude) := by
    rintro ⟨hformulation, hmagnitude⟩
    exact hseeds hformulation _ hseed hmagnitude
  change weight * path.quantityRate seed key = if seed = operand ∧ names key = true then weight else 0
  rw [hmoves.quantity seed key hsolved, mul_ite, mul_one, mul_zero]

theorem rate_movesDecision {decision : String} (hmoves : path.MovesDecision decision)
    (out : ObjectiveEvaluation ℝ) : path.rate out = out.direct.getD decision 0 := by
  have hquantities : (out.observables.map fun (operand, key, weight) =>
      weight * path.quantityRate operand key).sum = 0 := by
    apply List.sum_eq_zero
    intro x hx
    obtain ⟨⟨operand, key, weight⟩, _, rfl⟩ := List.mem_map.mp hx
    change weight * path.quantityRate operand key = 0
    rw [hmoves.quantity operand key, mul_zero]
  rw [rate, hquantities, zero_add, ← total_key, total_eq_gather, gather]
  congr 1
  apply List.map_congr_left
  rintro ⟨name, weight⟩ _
  change weight * path.decisionRate name =
    (if decide (name = decision) = true then AddMonoidHom.id ℝ else 0) weight
  rw [hmoves.decision name]
  by_cases hname : name = decision
  · rw [if_pos hname, if_pos (decide_eq_true hname), mul_one, AddMonoidHom.id_apply]
  · rw [if_neg hname, if_neg fun h => hname (of_decide_eq_true h), mul_zero, AddMonoidHom.zero_apply]

/-- The seeds and direct terms of an evaluation are its derivative along every moving solution. So the
seeds of a quantity are the partial derivative in that quantity, and a direct term the one in its
decision. -/
theorem objective_gradient (path : SolutionPath network) (objective : StudyObjective ℝ)
    (out : ObjectiveEvaluation ℝ)
    (hout : objective.evaluate (path.response 0) network (path.interventions 0) = .ok out) :
    let value := fun t =>
      valueOf (objective.evaluate (path.response t) network (path.interventions t))
    (∀ᶠ t in 𝓝 0, ∃ near,
      objective.evaluate (path.response t) network (path.interventions t) = .ok near) ∧
    HasDerivAt value (path.rate out) 0 ∧
    (∀ operand names, path.MovesQuantity operand names →
      HasDerivAt value (seedOf out operand names) 0) ∧
    (∀ decision, path.MovesDecision decision →
      HasDerivAt value (out.direct.getD decision 0) 0) := by
  intro value
  obtain ⟨final, hfinal, hend, hmoving⟩ := tracks_evaluate objective out hout
  have hvalue : HasDerivAt value (path.rate out) 0 := by
    rw [← hend]
    apply HasDerivAt.congr_of_eventuallyEq hmoving.value
    filter_upwards [hfinal] with t ht
    change valueOf _ = _
    rw [ht]
    rfl
  have hseeds := hmoving.seeds
  rw [hend] at hseeds
  refine ⟨?_, hvalue, ?_, ?_⟩
  · filter_upwards [hfinal] with t ht
    exact ⟨final t, ht⟩
  · intro operand names hmoves
    rw [← rate_movesQuantity hmoves hseeds]
    exact hvalue
  · intro decision hmoves
    rw [← rate_movesDecision hmoves]
    exact hvalue

end SolutionPath

end

namespace SolutionPath

section Sample

@[reducible] local instance priceText : DecimalText ℝ := ⟨fun _ => ""⟩

def priceNetwork : BalancedNetwork ℝ Unit where
  buses := []
  loads := []
  branches := []
  generators := []
  baseMva := 100
  isNormalized := false
  tables := ()

/-- The price of bus 1 rises from 2. -/
noncomputable def risingPrice (t : ℝ) : SolveResponse ℝ where
  formulation := .dcOpf
  lmp := some [⟨1, 2 + t⟩]
  lmpQ := none
  vm := none
  va := none
  w := none
  wr := none
  wi := none
  flows := none
  dispatch := none

theorem observable_risingPrice (t : ℝ) (operand : Operand) (key : ElementKey) :
    observable (risingPrice t) priceNetwork operand key =
      (sourceElementId priceNetwork operand.axis key).bind fun id =>
        if operand = .price .active ∧ 1 = id then .ok (2 + t)
        else .error (operand.debug ++ " is unavailable for " ++ key.display ++
          " in this exact solution") := by
  have hfinite : ∀ x : ℝ, Binary64.isFinite x = true := fun _ => rfl
  rw [observable]
  cases sourceElementId priceNetwork operand.axis key with
  | error message => rfl
  | ok id =>
    rw [Outcome.ok_bind, Except.bind]
    by_cases hid : 1 = id
    · rcases operand with (_ | _) | (_ | _) | ⟨_ | _, _ | _⟩ | (_ | _ | _ | _ | _)
      all_goals simp [SolveResponse.value, risingPrice, hid, hfinite, Option.filter]
    · rcases operand with (_ | _) | (_ | _) | ⟨_ | _, _ | _⟩ | (_ | _ | _ | _ | _)
      all_goals simp [SolveResponse.value, risingPrice, hid, Option.filter]

noncomputable def pricePath : SolutionPath priceNetwork where
  response := risingPrice
  interventions := fun _ => ∅
  formulation := .dcOpf
  quantityRate := fun _ _ => 1
  decisionRate := fun _ => 0
  same_formulation := fun _ => rfl
  quantity := by
    intro operand key v hv
    refine ⟨fun t => 2 + t, ?_, HasDerivAt.const_add 2 (hasDerivAt_id 0)⟩
    intro t
    rw [observable_risingPrice] at hv ⊢
    cases hid : sourceElementId priceNetwork operand.axis key with
    | error message =>
      rw [hid] at hv
      cases hv
    | ok id =>
      rw [hid, Except.bind] at hv
      rw [Except.bind]
      split at hv
      case isTrue h => rw [if_pos h]
      case isFalse => cases hv
  decision := by
    intro name u hu
    rw [ExtTreeMap.getElem?_empty] at hu
    cases hu
  magnitude := fun h => nomatch h

noncomputable def priceGoal : StudyObjective ℝ :=
  .squaredTarget 3 (.weightedObservable (.price .active) [⟨.id 1, 4⟩])

theorem objective_gradient_price : ∃ out : ObjectiveEvaluation ℝ,
    priceGoal.evaluate (risingPrice 0) priceNetwork ∅ = .ok out ∧
    HasDerivAt (fun t => valueOf (priceGoal.evaluate (risingPrice t) priceNetwork ∅))
      (pricePath.rate out) 0 := by
  have hprice : observable (risingPrice 0) priceNetwork (.price .active) (.id 1) = .ok (2 + 0) := by
    rw [observable_risingPrice]
    rfl
  have hgoal : ∃ out, priceGoal.evaluate (risingPrice 0) priceNetwork ∅ = .ok out := by
    simp only [priceGoal, StudyObjective.evaluate, List.foldlM_cons, List.foldlM_nil, weighObservable,
      hprice, Outcome.ok_bind]
    simp [finish_eq, Outcome.ok_bind]
  obtain ⟨out, hout⟩ := hgoal
  exact ⟨out, hout, (objective_gradient pricePath priceGoal out hout).2.1⟩

end Sample

end SolutionPath

end Tellegen
