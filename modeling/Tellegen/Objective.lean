import Tellegen.NetworkEdit

/-!
Goals over an exact operating point, and the interventions that may be used to
reach them. An objective is an expression tree; its evaluation carries the seed
of the chain rule along with the value.
-/

open Binary64 Std

namespace Tellegen

variable {F T : Type} [Binary64 F]

structure ObservableWeight (F : Type) where
  element : ElementKey
  weight : F
  deriving DecidableEq

inductive StudyObjective (F : Type) where
  | weightedObservable (operand : Operand) (weights : List (ObservableWeight F))
  | sum (terms : List (StudyObjective F))
  | scale (factor : F) (expression : StudyObjective F)
  | squaredTarget (target : F) (expression : StudyObjective F)
  | interventionPenalty (decision : String) (linear : F) (quadratic : F)

inductive Intervention where
  | branchRating | activeDemand
  deriving DecidableEq

def Intervention.parameter : Intervention → Parameter
  | .branchRating => .lineLimit
  | .activeDemand => .demand .active

def Intervention.units : Intervention → Problem → String
  | .branchRating, .socwr => "MVA"
  | _, _ => "MW"

structure DecisionVariable (F : Type) where
  id : String
  element : ElementKey
  intervention : Intervention
  lower : F
  upper : F
  increment : F
  budgetWeight : F
  deriving DecidableEq

inductive DemandConstraint (F : Type) where
  | placement (increaseMw : F)
  | redistribution
  deriving DecidableEq

structure DecisionSpace (F : Type) where
  vars : List (DecisionVariable F)
  totalBudget : F
  maxChangedElements : ℕ
  demand : Option (DemandConstraint F)
  deriving DecidableEq

/-! ### Solve results -/

structure BusScalar (F : Type) where
  bus : ℕ
  value : F
  deriving DecidableEq

structure BranchScalar (F : Type) where
  branch : ℕ
  value : F
  deriving DecidableEq

structure BranchFlow (F : Type) where
  branch : ℕ
  pf : F
  qf : Option F
  pt : Option F
  qt : Option F
  deriving DecidableEq

structure GenDispatch (F : Type) where
  gen : ℕ
  pg : F
  qg : Option F
  deriving DecidableEq

structure SolveResponse (F : Type) where
  formulation : Problem
  lmp : Option (List (BusScalar F))
  lmpQ : Option (List (BusScalar F))
  vm : Option (List (BusScalar F))
  va : Option (List (BusScalar F))
  w : Option (List (BusScalar F))
  wr : Option (List (BranchScalar F))
  wi : Option (List (BranchScalar F))
  flows : Option (List (BranchFlow F))
  dispatch : Option (List (GenDispatch F))
  deriving DecidableEq

def SolveResponse.value (response : SolveResponse F) (operand : Operand) (id : ℕ) : Option F :=
  let bus (values : Option (List (BusScalar F))) : Option F :=
    values.bind fun v => (v.find? (·.bus = id)).map (·.value)
  let branch (values : Option (List (BranchScalar F))) : Option F :=
    values.bind fun v => (v.find? (·.branch = id)).map (·.value)
  match operand with
  | .price .active => bus response.lmp
  | .price .reactive => bus response.lmpQ
  | .voltage .magnitude => bus response.vm
  | .voltage .angle => bus response.va
  | .voltage .squared => bus response.w
  | .voltage .productReal => branch response.wr
  | .voltage .productImag => branch response.wi
  | .dispatch power =>
    (response.dispatch.bind fun v => v.find? (·.gen = id)).bind fun g =>
      match power with
      | .active => some g.pg
      | .reactive => g.qg
  | .flow power end_ =>
    (response.flows.bind fun v => v.find? (·.branch = id)).bind fun b =>
      match power, end_ with
      | .active, .from => some b.pf
      | .active, .to =>
        b.pt.or (if response.formulation = .dcOpf then some (-b.pf) else none)
      | .reactive, .from => b.qf
      | .reactive, .to => b.qt

def observable (response : SolveResponse F) (network : BalancedNetwork F T)
    (operand : Operand) (key : ElementKey) : Except String F := do
  let id ← sourceElementId network operand.axis key
  match (response.value operand id).filter (isFinite ·) with
  | some value => .ok value
  | none =>
    .error (operand.debug ++ " is unavailable for " ++ key.display ++ " in this exact solution")

/-! ### Objectives -/

/-- Scalar value and chain-rule seed. The map of direct derivatives is kept in
decision order. -/
structure ObjectiveEvaluation (F : Type) where
  value : F
  observables : List (Operand × ElementKey × F)
  direct : Records F

namespace ObjectiveEvaluation

def constant (value : F) : ObjectiveEvaluation F := { value, observables := [], direct := ∅ }

def scaleDerivative (out : ObjectiveEvaluation F) (scale : F) : ObjectiveEvaluation F :=
  { out with
    observables := out.observables.map fun (operand, key, weight) => (operand, key, weight * scale)
    direct := out.direct.map fun _ value => value * scale }

def finite (out : ObjectiveEvaluation F) : Bool :=
  isFinite out.value && out.observables.all (fun (_, _, weight) => isFinite weight) &&
    out.direct.toList.all (fun entry => isFinite entry.2)

/-- `*direct.entry(key).or_default() += value` for each entry. -/
def mergeDirect (direct added : Records F) : Records F :=
  added.foldl (fun merged key value => merged.insert key (merged.getD key 0 + value)) direct

def append (out child : ObjectiveEvaluation F) : ObjectiveEvaluation F :=
  { value := out.value + child.value
    observables := out.observables ++ child.observables
    direct := mergeDirect out.direct child.direct }

/-- The check and the clean-up that end every evaluation. -/
def finish (out : ObjectiveEvaluation F) : Except String (ObjectiveEvaluation F) :=
  if !out.finite then .error "objective or derivative overflowed; adjust weights and units"
  else .ok { out with observables := out.observables.filter fun (_, _, weight) => !eq weight 0 }

end ObjectiveEvaluation

def weighObservable (response : SolveResponse F) (network : BalancedNetwork F T)
    (operand : Operand) (out : ObjectiveEvaluation F) (term : ObservableWeight F) :
    Except String (ObjectiveEvaluation F) := do
  let value ← observable response network operand term.element
  let total := out.value + term.weight * value
  -- The relaxation is solved for the squared magnitude, so its seed is the
  -- derivative of a square root.
  if operand = .voltage .magnitude ∧ response.formulation = .socwr then
    if le value 0 then
      .error "voltage magnitude derivative is singular at zero squared voltage"
    else
      let weight := term.weight / (lit 2 * value)
      .ok { out with value := total
                     observables := out.observables ++ [(.voltage .squared, term.element, weight)] }
  else
    .ok { out with value := total
                   observables := out.observables ++ [(operand, term.element, term.weight)] }

namespace StudyObjective

/-! `validate` walks the tree with a running count of terms. -/

mutual

def walk (ids : List String) (expr : StudyObjective F) (depth count : ℕ) : Except String ℕ :=
  let count := count + 1
  if depth > 16 ∨ count > 65536 then .error "objective exceeds 16 levels or 65536 terms"
  else match expr with
    | .weightedObservable _ weights =>
      let count := count + weights.length
      if weights = [] ∨ count > 65536 ∨ weights.any (!isFinite ·.weight) then
        .error "observable weights must be nonempty, finite and bounded"
      else .ok count
    | .sum terms =>
      if terms.isEmpty then .error "objective sum requires a term"
      else walkTerms ids terms (depth + 1) count
    | .scale factor expression =>
      if !isFinite factor then .error "objective scale must be finite"
      else walk ids expression (depth + 1) count
    | .squaredTarget target expression =>
      if !isFinite target then .error "objective target must be finite"
      else walk ids expression (depth + 1) count
    | .interventionPenalty decision linear quadratic =>
      if decision ∉ ids ∨ !isFinite linear ∨ !isFinite quadratic then
        .error "intervention penalty requires a declared decision and finite coefficients"
      else .ok count

def walkTerms (ids : List String) (terms : List (StudyObjective F)) (depth count : ℕ) :
    Except String ℕ :=
  match terms with
  | [] => .ok count
  | term :: rest =>
    match walk ids term depth count with
    | .ok count => walkTerms ids rest depth count
    | .error message => .error message

end

def validate (objective : StudyObjective F) (space : DecisionSpace F) : Except String Unit :=
  match walk (space.vars.map (·.id)) objective 0 0 with
  | .ok _ => .ok ()
  | .error message => .error message

mutual

def evaluate (objective : StudyObjective F) (response : SolveResponse F)
    (network : BalancedNetwork F T) (interventions : Records F) :
    Except String (ObjectiveEvaluation F) :=
  match objective with
  | .weightedObservable operand weights => do
      let out ← weights.foldlM (weighObservable response network operand) (.constant 0)
      out.finish
  | .sum terms => do
      let out ← evaluateTerms terms response network interventions (.constant 0)
      out.finish
  | .scale factor expression => do
      let child ← evaluate expression response network interventions
      ({ child with value := child.value * factor }.scaleDerivative factor).finish
  | .squaredTarget target expression => do
      let child ← evaluate expression response network interventions
      let residual := child.value - target
      ({ child with value := residual * residual }.scaleDerivative (lit 2 * residual)).finish
  | .interventionPenalty decision linear quadratic =>
    match interventions[decision]? with
    | none => .error ("missing intervention " ++ decision)
    | some u =>
      ({ value := linear * u + quadratic * u * u
         observables := []
         direct := (∅ : Records F).insert decision (linear + lit 2 * quadratic * u) } :
        ObjectiveEvaluation F).finish

def evaluateTerms (terms : List (StudyObjective F)) (response : SolveResponse F)
    (network : BalancedNetwork F T) (interventions : Records F) (out : ObjectiveEvaluation F) :
    Except String (ObjectiveEvaluation F) :=
  match terms with
  | [] => .ok out
  | term :: rest => do
      let child ← evaluate term response network interventions
      evaluateTerms rest response network interventions (out.append child)

end

theorem evaluate_isFinite (objective : StudyObjective F) (response : SolveResponse F)
    (network : BalancedNetwork F T) (interventions : Records F) (out : ObjectiveEvaluation F)
    (h : objective.evaluate response network interventions = .ok out) :
    isFinite out.value := by
  have hfinish (raw : ObjectiveEvaluation F) (hraw : raw.finish = .ok out) :
      isFinite out.value := by
    unfold ObjectiveEvaluation.finish at hraw
    split at hraw
    · cases hraw
    · next hfinite =>
        cases hraw
        simp only [ObjectiveEvaluation.finite, Bool.not_eq_true', Bool.not_eq_false,
          Bool.and_eq_true] at hfinite
        exact hfinite.1.1
  cases objective with
  | weightedObservable operand weights =>
    rw [evaluate] at h
    cases hraw : weights.foldlM (weighObservable response network operand)
        (.constant 0 : ObjectiveEvaluation F) with
    | error message => simp [hraw, bind, Except.bind] at h
    | ok raw => exact hfinish raw (by simpa [hraw, bind, Except.bind] using h)
  | sum terms =>
    rw [evaluate] at h
    cases hraw : evaluateTerms terms response network interventions (.constant 0) with
    | error message => simp [hraw, bind, Except.bind] at h
    | ok raw => exact hfinish raw (by simpa [hraw, bind, Except.bind] using h)
  | scale factor expression =>
    rw [evaluate] at h
    cases hraw : evaluate expression response network interventions with
    | error message => simp [hraw, bind, Except.bind] at h
    | ok raw => exact hfinish _ (by simpa [hraw, bind, Except.bind] using h)
  | squaredTarget target expression =>
    rw [evaluate] at h
    cases hraw : evaluate expression response network interventions with
    | error message => simp [hraw, bind, Except.bind] at h
    | ok raw => exact hfinish _ (by simpa [hraw, bind, Except.bind] using h)
  | interventionPenalty decision linear quadratic =>
    rw [evaluate] at h
    split at h
    · cases h
    · exact hfinish _ h

end StudyObjective

/-! ### Decision spaces -/

namespace DecisionSpace

def isDemand (variable_ : DecisionVariable F) : Bool := variable_.intervention = .activeDemand

def demands (space : DecisionSpace F) : ℕ := space.vars.countP isDemand

/-- The checks of one variable against the ones before it. -/
def validateVariable (formulation : Problem) (earlier : List (DecisionVariable F))
    (v : DecisionVariable F) : Except String Unit :=
  if v.id = "" ∨ v.id.utf8ByteSize > 128 ∨ v.id ∈ earlier.map (·.id) ∨
      (v.intervention, v.element) ∈ earlier.map (fun e => (e.intervention, e.element)) then
    .error "decision identities and targets must be nonempty and unique"
  else if [v.lower, v.upper, v.increment, v.budgetWeight].any (!isFinite ·) ∨
      lt v.upper v.lower ∨ le v.increment 0 ∨ lt v.budgetWeight 0 then
    .error ("invalid bounds, increment or budget weight for " ++ v.id)
  else if v.intervention = .branchRating ∧ formulation ≠ .dcOpf ∧ formulation ≠ .socwr then
    .error "rating planning requires a DC OPF or SOCWR formulation"
  else .ok ()

def validateVariables (formulation : Problem) (earlier : List (DecisionVariable F)) :
    List (DecisionVariable F) → Except String Unit
  | [] => .ok ()
  | v :: rest => do
      validateVariable formulation earlier v
      validateVariables formulation (earlier ++ [v]) rest

def validateDemand (space : DecisionSpace F) : Except String Unit :=
  match space.demand with
  | some (.placement increaseMw) =>
    if space.demands = 0 ∨ !isFinite increaseMw ∨ le increaseMw 0 ∨
        space.vars.any (fun v => isDemand v && lt v.lower 0) then
      .error "placement requires demand variables, a positive total and nonnegative changes"
    else .ok ()
  | some .redistribution =>
    if space.demands < 2 then .error "redistribution requires at least two demand decisions"
    else .ok ()
  | none =>
    if space.demands > 0 then .error "demand planning requires an explicit total constraint"
    else .ok ()

/-- The build modelled here includes the conic formulation. -/
def validate (space : DecisionSpace F) (formulation : Problem) : Except String Unit := do
  if space.vars = [] ∨ space.vars.length > 65536 then
    .error "decision space requires 1 to 65536 variables"
  if !isFinite space.totalBudget ∨ lt space.totalBudget 0 ∨ space.maxChangedElements = 0 ∨
      space.maxChangedElements > space.vars.length then
    .error "decision budget and cardinality are invalid"
  validateVariables formulation [] space.vars
  if formulation = .dcPf ∨ formulation = .acopf then
    .error "this build does not support differentiable planning for the formulation"
  space.validateDemand

def withinLimits (space : DecisionSpace F) (changes : List F) (tolerance : F) : Bool :=
  if changes.length ≠ space.vars.length ∨ !isFinite tolerance ∨ lt tolerance 0 then false
  else
    let pairs := space.vars.zip changes
    let inside := pairs.all fun (v, x) =>
      isFinite x && !lt x (v.lower - tolerance) && !lt (v.upper + tolerance) x &&
        !lt tolerance (Binary64.abs (x / v.increment - Binary64.round (x / v.increment)) * v.increment)
    let budget := pairs.foldl (fun budget (v, x) => budget + v.budgetWeight * Binary64.abs x) 0
    let count := pairs.countP fun (_, x) => lt tolerance (Binary64.abs x)
    inside && le budget (space.totalBudget + tolerance) && count ≤ space.maxChangedElements

def feasible (space : DecisionSpace F) (changes : List F) (tolerance : F) : Bool :=
  let total := match space.demand with
    | some (.placement increaseMw) => increaseMw
    | _ => 0
  let demand := sum (((space.vars.zip changes).filter fun (v, _) => isDemand v).map (·.2))
  space.withinLimits changes tolerance && le (Binary64.abs (demand - total)) tolerance

end DecisionSpace

/-- The edits that a vector of decision changes stands for. -/
def decisionEdits (space : DecisionSpace F) (changes : List F) : List (NetworkEdit F) :=
  ((space.vars.zip changes).filter fun (_, x) => lt (lit 1e-12) (Binary64.abs x)).map
    fun (v, x) => match v.intervention with
      | .branchRating => .adjustBranchRating v.element x
      | .activeDemand => .addLoad v.element x

end Tellegen
