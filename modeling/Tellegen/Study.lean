import Tellegen.Engine

/-!
A live solver session: a base case, an edit log, and the last solve. An
operation that changes the session returns the session it leaves behind along
with its result, so that what a refused operation leaves is part of the model.
-/

open Binary64 Outcome

namespace Tellegen

variable {F : Type} [Binary64 F]

structure Study (engine : Engine F) where
  formulation : Problem
  input : StudyInput engine.Instance
  base : engine.Network
  baseModuleJson : String
  log : List (NetworkEdit F)
  commitBounds : List ℕ
  constraints : List (LinearConstraint F)
  solved : engine.Solved
  last : SolveResponse F

namespace Study

variable {engine : Engine F}

/-! ### Opening a session -/

def fromNetworkAndModule (engine : Engine F) (base : engine.Network)
    (input : StudyInput engine.Instance) (formulation : Problem) (baseModuleJson : String) :
    Except String (Study engine) := do
  validateCanonicalEdits base Edits.empty
  let req : SolveRequest F :=
    { formulation, edits := Edits.empty, start := .flat, constraints := [], sensitivities := [] }
  let solved ← engine.solveState input base req
  let last ← engine.assemble solved req
  return { formulation, input, base, baseModuleJson, log := [], commitBounds := [],
           constraints := [], solved, last }

def valueTypeName {N I S : Type} : PioValue N I S → String
  | .balancedNetwork _ => "powerio.BalancedNetwork"
  | .dcOpfInstance _ => "powerio.DcOpfInstance"
  | .acPfInstance _ => "powerio.AcPfInstance"
  | .acOpfInstance _ => "powerio.AcOpfInstance"
  | .dcOpfSolution _ => "powerio.DcOpfSolution"
  | .acPfSolution _ => "powerio.AcPfSolution"
  | .socwrOpfSolution _ => "powerio.SocwrOpfSolution"
  | .other typeName => typeName

def fromDynamicModule (engine : Engine F) (pioModule : engine.Module) (formulation : Problem) :
    Except String (Study engine) := do
  let moduleJson ← engine.serializeModule pioModule
  match pioModule.value with
  | .balancedNetwork network =>
    fromNetworkAndModule engine network .balancedNetwork formulation moduleJson
  | .dcOpfInstance inst =>
    fromNetworkAndModule engine (engine.instanceNetwork inst) (.dcOpf inst) formulation moduleJson
  | .acPfInstance inst =>
    fromNetworkAndModule engine (engine.instanceNetwork inst) (.acPf inst) formulation moduleJson
  | .acOpfInstance inst =>
    fromNetworkAndModule engine (engine.instanceNetwork inst) (.acOpf inst) formulation moduleJson
  | other =>
    .error ("PowerIO module holds " ++ valueTypeName other ++ ", which cannot start a Study")

/-- `Study::new`. -/
def new (engine : Engine F) (moduleJson : String) (formulation : Problem) :
    Except String (Study engine) := do
  let pioModule ← engine.deserializeModule moduleJson
  fromDynamicModule engine pioModule formulation

/-! ### Solving the log -/

def request (study : Study engine) (log : List (NetworkEdit F))
    (sensitivities : List SensRequest) : SolveRequest F :=
  { formulation := study.formulation, edits := fold log, start := .flat
    constraints := study.constraints, sensitivities }

def solveLog (study : Study engine) (log : List (NetworkEdit F))
    (sensitivities : List SensRequest) : Except String (engine.Solved × SolveResponse F) := do
  let req := study.request log sensitivities
  let solved ← engine.solveState study.input study.base req
  let resp ← engine.assemble solved req
  return (solved, resp)

/-- An operation on a session: what it returns and the session it leaves. -/
abbrev Operation (engine : Engine F) := Study engine → Except String (SolveResponse F) × Study engine

def commitLog (log : List (NetworkEdit F)) (commitBounds : List ℕ)
    (sensitivities : List SensRequest) : Operation engine := fun study =>
  match validateNetworkEdits study.base log with
  | .error message => (.error message, study)
  | .ok () =>
    match study.solveLog log sensitivities with
    | .error message => (.error message, study)
    | .ok (solved, resp) => (.ok resp, { study with log, commitBounds, solved, last := resp })

def commitWith (edits : List (NetworkEdit F)) (sensitivities : List SensRequest) :
    Operation engine := fun study =>
  let nextLog := study.log ++ edits
  let nextBounds := study.commitBounds ++ [nextLog.length]
  commitLog nextLog nextBounds sensitivities study

def commit (edits : List (NetworkEdit F)) : Operation engine := commitWith edits []

def replaceEditsWith (edits : List (NetworkEdit F)) (sensitivities : List SensRequest) :
    Operation engine :=
  let bounds := if edits = [] then [] else [edits.length]
  commitLog edits bounds sensitivities

def replaceEdits (edits : List (NetworkEdit F)) : Operation engine := replaceEditsWith edits []

/-- The constraints are replaced first and put back when the solve fails. -/
def setConstraints (constraints : List (LinearConstraint F)) : Operation engine := fun study =>
  let previous := study.constraints
  let study := { study with constraints }
  match study.solveLog study.log [] with
  | .ok (solved, resp) => (.ok resp, { study with solved, last := resp })
  | .error message => (.error message, { study with constraints := previous })

def fork (study : Study engine) : Study engine :=
  { formulation := study.formulation
    input := study.input
    base := study.base
    baseModuleJson := study.baseModuleJson
    log := study.log
    commitBounds := study.commitBounds
    constraints := study.constraints
    solved := study.solved
    last := study.last }

/-! ### Goals at the current point -/

def changesAreFinite (space : DecisionSpace F) (changes : List F) : Bool :=
  changes.length = space.vars.length && changes.all (isFinite ·)

def interventions (space : DecisionSpace F) (changes : List F) : Records F :=
  (space.vars.zip changes).foldl (fun map (v, x) => map.insert v.id x) ∅

def objectiveValue (study : Study engine) (objective : StudyObjective F)
    (space : DecisionSpace F) (changes : List F) : Except String F := do
  space.validate study.formulation
  objective.validate space
  if !changesAreFinite space changes then
    .error "objective requires one finite value per decision"
  let out ← objective.evaluate study.last study.base (interventions space changes)
  return out.value

theorem objectiveValue_isFinite {study : Study engine} {objective : StudyObjective F}
    {space : DecisionSpace F} {changes : List F} {value : F}
    (h : study.objectiveValue objective space changes = .ok value) : isFinite value = true := by
  unfold objectiveValue at h
  simp only [bind_eq_ok, error_bind, ite_error_eq_ok, pure_eq_ok] at h
  obtain ⟨_, -, _, -, -, out, hout, rfl⟩ := h
  exact objective.evaluate_isFinite _ _ _ out hout

def objectiveGradient (study : Study engine) (objective : StudyObjective F)
    (space : DecisionSpace F) (changes : List F) : Except String (ObjectiveResult F) := do
  space.validate study.formulation
  objective.validate space
  if !changesAreFinite space changes then
    .error "objective requires one finite change per decision"
  let evaluation ← objective.evaluate study.last study.base (interventions space changes)
  let (numerics, implicits) ←
    engine.derivative study.formulation study.solved study.base evaluation.observables space
  let gradient := (space.vars.zip implicits.toList).map fun (v, implicit) =>
    { decision := v.id
      value := implicit + evaluation.direct.getD v.id 0
      units := "objective_unit/" ++ v.intervention.units study.formulation : DecisionDerivative F }
  if gradient.any (!isFinite ·.value) then .error "objective derivative is not finite"
  return { value := evaluation.value, gradient, localOnly := true, numerics }

/-! ### The edited case -/

def materializedNetwork (study : Study engine) : Except String engine.Network :=
  applyNetworkEdits study.base study.log

def aliasesResolveOnce (study : Study engine) :
    List (Axis × ℕ) → List (DecisionVariable F) → Except String Unit
  | _, [] => .ok ()
  | seen, v :: rest => do
      let axis := v.intervention.parameter.axis
      let id ← sourceElementId study.base axis v.element
      if (axis, id) ∈ seen then .error "decision aliases resolve to the same equipment"
      aliasesResolveOnce study ((axis, id) :: seen) rest

def checkDecisionState (study : Study engine) (space : DecisionSpace F) (changes : List F) :
    Except String Unit := do
  study.aliasesResolveOnce [] space.vars
  let expected ← applyNetworkEdits study.base (decisionEdits space changes)
  let expectedValue ← engine.networkValue expected
  let actual ← study.materializedNetwork
  let actualValue ← engine.networkValue actual
  if expectedValue ≠ actualValue then
    .error "declared decisions do not reproduce the starting electrical state"

def demandChange (study : Study engine) (bus : ℕ) : Except String F :=
  study.log.foldlM (fun total edit => match edit with
    | .addLoad key pMw => do
        let id ← sourceElementId study.base .bus key
        return total + (if id = bus then pMw else 0)
    | .adjustBranchRating _ _ => .ok total) 0

def materializedInstance (study : Study engine) : Except String engine.Value := do
  let network ← study.materializedNetwork
  match study.input with
  | .balancedNetwork =>
    match study.formulation with
    | .dcOpf => .dcOpfInstance <$> engine.fromNetwork .dcOpf network
    | .acPf => .acPfInstance <$> engine.fromNetwork .acPf network
    | .socwr => .acOpfInstance <$> engine.fromNetwork .socwr network
    | _ => .error "unsupported Study formulation"
  | .dcOpf inst => .dcOpfInstance <$> engine.withNetwork inst network
  | .acPf inst => do
      let deltas ← network.buses.mapM fun bus => study.demandChange bus.id
      .acPfInstance <$> engine.withNetworkAndInjections inst network deltas
  | .acOpf inst => .acOpfInstance <$> engine.withNetwork inst network

def rejectConstraints (study : Study engine) (operation : String) : Except String Unit :=
  if study.constraints = [] then .ok ()
  else .error (operation ++
    " is not available while the study carries caller-supplied linear constraints")

def electricalModule (study : Study engine) (value : engine.Value) :
    Except String engine.Module := do
  let source ← engine.deserializeModule study.baseModuleJson
  return { value, envelope := engine.severEnvelope source.envelope }

def saveInstanceModule (study : Study engine) : Except String String := do
  study.rejectConstraints "saving the problem instance"
  let value ← study.materializedInstance
  let pioModule ← study.electricalModule value
  engine.serializeModule pioModule

def saveExactModule (study : Study engine) : Except String String := do
  study.rejectConstraints "saving the solution"
  let value ← match ← study.materializedInstance with
    | .dcOpfInstance inst => .dcOpfSolution <$> engine.emitSolution .dcOpf inst study.solved
    | .acPfInstance inst => .acPfSolution <$> engine.emitSolution .acPf inst study.solved
    | .acOpfInstance inst => .socwrOpfSolution <$> engine.emitSolution .socwr inst study.solved
    | _ => .error "unsupported exact Study solution"
  let pioModule ← study.electricalModule value
  engine.serializeModule pioModule

end Study

end Tellegen
