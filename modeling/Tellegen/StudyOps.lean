import Tellegen.Bundle

/-!
The operations an application performs on a study. `executeStudy` runs one
operation in a transaction and then reads the result to report;
`executeStudyAsync` runs a proposal on a copy between host checkpoints and
installs the copy.

Reading steps are plain functions of the bundle, and the programs below them
write what was read.
-/

open Binary64 Outcome Std

namespace Tellegen

variable {F : Type} [Binary64 F]

/-! ### Requests and results -/

structure DemandAdjustment (F : Type) where
  bus : ElementKey
  deltaMw : F

structure DemandChange (F : Type) where
  bus : ElementKey
  baseMw : F
  demandMw : F
  deltaMw : F

structure Comparison (F : Type) where
  goal : Option String
  left : String
  right : String
  leftValue : Option F
  rightValue : Option F
  improvement : Option F
  leftView : Option (SolveResponse F)
  rightView : Option (SolveResponse F)

inductive StudyOperation (F : Type) where
  | inspect (state : String)
  | branch (state rationale : String)
  | reviseGoal (goal : GoalRevision F)
  | compare (left right : String) (goal : Option String)
  | propose (state goal : String) (options : SearchOptions F) (rationale : String)
  | editDemand (state : String) (goal : Option String) (constrainToGoal : Bool)
      (changes : List (DemandAdjustment F)) (rationale : String)
  | restoreBase (state : String) (goal : Option String) (rationale : String)
  | recordEvidence (state : String) (goal : Option String) (sensitivity : Bool)
      (assessedRecommendation : Option String) (rationale : String) (evidence : Json F)
  | apply (proposal state : String) (goal : Option String) (baseState : String)

structure StudyRequest (F : Type) where
  expectedRevision : ℕ
  operation : StudyOperation F

structure StudyOperationResult (F : Type) where
  summary : StudySummary F
  experiment : Option String
  inspectedView : Option (SolveResponse F)
  comparison : Option (Comparison F)
  demandChanges : Option (List (DemandChange F))

/-! ### Evidence texts -/

def DemandChange.toJson (c : DemandChange F) : Json F :=
  .obj [("base_mw", Json.ofFloat c.baseMw), ("bus", c.bus.toJson),
    ("delta_mw", Json.ofFloat c.deltaMw), ("demand_mw", Json.ofFloat c.demandMw)]

def demandChangesJson (changes : Option (List (DemandChange F))) : Json F :=
  Json.ofOption (Json.ofList DemandChange.toJson) changes

def DecisionDerivative.toJson (d : DecisionDerivative F) : Json F :=
  .obj [("decision", .str d.decision), ("units", .str d.units), ("value", Json.ofFloat d.value)]

def DerivativeNumerics.toJson (n : DerivativeNumerics F) : Json F :=
  .obj [("method", .str "combined_adjoint"),
    ("refinement_iterations", Json.ofNat n.refinementIterations),
    ("regularization", Json.ofFloat n.regularization),
    ("residual_tolerance_factor", Json.ofFloat n.residualToleranceFactor)]

def ObjectiveResult.toJson (r : ObjectiveResult F) : Json F :=
  .obj [("gradient", Json.ofList DecisionDerivative.toJson r.gradient),
    ("local_only", .bool r.localOnly), ("numerics", r.numerics.toJson),
    ("value", Json.ofFloat r.value)]

def Comparison.toJson (engine : Engine F) (c : Comparison F) : Json F :=
  .obj [("goal", name c.goal), ("improvement", number c.improvement), ("left", .str c.left),
    ("left_value", number c.leftValue), ("left_view", Json.ofOption engine.responseJson c.leftView),
    ("right", .str c.right), ("right_value", number c.rightValue),
    ("right_view", Json.ofOption engine.responseJson c.rightView)]

/-! ### Reading networks -/

def sameBusIdentities {T : Type} (base current : BalancedNetwork F T) : Except String Unit :=
  let ids (network : BalancedNetwork F T) := network.buses.map fun bus => (bus.id, bus.uid)
  if ids base ⊆ ids current ∧ ids current ⊆ ids base then .ok ()
  else .error "base case and selected state have different bus identities"

/-- The buses whose demand differs from the base case. -/
def networkDemandChanges {T : Type} (base current : BalancedNetwork F T) : List (DemandChange F) :=
  current.buses.filterMap fun bus =>
    let baseMw := busDemand base bus.id
    let demandMw := busDemand current bus.id
    let deltaMw := demandMw - baseMw
    if lt (lit 1e-9) (Binary64.abs deltaMw) then
      some { bus := match bus.uid with
               | some uid => .uid uid
               | none => .id bus.id
             baseMw, demandMw, deltaMw }
    else none

def decisionValue {T : Type} (network : BalancedNetwork F T) (v : DecisionVariable F) :
    Except String F := do
  let id ← sourceElementId network v.intervention.parameter.axis v.element
  match v.intervention with
  | .branchRating =>
    if id = 0 then .error "branch ids start at 1"
    else match network.branches[id - 1]? with
      | some branch => return branch.rateA
      | none => .error "branch is unavailable"
  | .activeDemand =>
    if network.buses.any (·.id = id) then return busDemand network id
    else .error "bus is unavailable"

def networkChanges {T : Type} (base current : BalancedNetwork F T) (space : DecisionSpace F) :
    Except String (List F) :=
  space.vars.mapM fun v => do
    let currentValue ← decisionValue current v
    let baseValue ← decisionValue base v
    return currentValue - baseValue

namespace StudyBundle

section Reading

variable (engine : Engine F) (bundle : StudyBundle F)

/-- Sparse cumulative MW changes relative to the retained network data. -/
def demandChanges (state : String) : Except String (Option (List (DemandChange F))) :=
  match bundle.document.baseInput with
  | none => .ok none
  | some base =>
    match bundle.artifacts[base]? with
    | none => .error "base case input is unavailable"
    | some artifact => do
        let baseNetwork ← inputNetwork engine artifact.text
        let current ← bundle.stateNetwork engine state
        sameBusIdentities baseNetwork current
        return some (networkDemandChanges baseNetwork current)

def stateChanges (anchor state : String) (space : DecisionSpace F) : Except String (List F) := do
  let base ← bundle.stateNetwork engine anchor
  let current ← bundle.stateNetwork engine state
  networkChanges base current space

def evaluateState (goal : GoalRevision F) (state : String) :
    Except String (F × SolveResponse F) := do
  let view ← bundle.stateView engine state
  let network ← bundle.stateNetwork engine state
  let changes ← bundle.stateChanges engine goal.anchorState state goal.decisions
  let out ← goal.objective.evaluate view network (Study.interventions goal.decisions changes)
  return (out.value, view)

def compareStates (left right goalId : String) : Except String (Comparison F) :=
  match bundle.document.goals[goalId]? with
  | none => .error "goal revision is unavailable"
  | some goal => do
      let (leftValue, leftView) ← bundle.evaluateState engine goal left
      let (rightValue, rightView) ← bundle.evaluateState engine goal right
      return { goal := some goalId, left, right, leftValue := some leftValue
               rightValue := some rightValue, improvement := some (leftValue - rightValue)
               leftView := some leftView, rightView := some rightView }

def optionalView (state : String) : Except String (Option (SolveResponse F)) :=
  match bundle.document.states[state]? with
  | none => .error "state is unavailable"
  | some node =>
    match node.view with
    | none => .ok none
    | some _ => some <$> bundle.stateView engine state

def compareStatesOptional (left right : String) : Option String → Except String (Comparison F)
  | some goal => bundle.compareStates engine left right goal
  | none => do
      let leftView ← bundle.optionalView engine left
      let rightView ← bundle.optionalView engine right
      return { goal := none, left, right, leftValue := none, rightValue := none
               improvement := none, leftView, rightView }

def inspectedView : Result (Option (SolveResponse F)) :=
  match bundle.document.inspectedState with
  | none => .ok none
  | some state => do
      let node ← bundle.document.states.index state
      if node.view.isSome then some <$> lift (bundle.stateView engine state)
      else return none

def inspectedDemandChanges : Result (Option (List (DemandChange F))) :=
  match bundle.document.inspectedState with
  | none => .ok none
  | some state => lift (bundle.demandChanges engine state)

def operationResult (experiment : Option String) (comparison : Option (Comparison F)) :
    Result (StudyOperationResult F) := do
  let inspectedView ← bundle.inspectedView engine
  let summary ← bundle.summary 8
  let demandChanges ← bundle.inspectedDemandChanges engine
  return { summary, experiment, inspectedView, comparison, demandChanges }

end Reading

section Operations

variable (engine : Engine F)

def stopIfCancelled : Edit F Unit := do
  let cancelled ← Program.cancelled
  refuse (cancelled = true) "cancelled"

/-! ### Edits of a saved case -/

def addLoads (adjustments : List (DemandAdjustment F)) : List (NetworkEdit F) :=
  adjustments.map fun a => .addLoad a.bus a.deltaMw

def adjustmentLabel (many : String) (adjustments : List (DemandAdjustment F)) : String :=
  match adjustments with
  | [a] => "Bus " ++ a.bus.display ++ ": " ++ displaySigned a.deltaMw ++ " MW"
  | _ => many ++ " at " ++ toString adjustments.length ++ " buses"

/-- The base case, or the state's case with the adjustments, and its label. -/
def editedCase (bundle : StudyBundle F) (stateId : String)
    (adjustments : Option (List (DemandAdjustment F))) : Result (engine.Network × String) :=
  match adjustments with
  | none => do
      let base ← okOr bundle.document.baseInput "The base case is unavailable"
      let artifact ← bundle.artifacts.index base
      let network ← lift (inputNetwork engine artifact.text)
      return (network, "Base case")
  | some adjustments => do
      let network ← lift (bundle.stateNetwork engine stateId)
      refuse (adjustments = [] ∨ adjustments.length > 65536)
        "Choose between 1 and 65536 demand changes"
      let edited ← lift (applyNetworkEdits network (addLoads adjustments))
      return (edited, adjustmentLabel "Demand changes" adjustments)

/-- Solve the edited case and save the state it leads to. A case that cannot be
solved is saved without a solution, along with the error. -/
def captureEdited (stateId : String) (state : StateNode) (label input : String) :
    Edit F (String × Option String) :=
  match Study.new engine input state.formulation with
  | .ok study => do
      let exact ← lift (ExactCandidate.capture study [] 0)
      let result ← captureState engine exact (some stateId) label
      return (result, none)
  | .error error => do
      let input ← addArtifact engine .powerioIr input
      let result ← addState engine
        { parent := some stateId, formulation := state.formulation, input
          solution := none, view := none, label }
      return (result, some error)

def operationName (restore : Bool) : String := if restore then "restore_base" else "edit_demand"

def editEvidence (restore : Bool) (changes : Option (List (DemandChange F)))
    (failure : Option String) : Json F :=
  .obj [("cumulative_demand_changes", demandChangesJson changes),
    ("operation", .str (operationName restore)), ("solve_count", .int 1),
    ("solve_error", name failure)]

def editSavedCase (stateId : String) (goal : Option String)
    (adjustments : Option (List (DemandAdjustment F))) (rationale : String) :
    Edit F String := do
  stopIfCancelled
  let bundle ← Program.get
  let state ← okOr bundle.document.states[stateId]? "state is unavailable"
  let (network, label) ← editedCase engine bundle stateId adjustments
  let input ← lift (engine.serializeModule (engine.newModule (.balancedNetwork network)))
  stopIfCancelled
  let (resultState, failure) ← captureEdited engine stateId state label input
  let saved ← Program.get
  let changes ← lift (saved.demandChanges engine resultState)
  let evidence ← addArtifact engine .evidence
    (engine.printJson (editEvidence adjustments.isNone changes failure))
  let id ← addExperiment engine
    { startState := some stateId, goal, kind := .counterfactual, rationale
      evidence := [evidence], trials := [], resultStates := [resultState]
      assessedRecommendation := none, solveCount := 1
      termination := if failure.isSome then "solve_failed" else "completed" }
  inspect resultState
  Program.modify (setRecommended (some resultState))
  return id

/-! ### Edits under a goal -/

structure EditPlan (F : Type) where
  formulation : Problem
  input : String
  edits : List (NetworkEdit F)
  changes : List F
  label : String

def addAdjustment (current : engine.Network) (space : DecisionSpace F) (changes : List F)
    (adjustment : DemandAdjustment F) : Except String (List F) := do
  if !isFinite adjustment.deltaMw then .error "demand increments must be finite"
  let bus ← sourceElementId current .bus adjustment.bus
  let targets (v : DecisionVariable F) : Bool :=
    match sourceElementId current .bus v.element with
    | .ok id => v.intervention = .activeDemand ∧ id = bus
    | .error _ => false
  match space.vars.findIdx? targets with
  | none => .error "demand edit is outside the goal's permitted buses"
  | some index => return changes.modify index (· + adjustment.deltaMw)

def canonicalNetwork (network : engine.Network) : Except String String :=
  engine.serializeModule (engine.newModule (.balancedNetwork network))

def planEdit (bundle : StudyBundle F) (goal : GoalRevision F) (state : StateNode)
    (anchor current : engine.Network) (changes : List F)
    (adjustments : List (DemandAdjustment F)) : Result (EditPlan F) := do
  refuse (adjustments = [] ∨ adjustments.length > 65536)
    "demand edits require between 1 and 65536 adjustments"
  let expected ← lift (applyNetworkEdits anchor (decisionEdits goal.decisions changes))
  let expectedText ← lift (canonicalNetwork engine expected)
  let currentText ← lift (canonicalNetwork engine current)
  refuse (expectedText ≠ currentText) ("selected state contains changes outside the goal's " ++
    "permitted interventions; revise the goal first")
  let changes ← lift (adjustments.foldlM (addAdjustment engine current goal.decisions) changes)
  refuse (!goal.decisions.withinLimits changes (lit 1e-7)) ("cumulative demand edits exceed the " ++
    "declared bounds, increments, budget or bus count")
  let anchorState ← bundle.document.states.index goal.anchorState
  let artifact ← bundle.artifacts.index anchorState.input
  return { formulation := state.formulation, input := artifact.text
           edits := decisionEdits goal.decisions changes, changes
           label := adjustmentLabel "Demand edits" adjustments }

def planRestore (bundle : StudyBundle F) (goal : GoalRevision F) (state : StateNode)
    (anchor current : engine.Network) : Result (EditPlan F) := do
  let base ← okOr bundle.document.baseInput "original base case is unavailable in this Study"
  let artifact ← bundle.artifacts.index base
  let baseNetwork ← lift (inputNetwork engine artifact.text)
  lift (sameBusIdentities baseNetwork current)
  let changes ← lift (networkChanges anchor baseNetwork goal.decisions)
  return { formulation := state.formulation, input := artifact.text, edits := [], changes
           label := "Original network base case" }

def planCounterfactual (bundle : StudyBundle F) (stateId goalId : String)
    (adjustments : Option (List (DemandAdjustment F))) :
    Result (GoalRevision F × EditPlan F) := do
  let goal ← okOr bundle.document.goals[goalId]? "goal is unavailable"
  let state ← okOr bundle.document.states[stateId]? "state is unavailable"
  let anchorState ← bundle.document.states.index goal.anchorState
  refuse (anchorState.formulation ≠ state.formulation)
    "goal and selected state use different formulations"
  let anchor ← lift (bundle.stateNetwork engine goal.anchorState)
  let current ← lift (bundle.stateNetwork engine stateId)
  let changes ← lift (networkChanges anchor current goal.decisions)
  let plan ← match adjustments with
    | some adjustments => planEdit engine bundle goal state anchor current changes adjustments
    | none => planRestore engine bundle goal state anchor current
  return (goal, plan)

def evaluatePlan (goal : GoalRevision F) (plan : EditPlan F) (study : Study engine) :
    Except String (ExactCandidate F) := do
  let value ← study.objectiveValue goal.objective goal.decisions plan.changes
  ExactCandidate.capture study plan.changes value

/-- The exact solves of a plan, and how many were spent. -/
def runPlan (goal : GoalRevision F) (plan : EditPlan F) (restore : Bool) :
    Program.Checkpoint (Except String (ExactCandidate F) × ℕ) := do
  if ← Program.Checkpoint.cancelled then return (.error "cancelled", 0)
  match Study.new engine plan.input plan.formulation with
  | .error message => return (.error message, 1)
  | .ok study =>
    if restore then return (evaluatePlan engine goal plan study, 1)
    if ← Program.Checkpoint.cancelled then return (.error "cancelled", 1)
    match Study.commit plan.edits study with
    | (.error message, _) => return (.error message, 2)
    | (.ok _, edited) => return (evaluatePlan engine goal plan edited, 2)

def planEvidence (restore permittedTotal : Bool) (value : F)
    (changes : Option (List (DemandChange F))) (solveCount : ℕ) : Json F :=
  .obj [("cumulative_demand_changes", demandChangesJson changes),
    ("exact_value", Json.ofFloat value), ("goal_constraints_satisfied", .bool permittedTotal),
    ("operation", .str (operationName restore)), ("solve_count", Json.ofNat solveCount)]

def planTermination (restore permittedTotal : Bool) : String :=
  if restore then "base_case_ready"
  else if permittedTotal then "completed" else "demand_total_incomplete"

/-- Save the outcome of a plan into the experiment's record. The second
component is the state it recommends. -/
def recordPlan (stateId : String) (restore permittedTotal : Bool) (label : String)
    (record : ExperimentRecord F) :
    Except String (ExactCandidate F) → Edit F (ExperimentRecord F × Option String)
  | .error error => return ({ record with termination := error }, none)
  | .ok exact => do
      let state ← captureState engine exact (some stateId) label
      let saved ← Program.get
      let changes ← lift (saved.demandChanges engine state)
      let evidence ← addArtifact engine .evidence
        (engine.printJson (planEvidence restore permittedTotal exact.value changes record.solveCount))
      inspect state
      return ({ record with
                  evidence := record.evidence ++ [evidence]
                  resultStates := record.resultStates ++ [state]
                  termination := planTermination restore permittedTotal },
        if restore || permittedTotal then some state else none)

def planRationale (restore : Bool) : String :=
  if restore then "Exact restoration of the retained network data, awaiting explicit application"
  else "Demand edits satisfy the declared intervention limits and total, awaiting explicit application"

def recommend (experiment : String) (evidence : List String) (rationale : String) :
    Option String → Edit F Unit
  | none => return ()
  | some state => do
      let _ ← addDecision engine
        { experiment, state := some state, choice := .recommend, rationale, evidence }

def counterfactual (stateId : String) (goalId : Option String)
    (adjustments : Option (List (DemandAdjustment F))) (constrainToGoal : Bool)
    (rationale : String) : Edit F String := do
  let bundle ← Program.get
  refuse (bundle.document.activeGoal ≠ goalId) "operation requires the active goal revision"
  match goalId, constrainToGoal with
  | some goalId, true => do
      let (goal, plan) ← planCounterfactual engine bundle stateId goalId adjustments
      let restore := adjustments.isNone
      let permittedTotal := goal.decisions.feasible plan.changes (lit 1e-7)
      let (outcome, solveCount) ← Program.await (runPlan engine goal plan restore)
      let (record, candidate) ← recordPlan engine stateId restore permittedTotal plan.label
        { startState := some stateId, goal := some goalId, kind := .counterfactual, rationale
          evidence := [], trials := [], resultStates := [], assessedRecommendation := none
          solveCount, termination := "completed" }
        outcome
      let id ← addExperiment engine record
      Program.modify (setRecommended candidate)
      recommend engine id record.evidence (planRationale restore) candidate
      return id
  | goalId, _ => editSavedCase engine stateId goalId adjustments rationale

/-! ### Proposals -/

structure SearchPlan (F : Type) where
  goal : GoalRevision F
  formulation : Problem
  changes : List F
  input : String
  startInput : String

def planProposal (bundle : StudyBundle F) (stateId goalId : String) : Result (SearchPlan F) := do
  refuse (bundle.document.activeGoal ≠ some goalId) "proposal requires the active goal revision"
  let goal ← okOr bundle.document.goals[goalId]? "goal is unavailable"
  let state ← okOr bundle.document.states[stateId]? "starting state is unavailable"
  let anchor ← okOr bundle.document.states[goal.anchorState]? "goal anchor is unavailable"
  refuse (state.formulation ≠ anchor.formulation)
    "goal and starting state use different formulations"
  let changes ← lift (bundle.stateChanges engine goal.anchorState stateId goal.decisions)
  let input ← okOr bundle.artifacts[anchor.input]? "goal input is unavailable"
  let startInput ← okOr bundle.artifacts[state.input]? "starting input is unavailable"
  return { goal, formulation := state.formulation, changes, input := input.text
           startInput := startInput.text }

def canonicalText (text : String) : Except String String := do
  let pioModule ← engine.deserializeModule text
  engine.serializeModule (engine.newModule pioModule.value)

/-- The start has to be the anchor with the goal's own decisions applied. -/
def checkStart (plan : SearchPlan F) (study : Study engine) : Except String Unit := do
  let saved ← study.saveInstanceModule
  let savedText ← canonicalText engine saved
  let startText ← canonicalText engine plan.startInput
  if savedText ≠ startText then
    .error "starting state contains changes outside the selected goal's decisions"

/-- The search itself, after `spent` solves. -/
def searchFrom [DecidableEq F] (plan : SearchPlan F) (options : SearchOptions F) (study : Study engine)
    (spent : ℕ) : Program.Checkpoint (Result (SearchResult F) × ℕ) :=
  match checkStart engine plan study with
  | .error message => return (.error (.error message), spent)
  | .ok () =>
    match subtract options.maxSolves spent with
    | .error failure => return (.error failure, spent)
    | .ok maxSolves => do
        let goal : SearchGoal F :=
          { objective := plan.goal.objective, space := plan.goal.decisions
            options := { options with maxSolves } }
        let (result, _) ← exploreAsync goal plan.changes study
        return (result, spent)

def runSearch [DecidableEq F] (plan : SearchPlan F) (options : SearchOptions F) :
    Program.Checkpoint (Result (SearchResult F) × ℕ) := do
  if ← Program.Checkpoint.cancelled then return (.error (.error "cancelled"), 0)
  if options.maxSolves = 0 then return (.error (.error "solve_budget"), 0)
  match Study.new engine plan.input plan.formulation with
  | .error message => return (.error (.error message), 1)
  | .ok study =>
    if plan.changes.any fun x => lt (lit 1e-10) (Binary64.abs x) then
      if ← Program.Checkpoint.cancelled then return (.error (.error "cancelled"), 1)
      if 1 ≥ options.maxSolves then return (.error (.error "solve_budget"), 1)
      match Study.replaceEdits (decisionEdits plan.goal.decisions plan.changes) study with
      | (.error message, _) => return (.error (.error message), 2)
      | (.ok _, edited) => searchFrom engine plan options edited 2
    else searchFrom engine plan options study 1

def searchEvidence (search : SearchResult F) (solveCount : ℕ) : Json F :=
  .obj [("baseline_value", Json.ofFloat search.baselineValue),
    ("directions", Json.ofList ObjectiveResult.toJson search.directions),
    ("solve_count", Json.ofNat solveCount), ("termination", .str search.termination)]

def trialEvidence (t : SearchTrial F) : Json F :=
  .obj [("active_constraints_added", strings t.activeConstraintsAdded),
    ("active_constraints_removed", strings t.activeConstraintsRemoved),
    ("failure", name t.failure), ("iteration", Json.ofNat t.iteration),
    ("prediction_error", number (t.exact.map fun exact => exact.value - t.predictedValue))]

structure TrialLog (F : Type) where
  trialStates : List (Option String)
  recommendation : Option String
  resultStates : List String
  trials : List (TrialRecord F)

def captureTrial (stateId : String) (log : TrialLog F) (t : SearchTrial F) :
    Edit F (Option String) :=
  match t.exact with
  | none => return none
  | some exact => do
      let parent := (t.parentTrial.bind fun i => log.trialStates[i]?.join).getD stateId
      let saved ← captureState engine exact (some parent)
        ("Trial " ++ toString (log.trialStates.length + 1))
      return some saved

def recordTrial (stateId : String) (log : TrialLog F) (t : SearchTrial F) :
    Edit F (TrialLog F) := do
  let saved ← captureTrial engine stateId log t
  let evidence ← addArtifact engine .evidence (engine.printJson (trialEvidence t))
  return { trialStates := log.trialStates ++ [saved]
           recommendation := if t.accepted then saved else log.recommendation
           resultStates := log.resultStates ++ saved.toList
           trials := log.trials ++
             [{ changes := t.changes, predictedValue := some t.predictedValue
                exactValue := t.exact.map (·.value), state := saved, accepted := t.accepted
                failure := t.failure, evidence := [evidence] }] }

def recordTrials (stateId : String) : List (SearchTrial F) → TrialLog F → Edit F (TrialLog F)
  | [], log => return log
  | t :: rest, log => do
      let log ← recordTrial engine stateId log t
      recordTrials stateId rest log

/-- Without an accepted trial the start itself is recommended, when it is a
best result. -/
def recordSearch (stateId : String) (record : ExperimentRecord F) (search : SearchResult F) :
    Edit F (ExperimentRecord F × Option String) := do
  let record := { record with
    solveCount := record.solveCount + search.solveCount, termination := search.termination }
  let evidence ← addArtifact engine .evidence
    (engine.printJson (searchEvidence search record.solveCount))
  let log ← recordTrials engine stateId search.trials
    { trialStates := [], recommendation := none, resultStates := [], trials := [] }
  let start := log.recommendation.isNone && search.best.isSome
  return ({ record with
              evidence := record.evidence ++ [evidence]
              resultStates := log.resultStates ++ (if start then [stateId] else [])
              trials := log.trials },
    if start then some stateId else log.recommendation)

/-- A refused or cancelled search is recorded by the text of its error. -/
def recordOutcome (stateId : String) (record : ExperimentRecord F) :
    Result (SearchResult F) → Edit F (ExperimentRecord F × Option String)
  | .error (.error message) => return ({ record with termination := message }, none)
  | .error failure => Program.lift (.error failure)
  | .ok search => recordSearch engine stateId record search

def proposalRationale : String :=
  "Best feasible candidate verified by exact solves within the declared search budget"

/-- `propose_async`; `propose` is the same program with checkpoints that do not
suspend. -/
def proposeAsync [DecidableEq F] (stateId goalId : String) (options : SearchOptions F)
    (rationale : String) : Edit F String := do
  let bundle ← Program.get
  let plan ← planProposal engine bundle stateId goalId
  let (outcome, solveCount) ← Program.await (runSearch engine plan options)
  let (record, recommendation) ← recordOutcome engine stateId
    { startState := some stateId, goal := some goalId, kind := .planning, rationale
      evidence := [], trials := [], resultStates := [], assessedRecommendation := none
      solveCount, termination := "completed" }
    outcome
  let id ← addExperiment engine record
  recommend engine id record.evidence proposalRationale recommendation
  if recommendation.isSome then Program.modify (setRecommended recommendation)
  return id

/-! ### The other operations -/

def branch (state rationale : String) : Edit F String := do
  inspect state
  let bundle ← Program.get
  addExperiment engine
    { startState := some state, goal := bundle.document.activeGoal, kind := .inspection, rationale
      evidence := [], trials := [], resultStates := [], assessedRecommendation := none
      solveCount := 0, termination := "branch_selected" }

def compareAndRecord (left right : String) (goal : Option String) :
    Edit F (String × Comparison F) := do
  let bundle ← Program.get
  let comparison ← lift (bundle.compareStatesOptional engine left right goal)
  let evidence ← addArtifact engine .evidence (engine.printJson (comparison.toJson engine))
  let id ← addExperiment engine
    { startState := some left, goal, kind := .inspection
      rationale := "Compare exact saved candidates under the selected goal revision"
      evidence := [evidence], trials := [], resultStates := [], assessedRecommendation := none
      solveCount := 0, termination := "completed" }
  return (id, comparison)

def evidenceKind (assessedRecommendation : Option String) (sensitivity : Bool) : ExperimentKind :=
  if assessedRecommendation.isSome then .challenge
  else if sensitivity then .sensitivity else .inspection

def recordEvidence (state : String) (goal : Option String) (sensitivity : Bool)
    (assessedRecommendation : Option String) (rationale : String) (evidence : Json F) :
    Edit F String := do
  let artifact ← addArtifact engine .evidence (engine.printJson evidence)
  addExperiment engine
    { startState := some state, goal, kind := evidenceKind assessedRecommendation sensitivity
      rationale, evidence := [artifact], trials := [], resultStates := []
      assessedRecommendation, solveCount := 0, termination := "completed" }

/-- The approval still binds the goal in force, the base it started from and
the recommended state. -/
def Approves (bundle : StudyBundle F) (record : ExperimentRecord F) (state : String)
    (goal : Option String) (baseState : String) : Prop :=
  (record.kind = .planning ∨ record.kind = .counterfactual) ∧ record.goal = goal ∧
    record.startState = some baseState ∧ bundle.document.activeGoal = goal ∧
    bundle.document.recommendedState = some state ∧ state ∈ record.resultStates

instance (bundle : StudyBundle F) (record : ExperimentRecord F) (state : String)
    (goal : Option String) (baseState : String) :
    Decidable (Approves bundle record state goal baseState) := by
  unfold Approves
  infer_instance

def applyRationale : String :=
  "Explicitly applied the proposal bound to this goal and base state"

def applyProposal (proposal state : String) (goal : Option String) (baseState : String) :
    Edit F String := do
  let bundle ← Program.get
  let record ← okOr bundle.document.experiments[proposal]? "proposal is unavailable"
  refuse (¬ Approves bundle record state goal baseState)
    "proposal approval no longer matches the goal, base and recommended state"
  let _ ← addDecision engine
    { experiment := proposal, state := some state, choice := .apply, rationale := applyRationale
      evidence := record.evidence }
  Program.modify (setApplied state)
  inspect state
  return proposal

/-- The arms of `execute_study`: the experiment and the comparison to report. -/
def perform [DecidableEq F] :
    StudyOperation F → Edit F (Option String × Option (Comparison F))
  | .inspect state => do
      inspect state
      return (none, none)
  | .branch state rationale => do
      let id ← branch engine state rationale
      return (some id, none)
  | .reviseGoal goal => do
      let _ ← reviseGoal engine goal
      return (none, none)
  | .compare left right goal => do
      let (id, comparison) ← compareAndRecord engine left right goal
      return (some id, some comparison)
  | .editDemand state goal constrainToGoal changes rationale => do
      let id ← counterfactual engine state goal (some changes) constrainToGoal rationale
      return (some id, none)
  | .restoreBase state goal rationale => do
      let id ← counterfactual engine state goal none false rationale
      return (some id, none)
  | .recordEvidence state goal sensitivity assessedRecommendation rationale evidence => do
      let id ← recordEvidence engine state goal sensitivity assessedRecommendation rationale evidence
      return (some id, none)
  | .propose state goal options rationale => do
      lift options.validate
      let id ← proposeAsync engine state goal options rationale
      return (some id, none)
  | .apply proposal state goal baseState => do
      let id ← applyProposal engine proposal state goal baseState
      return (some id, none)

/-! ### Executing a request -/

def reportResult (experiment : Option String) (comparison : Option (Comparison F)) :
    Edit F (StudyOperationResult F) := do
  let bundle ← Program.get
  bundle.operationResult engine experiment comparison

def executeStudy [DecidableEq F] (request : StudyRequest F) : Edit F (StudyOperationResult F) := do
  let bundle ← Program.get
  lift (bundle.checkRevision request.expectedRevision)
  bundle.validate engine
  let (experiment, comparison) ←
    transaction engine request.expectedRevision (perform engine request.operation)
  reportResult engine experiment comparison

/-- A program on a copy: the copy it leaves is returned, and the bundle kept. -/
def onCopy {α : Type} (operation : Edit F α) : Edit F (α × StudyBundle F) := fun bundle => do
  let (result, copy) ← operation bundle
  return (result.map fun value => (value, copy), bundle)

def neverCancelled {α : Type} (operation : Edit F α) : Edit F α := fun bundle =>
  .done ((operation bundle).run fun _ => false)

def executeProposalAsync [DecidableEq F] (expectedRevision : ℕ) (state goal : String)
    (options : SearchOptions F) (rationale : String) : Edit F (StudyOperationResult F) := do
  let bundle ← Program.get
  lift (bundle.checkRevision expectedRevision)
  bundle.validate engine
  lift options.validate
  let (experiment, candidate) ← onCopy (proposeAsync engine state goal options rationale)
  transaction engine expectedRevision (Program.modify fun _ => candidate)
  reportResult engine (some experiment) none

def executeStudyAsync [DecidableEq F] (request : StudyRequest F) :
    Edit F (StudyOperationResult F) :=
  match request.operation with
  | .propose state goal options rationale =>
    executeProposalAsync engine request.expectedRevision state goal options rationale
  | _ => neverCancelled (executeStudy engine request)

end Operations

end StudyBundle

end Tellegen
