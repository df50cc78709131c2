import Tellegen.Exploration

/-!
The records of a saved study. States, goals, experiments and decisions refer to
each other and to artifacts by content id; the bundle owns the artifacts that
the document names. Approvals are no part of a portable document.
-/

open Binary64

namespace Tellegen

def studyVersion : ℕ := 2

def maxRecords : ℕ := 100000

def maxBundleBytes : ℕ := 512 * 1024 * 1024

/-! ### Records -/

inductive ArtifactKind where
  | powerioIr | geoLayer | evidence
  deriving DecidableEq

structure StudyArtifact where
  kind : ArtifactKind
  text : String
  deriving DecidableEq

structure StateNode where
  parent : Option String
  formulation : Problem
  input : String
  solution : Option String
  view : Option String
  label : String
  deriving DecidableEq

/-- A goal revision retains its own anchor and interpretation. -/
structure GoalRevision (F : Type) where
  parent : Option String
  anchorState : String
  request : String
  interpretation : String
  objective : StudyObjective F
  decisions : DecisionSpace F
  successValue : Option F

inductive ExperimentKind where
  | inspection | sensitivity | planning | counterfactual | challenge | historicalImport
  deriving DecidableEq

structure TrialRecord (F : Type) where
  changes : List F
  predictedValue : Option F
  exactValue : Option F
  state : Option String
  accepted : Bool
  failure : Option String
  evidence : List String
  deriving DecidableEq

/-- Historical imports can lack a starting state and a goal. -/
structure ExperimentRecord (F : Type) where
  startState : Option String
  goal : Option String
  kind : ExperimentKind
  rationale : String
  evidence : List String
  trials : List (TrialRecord F)
  resultStates : List String
  assessedRecommendation : Option String
  solveCount : ℕ
  termination : String
  deriving DecidableEq

inductive DecisionKind where
  | retain | reject | recommend | apply
  deriving DecidableEq

structure DecisionRecord where
  experiment : String
  state : Option String
  choice : DecisionKind
  rationale : String
  evidence : List String
  deriving DecidableEq

/-! ### Display and model details -/

structure Camera (F : Type) where
  center : F × F
  zoom : F
  bearing : F
  pitch : F
  deriving DecidableEq

structure DiagramCamera (F : Type) where
  center : F × F
  scale : F
  deriving DecidableEq

/-- `geography` and `layers` name geographic artifacts used for display. -/
structure DisplayContext (F : Type) where
  caseId : String
  geography : String
  layers : List String
  camera : Option (Camera F)
  diagramCamera : Option (DiagramCamera F)
  deriving DecidableEq

inductive CostPreparation where
  | exact | convexQuadraticFit
  deriving DecidableEq

structure GenCost (F : Type) where
  model : ℕ
  startup : F
  shutdown : F
  ncost : ℕ
  coeffs : List F
  deriving DecidableEq

structure CostApproximation (F : Type) where
  generator : ℕ
  bus : ℕ
  sourceCost : GenCost F
  modelCost : GenCost F
  rmsBreakpointError : F
  maxBreakpointError : F
  deriving DecidableEq

structure ModelDetails (F : Type) where
  method : CostPreparation
  source : String
  model : String
  quantity : String
  units : String
  approximations : List (CostApproximation F)
  deriving DecidableEq

/-! ### Documents and bundles -/

structure StudyDocument (F : Type) where
  schema : String
  version : ℕ
  id : String
  title : String
  revision : ℕ
  goals : Records (GoalRevision F)
  states : Records StateNode
  experiments : Records (ExperimentRecord F)
  experimentOrder : List String
  decisions : Records DecisionRecord
  activeGoal : Option String
  inspectedState : Option String
  recommendedState : Option String
  appliedState : Option String
  baseInput : Option String
  display : Option (DisplayContext F)
  modelDetails : Option (ModelDetails F)

structure StudyBundle (F : Type) where
  document : StudyDocument F
  artifacts : Records StudyArtifact

/-! ### Summaries -/

structure ExperimentSummary where
  id : String
  kind : ExperimentKind
  startState : Option String
  goal : Option String
  rationale : String
  solveCount : ℕ
  trialCount : ℕ
  resultStates : List String
  termination : String
  deriving DecidableEq

structure StudySummary (F : Type) where
  id : String
  title : String
  revision : ℕ
  activeGoal : Option (String × GoalRevision F)
  inspectedState : Option String
  recommendedState : Option String
  appliedState : Option String
  stateCount : ℕ
  experimentCount : ℕ
  recentExperiments : List ExperimentSummary
  unavailableHistoricalStates : ℕ

end Tellegen
