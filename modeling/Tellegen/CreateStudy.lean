import Tellegen.StudyOps

/-!
Opening a study. The starting point is saved with the solution the caller
brings, with one solved here when there is a goal to evaluate at it, or without
a solution.
-/

open Binary64 Outcome

namespace Tellegen

variable {F : Type} [Binary64 F]

structure CreateDisplay (F : Type) where
  caseId : String
  geoLayer : String
  layers : List String
  camera : Option (Camera F)
  diagramCamera : Option (DiagramCamera F)

structure CreateStudy (F : Type) where
  id : String
  title : String
  input : String
  baseInput : Option String
  formulation : Problem
  request : String
  interpretation : String
  objective : Option (StudyObjective F)
  decisions : Option (DecisionSpace F)
  successValue : Option F
  solution : Option String
  view : Option (SolveResponse F)
  display : Option (CreateDisplay F)
  modelDetails : Option (ModelDetails F)

namespace StudyBundle

def setBaseInput (id : String) (bundle : StudyBundle F) : StudyBundle F :=
  { bundle with document := { bundle.document with baseInput := some id } }

def setDisplay (display : DisplayContext F) (bundle : StudyBundle F) : StudyBundle F :=
  { bundle with document := { bundle.document with display := some display } }

def setModelDetails (details : Option (ModelDetails F)) (bundle : StudyBundle F) :
    StudyBundle F :=
  { bundle with document := { bundle.document with modelDetails := details } }

variable (engine : Engine F)

def addLayers : List String → Edit F (List String)
  | [] => return []
  | text :: rest => do
      let id ← addArtifact engine .geoLayer text
      let ids ← addLayers rest
      return id :: ids

def addDisplay : Option (CreateDisplay F) → Edit F Unit
  | none => return ()
  | some display => do
      let geography ← addArtifact engine .geoLayer display.geoLayer
      let layers ← addLayers engine display.layers
      Program.modify (setDisplay
        { caseId := display.caseId, geography, layers, camera := display.camera
          diagramCamera := display.diagramCamera })

def planningGoal (request : CreateStudy F) :
    Except String (Option (StudyObjective F × DecisionSpace F)) :=
  match request.objective, request.decisions with
  | some objective, some decisions => do
      decisions.validate request.formulation
      objective.validate decisions
      return some (objective, decisions)
  | none, none => .ok none
  | _, _ => .error "A planning goal requires both an objective and permitted changes"

def startingPoint : String := "Starting point"

/-- A start solved here has to be evaluable under the goal. -/
def solveStart (request : CreateStudy F) (objective : StudyObjective F)
    (decisions : DecisionSpace F) : Except String (ExactCandidate F) := do
  let study ← Study.new engine request.input request.formulation
  let changes := decisions.vars.map fun _ => (0 : F)
  study.checkDecisionState decisions changes
  let value ← study.objectiveValue objective decisions changes
  ExactCandidate.capture study changes value

/-- The root state, and the solves spent on it. -/
def addRoot (request : CreateStudy F) (goal : Option (StudyObjective F × DecisionSpace F)) :
    Edit F (String × ℕ) :=
  match request.solution, request.view, goal with
  | some solution, some view, _ => do
      let text ← lift (engine.printResponse view)
      let root ← captureState engine
        { input := request.input, solution, view := text, changes := [], value := 0 } none
        startingPoint
      return (root, 0)
  | none, none, some (objective, decisions) => do
      let exact ← lift (solveStart engine request objective decisions)
      let root ← captureState engine exact none startingPoint
      return (root, 1)
  | none, none, none => do
      let input ← addArtifact engine .powerioIr request.input
      let root ← addState engine
        { parent := none, formulation := request.formulation, input, solution := none
          view := none, label := startingPoint }
      return (root, 0)
  | _, _, _ =>
    Program.lift (.error (.error
      "A saved result requires both its solution and display values"))

def addGoal (request : CreateStudy F) (root : String) :
    Option (StudyObjective F × DecisionSpace F) → Edit F Unit
  | none => return ()
  | some (objective, decisions) => do
      let _ ← reviseGoal engine
        { parent := none, anchorState := root, request := request.request
          interpretation := request.interpretation, objective, decisions
          successValue := request.successValue }

def addFirstSolve (root : String) (solveCount : ℕ) : Edit F Unit :=
  if solveCount = 0 then return ()
  else do
    let evidence ← addArtifact engine .evidence (engine.printJson
      (.obj [("operation", .str "solve"), ("solve_count", Json.ofNat solveCount)]))
    let bundle ← Program.get
    let _ ← addExperiment engine
      { startState := some root, goal := bundle.document.activeGoal, kind := .counterfactual
        rationale := "Solve the starting case", evidence := [evidence], trials := []
        resultStates := [], assessedRecommendation := none, solveCount, termination := "completed" }

/-- Fill an empty bundle; the result names its root state. -/
def populate (request : CreateStudy F) (baseInput : String) : Edit F String := do
  let base ← addArtifact engine .powerioIr baseInput
  Program.modify (setBaseInput base)
  addDisplay engine request.display
  Program.modify (setModelDetails request.modelDetails)
  let goal ← lift (planningGoal request)
  let (root, solveCount) ← addRoot engine request goal
  Program.modify (setApplied root)
  Program.modify (setInspected root)
  addGoal engine request root goal
  addFirstSolve engine root solveCount
  let bundle ← Program.get
  bundle.validate engine
  return root

/-- The identities of the buses are those of the base case. -/
def checkBase (request : CreateStudy F) (baseInput : String) : Except String Unit := do
  let base ← inputNetwork engine baseInput
  let current ← inputNetwork engine request.input
  sameBusIdentities base current

/-- `create_study`. No host is asked anything while a study is created. -/
def createStudy (request : CreateStudy F) : Result (StudyBundle F) := do
  let baseInput := request.baseInput.getD request.input
  lift (checkBase engine request baseInput)
  let bundle ← lift (empty request.id request.title)
  let (result, created) := ((populate engine request baseInput) bundle).run fun _ => false
  let _ ← result
  return created

end StudyBundle

end Tellegen
