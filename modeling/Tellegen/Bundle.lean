import Tellegen.DocumentWire
import Tellegen.Lib.Program

/-!
Operations on a study bundle. An operation that changes the bundle is a
program over it; one that fails half way leaves a half-changed bundle behind,
and `transaction` is what keeps that copy from being published.

`validate` is written in the order of the source, part by part: a later part
indexes maps whose keys an earlier part has checked.
-/

open Binary64 Outcome Std

namespace Tellegen

variable {F : Type} [Binary64 F]

/-- `char::is_whitespace`. -/
def isWhitespace (c : Char) : Bool :=
  let n := c.toNat
  (9 ≤ n && n ≤ 13) || n = 0x20 || n = 0x85 || n = 0xA0 || n = 0x1680 ||
    (0x2000 ≤ n && n ≤ 0x200A) || n = 0x2028 || n = 0x2029 || n = 0x202F || n = 0x205F ||
    n = 0x3000

/-- `s.trim().is_empty()`. -/
def isBlank (s : String) : Bool := s.toList.all isWhitespace

/-! ### Records and artifacts -/

section Engine

variable (engine : Engine F)

/-- Records are addressed by the digest of their wire form. -/
def recordId (value : Json F) : String := engine.contentId (engine.printJson value)

def verifyRecord (id : String) (value : Json F) : Result Unit :=
  refuse (id ≠ recordId engine value) ("Study hash mismatch for " ++ id)

/-- The schema and version of a module; its other fields are ignored. -/
def readHeader (text : String) : Except String (String × ℕ) := do
  let value ← engine.parseJson text
  let fields ← Json.entries value
  return (← Json.field fields "schema" Json.readStr, ← Json.field fields "version" Json.readNat)

def validateHeader (text : String) : Except String Unit := do
  let (schema, version) ← describe "invalid Study artifact: " (readHeader engine text)
  if schema ≠ "pio-ir" ∨ version ≠ 2 then
    .error "electrical Study artifacts require PowerIO IR generation 2"

/-- The formulation, whether it is a solution, and the problem instance, of the
values that take part in a solved state. -/
def electricalPart : engine.Value → Option (Problem × Bool × engine.Value)
  | .dcOpfInstance inst => some (.dcOpf, false, .dcOpfInstance inst)
  | .acPfInstance inst => some (.acPf, false, .acPfInstance inst)
  | .acOpfInstance inst => some (.socwr, false, .acOpfInstance inst)
  | .dcOpfSolution s => some (.dcOpf, true, .dcOpfInstance (engine.solutionInstance s))
  | .acPfSolution s => some (.acPf, true, .acPfInstance (engine.solutionInstance s))
  | .socwrOpfSolution s => some (.socwr, true, .acOpfInstance (engine.solutionInstance s))
  | .balancedNetwork _ | .other _ => none

abbrev ElectricalIdentity := Problem × Bool × String

def validateIr (text : String) : Except String (Option ElectricalIdentity) := do
  validateHeader engine text
  let pioModule ← engine.deserializeModule text
  match electricalPart engine pioModule.value with
  | none => return none
  | some (formulation, solution, instanceValue) =>
    let canonical ← engine.serializeModule (engine.newModule instanceValue)
    return some (formulation, solution, engine.contentId canonical)

def validateGeoLayer (text : String) : Except String Unit := do
  let (features, diagnostics) ← engine.parseGeoLayer text
  if features = 0 ∨ diagnostics ≠ 0 then .error "invalid or empty Study geography"

/-- The identity of the instance of an electrical artifact. That of a solution
is the one of the instance it embeds. -/
def validateArtifact (artifact : StudyArtifact) : Except String (Option ElectricalIdentity) :=
  if artifact.text.utf8ByteSize > maxBundleBytes then .error "Study artifact exceeds 512 MiB"
  else match artifact.kind with
    | .geoLayer => do
        validateGeoLayer engine artifact.text
        return none
    | .evidence => do
        let _ ← describe "invalid Study artifact: " (engine.parseJson artifact.text)
        return none
    | .powerioIr => validateIr engine artifact.text

/-- The network of a module that can stand as a state's input. -/
def inputNetwork (text : String) : Except String engine.Network := do
  let pioModule ← engine.deserializeModule text
  match pioModule.value with
  | .balancedNetwork network => return network
  | .dcOpfInstance inst | .acPfInstance inst | .acOpfInstance inst =>
    return engine.instanceNetwork inst
  | _ => .error "input must contain a balanced network or supported problem instance"

end Engine

namespace StudyBundle

/-! ### Reading a bundle -/

def empty (id title : String) : Except String (StudyBundle F) :=
  if isBlank id ∨ id.utf8ByteSize > 256 ∨ title.utf8ByteSize > 4096 then
    .error "Study requires a bounded identity and title"
  else .ok
    { document :=
        { schema := "tellegen-study", version := studyVersion, id, title, revision := 0
          goals := ∅, states := ∅, experiments := ∅, experimentOrder := [], decisions := ∅
          activeGoal := none, inspectedState := none, recommendedState := none
          appliedState := none, baseInput := none, display := none, modelDetails := none }
      artifacts := ∅ }

def checkRevision (bundle : StudyBundle F) (expected : ℕ) : Except String Unit :=
  if bundle.document.revision ≠ expected then
    .error ("stale Study revision: expected " ++ toString expected ++ ", current " ++
      toString bundle.document.revision)
  else .ok ()

section Reading

variable (engine : Engine F) (bundle : StudyBundle F)

def stateView (state : String) : Except String (SolveResponse F) :=
  match bundle.document.states[state]? with
  | none => .error "state is unavailable"
  | some node =>
    match node.view with
    | none => .error "This state has no solve result"
    | some view =>
      match bundle.artifacts[view]? with
      | none => .error "state evidence is unavailable"
      | some artifact => engine.parseResponse artifact.text

def stateNetwork (state : String) : Except String engine.Network :=
  match bundle.document.states[state]? with
  | none => .error "state is unavailable"
  | some node =>
    match bundle.artifacts[node.input]? with
    | none => .error "state input is unavailable"
    | some artifact => inputNetwork engine artifact.text

end Reading

def experimentSummary (bundle : StudyBundle F) (id : String) : Result ExperimentSummary := do
  let e ← bundle.document.experiments.index id
  return { id, kind := e.kind, startState := e.startState, goal := e.goal
           rationale := String.ofList (e.rationale.toList.take 320)
           solveCount := e.solveCount, trialCount := e.trials.length
           resultStates := e.resultStates.take 8, termination := e.termination }

def summary (bundle : StudyBundle F) (limit : ℕ) : Result (StudySummary F) := do
  let d := bundle.document
  let recentExperiments ←
    (d.experimentOrder.reverse.take (min limit 20)).mapM bundle.experimentSummary
  return { id := d.id, title := d.title, revision := d.revision
           activeGoal := d.activeGoal.bind fun id => d.goals[id]?.map (id, ·)
           inspectedState := d.inspectedState, recommendedState := d.recommendedState
           appliedState := d.appliedState, stateCount := d.states.size
           experimentCount := d.experiments.size, recentExperiments
           unavailableHistoricalStates := d.experiments.values.countP (·.startState.isNone) }

/-! ### Validation -/

section Validation

variable (engine : Engine F) (bundle : StudyBundle F)

def require {V : Type} (records : Records V) (id kind : String) : Result Unit :=
  refuse (id ∉ records) ("missing " ++ kind ++ " " ++ id)

def requireArtifact (id : String) (electrical : Bool) : Result Unit := do
  let artifact ← okOr bundle.artifacts[id]? ("missing Study artifact " ++ id)
  refuse (decide (artifact.kind = .powerioIr) ≠ electrical)
    "Study artifact has an unexpected kind"

def validateIdentity : Result Unit := do
  let d := bundle.document
  refuse (d.schema ≠ "tellegen-study" ∨ ¬ (1 ≤ d.version ∧ d.version ≤ studyVersion))
    "unsupported Study document version"
  refuse (isBlank d.id ∨ d.id.utf8ByteSize > 256 ∨ d.title.utf8ByteSize > 4096)
    "invalid Study identity or title"
  refuse ([d.states.size, d.goals.size, d.experiments.size, d.decisions.size,
      bundle.artifacts.size].sum > maxRecords)
    "Study contains more than 100000 records"
  refuse ((bundle.artifacts.values.map (·.text.utf8ByteSize)).sum > maxBundleBytes)
    "Study artifacts exceed 512 MiB"

/-- Checks each artifact and collects the identities of the electrical ones. -/
def electricalIdentities :
    List (String × StudyArtifact) → Records ElectricalIdentity → Result (Records ElectricalIdentity)
  | [], identities => .ok identities
  | (id, artifact) :: rest, identities => do
      verifyRecord engine id artifact.toJson
      let identity ← lift (validateArtifact engine artifact)
      electricalIdentities rest (match identity with
        | some identity => identities.insert id identity
        | none => identities)

def validateBaseInput : Result Unit :=
  match bundle.document.baseInput with
  | none => .ok ()
  | some base => do
      bundle.requireArtifact base true
      let artifact ← bundle.artifacts.index base
      let _ ← lift (inputNetwork engine artifact.text)
      return ()

def requireGeography (id missing unexpected : String) : Result Unit := do
  let artifact ← okOr bundle.artifacts[id]? missing
  refuse (artifact.kind ≠ .geoLayer) unexpected

def validateDiagramCamera (camera : DiagramCamera F) : Result Unit :=
  refuse (!([camera.center.1, camera.center.2, camera.scale].all (isFinite ·)) ∨
      le camera.scale 0)
    "invalid drawing camera"

def validateCamera (camera : Camera F) : Result Unit :=
  refuse (!([camera.center.1, camera.center.2, camera.zoom, camera.bearing, camera.pitch].all
        (isFinite ·)) ∨
      !within (lit (-90)) (lit 90) camera.center.2 ∨ !within 0 (lit 24) camera.zoom ∨
      !within 0 (lit 85) camera.pitch)
    "invalid display camera"

def validateDisplay : Result Unit :=
  match bundle.document.display with
  | none => .ok ()
  | some display => do
      bundle.requireGeography display.geography "missing display geography"
        "display geography requires a PowerIO GeoLayer"
      display.layers.forM fun layer => bundle.requireGeography layer "missing display layer"
        "display layer requires a PowerIO GeoLayer"
      refuse (display.caseId = "") "display case identity is empty"
      display.diagramCamera.forM validateDiagramCamera
      display.camera.forM validateCamera

/-- A state without a solve needs a second-generation document and an input
that can be solved. -/
def validateUnsolved (s : StateNode) : Result Unit := do
  refuse (bundle.document.version < 2 ∨ s.solution.isSome ∨ s.view.isSome)
    "a state requires both solution and result, or neither"
  let artifact ← bundle.artifacts.index s.input
  let _ ← lift (inputNetwork engine artifact.text)
  return ()

/-- The input and the solution are an instance and a solution of it. -/
def validatePairing (identities : Records ElectricalIdentity) (s : StateNode) (solution : String) :
    Result Unit :=
  match identities[s.input]?, identities[solution]? with
  | some (inputKind, false, inputId), some (solutionKind, true, solutionId) => do
      refuse (inputKind ≠ s.formulation ∨ solutionKind ≠ s.formulation)
        "Study state must pair its declared instance and solution formulation"
      refuse (inputId ≠ solutionId) "Study solution belongs to a different problem instance"
  | _, _ => .error (.error "Study state must pair its declared instance and solution formulation")

def validateSolved (identities : Records ElectricalIdentity) (id : String) (s : StateNode)
    (solution view : String) : Result Unit := do
  bundle.requireArtifact solution true
  bundle.requireArtifact view false
  let response ← lift (bundle.stateView engine id)
  refuse (response.formulation ≠ s.formulation) "state view has a different formulation"
  validatePairing identities s solution

def validateState (identities : Records ElectricalIdentity) (entry : String × StateNode) :
    Result Unit := do
  let (id, s) := entry
  verifyRecord engine id s.toJson
  bundle.requireArtifact s.input true
  s.parent.forM fun parent => require bundle.document.states parent "parent state"
  match s.solution, s.view with
  | some solution, some view => bundle.validateSolved engine identities id s solution view
  | _, _ => bundle.validateUnsolved engine s

/-- The parent walk of one record, with a bound of one step per record and one
to spare. -/
def validateParents {V : Type} (records : Records V) (parent : V → Option String)
    (cycle : String) : Result Unit :=
  records.keys.forM fun id =>
    walk (fun key => do return parent (← records.index key)) cycle (records.size + 1) [] (some id)

def validateGoal (entry : String × GoalRevision F) : Result Unit := do
  let (id, g) := entry
  verifyRecord engine id g.toJson
  require bundle.document.states g.anchorState "goal anchor"
  let anchor ← bundle.document.states.index g.anchorState
  lift (g.decisions.validate anchor.formulation)
  lift (g.objective.validate g.decisions)
  refuse (g.successValue.any (!isFinite ·)) "goal success value must be finite"
  g.parent.forM fun parent => require bundle.document.goals parent "parent goal"

def validateOrder : Result Unit :=
  let d := bundle.document
  refuse (d.experimentOrder.length ≠ d.experiments.size ∨
      ¬ (d.experimentOrder ⊆ d.experiments.keys ∧ d.experiments.keys ⊆ d.experimentOrder))
    "experiment order must name every experiment exactly once"

def validateTrial (t : TrialRecord F) : Result Unit := do
  refuse (t.changes.any (!isFinite ·) ∨ t.predictedValue.any (!isFinite ·) ∨
      t.exactValue.any (!isFinite ·))
    "trial values must be finite"
  t.state.forM fun state => require bundle.document.states state "trial state"
  refuse (t.accepted ∧ (t.state.isNone ∨ t.exactValue.isNone ∨ t.failure.isSome))
    "accepted trial requires an exact successful state"
  t.evidence.forM fun evidence => bundle.requireArtifact evidence false

def validateExperiment (entry : String × ℕ) : Result Unit := do
  let (id, position) := entry
  let e ← bundle.document.experiments.index id
  verifyRecord engine id (.arr [Json.ofNat position, e.toJson])
  refuse (e.kind ≠ .historicalImport ∧ e.startState.isNone) "activity requires a starting state"
  refuse (e.kind = .planning ∧ e.goal.isNone) "planning activity requires a goal revision"
  e.startState.forM fun state => require bundle.document.states state "experiment start"
  e.goal.forM fun goal => require bundle.document.goals goal "experiment goal"
  (e.resultStates ++ e.assessedRecommendation.toList).forM fun state =>
    require bundle.document.states state "experiment result"
  e.evidence.forM fun evidence => bundle.requireArtifact evidence false
  refuse ((e.kind = .inspection ∨ e.kind = .sensitivity) ∧
      (e.resultStates ≠ [] ∨ e.trials.any (·.state.isSome)))
    "inspection and sensitivity experiments cannot create electrical states"
  e.trials.forM bundle.validateTrial

def validateDecision (entry : String × DecisionRecord) : Result Unit := do
  let (id, decision) := entry
  verifyRecord engine id decision.toJson
  require bundle.document.experiments decision.experiment "decision experiment"
  decision.state.forM fun state => require bundle.document.states state "decision state"
  decision.evidence.forM fun evidence => bundle.requireArtifact evidence false

def validatePointers : Result Unit := do
  let d := bundle.document
  [d.inspectedState, d.recommendedState, d.appliedState].forM fun pointer =>
    pointer.forM fun state => require d.states state "state pointer"
  d.activeGoal.forM fun goal => require d.goals goal "active goal"

def validate : Result Unit := do
  let d := bundle.document
  bundle.validateIdentity
  let identities ← electricalIdentities engine bundle.artifacts.toList ∅
  bundle.validateBaseInput engine
  bundle.validateDisplay
  d.states.toList.forM (bundle.validateState engine identities)
  validateParents d.states (·.parent) "Study states contain a cycle"
  d.goals.toList.forM (bundle.validateGoal engine)
  validateParents d.goals (·.parent) "Study goals contain a cycle"
  bundle.validateOrder
  d.experimentOrder.zipIdx.forM (bundle.validateExperiment engine)
  d.decisions.toList.forM (bundle.validateDecision engine)
  bundle.validatePointers

end Validation

/-! ### Changing a bundle -/

/-- `&mut StudyBundle` operations. -/
abbrev Edit (F α : Type) := Program (StudyBundle F) α

def atVersion (version : ℕ) (bundle : StudyBundle F) : StudyBundle F :=
  { bundle with document := { bundle.document with version } }

def atRevision (revision : ℕ) (bundle : StudyBundle F) : StudyBundle F :=
  { bundle with document := { bundle.document with revision } }

/-- The end of a transaction: the next revision of the copy, once it validates. -/
def publish {α : Type} (engine : Engine F) (expected : ℕ) (result : Result α)
    (next : StudyBundle F) : Result (α × StudyBundle F) := do
  let value ← result
  refuse (expected + 1 ≥ 2 ^ 64) "Study revision exhausted"
  let next := next.atRevision (expected + 1)
  next.validate engine
  return (value, next)

/-- Run a completed operation against a copy and publish it only after
validation. -/
def transaction {α : Type} (engine : Engine F) (expected : ℕ) (operation : Edit F α) :
    Edit F α := fun bundle =>
  match bundle.checkRevision expected with
  | .error message => .done (.error (.error message), bundle)
  | .ok () => do
      let (result, next) ← operation (bundle.atVersion studyVersion)
      match publish engine expected result next with
      | .ok (value, next) => return (.ok value, next)
      | .error failure => return (.error failure, bundle)

/-- `entry(id).or_insert(record)`. -/
def insertArtifact (id : String) (artifact : StudyArtifact) (bundle : StudyBundle F) :
    StudyBundle F :=
  { bundle with artifacts := bundle.artifacts.insertIfNew id artifact }

def insertState (id : String) (state : StateNode) (bundle : StudyBundle F) : StudyBundle F :=
  { bundle with
    document := { bundle.document with states := bundle.document.states.insertIfNew id state } }

def insertExperiment (id : String) (e : ExperimentRecord F) (bundle : StudyBundle F) :
    StudyBundle F :=
  let d := bundle.document
  let order := if id ∈ d.experiments then d.experimentOrder else d.experimentOrder ++ [id]
  { bundle with
    document := { d with
      experimentOrder := order, experiments := d.experiments.insertIfNew id e } }

def insertDecision (id : String) (decision : DecisionRecord) (bundle : StudyBundle F) :
    StudyBundle F :=
  { bundle with
    document := { bundle.document with
      decisions := bundle.document.decisions.insertIfNew id decision } }

def setInspected (state : String) (bundle : StudyBundle F) : StudyBundle F :=
  { bundle with document := { bundle.document with inspectedState := some state } }

def setRecommended (state : Option String) (bundle : StudyBundle F) : StudyBundle F :=
  { bundle with document := { bundle.document with recommendedState := state } }

def setApplied (state : String) (bundle : StudyBundle F) : StudyBundle F :=
  { bundle with document := { bundle.document with appliedState := some state } }

/-- A revised goal replaces the active one and clears the recommendation. -/
def setGoal (id : String) (goal : GoalRevision F) (bundle : StudyBundle F) : StudyBundle F :=
  let d := bundle.document
  { bundle with
    document := { d with
      goals := d.goals.insert id goal, activeGoal := some id, recommendedState := none } }

section Changing

variable (engine : Engine F)

def addArtifact (kind : ArtifactKind) (text : String) : Edit F String := do
  let artifact : StudyArtifact := { kind, text }
  let _ ← lift (validateArtifact engine artifact)
  let id := recordId engine artifact.toJson
  Program.modify (insertArtifact id artifact)
  return id

def addState (state : StateNode) : Edit F String := do
  let id := recordId engine state.toJson
  Program.modify (insertState id state)
  return id

def captureState (candidate : ExactCandidate F) (parent : Option String) (label : String) :
    Edit F String := do
  let view ← lift (engine.parseResponse candidate.view)
  let input ← addArtifact engine .powerioIr candidate.input
  let solution ← addArtifact engine .powerioIr candidate.solution
  let evidence ← addArtifact engine .evidence candidate.view
  addState engine
    { parent, formulation := view.formulation, input, solution := some solution
      view := some evidence, label }

def inspect (state : String) : Edit F Unit := do
  let bundle ← Program.get
  refuse (state ∉ bundle.document.states) "inspection state is unavailable"
  Program.modify (setInspected state)

def addExperiment (experiment : ExperimentRecord F) : Edit F String := do
  let bundle ← Program.get
  let position := bundle.document.experimentOrder.length
  let id := recordId engine (.arr [Json.ofNat position, experiment.toJson])
  Program.modify (insertExperiment id experiment)
  return id

def addDecision (decision : DecisionRecord) : Edit F String := do
  let id := recordId engine decision.toJson
  Program.modify (insertDecision id decision)
  return id

/-- No intervention yet: a zero for each decision. -/
def noChanges (space : DecisionSpace F) : Records F :=
  space.vars.foldl (fun map v => map.insert v.id 0) ∅

/-- A goal anchored at a solved state has to be evaluable there. -/
def checkAnchor (bundle : StudyBundle F) (goal : GoalRevision F) (anchor : StateNode)
    (network : engine.Network) : Except String Unit :=
  if anchor.view.isSome then do
    let view ← bundle.stateView engine goal.anchorState
    let _ ← goal.objective.evaluate view network (noChanges goal.decisions)
    return ()
  else .ok ()

def reviseGoal (goal : GoalRevision F) : Edit F String := do
  let bundle ← Program.get
  let anchor ← okOr bundle.document.states[goal.anchorState]? "goal anchor state is unavailable"
  lift (goal.decisions.validate anchor.formulation)
  lift (goal.objective.validate goal.decisions)
  let network ← lift (bundle.stateNetwork engine goal.anchorState)
  lift (checkAnchor engine bundle goal anchor network)
  refuse (goal.parent ≠ bundle.document.activeGoal)
    "goal revision must name the current goal as its parent"
  let id := recordId engine goal.toJson
  Program.modify (setGoal id goal)
  return id

end Changing

/-! ### Import and export -/

section Portable

variable (engine : Engine F)

def journalRecord (artifact : String) : ExperimentRecord F :=
  { startState := none, goal := none, kind := .historicalImport
    rationale := "Imported completed journal evidence; electrical states are unavailable"
    evidence := [artifact], trials := [], resultStates := [], assessedRecommendation := none
    solveCount := 0, termination := "historical_evidence_only" }

/-- `value[name]`, which is null on anything that has no such member. -/
def member (value : Json F) (name : String) : Json F :=
  match value with
  | .obj fields => (fields.lookup name).getD .null
  | _ => .null

def isJournal (value : Json F) : Bool :=
  match member value "schema", member value "version", member value "records" with
  | .str "tellegen.experiment-journal", .int 1, .arr _ => true
  | _, _, _ => false

def importJournal (id title text : String) : Result (StudyBundle F) := do
  refuse (text.utf8ByteSize > maxBundleBytes) "journal exceeds the import limit"
  let value ← lift (engine.parseJson text)
  refuse (!isJournal value) "unsupported historical journal"
  let bundle ← lift (empty id title)
  let artifact : StudyArtifact := { kind := .evidence, text }
  let _ ← lift (validateArtifact engine artifact)
  let artifactId := recordId engine (artifact.toJson (F := F))
  let bundle := bundle.insertArtifact artifactId artifact
  let record := journalRecord artifactId
  let experimentId := recordId engine (.arr [Json.ofNat 0, record.toJson])
  let bundle := bundle.insertExperiment experimentId record
  bundle.validate engine
  return bundle

/-- The optional `schema` at the top of an imported text. -/
def readSchema : Read F (Option String) := fun value => do
  let fields ← Json.entries value
  Json.fieldOption fields "schema" Json.readStr

/-- `StudyBundle::import`. An accepted older bundle becomes one of the current
version. -/
def importText (text : String) : Result (StudyBundle F) := do
  refuse (text.utf8ByteSize > maxBundleBytes) "Study bundle exceeds the 512 MiB import limit"
  let value ← lift (describe "invalid Study bundle: " (engine.parseJson text))
  let schema ← lift (describe "invalid Study bundle: " (readSchema value))
  if schema = some "tellegen.experiment-journal" then
    importJournal engine (engine.contentId text) "Imported journal evidence" text
  else
    let bundle ← lift (describe "invalid Study bundle: " (StudyBundle.read ElementKey.read value))
    bundle.validate engine
    return bundle.atVersion studyVersion

/-- `StudyBundle::export`. -/
def exportText (bundle : StudyBundle F) : Result String := do
  bundle.validate engine
  let text := engine.printJson bundle.toJson
  refuse (text.utf8ByteSize > maxBundleBytes)
    "Study exceeds 512 MiB; export a branch or remove unneeded artifacts in a copy"
  return text

end Portable

end StudyBundle

end Tellegen
