import Tellegen.OpfEdits

/-!
A session of optimal power flow keeps the instance, the model compiled from it
and the last accepted point. Edits and changes of options are compiled before
they are committed. Whether the accepted result is current is inferred from
the revision and the number of the attempt that it was found at.
-/

open Binary64 Outcome

namespace Tellegen.McOpf

/-! ### Instances and their initial points -/

inductive Quantity where
  | terminalVoltageMagnitude
  | terminalVoltageAngle
  | loadActivePower
  | loadReactivePower
  | generatorActivePower
  | generatorReactivePower
  | transformerTap
  deriving DecidableEq, Repr

def quantities : List Quantity :=
  [.terminalVoltageMagnitude, .terminalVoltageAngle, .loadActivePower, .loadReactivePower,
    .generatorActivePower, .generatorReactivePower, .transformerTap]

structure McOpfOptions (F : Type) where
  voltageBaseV : F
  powerBaseVa : F
  acceptanceTolerance : F
  maxIterations : ℕ
  objectiveScale : F
  collectProfile : Bool
  collectDuals : Bool

/-- `objective` is what the instance declares beside its network and its constraints. -/
structure McAcOpfInstance (F T C O P : Type) where
  network : OpfNetwork F T
  objective : O
  constraints : C
  initialPoint : Option P

/-- A compiled problem. `rest` is all but the names and the start of its variables. -/
structure Model (F M : Type) where
  varNames : List String
  x0 : List F
  rest : M

/-- An accepted result by its options. `rest` is the report of the point. -/
structure McOpfResult (F Q : Type) where
  options : McOpfOptions F
  rest : Q

/-- The data model library as the session uses it, with the identities that a quantity has in a
network. -/
structure PowerIo (F T C O P Prep : Type) where
  identities : OpfNetwork F T → Quantity → List String
  quantityName : Quantity → String
  /-- The values of a point, by the identities that they are assigned to. -/
  values : P → Quantity → Option (List (String × F))
  hasSwitchClosed : P → Bool
  hasCapacitorSteps : P → Bool
  buildPoint : OpfNetwork F T → (Quantity → Option (List F)) → Except PowerIoError P
  fromNetwork : OpfNetwork F T → Except PowerIoError (McAcOpfInstance F T C O P)
  withNetwork : McAcOpfInstance F T C O P → OpfNetwork F T →
    Except PowerIoError (McAcOpfInstance F T C O P)
  buildPreparation : McAcOpfInstance F T C O P → F × F → Except PowerIoError Prep

/-- The compiler of prepared problems and the projection of starting points onto them. -/
structure Compiler (F T C O P Prep M Q : Type) where
  fingerprint : Prep → Except McOpfError String
  compileWithParameters : Prep → OpfNetwork F T → Except String (Model F M)
  /-- The start of a declared point, with what was found. -/
  apply : Model F M → McAcOpfInstance F T C O P →
    Except McOpfError (Model F M × List McOpfDiagnostic)
  /-- Rebuilds the dependent columns of a vector. -/
  refresh : Model F M → List F → Except McOpfError (List F)
  /-- The instance with the voltages and taps of a result as its initial point. -/
  voltageTapPoint : McAcOpfInstance F T C O P → McOpfResult F Q → Model F M →
    Except McOpfError (McAcOpfInstance F T C O P)

variable {F T C O P Prep M Q : Type} [Binary64 F]

def fromPowerIo {α : Type} (stage : McOpfStage) (result : Except PowerIoError α) :
    Except McOpfError α := result.mapError (McOpfError.fromPowerIo stage)

def McOpfOptions.invalidFields (options : McOpfOptions F) : List (String × String) :=
  (([("voltage_base_v", options.voltageBaseV), ("power_base_va", options.powerBaseVa),
      ("acceptance_tolerance", options.acceptanceTolerance),
      ("objective_scale", options.objectiveScale)].filter fun (_, v) =>
        !isFinite v || le v 0).map fun (name, _) => (name, "must be finite and positive")) ++
    if options.maxIterations = 0 ∨ 2 ^ 31 - 1 < options.maxIterations then
      [("max_iterations", "must be in 1..=i32::MAX")]
    else []

def McOpfOptions.validate (options : McOpfOptions F) : Except McOpfError Unit :=
  if options.invalidFields = [] then .ok ()
  else
    .error
      { McOpfError.new .invalidInput .input "invalid multiconductor OPF options" with
        diagnostics := options.invalidFields.map fun (name, requirement) =>
          ⟨"MC_OPF.INVALID_OPTION", .error, name ++ " " ++ requirement,
            some ("/options/" ++ name)⟩ }

/-- `==` of options -/
def McOpfOptions.equal (a b : McOpfOptions F) : Bool :=
  eq a.voltageBaseV b.voltageBaseV && eq a.powerBaseVa b.powerBaseVa &&
    eq a.acceptanceTolerance b.acceptanceTolerance && a.maxIterations == b.maxIterations &&
    eq a.objectiveScale b.objectiveScale && a.collectProfile == b.collectProfile &&
    a.collectDuals == b.collectDuals

def McOpfOptions.sameBases (a b : McOpfOptions F) : Bool :=
  eq a.voltageBaseV b.voltageBaseV && eq a.powerBaseVa b.powerBaseVa

/-! ### Initial points -/

def invalidPoint (target message : String) : McOpfError :=
  let text := "initial point " ++ target ++ ": " ++ message
  { McOpfError.new .invalidInput .input text with
    diagnostics := [⟨"MC_OPF.INITIAL_POINT_INVALID", .error, text, some target⟩] }

def unsupportedPoint (target : String) : McOpfError :=
  let text := "initial point " ++ target ++ ": " ++
    "is equipment state, not a continuous IVR starting variable"
  { McOpfError.new .unsupportedInput .input text with
    diagnostics := [⟨"MC_OPF.INITIAL_POINT_UNSUPPORTED", .error, text, some target⟩] }

def outside (q : Quantity) (v : F) : Bool :=
  !isFinite v || (q == .terminalVoltageMagnitude && lt v 0) || (q == .transformerTap && le v 0)

section Prepare

variable (lib : PowerIo F T C O P Prep)

def validateQuantity (point : P) (network : OpfNetwork F T) (q : Quantity) :
    Except McOpfError Unit :=
  match lib.values point q with
  | none => .ok ()
  | some values =>
    if (∀ id ∈ lib.identities network q, id ∈ values.map Prod.fst) ∧
        (∀ id ∈ values.map Prod.fst, id ∈ lib.identities network q) then
      match values.find? fun (_, v) => outside q v with
      | none => .ok ()
      | some (id, _) =>
        .error (invalidPoint (lib.quantityName q ++ "/" ++ id)
          "value is nonfinite or outside its physical coordinate domain")
    else .error (invalidPoint (lib.quantityName q)
      "component/terminal identities differ from the declared instance")

def validateIdentities (point : P) (network : OpfNetwork F T) : Except McOpfError Unit := do
  quantities.forM (validateQuantity lib point network)
  if lib.hasSwitchClosed point then .error (unsupportedPoint "switch_closed")
  else if lib.hasCapacitorSteps point then .error (unsupportedPoint "capacitor_steps")
  else .ok ()

/-- The preparation of the physical problem, which no initial point changes. -/
def prepare (inst : McAcOpfInstance F T C O P) (bases : F × F) : Except McOpfError Prep :=
  match inst.initialPoint with
  | none => fromPowerIo .preparation (lib.buildPreparation inst bases)
  | some point => do
      validateIdentities lib point inst.network
      let physical ← fromPowerIo .preparation (lib.fromNetwork inst.network)
      fromPowerIo .preparation (lib.buildPreparation
        { physical with objective := inst.objective, constraints := inst.constraints } bases)

/-- The values of a quantity in the order of its identities. The last of several values of one
identity counts. -/
def orderedValues (point : P) (network : OpfNetwork F T) (q : Quantity) :
    Except McOpfError (Option (List F)) :=
  match lib.values point q with
  | none => .ok none
  | some values => do
      let ordered ← (lib.identities network q).mapM fun id =>
        match values.reverse.lookup id with
        | some v => .ok v
        | none => .error (invalidPoint id "missing identity during export")
      .ok (some ordered)

/-- Stores the initial point in the order of the network. -/
def canonicalInstance (inst : McAcOpfInstance F T C O P) :
    Except McOpfError (McAcOpfInstance F T C O P) :=
  match inst.initialPoint with
  | none => .ok inst
  | some point => do
      let families ← quantities.mapM fun q => do
        let ordered ← orderedValues lib point inst.network q
        .ok (q, ordered)
      let canonical ← fromPowerIo .export (lib.buildPoint inst.network fun q =>
        (families.lookup q).getD none)
      .ok { inst with initialPoint := some canonical }

end Prepare

/-! ### The session -/

inductive McOpfStartUsed where
  | declared
  | previousPrimal
  | previousOperatingPoint
  deriving DecidableEq, Repr

inductive McOpfStart where
  | declared
  | lastAccepted
  deriving DecidableEq, Repr

/-- An accepted result with the revision and the attempt that it was found at. -/
structure McOpfSessionResult (F Q : Type) where
  revision : ℕ
  attempt : ℕ
  compilation : ℕ
  start : McOpfStartUsed
  result : McOpfResult F Q

structure McOpfSession (F T C O P M Q : Type) where
  inst : McAcOpfInstance F T C O P
  options : McOpfOptions F
  model : Model F M
  fingerprint : String
  revision : ℕ
  attempts : ℕ
  compilations : ℕ
  accepted : Option (McOpfSessionResult F Q)
  /-- The last accepted value of each variable. -/
  primal : List (String × F)
  primalNamesUnique : Bool

structure PreparedSolve (F M : Type) where
  model : Model F M
  fingerprint : String
  initialDiagnostics : List McOpfDiagnostic

/-- The optimizer and the checks of its point. It may fail for any reason, and a cancellation
may stop it at any point. -/
abbrev Optimizer (F T C O P M Q : Type) :=
  McAcOpfInstance F T C O P → McOpfOptions F → PreparedSolve F M →
    Except McOpfError (McOpfResult F Q × List F)

/-- The answers of a cancellation flag before and after the optimization. Another thread may set
it in between. -/
structure Cancel where
  atInput : Bool
  atValidation : Bool

def cancelled (flag : Bool) (stage : McOpfStage) : Except McOpfError Unit :=
  if flag then .error (McOpfError.new .cancelled stage "multiconductor OPF cancelled") else .ok ()

/-- `u64::MAX` -/
def counterMax : ℕ := 2 ^ 64 - 1

def increment (value : ℕ) : Except McOpfError ℕ :=
  if value < counterMax then .ok (value + 1)
  else .error (invalid "session" "revision/counter exhausted")

def collect : List (String × F) → List (String × F)
  | [] => []
  | (name, value) :: rest =>
    if name ∈ rest.map Prod.fst then collect rest else (name, value) :: collect rest

section Session

variable (lib : PowerIo F T C O P Prep) (compiler : Compiler F T C O P Prep M Q)

def compile (inst : McAcOpfInstance F T C O P) (options : McOpfOptions F) :
    Except McOpfError (Model F M × String) := do
  let prep ← prepare lib inst (options.voltageBaseV, options.powerBaseVa)
  let fingerprint ← compiler.fingerprint prep
  let model ← (compiler.compileWithParameters prep inst.network).mapError
    (McOpfError.new .invalidInput .compilation)
  .ok (model, fingerprint)

namespace McOpfSession

/-- Prepares and compiles, without solving. -/
def new (inst : McAcOpfInstance F T C O P) (options : McOpfOptions F) :
    Except McOpfError (McOpfSession F T C O P M Q) := do
  options.validate
  let (model, fingerprint) ← compile lib compiler inst options
  let inst ← canonicalInstance lib inst
  .ok
    { inst
      options
      model
      fingerprint
      revision := 0
      attempts := 0
      compilations := 1
      accepted := none
      primal := []
      primalNamesUnique := true }

variable (session : McOpfSession F T C O P M Q)

/-- None after a committed edit or any unsuccessful attempt. -/
def currentResult : Option (McOpfSessionResult F Q) :=
  session.accepted.filter fun r =>
    r.revision == session.revision && r.attempt == session.attempts

/-- The session after a batch of edits that has compiled. -/
def editedSession (edits : List (McOpfEdit F C)) :
    Except McOpfError (McOpfSession F T C O P M Q) := do
  let (network, constraints) ←
    edits.foldlM applyEdit (session.inst.network, session.inst.constraints)
  let candidate ← fromPowerIo .input (lib.withNetwork session.inst network)
  let candidate := { candidate with constraints }
  let (model, fingerprint) ← compile lib compiler candidate session.options
  let revision ← increment session.revision
  let compilations ← increment session.compilations
  .ok { session with inst := candidate, model, fingerprint, revision, compilations }

/-- A session after a fallible change of it, which commits all or nothing. -/
def commit (changed : Except McOpfError (McOpfSession F T C O P M Q)) :
    McOpfSession F T C O P M Q × Except McOpfError ℕ :=
  match changed with
  | .error error => (session, .error error)
  | .ok next => (next, .ok next.revision)

def applyEdits (edits : List (McOpfEdit F C)) :
    McOpfSession F T C O P M Q × Except McOpfError ℕ :=
  if edits = [] then (session, .ok session.revision)
  else session.commit (editedSession lib compiler session edits)

/-- The session after a change of its options. Only other bases need another model. -/
def changedSession (options : McOpfOptions F) :
    Except McOpfError (McOpfSession F T C O P M Q) := do
  options.validate
  if options.equal session.options then .ok session
  else
    let revision ← increment session.revision
    if options.sameBases session.options then .ok { session with options, revision }
    else
      let (model, fingerprint) ← compile lib compiler session.inst options
      let compilations ← increment session.compilations
      .ok { session with model, fingerprint, compilations, options, revision }

def setOptions (options : McOpfOptions F) : McOpfSession F T C O P M Q × Except McOpfError ℕ :=
  session.commit (changedSession lib compiler session options)

/-- The model at the start of the last accepted result. -/
def projectAccepted (accepted : McOpfSessionResult F Q) :
    Except McOpfError (Model F M × McOpfStartUsed × List McOpfDiagnostic) :=
  if accepted.result.options.sameBases session.options && session.primalNamesUnique &&
      decide session.model.varNames.Nodup then do
    let carried := (session.model.varNames.zip session.model.x0).map fun (name, x) =>
      (session.primal.lookup name).getD x
    let x ← compiler.refresh session.model carried
    .ok ({ session.model with x0 := x }, .previousPrimal, [])
  else do
    let inst ← compiler.voltageTapPoint session.inst accepted.result session.model
    let (model, diagnostics) ← compiler.apply session.model inst
    .ok (model, .previousOperatingPoint, diagnostics)

/-- The model at its start. A start that fails gives way to the declared one. -/
def initialized (start : McOpfStart) :
    Except McOpfError (Model F M × McOpfStartUsed × List McOpfDiagnostic) :=
  match session.accepted.filter fun _ => start == .lastAccepted with
  | none => do
      let (model, diagnostics) ← compiler.apply session.model session.inst
      .ok (model, .declared, diagnostics)
  | some accepted =>
    match projectAccepted compiler session accepted with
    | .ok projected => .ok projected
    | .error error => do
        let (model, diagnostics) ← compiler.apply session.model session.inst
        .ok (model, .declared, diagnostics ++
          [⟨"MC_OPF.SESSION_WARM_START_DISCARDED", .remark, error.message, none⟩])

/-- The session after an attempt that has succeeded. -/
def solved (start : McOpfStart) (cancel : Cancel) (optimize : Optimizer F T C O P M Q) :
    Except McOpfError (McOpfSession F T C O P M Q × McOpfSessionResult F Q) := do
  cancelled cancel.atInput .input
  let (model, used, initialDiagnostics) ← initialized compiler session start
  let (result, x) ← optimize session.inst session.options
    ⟨model, session.fingerprint, initialDiagnostics⟩
  cancelled cancel.atValidation .validation
  let primal := collect (session.model.varNames.zip x)
  let accepted : McOpfSessionResult F Q :=
    ⟨session.revision, session.attempts, session.compilations, used, result⟩
  .ok ({ session with
      primal
      primalNamesUnique := primal.length == session.model.varNames.length
      accepted := some accepted }, accepted)

/-- An attempt counts as soon as it has a number, whether or not it succeeds. -/
def solveCancellable (start : McOpfStart) (cancel : Cancel)
    (optimize : Optimizer F T C O P M Q) :
    McOpfSession F T C O P M Q × Except McOpfError (McOpfSessionResult F Q) :=
  match increment session.attempts with
  | .error error => (session, .error error)
  | .ok attempts =>
    match solved compiler { session with attempts } start cancel optimize with
    | .error error => ({ session with attempts }, .error error)
    | .ok (next, result) => (next, .ok result)

end McOpfSession

end Session

end Tellegen.McOpf
