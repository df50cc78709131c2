import Tellegen.Lib.Binary64
import Tellegen.Lib.Outcome

/-!
Physical edits of a multiconductor optimal power flow instance, addressed by
the identity of a component. An edit is checked before it is written, and a
batch of edits is one change of the network and of its active constraints.
-/

open Binary64

namespace Tellegen.McOpf

/-! ### Failures -/

inductive McOpfErrorKind where
  | invalidInput
  | unsupportedInput
  | cancelled
  | numericalFailure
  | physicalValidationFailure
  | serializationFailure
  deriving DecidableEq, Repr

inductive McOpfStage where
  | input
  | preparation
  | compilation
  | solver
  | validation
  | import
  | export
  deriving DecidableEq, Repr

inductive DiagnosticSeverity where
  | remark
  | warning
  | error
  deriving DecidableEq, Repr

structure McOpfDiagnostic where
  code : String
  severity : DiagnosticSeverity
  message : String
  target : Option String
  deriving DecidableEq, Repr

/-- The solver status, the residuals and the violations of a failure, which only the optimizer
sets, are left out. -/
structure McOpfError where
  kind : McOpfErrorKind
  stage : McOpfStage
  message : String
  diagnostics : List McOpfDiagnostic
  deriving DecidableEq, Repr

def McOpfError.new (kind : McOpfErrorKind) (stage : McOpfStage) (message : String) : McOpfError :=
  ⟨kind, stage, message, []⟩

structure PowerIoError where
  message : String
  diagnostics : List McOpfDiagnostic

/-- `str::contains` -/
def containsText (text part : String) : Bool :=
  text.toList.tails.any fun tail => part.toList.isPrefixOf tail

def McOpfError.fromPowerIo (stage : McOpfStage) (error : PowerIoError) : McOpfError :=
  let kind :=
    if stage = .export then .serializationFailure
    else if error.diagnostics.any fun d => containsText d.code "UNSUPPORTED" then
      .unsupportedInput
    else .invalidInput
  { McOpfError.new kind stage error.message with diagnostics := error.diagnostics }

def invalid (target message : String) : McOpfError :=
  let text := "session " ++ target ++ ": " ++ message
  { McOpfError.new .invalidInput .input text with
    diagnostics := [⟨"MC_OPF.SESSION_EDIT_INVALID", .error, text, some target⟩] }

/-! ### The parts of a network that edits reach -/

structure OpfLoad (F : Type) where
  name : String
  pNom : List F
  qNom : List F

structure OpfInverter (F : Type) where
  name : String
  sMax : List F
  pMax : Option (List F)
  pAvail : Option F

structure VoltVar (F : Type) where
  breakpoints : List F
  qLimits : List F

structure VoltWatt (F : Type) where
  breakpoints : List F
  pLimits : List F

structure ControlProfile (F : Type) where
  name : String
  /-- The power factor of a power-factor control. -/
  powerFactor : Option F
  voltVar : Option (VoltVar F)
  voltWatt : Option (VoltWatt F)

structure OpfGenerator (F : Type) where
  name : String
  pNom : List F
  cost : Option (List F)
  pMin : Option (List F)
  pMax : Option (List F)
  qMin : Option (List F)
  qMax : Option (List F)

structure OpfSource (F : Type) where
  name : String
  energyCostRate : Option (List F)

structure OpfLine (F : Type) where
  name : String
  terminalMapFrom : List String
  iMax : Option (List F)
  sMax : Option (List F)

structure OpfBus (F : Type) where
  id : String
  terminals : List String
  vMin : Option F
  vMax : Option F

/-- A network by what edits reach of it. `rest` is all that none of them reads or writes. -/
structure OpfNetwork (F T : Type) where
  buses : List (OpfBus F)
  lines : List (OpfLine F)
  loads : List (OpfLoad F)
  ibrs : List (OpfInverter F)
  generators : List (OpfGenerator F)
  sources : List (OpfSource F)
  controlProfiles : List (ControlProfile F)
  rest : T

inductive McOpfEdit (F C : Type) where
  | loadPower (load : String) (pW qVar : List F)
  | inverterAvailability (inverter : String) (pMaxW : Option (List F))
  | inverterControlProfile (profile : String) (powerFactor : Option F)
      (voltVarBreakpointsV voltVarQLimits voltWattBreakpointsV voltWattPLimits : Option (List F))
  | generatorCost (generator : String) (costPerKwh : Option (List F))
  | sourceCost (source : String) (costPerKwh : Option (List F))
  | generatorPowerBounds (generator : String) (pMinW pMaxW qMinVar qMaxVar : Option (List F))
  | lineLimits (line : String) (currentA apparentPowerVa : Option (List F))
  | busVoltageBounds (bus : String) (minimumV maximumV : Option F)
  | constraintSelection (constraints : C)

variable {F T C α : Type} [Binary64 F]

/-! ### Checks -/

def named (items : List α) (name : String) (identity : α → String)
    (edit : α → Except McOpfError α) : Except McOpfError (List α) :=
  match items with
  | [] => .error (invalid name "unknown component identity")
  | item :: rest =>
    if identity item = name then
      if rest.any fun other => identity other = name then
        .error (invalid name "ambiguous component identity")
      else (edit item).map (· :: rest)
    else (named rest name identity edit).map (item :: ·)

def refuseIf (condition : Bool) (target message : String) : Except McOpfError Unit :=
  if condition then .error (invalid target message) else .ok ()

def numbers (target : String) (values : List F) (nonnegative : Bool) : Except McOpfError Unit :=
  refuseIf (values.any fun v => !isFinite v || (nonnegative && lt v 0)) target
    "values must be finite and in the field's physical domain"

def vector (target : String) (values : List F) (n : ℕ) (nonnegative : Bool) :
    Except McOpfError Unit := do
  refuseIf (values.length != n) target "vector length differs from the canonical equipment axis"
  numbers target values nonnegative

def optionalVector (target : String) (values : Option (List F)) (n : ℕ) (nonnegative : Bool) :
    Except McOpfError Unit :=
  match values with
  | some values => vector target values n nonnegative
  | none => .ok ()

def cost (target : String) (values : Option (List F)) (n : ℕ) : Except McOpfError Unit :=
  match values with
  | some values => do
      refuseIf (values.length != 1 && values.length != n) target "cost must be scalar or per coil"
      numbers target values false
  | none => .ok ()

def orderedBounds (target : String) (lo hi : Option (List F)) : Except McOpfError Unit :=
  match lo, hi with
  | some lo, some hi =>
    refuseIf ((lo.zip hi).any fun (lo, hi) => lt hi lo) target "minimum exceeds maximum"
  | _, _ => .ok ()

/-- The values of a curve after a change of them. -/
def profileCurve (target : String) (current : List F) (replacement : Option (List F)) (count : ℕ)
    (breakpoints : Bool) : Except McOpfError (List F) :=
  match replacement with
  | none => .ok current
  | some v => do
      vector target v count false
      refuseIf (breakpoints && ((v.any fun x => le x 0) ||
          (v.zip v.tail).any fun (a, b) => le b a)) target
        "voltage breakpoints must be positive and strictly ordered"
      .ok v

/-! ### Edits -/

def editPowerFactor (profile : String) (powerFactor : Option F) (p : ControlProfile F) :
    Except McOpfError (ControlProfile F) :=
  match powerFactor with
  | none => .ok p
  | some pf => do
      refuseIf (!isFinite pf || eq pf 0 || lt 1 (abs pf)) profile
        "power factor must satisfy 0 < |pf| <= 1"
      match p.powerFactor with
      | none => .error (invalid profile "profile has no power-factor control")
      | some _ => .ok { p with powerFactor := some pf }

def editVoltVar (profile : String) (breakpointsV qLimits : Option (List F))
    (p : ControlProfile F) : Except McOpfError (ControlProfile F) :=
  if breakpointsV.isSome || qLimits.isSome then
    match p.voltVar with
    | none => .error (invalid profile "profile has no volt-var control")
    | some c => do
        let breakpoints ← profileCurve profile c.breakpoints breakpointsV 4 true
        let limits ← profileCurve profile c.qLimits qLimits 2 false
        .ok { p with voltVar := some ⟨breakpoints, limits⟩ }
  else .ok p

def editVoltWatt (profile : String) (breakpointsV pLimits : Option (List F))
    (p : ControlProfile F) : Except McOpfError (ControlProfile F) :=
  if breakpointsV.isSome || pLimits.isSome then
    match p.voltWatt with
    | none => .error (invalid profile "profile has no volt-watt control")
    | some c => do
        let breakpoints ← profileCurve profile c.breakpoints breakpointsV 2 true
        let limits ← profileCurve profile c.pLimits pLimits 2 false
        .ok { p with voltWatt := some ⟨breakpoints, limits⟩ }
  else .ok p

/-- A network and the constraints that are active on it. -/
abbrev Declared (F T C : Type) := OpfNetwork F T × C

def applyEdit (declared : Declared F T C) : McOpfEdit F C → Except McOpfError (Declared F T C)
  | .inverterControlProfile profile powerFactor voltVarBreakpointsV voltVarQLimits
      voltWattBreakpointsV voltWattPLimits => do
      let profiles ← named declared.1.controlProfiles profile ControlProfile.name fun p => do
        let p ← editPowerFactor profile powerFactor p
        let p ← editVoltVar profile voltVarBreakpointsV voltVarQLimits p
        editVoltWatt profile voltWattBreakpointsV voltWattPLimits p
      .ok ({ declared.1 with controlProfiles := profiles }, declared.2)
  | .loadPower load pW qVar => do
      let loads ← named declared.1.loads load OpfLoad.name fun d => do
        vector load pW d.pNom.length false
        vector load qVar d.qNom.length false
        .ok { d with pNom := pW, qNom := qVar }
      .ok ({ declared.1 with loads }, declared.2)
  | .inverterAvailability inverter pMaxW => do
      let ibrs ← named declared.1.ibrs inverter OpfInverter.name fun d => do
        optionalVector inverter pMaxW d.sMax.length true
        let total := pMaxW.map Binary64.sum
        refuseIf (total.any fun v => !isFinite v) inverter "total availability is not finite"
        .ok { d with pMax := pMaxW, pAvail := total }
      .ok ({ declared.1 with ibrs }, declared.2)
  | .generatorCost generator costPerKwh => do
      let generators ← named declared.1.generators generator OpfGenerator.name fun d => do
        cost generator costPerKwh d.pNom.length
        .ok { d with cost := costPerKwh }
      .ok ({ declared.1 with generators }, declared.2)
  | .sourceCost source costPerKwh => do
      let sources ← named declared.1.sources source OpfSource.name fun d => do
        match costPerKwh with
        | none => .ok ()
        | some values => do
            refuseIf values.isEmpty source "cost cannot be empty"
            numbers source values false
        .ok { d with energyCostRate := costPerKwh }
      .ok ({ declared.1 with sources }, declared.2)
  | .generatorPowerBounds generator pMinW pMaxW qMinVar qMaxVar => do
      let generators ← named declared.1.generators generator OpfGenerator.name fun d => do
        [pMinW, pMaxW, qMinVar, qMaxVar].forM fun values =>
          optionalVector generator values d.pNom.length false
        orderedBounds generator pMinW pMaxW
        orderedBounds generator qMinVar qMaxVar
        .ok { d with pMin := pMinW, pMax := pMaxW, qMin := qMinVar, qMax := qMaxVar }
      .ok ({ declared.1 with generators }, declared.2)
  | .lineLimits line currentA apparentPowerVa => do
      let lines ← named declared.1.lines line OpfLine.name fun d => do
        [currentA, apparentPowerVa].forM fun values =>
          optionalVector line values d.terminalMapFrom.length true
        .ok { d with iMax := currentA, sMax := apparentPowerVa }
      .ok ({ declared.1 with lines }, declared.2)
  | .busVoltageBounds bus minimumV maximumV => do
      numbers bus (minimumV.toList ++ maximumV.toList) true
      match minimumV, maximumV with
      | some lo, some hi => refuseIf (lt hi lo) bus "minimum exceeds maximum"
      | _, _ => .ok ()
      let buses ← named declared.1.buses bus OpfBus.id fun d =>
        .ok { d with vMin := minimumV, vMax := maximumV }
      .ok ({ declared.1 with buses }, declared.2)
  | .constraintSelection constraints => .ok (declared.1, constraints)

end Tellegen.McOpf
