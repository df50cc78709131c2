import Tellegen.EnergizedNetwork
import Tellegen.FixedPoint

/-!
The views of one operating point: its terminal and equipment values, their
compact summary, and pages of them. Each is computed from the phasors of a
fixed point on its own.
-/

open Binary64 Outcome

namespace Tellegen.Multiconductor

/-! ### Records -/

structure McTerminalResult (F : Type) where
  bus : String
  terminal : String
  voltage : Complex64 F
  currentIntoNetwork : Complex64 F
  powerIntoNetwork : Complex64 F

structure McSourceReaction (F : Type) where
  source : String
  terminal : String
  currentIntoNetwork : Complex64 F
  powerIntoNetwork : Complex64 F

structure McVoltageViolation (F : Type) where
  load : String
  branch : ℕ
  bus : String
  voltage : F
  nominalVoltage : F
  voltagePu : F
  bound : String

structure McElementPort (F : Type) where
  element : String
  kind : String
  branch : ℕ
  bus : String
  terminal : String
  currentIntoElement : Complex64 F
  powerIntoElement : Complex64 F

/-- Qualification of the final operating point, independent of voltage limits. -/
inductive McLoadModelStatus where
  | original | modified | unverified
  deriving DecidableEq

structure McLoadModelAssessment (F : Type) where
  status : McLoadModelStatus
  modifiedBranchCount : ℕ
  originalKclResidual : Option F
  originalScaledKclResidual : Option F
  options : McPfOptions F

structure McLoadModelChange (F : Type) where
  load : String
  branch : ℕ
  bus : String
  voltagePu : F
  solvedPower : Complex64 F
  originalPower : Option (Complex64 F)

structure McNetworkScope where
  excludedIslandCount : ℕ
  excludedBusCount : ℕ
  excludedEquipmentCount : ℕ
  excludedLoadCount : ℕ
  deriving DecidableEq

structure McPfResult (F : Type) where
  networkScope : Option McNetworkScope
  excludedIslands : List McExcludedIsland
  converged : Bool
  loadModel : Option (McLoadModelAssessment F)
  loadModelChanges : List (McLoadModelChange F)
  voltageValid : Bool
  minVoltagePu : Option F
  maxVoltagePu : Option F
  voltageViolations : List (McVoltageViolation F)
  iterations : ℕ
  factorizationCount : ℕ
  matrixDimension : ℕ
  matrixNonzeros : ℕ
  voltageChange : F
  physicalKclResidual : F
  scaledKclResidual : F
  terminals : List (McTerminalResult F)
  elementPorts : List (McElementPort F)
  sourceReactions : List (McSourceReaction F)

structure McPfSummary (F : Type) where
  networkScope : Option McNetworkScope
  converged : Bool
  loadModel : Option (McLoadModelAssessment F)
  voltageValid : Bool
  minVoltagePu : Option F
  maxVoltagePu : Option F
  voltageViolationCount : ℕ
  iterations : ℕ
  factorizationCount : ℕ
  matrixDimension : ℕ
  matrixNonzeros : ℕ
  voltageChange : F
  physicalKclResidual : F
  scaledKclResidual : F
  terminalCount : ℕ
  elementPortCount : ℕ
  sourcePowerIntoNetwork : Complex64 F
  passiveLoss : Complex64 F
  solveCount : ℕ

structure McPfDetailQuery where
  bus : Option String
  element : Option String
  portOffset : ℕ
  portLimit : ℕ

def McPfDetailQuery.defaultPortLimit : ℕ := 20

def McPfDetailQuery.maxPortLimit : ℕ := 500

structure McPfDetail (F : Type) where
  solveCount : ℕ
  terminals : List (McTerminalResult F)
  elementPorts : List (McElementPort F)
  /-- Ports matching the query before paging. -/
  elementPortTotal : ℕ

def scope (islands : List McExcludedIsland) : Option McNetworkScope :=
  if islands = [] then none
  else
    let equipment := (islands.flatMap McExcludedIsland.equipment).dedup
    some
      { excludedIslandCount := islands.length
        excludedBusCount := (islands.map fun island => island.buses.length).sum
        excludedEquipmentCount := equipment.length
        excludedLoadCount := equipment.countP fun e => e.kind = "load" }

/-! ### Rows -/

variable {F : Type} [Libm F] [SparseLu F] (prepared : PreparedNetwork F)

def terminalId (i : prepared.Terminals) : String × String := prepared.index.terminalIds.get i

def terminalResult (voltage : Voltage F prepared.index.size) (i : prepared.Terminals) :
    McTerminalResult F :=
  let current := passiveCurrent prepared voltage i
  { bus := (terminalId prepared i).1
    terminal := (terminalId prepared i).2
    voltage := voltage i
    powerIntoNetwork := voltage i * current.conj
    currentIntoNetwork := current }

/-- The current and the power into a load branch at a terminal. -/
def loadPortValues {n : ℕ} (voltage : Voltage F n) (i : Fin n) (c branchCurrent : Complex64 F) :
    Complex64 F × Complex64 F :=
  let current := c.conj * branchCurrent
  (current, voltage i * current.conj)

def loadPort (voltage : Voltage F prepared.index.size) (load : BranchLoad F prepared.index.size)
    (branch : Fin load.branches) (branchCurrent : Complex64 F)
    (place : prepared.Terminals × Complex64 F) : McElementPort F :=
  let (current, power) := loadPortValues voltage place.1 place.2 branchCurrent
  { element := load.name
    kind := "load"
    branch := branch.val
    bus := (terminalId prepared place.1).1
    terminal := (terminalId prepared place.1).2
    currentIntoElement := current
    powerIntoElement := power }

/-- The terminal of a port, and the current and the power into the element there. -/
def passivePortValues {n : ℕ} (voltage : Voltage F n) (element : PreparedElement F n)
    (row : Fin element.arity) : Fin n × Complex64 F × Complex64 F :=
  let current := elementPortCurrent element row (element.portVoltages voltage)
  let i := element.terminals row
  (i, current, voltage i * current.conj)

def passivePort (voltage : Voltage F prepared.index.size)
    (element : PreparedElement F prepared.index.size) (row : Fin element.arity) :
    McElementPort F :=
  let (i, current, power) := passivePortValues voltage element row
  { element := element.name
    kind := element.kind
    branch := 0
    bus := (terminalId prepared i).1
    terminal := (terminalId prepared i).2
    currentIntoElement := current
    powerIntoElement := power }

/-- The current that a source injects at its terminal. -/
def sourceCurrent (state : FixedPoint F prepared.index.size)
    (source : SourceTerminal prepared.index.size) : Complex64 F :=
  passiveCurrent prepared state.voltage source.index + state.loadCurrent source.index

def sourceReaction (state : FixedPoint F prepared.index.size)
    (source : SourceTerminal prepared.index.size) : McSourceReaction F :=
  let current := sourceCurrent prepared state source
  { source := source.source
    terminal := source.terminal
    currentIntoNetwork := current
    powerIntoNetwork := state.voltage source.index * current.conj }

/-! ### Voltages of the loads -/

/-- The voltage of a load branch, and the edge of the normal band that it is beyond. -/
structure LoadVoltage (F : Type) where
  load : String
  bus : String
  branch : ℕ
  magnitude : F
  nominal : F
  pu : F
  bound : Option String

def loadVoltage {n : ℕ} (voltage : Voltage F n) (options : McPfOptions F) (load : BranchLoad F n)
    (branch : Fin load.branches) : LoadVoltage F :=
  let magnitude := (load.branchVoltage branch voltage).norm
  let nominal := load.nominalVoltage branch
  let pu := magnitude / nominal
  { load := load.name
    bus := load.bus
    branch := branch.val
    magnitude
    nominal
    pu
    bound :=
      if lt pu options.vMinPu then some "minimum"
      else if lt options.vMaxPu pu then some "maximum"
      else none }

/-- The voltages that `visit_load_voltages` reports, in its order. -/
def visitLoadVoltages (voltage : Voltage F prepared.index.size) (options : McPfOptions F) :
    List (LoadVoltage F) :=
  prepared.loads.flatMap fun load =>
    (List.finRange load.branches).map (loadVoltage voltage options load)

def minimumPu (visited : List (LoadVoltage F)) : Option F :=
  visited.foldl (fun minimum x => some (minimum.elim x.pu (Binary64.min · x.pu))) none

def maximumPu (visited : List (LoadVoltage F)) : Option F :=
  visited.foldl (fun maximum x => some (maximum.elim x.pu (Binary64.max · x.pu))) none

def LoadVoltage.violation (x : LoadVoltage F) : Option (McVoltageViolation F) :=
  x.bound.map fun bound =>
    { load := x.load
      branch := x.branch
      bus := x.bus
      voltage := x.magnitude
      nominalVoltage := x.nominal
      voltagePu := x.pu
      bound }

def assessLoadVoltages (voltage : Voltage F prepared.index.size) (options : McPfOptions F) :
    Option F × Option F × List (McVoltageViolation F) :=
  let visited := visitLoadVoltages prepared voltage options
  (minimumPu visited, maximumPu visited, visited.filterMap LoadVoltage.violation)

/-! ### The load model -/

def loadModelChange {n : ℕ} (voltage : Voltage F n) (load : BranchLoad F n)
    (branch : Fin load.branches) (actual : Complex64 F) (original : Option (Complex64 F)) :
    McLoadModelChange F :=
  let u := load.branchVoltage branch voltage
  { load := load.name
    branch := branch.val
    bus := load.bus
    voltagePu := u.norm / load.nominalVoltage branch
    solvedPower := u * actual.conj
    originalPower := original.map fun current => u * current.conj }

def differs (actual : Complex64 F) : Option (Complex64 F) → Bool
  | none => true
  | some current =>
    lt (lit (1 / 10 ^ 12) * (1 + Binary64.max actual.norm current.norm)) (actual - current).norm

/-- The currents of the original laws, and the branches where they are not the actual ones. -/
structure OriginalLaws (F : Type) (n : ℕ) where
  current : Voltage F n
  defined : Bool
  modifiedBranchCount : ℕ
  changes : List (McLoadModelChange F)

def McPfOptions.original (options : McPfOptions F) : McPfOptions F :=
  { options with voltageEnvelope := false }

def compareBranch {n : ℕ} (options : McPfOptions F) (voltage : Voltage F n)
    (load : BranchLoad F n) (state : OriginalLaws F n) (branch : Fin load.branches) :
    Except String (OriginalLaws F n) := do
  let actual ← load.branchCurrent branch voltage options
  let original := (load.branchCurrent branch voltage options.original).toOption
  let state : OriginalLaws F n :=
    match original with
    | some current =>
      { state with current := BranchLoad.addBranch state.current (load.incidence branch) current }
    | none => { state with defined := false }
  if differs actual original then
    .ok
      { state with
        modifiedBranchCount := state.modifiedBranchCount + 1
        changes := state.changes ++ [loadModelChange voltage load branch actual original] }
  else .ok state

/-- The residuals of the original laws, where they are defined and finite. -/
def originalResiduals (options : McPfOptions F) (voltage : Voltage F prepared.index.size)
    (laws : OriginalLaws F prepared.index.size) : Option (F × F) :=
  if laws.defined then
    (some (kclMetrics prepared voltage laws.current options.original)).filter fun (raw, scaled) =>
      isFinite raw && isFinite scaled
  else none

/-- The assessment, and the changed branches in the order in which they are visited. -/
def assessLoadModel (options : McPfOptions F) (voltage : Voltage F prepared.index.size) :
    Except String (McLoadModelAssessment F × List (McLoadModelChange F)) := do
  let laws ← prepared.loads.foldlM
    (fun state load =>
      (List.finRange load.branches).foldlM (compareBranch options voltage load) state)
    ⟨fun _ => 0, true, 0, []⟩
  let residuals := originalResiduals prepared options voltage laws
  let status : McLoadModelStatus :=
    if 0 < laws.modifiedBranchCount then .modified
    else if residuals.any fun (_, scaled) => le scaled 1 then .original
    else .unverified
  .ok
    ({ status
       modifiedBranchCount := laws.modifiedBranchCount
       originalKclResidual := residuals.map Prod.fst
       originalScaledKclResidual := residuals.map Prod.snd
       options },
      laws.changes)

/-! ### The complete result -/

def nonFiniteOutput : String :=
  "fixed-point PF produced a non-finite voltage, current, or power output"

def McTerminalResult.finite (row : McTerminalResult F) : Bool :=
  row.voltage.isFinite && row.currentIntoNetwork.isFinite && row.powerIntoNetwork.isFinite

def McElementPort.finite (port : McElementPort F) : Bool :=
  port.currentIntoElement.isFinite && port.powerIntoElement.isFinite

def McSourceReaction.finite (row : McSourceReaction F) : Bool :=
  row.currentIntoNetwork.isFinite && row.powerIntoNetwork.isFinite

def branchPorts (options : McPfOptions F) (voltage : Voltage F prepared.index.size)
    (load : BranchLoad F prepared.index.size) (branch : Fin load.branches) :
    Except String (List (McElementPort F)) := do
  let current ← load.branchCurrent branch voltage options
  .ok ((load.incidence branch).map (loadPort prepared voltage load branch current))

def loadPorts (options : McPfOptions F) (voltage : Voltage F prepared.index.size)
    (load : BranchLoad F prepared.index.size) : Except String (List (McElementPort F)) := do
  let ports ← (List.finRange load.branches).mapM (branchPorts prepared options voltage load)
  .ok ports.flatten

def passivePorts (voltage : Voltage F prepared.index.size)
    (element : PreparedElement F prepared.index.size) : List (McElementPort F) :=
  (List.finRange element.arity).map (passivePort prepared voltage element)

def factorizationCount : ℕ := prepared.factor.elim 0 RetainedComplexLu.factorizationCount

def buildResult (options : McPfOptions F) (state : FixedPoint F prepared.index.size) :
    Except String (McPfResult F) := do
  let voltage := state.voltage
  let terminals := (List.finRange prepared.index.size).map (terminalResult prepared voltage)
  let loads ← prepared.loads.mapM (loadPorts prepared options voltage)
  let elementPorts := loads.flatten ++ prepared.elements.flatMap (passivePorts prepared voltage)
  let sourceReactions := prepared.sourceTerminals.map (sourceReaction prepared state)
  if (terminals.any fun row => !row.finite) || (elementPorts.any fun port => !port.finite) ||
      (sourceReactions.any fun row => !row.finite) then
    .error nonFiniteOutput
  else
    let (minVoltagePu, maxVoltagePu, voltageViolations) :=
      assessLoadVoltages prepared voltage options
    let (loadModel, loadModelChanges) ← assessLoadModel prepared options voltage
    .ok
      { networkScope := none
        excludedIslands := []
        converged := true
        loadModel := some loadModel
        loadModelChanges
        voltageValid := voltageViolations.isEmpty
        minVoltagePu
        maxVoltagePu
        voltageViolations
        iterations := state.iterations
        factorizationCount := factorizationCount prepared
        matrixDimension := prepared.factor.elim 0 fun _ => prepared.unknown.length
        matrixNonzeros := prepared.factor.elim 0 RetainedComplexLu.nonzeros
        voltageChange := state.voltageChange
        physicalKclResidual := state.physicalKclResidual
        scaledKclResidual := state.scaledKclResidual
        terminals
        elementPorts
        sourceReactions }

/-! ### The summary -/

structure Tally (F : Type) where
  finite : Bool
  elementPortCount : ℕ
  passiveLoss : Complex64 F
  sourcePower : Complex64 F

def tallyTerminal (voltage : Voltage F prepared.index.size) (tally : Tally F)
    (i : prepared.Terminals) : Tally F :=
  let current := passiveCurrent prepared voltage i
  { tally with
    finite := tally.finite &&
      [voltage i, current, voltage i * current.conj].all Complex64.isFinite }

def tallyLoadTerminal {n : ℕ} (voltage : Voltage F n) (current : Complex64 F) (tally : Tally F)
    (place : Fin n × Complex64 F) : Tally F :=
  let terminalCurrent := place.2.conj * current
  { tally with
    finite := tally.finite &&
      [terminalCurrent, voltage place.1 * terminalCurrent.conj].all Complex64.isFinite
    elementPortCount := tally.elementPortCount + 1 }

def tallyLoad {n : ℕ} (options : McPfOptions F) (voltage : Voltage F n) (tally : Tally F)
    (load : BranchLoad F n) : Except String (Tally F) :=
  (List.finRange load.branches).foldlM
    (fun tally branch => do
      let current ← load.branchCurrent branch voltage options
      .ok ((load.incidence branch).foldl (tallyLoadTerminal voltage current) tally)) tally

def tallyElement {n : ℕ} (voltage : Voltage F n) (tally : Tally F) (element : PreparedElement F n) :
    Tally F :=
  (List.finRange element.arity).foldl
    (fun tally row =>
      let current := elementPortCurrent element row (element.portVoltages voltage)
      let power := voltage (element.terminals row) * current.conj
      { tally with
        finite := tally.finite && [current, power].all Complex64.isFinite
        passiveLoss := tally.passiveLoss + power
        elementPortCount := tally.elementPortCount + 1 }) tally

def tallySource (state : FixedPoint F prepared.index.size) (tally : Tally F)
    (source : SourceTerminal prepared.index.size) : Tally F :=
  let current := sourceCurrent prepared state source
  let power := state.voltage source.index * current.conj
  { tally with
    finite := tally.finite && [current, power].all Complex64.isFinite
    sourcePower := tally.sourcePower + power }

def summarize (options : McPfOptions F) (state : FixedPoint F prepared.index.size)
    (solveCount : ℕ) : Except String (McPfSummary F) := do
  let voltage := state.voltage
  let terminals := (List.finRange prepared.index.size).foldl (tallyTerminal prepared voltage)
    ⟨true, 0, 0, 0⟩
  let loads ← prepared.loads.foldlM (tallyLoad options voltage) terminals
  let elements := prepared.elements.foldl (tallyElement voltage) loads
  let tally := prepared.sourceTerminals.foldl (tallySource prepared state) elements
  if !tally.finite then .error nonFiniteOutput
  else
    let visited := visitLoadVoltages prepared voltage options
    let violations := visited.countP fun x => x.bound.isSome
    let (loadModel, _) ← assessLoadModel prepared options voltage
    .ok
      { networkScope := none
        converged := true
        loadModel := some loadModel
        voltageValid := decide (violations = 0)
        minVoltagePu := minimumPu visited
        maxVoltagePu := maximumPu visited
        voltageViolationCount := violations
        iterations := state.iterations
        factorizationCount := factorizationCount prepared
        matrixDimension := prepared.factor.elim 0 fun _ => prepared.unknown.length
        matrixNonzeros := prepared.factor.elim 0 RetainedComplexLu.nonzeros
        voltageChange := state.voltageChange
        physicalKclResidual := state.physicalKclResidual
        scaledKclResidual := state.scaledKclResidual
        terminalCount := prepared.index.size
        elementPortCount := tally.elementPortCount
        sourcePowerIntoNetwork := tally.sourcePower
        passiveLoss := tally.passiveLoss
        solveCount }

/-! ### Pages of details -/

/-- The positions of the terminals of a bus, in calculation order. -/
def NetworkIndex.busTerminals (index : NetworkIndex) (bus : String) : List (Fin index.size) :=
  (List.finRange index.size).filter fun i =>
    (index.busPositions bus).any fun terminals => i.val ∈ terminals.map Prod.snd

def wanted (query : McPfDetailQuery) (name : String) : Bool :=
  query.element.all fun element => element = name

/-- The ports so far that match the query, and those among them that are on the page. -/
structure Page (F : Type) where
  total : ℕ
  ports : List (McElementPort F)

def pagePort (query : McPfDetailQuery) (stop : ℕ) (state : ℕ × List (McElementPort F))
    (port : McElementPort F) : ℕ × List (McElementPort F) :=
  (state.1 + 1,
    if query.portOffset ≤ state.1 ∧ state.1 < stop then state.2 ++ [port] else state.2)

def pageLoad (options : McPfOptions F) (voltage : Voltage F prepared.index.size)
    (query : McPfDetailQuery) (stop : ℕ) (page : Page F)
    (load : BranchLoad F prepared.index.size) : Except String (Page F) :=
  if !wanted query load.name then .ok page
  else
    let count := ((List.finRange load.branches).map fun branch =>
      (load.incidence branch).length).sum
    if query.portOffset < page.total + count ∧ page.total < stop then do
      let (_, ports) ← (List.finRange load.branches).foldlM
        (fun state branch => do
          let current ← load.branchCurrent branch voltage options
          .ok ((load.incidence branch).foldl
            (fun state place =>
              pagePort query stop state (loadPort prepared voltage load branch current place))
            state)) (page.total, page.ports)
      .ok ⟨page.total + count, ports⟩
    else .ok ⟨page.total + count, page.ports⟩

def pageElement (voltage : Voltage F prepared.index.size) (query : McPfDetailQuery) (stop : ℕ)
    (page : Page F) (element : PreparedElement F prepared.index.size) : Page F :=
  if !wanted query element.name then page
  else if query.portOffset < page.total + element.arity ∧ page.total < stop then
    ⟨page.total + element.arity,
      ((List.finRange element.arity).foldl
        (fun state row => pagePort query stop state (passivePort prepared voltage element row))
        (page.total, page.ports)).2⟩
  else ⟨page.total + element.arity, page.ports⟩

/-- The number of ports on a page. Zero asks for the default. -/
def McPfDetailQuery.limit (query : McPfDetailQuery) : Except String ℕ :=
  if query.portLimit = 0 then .ok McPfDetailQuery.defaultPortLimit
  else if McPfDetailQuery.maxPortLimit < query.portLimit then
    .error ("detail pages hold at most " ++ toString McPfDetailQuery.maxPortLimit ++
      " equipment ports")
  else .ok query.portLimit

def detail (options : McPfOptions F) (state : FixedPoint F prepared.index.size) (solveCount : ℕ)
    (query : McPfDetailQuery) : Except String (McPfDetail F) := do
  let limit ← query.limit
  let voltage := state.voltage
  let terminals := query.bus.elim [] fun bus =>
    (prepared.index.busTerminals bus).map (terminalResult prepared voltage)
  let stop := query.portOffset + limit
  let loads ← prepared.loads.foldlM (pageLoad prepared options voltage query stop) ⟨0, []⟩
  let page := prepared.elements.foldl (pageElement prepared voltage query stop) loads
  .ok
    { solveCount
      terminals
      elementPorts := page.ports
      elementPortTotal := page.total }

end Tellegen.Multiconductor
