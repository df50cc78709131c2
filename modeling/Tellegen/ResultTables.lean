import Tellegen.Lib.Interning
import Tellegen.OperatingPoint

/-!
The complete multiconductor result as columns. Names are codes of 32 bits into
one list, each name stored once; complex values are interleaved.
-/

open Binary64 Outcome

namespace Tellegen.Multiconductor

structure McPfResultTables (F : Type) where
  iterations : ℕ
  loadModel : Option (McLoadModelAssessment F)
  networkScope : Option McNetworkScope
  excludedIslands : List McExcludedIsland
  strings : List String
  terminalBus : List ℕ
  terminalName : List ℕ
  terminalVoltage : List F
  terminalCurrent : List F
  terminalPower : List F
  portElement : List ℕ
  portKind : List ℕ
  portBranch : List ℕ
  portBus : List ℕ
  portTerminal : List ℕ
  portCurrent : List F
  portPower : List F
  sourceName : List ℕ
  sourceTerminal : List ℕ
  sourceCurrent : List F
  sourcePower : List F

/-- The number of values of a `u32`. -/
def codes : ℕ := 2 ^ 32

/-- Each distinct name once, in first-seen order. -/
abbrev Names := Interning String

def interleaved {F : Type} (z : Complex64 F) : List F := [z.re, z.im]

/-- Tables that are being filled, whose strings are not yet theirs. -/
structure Filling (F : Type) where
  names : Names
  tables : McPfResultTables F

namespace Filling

variable {F : Type}

def start (iterations : ℕ) (loadModel : Option (McLoadModelAssessment F))
    (networkScope : Option McNetworkScope) (excludedIslands : List McExcludedIsland) : Filling F where
  names := .empty
  tables :=
    { iterations, loadModel, networkScope, excludedIslands
      strings := []
      terminalBus := []
      terminalName := []
      terminalVoltage := []
      terminalCurrent := []
      terminalPower := []
      portElement := []
      portKind := []
      portBranch := []
      portBus := []
      portTerminal := []
      portCurrent := []
      portPower := []
      sourceName := []
      sourceTerminal := []
      sourceCurrent := []
      sourcePower := [] }

/-- `names.index(name)` -/
def index (filling : Filling F) (name : String) : ℕ × Filling F :=
  let names := filling.names.insert name
  (names.code codes name, { filling with names })

def pushTerminal (filling : Filling F) (bus terminal : String)
    (voltage current power : Complex64 F) : Filling F :=
  let (bus, filling) := filling.index bus
  let (terminal, filling) := filling.index terminal
  { filling with
    tables :=
      { filling.tables with
        terminalBus := filling.tables.terminalBus ++ [bus]
        terminalName := filling.tables.terminalName ++ [terminal]
        terminalVoltage := filling.tables.terminalVoltage ++ interleaved voltage
        terminalCurrent := filling.tables.terminalCurrent ++ interleaved current
        terminalPower := filling.tables.terminalPower ++ interleaved power } }

def pushPort (filling : Filling F) (element kind : String) (branch : ℕ) (bus terminal : String)
    (current power : Complex64 F) : Filling F :=
  let (element, filling) := filling.index element
  let (kind, filling) := filling.index kind
  let (bus, filling) := filling.index bus
  let (terminal, filling) := filling.index terminal
  { filling with
    tables :=
      { filling.tables with
        portElement := filling.tables.portElement ++ [element]
        portKind := filling.tables.portKind ++ [kind]
        portBranch := filling.tables.portBranch ++ [branch % codes]
        portBus := filling.tables.portBus ++ [bus]
        portTerminal := filling.tables.portTerminal ++ [terminal]
        portCurrent := filling.tables.portCurrent ++ interleaved current
        portPower := filling.tables.portPower ++ interleaved power } }

def pushSource (filling : Filling F) (source terminal : String) (current power : Complex64 F) :
    Filling F :=
  let (source, filling) := filling.index source
  let (terminal, filling) := filling.index terminal
  { filling with
    tables :=
      { filling.tables with
        sourceName := filling.tables.sourceName ++ [source]
        sourceTerminal := filling.tables.sourceTerminal ++ [terminal]
        sourceCurrent := filling.tables.sourceCurrent ++ interleaved current
        sourcePower := filling.tables.sourcePower ++ interleaved power } }

def finish (filling : Filling F) : McPfResultTables F :=
  { filling.tables with strings := filling.names.values }

def terminalRow (filling : Filling F) (row : McTerminalResult F) : Filling F :=
  filling.pushTerminal row.bus row.terminal row.voltage row.currentIntoNetwork
    row.powerIntoNetwork

def portRow (filling : Filling F) (port : McElementPort F) : Filling F :=
  filling.pushPort port.element port.kind port.branch port.bus port.terminal
    port.currentIntoElement port.powerIntoElement

def sourceRow (filling : Filling F) (row : McSourceReaction F) : Filling F :=
  filling.pushSource row.source row.terminal row.currentIntoNetwork row.powerIntoNetwork

end Filling

def McPfResultTables.fromResult {F : Type} (result : McPfResult F) : McPfResultTables F :=
  let started : Filling F :=
    .start result.iterations result.loadModel result.networkScope result.excludedIslands
  let terminals := result.terminals.foldl Filling.terminalRow started
  let ports := result.elementPorts.foldl Filling.portRow terminals
  (result.sourceReactions.foldl Filling.sourceRow ports).finish

/-! ### Building the tables -/

variable {F : Type} [Libm F] [SparseLu F] (prepared : PreparedNetwork F)

/-- Whether all values so far are finite, and the tables of them. -/
structure Building (F : Type) where
  finite : Bool
  filling : Filling F

def tableTerminal (voltage : Voltage F prepared.index.size) (building : Building F)
    (i : prepared.Terminals) : Building F :=
  let current := passiveCurrent prepared voltage i
  let power := voltage i * current.conj
  { finite := building.finite &&
      ((voltage i).isFinite && current.isFinite && power.isFinite)
    filling := building.filling.pushTerminal (terminalId prepared i).1 (terminalId prepared i).2
      (voltage i) current power }

def tableLoadTerminal (voltage : Voltage F prepared.index.size)
    (load : BranchLoad F prepared.index.size) (branch : Fin load.branches)
    (branchCurrent : Complex64 F) (building : Building F)
    (place : prepared.Terminals × Complex64 F) : Building F :=
  let (current, power) := loadPortValues voltage place.1 place.2 branchCurrent
  let (bus, terminal) := terminalId prepared place.1
  { finite := building.finite && (current.isFinite && power.isFinite)
    filling := building.filling.pushPort load.name "load" branch.val bus terminal current power }

def tableLoad (options : McPfOptions F) (voltage : Voltage F prepared.index.size)
    (building : Building F) (load : BranchLoad F prepared.index.size) :
    Except String (Building F) :=
  (List.finRange load.branches).foldlM
    (fun building branch => do
      let branchCurrent ← load.branchCurrent branch voltage options
      .ok ((load.incidence branch).foldl
        (tableLoadTerminal prepared voltage load branch branchCurrent) building)) building

def tableElement (voltage : Voltage F prepared.index.size) (building : Building F)
    (element : PreparedElement F prepared.index.size) : Building F :=
  (List.finRange element.arity).foldl
    (fun building row =>
      let (i, current, power) := passivePortValues voltage element row
      let (bus, terminal) := terminalId prepared i
      { finite := building.finite && (current.isFinite && power.isFinite)
        filling := building.filling.pushPort element.name element.kind 0 bus terminal current
          power }) building

def tableSource (state : FixedPoint F prepared.index.size) (building : Building F)
    (source : SourceTerminal prepared.index.size) : Building F :=
  let current := Multiconductor.sourceCurrent prepared state source
  let power := state.voltage source.index * current.conj
  { finite := building.finite && (current.isFinite && power.isFinite)
    filling := building.filling.pushSource source.source source.terminal current power }

/-- The columns of the result `buildResult` would return, without building it first. -/
def buildTables (options : McPfOptions F) (state : FixedPoint F prepared.index.size) :
    Except String (McPfResultTables F) := do
  let voltage := state.voltage
  let terminals := (List.finRange prepared.index.size).foldl (tableTerminal prepared voltage)
    ⟨true, .start state.iterations none none []⟩
  let loads ← prepared.loads.foldlM (tableLoad prepared options voltage) terminals
  let elements := prepared.elements.foldl (tableElement prepared voltage) loads
  let building := prepared.sourceTerminals.foldl (tableSource prepared state) elements
  if !building.finite then .error nonFiniteOutput else .ok building.filling.finish

end Tellegen.Multiconductor
