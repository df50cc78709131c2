/-!
The tables of a multiconductor network, with the fields that the calculations
read. Bus identities are case insensitive; their spelling is retained.
-/

namespace Tellegen.Multiconductor

/-- `to_ascii_lowercase` -/
def toAsciiLowercase (text : String) : String := String.ofList (text.toList.map Char.toLower)

inductive Configuration where
  | singlePhase | wye | delta | other
  deriving DecidableEq

structure DistBus where
  id : String
  terminals : List String
  grounded : List String
  deriving DecidableEq

def DistBus.key (bus : DistBus) : String := toAsciiLowercase bus.id

structure DistLineCode (F : Type) where
  name : String
  nConductors : Nat
  rSeries : List (List F)
  xSeries : List (List F)
  gFrom : List (List F)
  bFrom : List (List F)
  gTo : List (List F)
  bTo : List (List F)

structure DistLine (F : Type) where
  name : String
  busFrom : String
  busTo : String
  terminalMapFrom : List String
  terminalMapTo : List String
  linecode : String
  length : F

structure DistSwitch where
  name : String
  busFrom : String
  busTo : String
  isOpen : Bool

/-- `rest` is what the primitive of a transformer is computed from, other than its buses. -/
structure DistTransformer (T : Type) where
  name : String
  windings : List String
  rest : T

inductive DistLoadVoltageModel (F : Type) where
  | constantPower (vNom : List F)
  | constantCurrent (vNom : List F)
  | constantImpedance (vNom : List F)
  | zip (vNom alphaZ alphaI alphaP betaZ betaI betaP : List F)
  | exponential (vNom gammaP gammaQ : List F)
  | other (vNom : List F)

def DistLoadVoltageModel.vNom {F : Type} : DistLoadVoltageModel F → List F
  | constantPower vNom | constantCurrent vNom | constantImpedance vNom => vNom
  | zip vNom .. | exponential vNom .. | other vNom => vNom

/-- `neutralTerminal` is the text under that key of the extras, and `rest` all other extras. -/
structure DistLoad (F T : Type) where
  name : String
  bus : String
  configuration : Configuration
  terminalMap : List String
  pNom : List F
  qNom : List F
  voltageModel : DistLoadVoltageModel F
  neutralTerminal : Option String
  rest : T

structure DistShunt (F : Type) where
  name : String
  bus : String
  terminalMap : List String
  g : List (List F)
  b : List (List F)

structure DistCapacitor (F : Type) where
  name : String
  bus : String
  configuration : Configuration
  terminalMap : List String
  qRated : F
  vNom : F

structure VoltageSource where
  name : String
  bus : String
  terminalMap : List String
  extras : List String

structure DistMachine where
  name : String
  bus : String

inductive DistLocationTarget where
  | bus | line | switch | transformer | load | generator | ibr | shunt | capacitor | source
  | other
  deriving DecidableEq

structure DistLocation where
  target : DistLocationTarget
  name : String
  deriving DecidableEq

structure MulticonductorNetwork (F T : Type) where
  buses : List DistBus
  lineCodes : List (DistLineCode F)
  lines : List (DistLine F)
  switches : List DistSwitch
  transformers : List (DistTransformer T)
  loads : List (DistLoad F T)
  generators : List DistMachine
  ibrs : List DistMachine
  shunts : List (DistShunt F)
  capacitors : List (DistCapacitor F)
  sources : List VoltageSource
  componentLocations : List DistLocation
  /-- The class and the name of each object that has no table. -/
  untypedObjects : List (String × String)

/-! ### Instances -/

structure PrescribedSourceVoltage (F : Type) where
  source : String
  terminals : List String
  vMagnitude : List F
  vAngle : List F

structure PrescribedLoad (F : Type) where
  load : String
  terminals : List String
  pW : List F
  qVar : List F
  voltageModel : DistLoadVoltageModel F

structure McAcPfInstance (F T : Type) where
  network : MulticonductorNetwork F T
  isolatedTerminals : List (String × String)
  controlModes : List String
  sources : List (PrescribedSourceVoltage F)
  loads : List (PrescribedLoad F)

end Tellegen.Multiconductor
