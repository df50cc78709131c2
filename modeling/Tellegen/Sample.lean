import Tellegen.Lib.PrefixCode
import Tellegen.Study

/-!
A small concrete engine over the rationals, on which the results can be run.
A module's text is the printed JSON of its network. The solver prices every
bus at total demand less the total of the rating changes, and refuses a case
whose demand is above `capacity`; content ids are the texts themselves.
-/

open Binary64

namespace Tellegen.Sample

instance binary64 : Binary64 ℚ :=
  Binary64.exact fun q => toString q.num ++ "/" ++ toString q.den

instance lawful : LawfulBinary64 ℚ := exact_lawful _

abbrev Network := BalancedNetwork ℚ Unit

/-! ### Texts -/

def writeUid : Option String → Json ℚ := Json.ofOption .str

def writeNetwork (network : Network) : Json ℚ :=
  .arr [
    Json.ofList (fun bus => .arr [.int bus.id, writeUid bus.uid, .bool (bus.kind = .isolated)])
      network.buses,
    Json.ofList (fun load => .arr [.int load.bus, .float load.p, .bool load.inService])
      network.loads,
    Json.ofList (fun branch => .arr [writeUid branch.uid, .int branch.source, .int branch.target,
      .float branch.r, .float branch.x, .float branch.rateA, .bool branch.inService])
      network.branches,
    .float network.baseMva, .bool network.isNormalized]

def readUid : Read ℚ (Option String) := Json.readOption Json.readStr

def readBus : Read ℚ Bus
  | .arr [id, uid, isolated] => do
      return { id := ← Json.readNat id, uid := ← readUid uid
               kind := if ← Json.readBool isolated then .isolated else .connected }
  | _ => .error "bus"

def readLoad : Read ℚ (Load ℚ)
  | .arr [bus, p, inService] => do
      return { bus := ← Json.readNat bus, p := ← Json.readFloat p
               inService := ← Json.readBool inService }
  | _ => .error "load"

def readBranch : Read ℚ (Branch ℚ)
  | .arr [uid, source, target, r, x, rateA, inService] => do
      return { uid := ← readUid uid, source := ← Json.readNat source
               target := ← Json.readNat target, r := ← Json.readFloat r, x := ← Json.readFloat x
               rateA := ← Json.readFloat rateA, inService := ← Json.readBool inService }
  | _ => .error "branch"

def readNetwork : Read ℚ Network
  | .arr [buses, loads, branches, baseMva, isNormalized] => do
      return { buses := ← Json.readList readBus buses
               loads := ← Json.readList readLoad loads
               branches := ← Json.readList readBranch branches
               generators := []
               baseMva := ← Json.readFloat baseMva
               isNormalized := ← Json.readBool isNormalized
               tables := () }
  | _ => .error "network"

abbrev Value := PioValue Network Network Network

def writeValue : Value → Json ℚ
  | .balancedNetwork network => document "net" network
  | .dcOpfInstance network => document "dcopf" network
  | .acPfInstance network => document "acpf" network
  | .acOpfInstance network => document "acopf" network
  | .dcOpfSolution network => document "dcopf!" network
  | .acPfSolution network => document "acpf!" network
  | .socwrOpfSolution network => document "socwr!" network
  | .other typeName => .str typeName
where
  document (kind : String) (network : Network) : Json ℚ :=
    .obj [("schema", .str "pio-ir"), ("version", .int 2), ("kind", .str kind),
      ("network", writeNetwork network)]

def readValue : Read ℚ Value
  | .obj [("schema", _), ("version", _), ("kind", .str kind), ("network", value)] => do
      let network ← readNetwork value
      match kind with
      | "net" => return .balancedNetwork network
      | "dcopf" => return .dcOpfInstance network
      | "acpf" => return .acPfInstance network
      | "acopf" => return .acOpfInstance network
      | "dcopf!" => return .dcOpfSolution network
      | "acpf!" => return .acPfSolution network
      | "socwr!" => return .socwrOpfSolution network
      | other => .error other
  | .str typeName => .ok (.other typeName)
  | _ => .error "module"

def parseJson (text : String) : Except String (Json ℚ) :=
  match PrefixCode.parseText text with
  | some value => .ok value
  | none => .error "invalid JSON"

/-! ### Solving -/

def capacity : ℚ := 100

def price (network : Network) (edits : Edits ℚ) : ℚ :=
  sum ((network.loads.filter (·.inService)).map (·.p)) + sum edits.deltas.values -
    sum edits.rates.values

def problemCode : Problem → ℤ
  | .dcPf => 0
  | .dcOpf => 1
  | .acPf => 2
  | .socwr => 3
  | .acopf => 4

def writeResponse (response : SolveResponse ℚ) : Json ℚ :=
  .arr (.int (problemCode response.formulation) ::
    (response.lmp.getD []).map fun row => .arr [.int row.bus, .float row.value])

def readScalar : Read ℚ (BusScalar ℚ)
  | .arr [bus, value] => do return { bus := ← Json.readNat bus, value := ← Json.readFloat value }
  | _ => .error "scalar"

def prices (formulation : Problem) (rows : List (BusScalar ℚ)) : SolveResponse ℚ :=
  { formulation, lmp := some rows, lmpQ := none, vm := none, va := none, w := none, wr := none
    wi := none, flows := none, dispatch := none }

def readResponse : Read ℚ (SolveResponse ℚ)
  | .arr (.int code :: rows) => do
      let rows ← rows.mapM readScalar
      match [Problem.dcPf, .dcOpf, .acPf, .socwr, .acopf].find? (problemCode · = code) with
      | some formulation => return prices formulation rows
      | none => .error "formulation"
  | _ => .error "response"

def solve (network : Network) (req : SolveRequest ℚ) : Except String (SolveResponse ℚ) :=
  let demand := sum ((network.loads.filter (·.inService)).map (·.p)) + sum req.edits.deltas.values
  if capacity < demand then .error "infeasible"
  else .ok (prices req.formulation
    (network.buses.map fun bus => { bus := bus.id, value := price network req.edits }))

def accepts : StudyInput Network → Problem → Bool
  | .balancedNetwork, .dcOpf | .balancedNetwork, .acPf | .balancedNetwork, .socwr => true
  | .dcOpf _, .dcOpf | .acPf _, .acPf | .acOpf _, .socwr => true
  | _, _ => false

def engine : Engine ℚ where
  Tables := Unit
  Instance := Network
  Solution := Network
  Envelope := Unit
  Solved := SolveResponse ℚ
  NetworkValue := Network
  deserializeModule text := do
    let value ← parseJson text
    return { value := ← readValue value, envelope := () }
  serializeModule pioModule := .ok (PrefixCode.printText (writeValue pioModule.value))
  freshEnvelope := ()
  severEnvelope := id
  instanceNetwork := id
  solutionInstance := id
  fromNetwork _ network := .ok network
  withNetwork _ network := .ok network
  withNetworkAndInjections _ network _ := .ok network
  solveState input network req :=
    if accepts input req.formulation then solve network req
    else .error "PowerIO input cannot start the Study"
  assemble solved _ := .ok solved
  emitSolution _ inst _ := .ok inst
  derivative _ _ _ _ space :=
    .ok ({ regularization := 0, refinementIterations := 0, residualToleranceFactor := 0 },
      List.Vector.replicate space.vars.length (-1))
  activeConstraints _ := []
  networkValue := .ok
  printResponse response := .ok (PrefixCode.printText (writeResponse response))
  responseJson := writeResponse
  parseResponse text := do
    let value ← parseJson text
    readResponse value
  printJson := PrefixCode.printText
  parseJson := parseJson
  parseGeoLayer _ := .ok (1, 0)
  contentId := id

theorem parseJson_printJson (value : Json ℚ) :
    engine.parseJson (engine.printJson value) = .ok value := by
  simp [engine, parseJson, PrefixCode.parseText_printText]

theorem contentId_injective : Function.Injective engine.contentId := fun _ _ h => h

/-! ### Cases -/

/-- One bus with the given number and load, no branches. -/
def oneBus (bus : ℕ) (p : ℚ) : Network :=
  { buses := [{ id := bus, uid := none, kind := .connected }]
    loads := [{ bus, p, inService := true }]
    branches := [], generators := [], baseMva := 100, isNormalized := false, tables := () }

def caseText (network : Network) : String :=
  PrefixCode.printText (writeValue (.balancedNetwork network))

end Tellegen.Sample
