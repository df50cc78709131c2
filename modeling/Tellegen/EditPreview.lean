import Tellegen.EditReplacement
import Tellegen.KeyRoundTrip
import Tellegen.Lib.Grouping
import Tellegen.Sensitivity

/-!
The first-order prediction of an edit list at the committed point, without a solve. The edits are
grouped by the parameter that they perturb and then added up on the dense axis of the committed
solution; each group is one set of sensitivity columns, and the prediction is the sum of the groups.
-/

open Binary64 Std

namespace Tellegen

/-! ### Served units -/

def Operand.unit : Operand → String
  | .price .active => "objective_unit/MW"
  | .price .reactive => "objective_unit/MVAr"
  | .dispatch .active | .flow .active _ => "MW"
  | .dispatch .reactive | .flow .reactive _ => "MVAr"
  | .voltage .magnitude => "pu"
  | .voltage .angle => "rad"
  | .voltage _ => "pu^2"

def Parameter.unit : Parameter → String
  | .demand .active | .genBound .active _ | .constraintLimit => "MW"
  | .demand .reactive | .genBound .reactive _ => "MVAr"
  | .lineLimit => "MVA"
  | .voltageBound _ => "pu^2"
  | .cost .quadratic => "objective_unit/MW^2"
  | .cost .linear => "objective_unit/MW"
  | .seriesAdmittance _ | .shuntAdmittance _ => "pu"
  | .transformer .ratio => "ratio"
  | .transformer .phaseShift => "rad"
  | .switching => "1"

namespace Sens

def SensError.display : SensError → String
  | .unsupported formulation operand parameter =>
    formulation ++ " does not support d(" ++ operand.debug ++ ")/d(" ++ parameter.debug ++ ")"
  | .indexOutOfRange axis index len =>
    axis.debug ++ " index " ++ toString index ++ " out of range (len " ++ toString len ++ ")"
  | .assembly message => "sensitivity assembly failed: " ++ message
  | .solve message => "sensitivity solve failed: " ++ message
  | .invalidInput message => "invalid sensitivity request: " ++ message

def servedUnitsLabel (operand : Operand) (parameter : Parameter) : String :=
  "(" ++ operand.unit ++ ")/" ++ parameter.unit

/-- `text.strip_suffix(suffix)` -/
def stripSuffix (suffix text : List Char) : Option (List Char) :=
  if suffix.isSuffixOf text then some (text.take (text.length - suffix.length)) else none

/-- The numerator of a ratio of units, without its parentheses. -/
def operandUnit (ratio : String) : String :=
  let stripped := (stripSuffix "/MW".toList ratio.toList <|>
    stripSuffix "/MVA".toList ratio.toList).getD ratio.toList
  let trimmed := ((stripped.dropWhile Char.isWhitespace).reverse.dropWhile Char.isWhitespace).reverse
  match trimmed with
  | '(' :: inner => String.ofList ((stripSuffix [')'] inner).getD trimmed)
  | _ => String.ofList trimmed

/-! ### Cells -/

structure PreviewValue (F : Type) where
  element : ElementId
  index : ℕ
  value : F

structure PreviewColumn (F : Type) where
  operand : Operand
  values : List (PreviewValue F)
  units : String

structure Preview (F : Type) where
  operands : List (PreviewColumn F)
  objectiveDelta : Option F
  localOnly : Bool

/-- The committed point of a study: the network that its edits name, and what its solved state gives
for a prediction. The duals are by dense index. -/
structure CommittedPoint (F T : Type) where
  base : BalancedNetwork F T
  hasEconomicObjective : Bool
  system : Except String (Differentiable F)
  busAxis : AxisKeys
  branchAxis : AxisKeys
  lmp : Option (ℕ → F)
  lineShadowPrices : Option (ℕ → F)

section

variable {F : Type} [Libm F]

/-- `rescale_to_served` -/
def rescaleToServed (m : SensitivityMatrix F) (scale : F) (operand : Operand)
    (parameter : Parameter) : SensitivityMatrix F :=
  { m with
    values := if !Binary64.eq scale 1 then m.values.map (·.map (· * scale)) else m.values
    units := servedUnitsLabel operand parameter }

variable [SparseLu F]

/-- A cell of `run_cells`, with the direction left to the driver. -/
def runCell (sys : Differentiable F) (operand : Operand) (parameter : Parameter)
    (indices : List ℕ) : Except String (SensitivityMatrix F) :=
  match sensitivity sys operand parameter (some indices) .auto with
  | .ok m => .ok (rescaleToServed m (sys.unitScale operand parameter) operand parameter)
  | .error failure => .error failure.display

def previewColumn (operand : Operand) (magnitudes : List F) (m : SensitivityMatrix F) :
    PreviewColumn F where
  operand := operand
  values := List.zipWith (fun row (position : RowMeta) =>
    { element := position.element
      index := position.index
      value := sum (List.zipWith (· * ·) row magnitudes) }) m.values m.rows
  units := operandUnit m.units

/-- `preview_columns`, of the dense positions that are edited and their changes. -/
def previewColumns (sys : Differentiable F) (parameter : Parameter) (entries : List (ℕ × F))
    (watched : List Operand) : Except String (List (PreviewColumn F)) :=
  if entries = [] then
    .ok (watched.map fun operand => { operand := operand, values := [], units := "" })
  else do
    let mats ← watched.mapM fun operand => runCell sys operand parameter (entries.map (·.1))
    .ok (List.zipWith (fun operand m => previewColumn operand (entries.map (·.2)) m) watched mats)

def mergeColumn (a o : PreviewColumn F) : Except String (PreviewColumn F) :=
  if a.values = [] then .ok o
  else if o.values = [] then .ok a
  else if a.values.length ≠ o.values.length then .error "preview merge: operand row mismatch"
  else
    .ok
      { a with
        values := List.zipWith (fun av ov => { av with value := av.value + ov.value })
          a.values o.values }

def mergePreviewColumns (acc other : List (PreviewColumn F)) :
    Except String (List (PreviewColumn F)) :=
  if acc.length ≠ other.length then .error "preview merge: operand count mismatch"
  else (acc.zip other).mapM fun (a, o) => mergeColumn a o

end

/-! ### Groups -/

section

variable {F T : Type} [Libm F]

def parameterOf : EditKind → Parameter
  | .demand => .demand .active
  | .lineLimit => .lineLimit

/-- The groups of an edit list by parameter, in the order of their first appearance. -/
def editGroups (edits : List (NetworkEdit F)) : List (EditKind × DeltaMap F) :=
  Grouping.grouped NetworkEdit.kind ∅
    (fun group edit => addDelta group edit.elementKey edit.magnitudeMw) edits

/-- An edit list without an edit is previewed as a demand step without a bus. -/
def previewGroups (edits : List (NetworkEdit F)) : List (EditKind × DeltaMap F) :=
  if editGroups edits = [] then [(.demand, ∅)] else editGroups edits

/-- The changes by dense index. Keys that are not on the axis are dropped, and the keys of one
element add up. -/
def denseCols (axis : AxisKeys) (magnitudes : DeltaMap F) : ExtTreeMap ℕ F compare :=
  magnitudes.toList.foldl (fun dense entry =>
    match axis.get entry.1 with
    | some i => dense.insert i (dense.getD i 0 + entry.2)
    | none => dense) ∅

def CommittedPoint.axis (point : CommittedPoint F T) : EditKind → AxisKeys
  | .lineLimit => point.branchAxis
  | .demand => point.busAxis

def CommittedPoint.resolved (point : CommittedPoint F T) (edits : List (NetworkEdit F)) :
    List (EditKind × List (ℕ × F)) :=
  (previewGroups edits).map fun group => (group.1, (denseCols (point.axis group.1) group.2).toList)

/-- What a group changes the objective by: the balance dual times the demand step, or the negative
limit dual times the rating step. -/
def CommittedPoint.contribution (point : CommittedPoint F T) :
    EditKind × List (ℕ × F) → Option F
  | (.lineLimit, entries) =>
    point.lineShadowPrices.map fun mu => -sum (entries.map fun (i, m) => mu i * m)
  | (.demand, entries) => point.lmp.map fun lmp => sum (entries.map fun (i, m) => lmp i * m)

/-- There is no prediction where a dual vector is missing. -/
def CommittedPoint.objectiveDelta (point : CommittedPoint F T)
    (groups : List (EditKind × List (ℕ × F))) : Option F :=
  groups.foldl (fun delta group =>
    match delta, point.contribution group with
    | some acc, some x => some (acc + x)
    | _, _ => none) (some 0)

variable [SparseLu F]

def mergedColumns (sys : Differentiable F) (watched : List Operand)
    (groups : List (EditKind × List (ℕ × F))) : Except String (List (PreviewColumn F)) := do
  let merged ← groups.foldlM (fun (merged : Option (List (PreviewColumn F))) group => do
    let cols ← previewColumns sys (parameterOf group.1) group.2 watched
    match merged with
    | none => return some cols
    | some acc =>
      let cols ← mergePreviewColumns acc cols
      return some cols) none
  return merged.getD []

def Operand.isPrice : Operand → Bool
  | .price _ => true
  | _ => false

def preview (point : CommittedPoint F T) (edits : List (NetworkEdit F)) (watched : List Operand) :
    Except String (Preview F) := do
  validateNetworkEdits point.base edits
  if !point.hasEconomicObjective ∧ watched.any Operand.isPrice then
    .error "price preview requires a network_generator_cost objective"
  else do
    let sys ← point.system
    let operands ← mergedColumns sys watched (point.resolved edits)
    return { operands, objectiveDelta := point.objectiveDelta (point.resolved edits), localOnly := true }

end

end Sens

end Tellegen
