import Tellegen.Lib.Complex64
import Tellegen.Lib.Paging
import Tellegen.Lib.Triplets
import Tellegen.Network

/-!
Derivatives of a solved system by implicit differentiation. A formulation gives
its Jacobian, the columns of its parameters and the functionals of its
operands; three drivers assemble one linear system each out of these.
-/

open Binary64

namespace Tellegen.Sens

inductive ElementId where
  | bus (index : ℕ)
  | branch (index : ℕ)
  | generator (index : ℕ)
  | constraint (index : ℕ)
  deriving DecidableEq

/-! ### Formulations -/

inductive SensError where
  | unsupported (formulation : String) (operand : Operand) (parameter : Parameter)
  | indexOutOfRange (axis : Axis) (index len : ℕ)
  | assembly (message : String)
  | solve (message : String)
  | invalidInput (message : String)
  deriving DecidableEq

/-- The rows of an operand as linear functionals of a solution, the element that each row
reports, and the sign that maps the raw variable to the reported quantity. A row outside the
system would stop the matrix accesses, so that the rows are typed. -/
structure Selector (F : Type) (dim : ℕ) where
  map : List (List (Fin dim × F))
  elements : List ℕ
  sign : F

structure SolveSpec (F : Type) where
  eps : F
  refineIters : ℕ
  tolFactor : F

abbrev Mat (F : Type) (dim : ℕ) := List (Fin dim → F)

structure Differentiable (F : Type) where
  formulation : String
  dim : ℕ
  /-- The Jacobian of the system as row, column and value. -/
  jacobian : List (Fin dim × Fin dim × F)
  parameterLen : Parameter → Option ℕ
  /-- The columns of a parameter for the requested indices. -/
  parameterJacobian : Parameter → List ℕ → Except SensError (Mat F dim)
  operandLen : Operand → Option ℕ
  operandSelector : Operand → Except SensError (Selector F dim)
  solveSpec : SolveSpec F
  elementId : Axis → ℕ → ElementId
  unitScale : Operand → Parameter → F

structure RowMeta where
  operand : Operand
  element : ElementId
  index : ℕ
  deriving DecidableEq

structure ColMeta where
  parameter : Parameter
  element : ElementId
  index : ℕ
  deriving DecidableEq

@[ext] structure SensitivityMatrix (F : Type) where
  values : List (List F)
  rows : List RowMeta
  cols : List ColMeta
  units : String

/-! ### The shared solve -/

/-- The sparse factorization of a matrix that is given by its entries. -/
class SparseLu (F : Type) where
  Lu : ℕ → Type
  spLu : (dim : ℕ) → List (Fin dim × Fin dim × F) → Except String (Lu dim)
  solveInPlace : {dim : ℕ} → Lu dim → (Fin dim → F) → Fin dim → F

variable {F : Type} [Libm F] {dim : ℕ}

def maxAbs (m : Mat F dim) : F :=
  m.foldl (fun mx column => (List.finRange dim).foldl
    (fun mx r => Binary64.max mx (Binary64.abs (column r))) mx) 0

/-- The entries of the system that is factorized. -/
def regularised (triplets : List (Fin dim × Fin dim × F)) (eps : F) :
    List (Fin dim × Fin dim × F) :=
  if Binary64.eq eps 0 then triplets
  else triplets ++ (List.finRange dim).map fun d => (d, d, eps)

section Solve

variable [SparseLu F]

/-- The refinement steps that are left, after the residual of the last one. -/
def refine (lu : SparseLu.Lu F dim) (reg : List (Fin dim × Fin dim × F)) (rhs : Mat F dim)
    (tol : F) : ℕ → F → Mat F dim → Mat F dim
  | 0, _, x => x
  | rest + 1, prev, x =>
    let r := List.zipWith (Triplets.residual reg) x rhs
    let rn := maxAbs r
    if le rn tol || le prev rn then x
    else
      refine lu reg rhs tol rest rn
        (List.zipWith (fun x r i => x i + r i) x (r.map (SparseLu.solveInPlace lu)))

def solveRefined (triplets : List (Fin dim × Fin dim × F)) (rhs : Mat F dim)
    (spec : SolveSpec F) : Except String (Mat F dim) := do
  let reg := regularised triplets spec.eps
  let lu ← SparseLu.spLu dim reg
  let tol := spec.tolFactor * Binary64.max (maxAbs rhs) 1
  .ok (refine lu reg rhs tol spec.refineIters Libm.infinity
    (rhs.map (SparseLu.solveInPlace lu)))

def nonzeros (column : Fin dim → F) : List (Fin dim × F) :=
  (List.finRange dim).filterMap fun r =>
    if !Binary64.eq (column r) 0 then some (r, column r) else none

/-- The values of the functionals at the solution, per functional and right-hand side. The driver
has resolved the automatic mode before. -/
def forwardAdjoint (k : List (Fin dim × Fin dim × F)) (forwardRhs : Mat F dim)
    (opMap : List (List (Fin dim × F))) (sign : F) (mode : Mode) (spec : SolveSpec F) :
    Except String (List (List F)) :=
  match mode with
  | .auto | .forward => do
      let x ← solveRefined k forwardRhs spec
      .ok (opMap.map fun entries => x.map fun column => sign * Triplets.contract entries column)
  | .adjoint => do
      let y ← solveRefined (Triplets.transpose k) (opMap.map Triplets.gather) spec
      .ok (y.map fun adjoint => forwardRhs.map fun column =>
        sign * Triplets.contract (nonzeros column) adjoint)

/-! ### Requests -/

def columns (parameter : Parameter) (parLen : ℕ) (indices : Option (List ℕ)) :
    Except SensError (List ℕ) :=
  match indices with
  | some ix =>
    match ix.find? fun i => decide (parLen ≤ i) with
    | some i => .error (.indexOutOfRange parameter.axis i parLen)
    | none => .ok ix
  | none => .ok (List.range parLen)

/-- `option.ok_or(failure)?` -/
def orError {α : Type} (failure : SensError) : Option α → Except SensError α
  | some a => .ok a
  | none => .error failure

/-- `result.map_err(SensError::Solve)` -/
def solving {α : Type} : Except String α → Except SensError α
  | .ok a => .ok a
  | .error message => .error (.solve message)

/-- The functionals of an operand, checked against its length. -/
def checkedSelector (sys : Differentiable F) (operand : Operand) (opLen : ℕ) :
    Except SensError (Selector F sys.dim) := do
  let selector ← sys.operandSelector operand
  if selector.map.length ≠ opLen ∨ selector.elements.length ≠ opLen then
    .error (.assembly ("operand " ++ operand.debug ++ ": operand_len " ++ toString opLen ++
      " disagrees with selector (map " ++ toString selector.map.length ++ ", elements " ++
      toString selector.elements.length ++ ")"))
  else .ok selector

/-- What both drivers of one operand and one parameter resolve before they assemble. -/
def resolve (sys : Differentiable F) (operand : Operand) (parameter : Parameter)
    (indices : Option (List ℕ)) : Except SensError (ℕ × List ℕ × Selector F sys.dim) := do
  let unsupported := SensError.unsupported sys.formulation operand parameter
  let opLen ← orError unsupported (sys.operandLen operand)
  let parLen ← orError unsupported (sys.parameterLen parameter)
  let cols ← columns parameter parLen indices
  let selector ← checkedSelector sys operand opLen
  .ok (opLen, cols, selector)

/-- `d(operand)/d(parameter)` for the requested indices of the parameter, or for all. -/
def sensitivity (sys : Differentiable F) (operand : Operand) (parameter : Parameter)
    (indices : Option (List ℕ)) (mode : Mode) : Except SensError (SensitivityMatrix F) := do
  let (_, cols, selector) ← resolve sys operand parameter indices
  let dkdp ← sys.parameterJacobian parameter cols
  let direction := mode.direction cols.length selector.map.length
  let values ← solving
    (forwardAdjoint sys.jacobian dkdp selector.map (-selector.sign) direction sys.solveSpec)
  .ok
    { values := values
      rows := selector.elements.map fun index =>
        { operand := operand, element := sys.elementId operand.axis index, index := index }
      cols := cols.map fun c =>
        { parameter := parameter, element := sys.elementId parameter.axis c, index := c }
      units := "per unit" }

/-- The position of each element; of an element that is reported twice, the last one. -/
def positions (elements : List ℕ) : ℕ → Option ℕ :=
  elements.zipIdx.foldl
    (fun position (element, pos) => Function.update position element (some pos)) fun _ => none

/-- A weighted sum of the functionals of the elements. -/
def weightedFunctional (operand : Operand) (opLen : ℕ) (selector : Selector F dim)
    (weights : List (ℕ × F)) : Except SensError (List (Fin dim × F)) :=
  weights.foldlM (fun functional (element, weight) => do
    let pos ← orError (.indexOutOfRange operand.axis element opLen)
      (positions selector.elements element)
    .ok (functional ++ (selector.map.getD pos []).map fun (row, rowWeight) =>
      (row, weight * rowWeight))) []

/-- The derivative of a weighted sum of an operand's elements, by one adjoint solve. -/
def weightedSensitivity (sys : Differentiable F) (operand : Operand) (weights : List (ℕ × F))
    (parameter : Parameter) (indices : Option (List ℕ)) : Except SensError (List F) := do
  let (opLen, cols, selector) ← resolve sys operand parameter indices
  let functional ← weightedFunctional operand opLen selector weights
  let dkdp ← sys.parameterJacobian parameter cols
  let values ← solving
    (forwardAdjoint sys.jacobian dkdp [functional] (-selector.sign) .adjoint sys.solveSpec)
  .ok (values.headD [])

/-! ### The gradient of a functional of several operands -/

/-- The positions and indices of one parameter among the decisions. -/
abbrev Groups := List (Parameter × List (ℕ × ℕ))

/-- A decision joins the group of its parameter, or opens one. -/
def addDecision (parameter : Parameter) (entry : ℕ × ℕ) : Groups → Groups
  | [] => [(parameter, [entry])]
  | (p, entries) :: rest =>
    if p = parameter then (p, entries ++ [entry]) :: rest
    else (p, entries) :: addDecision parameter entry rest

def groupDecisions (sys : Differentiable F) (decisions : List (Parameter × ℕ)) :
    Except SensError Groups :=
  decisions.zipIdx.foldlM (fun groups ((parameter, index), position) => do
    let len ← orError
      (.assembly (sys.formulation ++ " does not differentiate " ++ parameter.debug))
      (sys.parameterLen parameter)
    if len ≤ index then .error (.indexOutOfRange parameter.axis index len)
    else .ok (addDecision parameter (position, index) groups)) []

/-- The right-hand side of one operand's seeds, in units of the first decision's parameter. -/
def seedEntries (sys : Differentiable F) (reference : Parameter)
    (seed : Operand × List (ℕ × F)) : Except SensError (List (Fin sys.dim × F)) := do
  let (operand, weights) := seed
  let len ← orError (.unsupported sys.formulation operand reference) (sys.operandLen operand)
  let selector ← sys.operandSelector operand
  if selector.elements.length ≠ len ∨ selector.map.length ≠ len then
    .error (.assembly "operand selector dimensions disagree")
  else
    let scale := sys.unitScale operand reference * selector.sign
    weights.foldlM (fun entries (index, weight) =>
      if !isFinite weight || !isFinite scale then
        .error (.assembly "functional weights and unit scales must be finite")
      else do
        let position ← orError (.indexOutOfRange operand.axis index len)
          (positions selector.elements index)
        let row := selector.map.getD position []
        if row.any fun (r, coefficient) => decide (sys.dim ≤ r) || !isFinite coefficient then
          .error (.assembly "invalid functional selector row")
        else
          .ok (entries ++ row.map fun (r, coefficient) => (r, weight * scale * coefficient))) []

def functionalRhs (sys : Differentiable F) (reference : Parameter)
    (seeds : List (Operand × List (ℕ × F))) : Except SensError (List (Fin sys.dim × F)) :=
  seeds.foldlM (fun entries seed => do
    let added ← seedEntries sys reference seed
    .ok (entries ++ added)) []

/-- The units of a parameter against those of the reference, which every seed must agree on. -/
def unitRatio (sys : Differentiable F) (first : Operand) (reference parameter : Parameter)
    (seeds : List (Operand × List (ℕ × F))) : Except SensError F :=
  let ratio := sys.unitScale first parameter / sys.unitScale first reference
  if !isFinite ratio || seeds.any fun (operand, _) =>
      let other := sys.unitScale operand parameter / sys.unitScale operand reference
      !isFinite other ||
        lt (lit (1 / 1000000000000) * Binary64.max (Binary64.abs ratio) 1)
          (Binary64.abs (other - ratio)) then
    .error (.assembly "observable and intervention units do not separate")
  else .ok ratio

/-- One derivative, written at the position of its decision. -/
def writeDerivative (adjoint : Fin dim → F) (ratio : F) (gradient : List F) (position : ℕ)
    (column : Fin dim → F) : Except SensError (List F) :=
  let value := -Binary64.sum ((List.finRange dim).map fun row => adjoint row * column row) * ratio
  if !isFinite value then .error (.solve "functional derivative is not finite")
  else .ok (gradient.set position value)

def chunks {α : Type} (size : ℕ) (l : List α) : List (List α) :=
  (List.range ((l.length + size - 1) / size)).map fun k => (l.drop (k * size)).take size

def writeBatch (sys : Differentiable F) (adjoint : Fin sys.dim → F) (parameter : Parameter)
    (ratio : F) (gradient : List F) (batch : List (ℕ × ℕ)) : Except SensError (List F) := do
  let jacobian ← sys.parameterJacobian parameter (batch.map Prod.snd)
  if jacobian.length ≠ batch.length then
    .error (.assembly "parameter Jacobian dimensions disagree")
  else
    (batch.zip jacobian).foldlM (fun gradient ((position, _), column) =>
      writeDerivative adjoint ratio gradient position column) gradient

def writeGroup (sys : Differentiable F) (adjoint : Fin sys.dim → F) (first : Operand)
    (reference : Parameter) (seeds : List (Operand × List (ℕ × F))) (gradient : List F)
    (group : Parameter × List (ℕ × ℕ)) : Except SensError (List F) := do
  let ratio ← unitRatio sys first reference group.1 seeds
  (chunks 32 group.2).foldlM (writeBatch sys adjoint group.1 ratio) gradient

/-- The derivative of a scalar functional of several operands for a list of decisions, by one
adjoint solve. -/
def functionalGradient (sys : Differentiable F) (seeds : List (Operand × List (ℕ × F)))
    (decisions : List (Parameter × ℕ)) : Except SensError (List F) :=
  match decisions with
  | [] => .ok []
  | (reference, _) :: _ => do
      let groups ← groupDecisions sys decisions
      let rhs ← functionalRhs sys reference seeds
      match seeds with
      | [] => .ok (List.replicate decisions.length 0)
      | (first, _) :: _ => do
          let adjoint ← solving (solveRefined (Triplets.transpose sys.jacobian)
            [Triplets.gather rhs] sys.solveSpec)
          groups.foldlM (writeGroup sys (adjoint.headD 0) first reference seeds)
            (List.replicate decisions.length 0)

end Solve

end Tellegen.Sens
