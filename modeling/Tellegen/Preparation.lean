import Tellegen.Document
import Tellegen.Lib.Complex64

/-!
Costs prepared for a quadratic objective. The breakpoints of a piecewise cost are fitted by least squares in
per-unit power, with a line where the quadratic is not convex, and the fit takes the place of the cost.
-/

open Binary64 hiding max min

namespace Tellegen.Preparation

variable {F G T : Type}

/-- Below what a number counts as zero. -/
structure Thresholds (F : Type) where
  /-- Between two outputs, and for the determinant of a line. -/
  epsilon : F
  pivot : F

section Fit

variable [Libm F]

def Thresholds.source : Thresholds F := ⟨lit (1 / 2 ^ 52), lit (1 / 10 ^ 12)⟩

/-! ### Elimination -/

abbrev Matrix3 (F : Type) := Fin 3 → Fin 3 → F

def rowsBelow (i : Fin 3) : List (Fin 3) := (List.finRange 3).filter fun r => i < r

/-- The first of the rows with the greatest coefficient in a column. -/
def pivotRow (a : Matrix3 F) (i : Fin 3) : Fin 3 :=
  (rowsBelow i).foldl (fun pivot r => if lt (Binary64.abs (a pivot i)) (Binary64.abs (a r i)) then r else pivot) i

/-- Subtracts multiples of a row from those below it, so that its column is zero there. -/
def eliminate (a : Matrix3 F) (b : Fin 3 → F) (i : Fin 3) : Matrix3 F × (Fin 3 → F) :=
  (fun r c => if i < r ∧ i ≤ c then a r c - a r i / a i i * a i c else a r c,
    fun r => if i < r then b r - a r i / a i i * b i else b r)

def pivotColumn (thresholds : Thresholds F) (system : Matrix3 F × (Fin 3 → F)) (i : Fin 3) :
    Option (Matrix3 F × (Fin 3 → F)) :=
  let (a, b) := system
  let pivot := pivotRow a i
  if le (Binary64.abs (a pivot i)) thresholds.pivot then none
  else some (eliminate (fun r => a (Equiv.swap i pivot r)) (fun r => b (Equiv.swap i pivot r)) i)

def backSubstitute (a : Matrix3 F) (b : Fin 3 → F) (x : Fin 3 → F) (i : Fin 3) : Fin 3 → F :=
  Function.update x i ((rowsBelow i).foldl (fun rhs c => rhs - a i c * x c) (b i) / a i i)

def solve3x3 (thresholds : Thresholds F) (a : Matrix3 F) (b : Fin 3 → F) : Option (Fin 3 → F) := do
  let (a, b) ← (List.finRange 3).foldlM (pivotColumn thresholds) (a, b)
  some ((List.finRange 3).reverse.foldl (backSubstitute a b) fun _ => 0)

/-! ### Fits -/

abbrev Points (F : Type) := List (F × F)

/-- A quadratic, its coefficients from the square on. -/
abbrev Quadratic (F : Type) := F × F × F

/-- The sums of the powers of the outputs, and of these times the costs. -/
structure Moments (F : Type) where
  s0 : F
  s1 : F
  s2 : F
  s3 : F
  s4 : F
  t0 : F
  t1 : F
  t2 : F

def Moments.add (m : Moments F) (point : F × F) : Moments F :=
  let (x, y) := point
  let x2 := x * x
  { s0 := m.s0 + 1
    s1 := m.s1 + x
    s2 := m.s2 + x2
    s3 := m.s3 + x2 * x
    s4 := m.s4 + x2 * x2
    t0 := m.t0 + y
    t1 := m.t1 + x * y
    t2 := m.t2 + x2 * y }

def moments (points : Points F) : Moments F := points.foldl Moments.add ⟨0, 0, 0, 0, 0, 0, 0, 0⟩

def quadraticFit (thresholds : Thresholds F) (points : Points F) : Option (Quadratic F) := do
  let m := moments points
  let x ← solve3x3 thresholds ![![m.s4, m.s3, m.s2], ![m.s3, m.s2, m.s1], ![m.s2, m.s1, m.s0]] ![m.t2, m.t1, m.t0]
  let (q, l, c) := (x 0, x 1, x 2)
  if isFinite q && isFinite l && isFinite c && le 0 q then some (q, l, c) else none

/-- The sums over the outputs and costs, of the outputs, their squares, the costs and the products. -/
def lineSums (points : Points F) : F × F × F × F :=
  points.foldl (fun (sx, sxx, sy, sxy) (x, y) => (sx + x, sxx + x * x, sy + y, sxy + x * y)) (0, 0, 0, 0)

/-- The least squares line, and the mean cost where the outputs are the same. -/
def linearFit (thresholds : Thresholds F) (points : Points F) : Quadratic F :=
  let n := ofNat points.length
  let (sx, sxx, sy, sxy) := lineSums points
  let det := n * sxx - sx * sx
  if le (Binary64.abs det) (thresholds.epsilon * n * Binary64.max sxx 1) then (0, 0, sy / n)
  else
    let slope := (n * sxy - sx * sy) / det
    let intercept := (sy - slope * sx) / n
    (0, slope, intercept)

/-- `coeffs.chunks_exact(2)` -/
def pairs : List F → Points F
  | x :: y :: rest => (x, y) :: pairs rest
  | _ => []

/-- Leaves out a point whose output is that of the last point kept. -/
def dedupBy (same : F × F → F × F → Bool) : Points F → Points F
  | [] => []
  | first :: rest => go first rest
where
  go (last : F × F) : Points F → Points F
    | [] => [last]
    | point :: rest => if same point last then go last rest else last :: go point rest

def byOutput (a b : F × F) : Bool := (totalCmp a.1 b.1).isLE

def piecewiseQuadraticFit (thresholds : Thresholds F) (cost : GenCost F) : Except String (Quadratic F) :=
  -- a count that overflows when doubled is no length either
  if cost.ncost * 2 ≠ cost.coeffs.length then .error "piecewise gen costs must have paired breakpoints"
  else if (pairs cost.coeffs).any fun (x, y) => !isFinite x || !isFinite y then
    .error "piecewise gen costs must be finite"
  else
    let points := dedupBy (fun a b => le (Binary64.abs (a.1 - b.1)) thresholds.epsilon)
      ((pairs cost.coeffs).mergeSort byOutput)
    match points with
    | [] => .ok (0, 0, 0)
    | [point] => .ok (0, 0, point.2)
    | [_, _] => .ok (linearFit thresholds points)
    | _ => .ok ((quadraticFit thresholds points).getD (linearFit thresholds points))

end Fit

/-! ### Networks -/

/-- `details` are the fields of a generator other than its bus and cost. -/
structure Generator (F G : Type) where
  bus : ℕ
  cost : Option (GenCost F)
  details : G

/-- `tables` are those of the network other than its generators. -/
structure CostedNetwork (F G T : Type) where
  generators : List (Generator F G)
  baseMva : F
  isNormalized : Bool
  tables : T

/-- What is not the program's own: a check of the base power, the count of a cost's coefficients, the text of a
network and the name of a text. -/
structure Host (F G T : Type) where
  checkBaseMva : F → Except String Unit
  ncost : ℕ → List F → ℕ
  serializeModule : CostedNetwork F G T → Except String String
  contentId : String → String

section Prepare

variable [Libm F]

/-- `for pair in coeffs.chunks_exact_mut(2) { pair[0] /= scale }` -/
def scaleOutputs (scale : F) : List F → List F
  | x :: y :: rest => x / scale :: y :: scaleOutputs scale rest
  | rest => rest

/-- `filter(|cost| cost.model == 1)` -/
def piecewise (generator : Generator F G) : Option (GenCost F) := generator.cost.filter fun cost => cost.model == 1

/-- The cost fitted to a piecewise one, and how far it is off at each breakpoint. -/
def fitCost (thresholds : Thresholds F) (host : Host F G T) (scale : F) (cost : GenCost F) :
    Except String (GenCost F × List F) := do
  let normalized := { cost with coeffs := scaleOutputs scale cost.coeffs }
  let (q, l, c) ← piecewiseQuadraticFit thresholds normalized
  let coeffs := [q / (scale * scale), l / scale, c]
  if !coeffs.all isFinite then .error "cost fitting produced non-finite coefficients"
  else
    let fitted : GenCost F :=
      { model := 2, startup := cost.startup, shutdown := cost.shutdown, ncost := host.ncost 2 coeffs, coeffs }
    .ok (fitted, (pairs cost.coeffs).map fun p =>
      Binary64.abs ((q * (p.1 / scale) + l) * (p.1 / scale) + c - p.2))

def approximation (row : ℕ) (generator : Generator F G) (cost fitted : GenCost F) (errors : List F) :
    CostApproximation F :=
  { generator := row + 1
    bus := generator.bus
    sourceCost := cost
    modelCost := fitted
    rmsBreakpointError :=
      Libm.sqrt (Binary64.sum (errors.map fun x => x * x) / ofNat (Nat.max errors.length 1))
    maxBreakpointError := errors.foldl Binary64.max 0 }

/-- The generators with their fitted costs, and what has been approximated. -/
def fitGenerators (thresholds : Thresholds F) (host : Host F G T) (scale : F) :
    ℕ → List (Generator F G) → Except String (List (Generator F G) × List (CostApproximation F))
  | _, [] => .ok ([], [])
  | row, generator :: rest =>
    match piecewise generator with
    | none => do
        let (generators, approximations) ← fitGenerators thresholds host scale (row + 1) rest
        .ok (generator :: generators, approximations)
    | some cost => do
        let (fitted, errors) ← fitCost thresholds host scale cost
        let (generators, approximations) ← fitGenerators thresholds host scale (row + 1) rest
        .ok ({ generator with cost := some fitted } :: generators,
          approximation row generator cost fitted errors :: approximations)

def costScale (host : Host F G T) (source : CostedNetwork F G T) : Except String F :=
  if source.isNormalized then .ok 1
  else do
    host.checkBaseMva source.baseMva
    .ok source.baseMva

def prepareCosts (thresholds : Thresholds F) (host : Host F G T) (source : CostedNetwork F G T)
    (method : CostPreparation) : Except String (CostedNetwork F G T × Option (ModelDetails F)) :=
  match method with
  | .exact => .ok (source, none)
  | .convexQuadraticFit => do
      let scale ← costScale host source
      let (generators, approximations) ← fitGenerators thresholds host scale 0 source.generators
      let network := { source with generators }
      let sourceIr ← host.serializeModule source
      let modelIr ← host.serializeModule network
      .ok (network, some
        { method
          source := host.contentId sourceIr
          model := host.contentId modelIr
          quantity := "generator cost"
          units := "objective units"
          approximations })

end Prepare

end Tellegen.Preparation
