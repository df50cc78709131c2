import Tellegen.Lib.Complex64

/-!
The projection that starts an optimization: the point nearest to a default at which linear equations hold. The rows
are orthogonalized twice, with their right-hand sides, and every row is checked at the end.
-/

open Binary64 hiding max min

namespace Tellegen.McOpf

variable {F : Type} [Libm F]

namespace Projection

/-- `for (a, p) in q.iter_mut().zip(prev) { *a += factor * p }` -/
def addMultiple (factor : F) : List F → List F → List F
  | a :: q, p :: prev => (a + factor * p) :: addMultiple factor q prev
  | q, _ => q

/-- `for (a, p) in q.iter_mut().zip(prev) { *a -= dot * p }` -/
def subtractMultiple (dot : F) : List F → List F → List F
  | a :: q, p :: prev => (a - dot * p) :: subtractMultiple dot q prev
  | q, _ => q

def dot (a b : List F) : F := Binary64.sum (List.zipWith (fun a b => a * b) a b)

/-- A row and its right-hand side without their parts along the basis. -/
def orthogonalize (basis : List (List F × F)) (row : List F × F) : List F × F :=
  basis.foldl (fun (q, b) (prev, value) =>
    let dot := dot q prev
    (subtractMultiple dot q prev, b - dot * value)) row

def pivotThreshold : F := lit (1 / 10 ^ 10)

def largest (row : List F) : F := (row.map Binary64.abs).foldl Binary64.max 0

def addRow (basis : List (List F × F)) (entry : List F × F) : Option (List (List F × F)) :=
  let (row, target) := entry
  let scale := largest row
  if !isFinite scale || !isFinite target then none
  else if eq scale 0 then
    if lt (lit (1 / 10 ^ 10)) (Binary64.abs target) then none else some basis
  else
    let (q, b) := orthogonalize basis (orthogonalize basis (row.map fun v => v / scale, target / scale))
    let norm := Libm.sqrt (Binary64.sum (q.map fun v => v * v))
    if lt pivotThreshold norm then some (basis ++ [(q.map fun v => v / norm, b / norm)]) else some basis

/-- The default with the correction of each row of the basis. -/
def correct (basis : List (List F × F)) (default : List F) : List F :=
  basis.foldl (fun x (q, b) => addMultiple (b - dot q default) x q) default

def holdsAt (x : List F) (entry : List F × F) : Bool :=
  let (row, b) := entry
  let actual := dot row x
  isFinite actual && !lt (lit (1 / 10 ^ 8) * (1 + Binary64.abs b)) (Binary64.abs (actual - b))

end Projection

open Projection

def project (rows : List (List F)) (rhs default : List F) : Option (List F) := do
  let basis ← (rows.zip rhs).foldlM addRow []
  let x := correct basis default
  if x.any fun v => !isFinite v then none
  else if (rows.zip rhs).all (holdsAt x) then some x else none

end Tellegen.McOpf
