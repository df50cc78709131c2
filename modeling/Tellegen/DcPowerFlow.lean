import Tellegen.AcPowerFlow
import Tellegen.Lib.Triplets
import Tellegen.LinearConstraints

/-!
DC power flow: the angles that carry given injections, from the susceptance matrix grounded at the
reference buses, the flows they drive, and the injections that close the balance at the references.
-/

open Binary64

namespace Tellegen.Dc

open Ac (LinearSolver)

structure GroundedNetwork (F : Type) extends DcNetwork F where
  refBuses : List (Fin n)

structure DcPfSystem (n : ℕ) (F : Type) where
  triplets : List (Fin n × Fin n × F)
  rhs : Fin n → F

structure DcPfSolution (n m : ℕ) (F : Type) where
  va : Fin n → F
  f : Fin m → F
  /-- In the order of the reference buses. -/
  refInjections : List F

section

variable {F : Type} [Binary64 F]

/-! ### Susceptances -/

/-- The sums of the entries so far, by place. -/
abbrev Sums (F : Type) (n : ℕ) := Fin n × Fin n → Option F

def Sums.add {n : ℕ} (acc : Sums F n) (row column : Fin n) (w : F) : Sums F n :=
  Function.update acc (row, column) (some ((acc (row, column)).getD 0 + w))

def Sums.sub {n : ℕ} (acc : Sums F n) (row column : Fin n) (w : F) : Sums F n :=
  Function.update acc (row, column) (some ((acc (row, column)).getD 0 - w))

def Sums.triplets {n : ℕ} (acc : Sums F n) : List (Fin n × Fin n × F) :=
  (List.finRange n).flatMap fun row => (List.finRange n).filterMap fun column =>
    (acc (row, column)).map fun w => (row, column, w)

def addSusceptance (dc : DcNetwork F) (acc : Sums F dc.n) (e : Fin dc.m) : Sums F dc.n :=
  let w := -dc.b e * dc.sw e
  if eq w 0 then acc
  else
    let i := dc.brFrom e
    let j := dc.brTo e
    (((acc.add i i w).add j j w).sub i j w).sub j i w

/-- An open branch contributes nothing. -/
def susceptanceCoo (dc : DcNetwork F) : List (Fin dc.n × Fin dc.n × F) :=
  ((List.finRange dc.m).foldl (addSusceptance dc) fun _ => none).triplets

/-! ### The power flow -/

variable (dc : GroundedNetwork F)

def reference (i : Fin dc.n) : Bool := dc.refBuses.contains i

/-- The rows and columns of the references are dropped but for a `1` on the diagonal. -/
def assemblePf (injection : Fin dc.n → F) : DcPfSystem dc.n F :=
  { triplets := ((susceptanceCoo dc.toDcNetwork).filter fun (row, column, _) =>
      !(reference dc row || reference dc column)) ++ dc.refBuses.map fun r => (r, r, 1)
    rhs := fun i => if reference dc i then 0 else injection i - networkWithdrawal dc.toDcNetwork i }

def branchFlow (theta : Fin dc.n → F) (e : Fin dc.m) : F :=
  let w := -dc.b e * dc.sw e
  w * (theta (dc.brFrom e) - theta (dc.brTo e)) + currentFlowOffset dc.toDcNetwork e

def readDcPf (theta : Fin dc.n → F) : DcPfSolution dc.n dc.m F :=
  let injection := (susceptanceCoo dc.toDcNetwork).foldl
    (fun injection (row, column, w) =>
      Function.update injection row (injection row + w * theta column))
    (networkWithdrawal dc.toDcNetwork)
  { va := theta
    f := branchFlow dc theta
    refInjections := dc.refBuses.map injection }

variable [LinearSolver F]

def dcPf (injection : List F) : Except String (DcPfSolution dc.n dc.m F) :=
  if injection.length ≠ dc.n then
    .error s!"injection length {injection.length} != bus count {dc.n}"
  else
    let sys := assemblePf dc fun i => injection.getD i 0
    match LinearSolver.solveSparse dc.n (sys.triplets.map fun (row, column, w) => (row.val, column.val, w))
        (List.ofFn sys.rhs) with
    | .error message => .error message
    | .ok theta => .ok (readDcPf dc fun i => theta i)

end

end Tellegen.Dc
