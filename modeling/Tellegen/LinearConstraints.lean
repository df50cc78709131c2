import Tellegen.Conic
import Tellegen.Engine

/-!
Linear constraints of a request on the DC OPF columns, and the rows of the program
that tie them to the network: power balance, the definition of the flows, and the
limits of the constraints. A bus injection enters as the flows of the bus's branches.
-/

open Binary64

namespace Tellegen.Dc

open Ac (Entry)

/-- The elements of an axis of a model: `KeyIndex`, and the source row of each element, which one
that the lowering made up has not. -/
structure SourceAxis (m : ℕ) where
  ids : Fin m → ℕ
  uids : Fin m → Option String
  sourceRows : Fin m → Option ℕ

/-- A key names the last element that carries it. -/
def SourceAxis.get {m : ℕ} (axis : SourceAxis m) : ElementKey → Option (Fin m)
  | .id value => (toUsize value).bind fun id =>
    (List.finRange m).reverse.find? fun e => axis.ids e = id
  | .uid uid => (List.finRange m).reverse.find? fun e => axis.uids e = some uid

def SourceAxis.source {m : ℕ} (axis : SourceAxis m) (key : ElementKey) : Option (Fin m) :=
  (axis.get key).filter fun e => (axis.sourceRows e).isSome

structure DcNetwork (F : Type) where
  n : ℕ
  m : ℕ
  k : ℕ
  brFrom : Fin m → Fin n
  brTo : Fin m → Fin n
  genBus : Fin k → Fin n
  b : Fin m → F
  sw : Fin m → F
  flowOffset : Fin m → F
  demand : Fin n → F
  shuntConductance : Fin n → F
  hvdcInjection : Fin n → F
  allowShed : Bool
  baseMva : F
  buses : SourceAxis n
  branches : SourceAxis m
  generators : SourceAxis k

/-- Coefficients of per unit flows and outputs, and the limits in MW. -/
structure LinearRow (F : Type) (m k : ℕ) where
  id : String
  flow : List (Fin m × F)
  generation : List (Fin k × F)
  lowerMw : Option F
  upperMw : Option F

section

variable {F : Type} [Binary64 F]

namespace LinearRow

variable {m k : ℕ}

def isEquality (row : LinearRow F m k) : Bool :=
  match row.lowerMw, row.upperMw with
  | some lower, some upper => eq lower upper
  | _, _ => false

def evaluate (row : LinearRow F m k) (f : Fin m → F) (pg : Fin k → F) : F :=
  Binary64.sum (row.flow.map fun (e, c) => c * f e) +
    Binary64.sum (row.generation.map fun (j, c) => c * pg j)

end LinearRow

/-! ### Resolving the constraints -/

/-- The coefficients of one kind of column so far. Those of a column add up. -/
abbrev Coefficients (F : Type) (m : ℕ) := Fin m → Option F

def Coefficients.add {m : ℕ} (terms : Coefficients F m) (e : Fin m) (c : F) : Coefficients F m :=
  Function.update terms e (some ((terms e).getD 0 + c))

variable (dc : DcNetwork F)

/-- The branches at a bus, with `1` where the bus is the `from` end and `-1` where it is the `to`
end. -/
def incident (i : Fin dc.n) : List (Fin dc.m × F) :=
  (List.finRange dc.m).flatMap fun e =>
    (if dc.brFrom e = i then [(e, 1)] else []) ++ (if dc.brTo e = i then [(e, -1)] else [])

def addTerm (id : String) (combined : Coefficients F dc.m × Coefficients F dc.k)
    (term : ConstraintTerm F) : Except String (Coefficients F dc.m × Coefficients F dc.k) :=
  let key := term.element.display
  if ¬ isFinite term.coefficient then
    .error s!"constraint \"{id}\" coefficient for {key} must be finite"
  else
    match term.kind with
    | .branchFlow =>
      match dc.branches.source term.element with
      | none => .error s!"constraint \"{id}\": unknown or out-of-service branch {key}"
      | some e => .ok (combined.1.add e term.coefficient, combined.2)
    | .busInjection =>
      match dc.buses.source term.element with
      | none => .error s!"constraint \"{id}\": unknown or out-of-service bus {key}"
      | some i =>
        let flow := (incident dc i).foldl
          (fun flow (e, sign) => flow.add e (sign * term.coefficient)) combined.1
        .ok (flow, combined.2)
    | .generator =>
      let named := match term.element with
        | .uid uid => (List.finRange dc.k).countP fun j => dc.generators.uids j = some uid
        | .id _ => 0
      if 1 < named then
        .error s!"constraint \"{id}\": generator uid {key} names {named} generators"
      else
        match dc.generators.source term.element with
        | none => .error s!"constraint \"{id}\": unknown or out-of-service generator {key}"
        | some j => .ok (combined.1, combined.2.add j term.coefficient)

/-- The coefficients that do not cancel, in column order. -/
def nonzero {m : ℕ} (id : String) (terms : Coefficients F m) : Except String (List (Fin m × F)) :=
  let present := ((List.finRange m).filterMap fun e => (terms e).map (e, ·)).filter fun term =>
    !eq term.2 0
  if present.any fun term => !isFinite term.2 then
    .error s!"constraint \"{id}\" combined coefficients must be finite"
  else .ok present

def checkLimits (constraint : LinearConstraint F) : Except String Unit :=
  let id := constraint.id
  match constraint.lower, constraint.upper with
  | none, none => .error s!"constraint \"{id}\" needs a lower limit, an upper limit, or both"
  | lower, upper =>
    if lower.any (fun v => !isFinite v) ∨ upper.any (fun v => !isFinite v) then
      .error s!"constraint \"{id}\" limits must be finite"
    else
      match lower, upper with
      | some lower, some upper =>
        if lt upper lower then
          let low := display lower
          let high := display upper
          .error s!"constraint \"{id}\" lower limit {low} exceeds its upper limit {high}"
        else .ok ()
      | _, _ => .ok ()

/-- `seen` are the ids of the constraints before. -/
def resolveConstraint (seen : List String) (constraint : LinearConstraint F) :
    Except String (LinearRow F dc.m dc.k) := do
  let id := constraint.id
  if id.isEmpty then .error "constraint id must not be empty" else
  if id ∈ seen then .error s!"duplicate constraint id \"{id}\"" else
  checkLimits constraint
  if constraint.terms.isEmpty then .error s!"constraint \"{id}\" has no terms" else
  let combined ← constraint.terms.foldlM (addTerm dc id) (fun _ => none, fun _ => none)
  let flow ← nonzero id combined.1
  let generation ← nonzero id combined.2
  if flow.isEmpty ∧ generation.isEmpty then
    .error s!"constraint \"{id}\" has no nonzero coefficient once its terms are combined"
  else
    return { id, flow, generation, lowerMw := constraint.lower, upperMw := constraint.upper }

def resolveConstraints (seen : List String) :
    List (LinearConstraint F) → Except String (List (LinearRow F dc.m dc.k))
  | [] => .ok []
  | constraint :: rest => do
      let row ← resolveConstraint dc seen constraint
      let rows ← resolveConstraints (constraint.id :: seen) rest
      return row :: rows

def applyLinearConstraints (constraints : List (LinearConstraint F)) :
    Except String (List (LinearRow F dc.m dc.k)) :=
  resolveConstraints dc [] constraints

/-! ### Fixed withdrawal -/

/-- The phase shifts of the branches at their ends. -/
def phaseWithdrawal : Fin dc.n → F :=
  (List.finRange dc.m).foldl (fun withdrawal e =>
    let offset := dc.sw e * dc.flowOffset e
    let left := Function.update withdrawal (dc.brFrom e) (withdrawal (dc.brFrom e) + offset)
    Function.update left (dc.brTo e) (left (dc.brTo e) - offset)) fun _ => 0

def networkWithdrawal (i : Fin dc.n) : F :=
  dc.shuntConductance i + phaseWithdrawal dc i - dc.hvdcInjection i

def currentFixedWithdrawal (i : Fin dc.n) : F := dc.demand i + networkWithdrawal dc i

def currentFlowOffset (e : Fin dc.m) : F := dc.sw e * dc.flowOffset e

def shedCap (i : Fin dc.n) : F := if dc.allowShed then Binary64.max (dc.demand i) 0 else 0

/-- A bus that cannot shed has no shedding variable. -/
def sheddable (i : Fin dc.n) : Bool := lt 0 (shedCap dc i)

/-! ### The rows of the program -/

inductive Column (dc : DcNetwork F) where
  | va (i : Fin dc.n)
  | pg (j : Fin dc.k)
  | f (e : Fin dc.m)
  | psh (i : Fin dc.n)

inductive LimitSide where
  | equality | upper | lower
  deriving DecidableEq

/-- `linear r` are the rows of the `r`-th constraint. -/
inductive Row (dc : DcNetwork F) where
  | balance (i : Fin dc.n)
  | flow (e : Fin dc.m)
  | linear (r : ℕ) (side : LimitSide)

abbrev DcEntry (dc : DcNetwork F) := Entry (Row dc) (Column dc) F

def balanceEntries (i : Fin dc.n) : List (DcEntry dc) :=
  (if sheddable dc i then [.a (.balance i) (.psh i) 1] else []) ++
    [.rhs (.balance i) (currentFixedWithdrawal dc i)]

def generatorEntries (j : Fin dc.k) : List (DcEntry dc) := [.a (.balance (dc.genBus j)) (.pg j) 1]

def branchEntries (e : Fin dc.m) : List (DcEntry dc) :=
  let w := -dc.b e * dc.sw e
  let source := dc.brFrom e
  let target := dc.brTo e
  [.a (.balance source) (.va source) (-w), .a (.balance target) (.va target) (-w),
    .a (.balance source) (.va target) w, .a (.balance target) (.va source) w,
    .a (.flow e) (.f e) 1, .a (.flow e) (.va source) (-w), .a (.flow e) (.va target) w,
    .rhs (.flow e) (currentFlowOffset dc e)]

/-- One row: `sign` times the constraint against `sign` times a limit. -/
def limitEntries (row : LinearRow F dc.m dc.k) (at_ : Row dc) (sign limit : F) :
    List (DcEntry dc) :=
  row.flow.map (fun (e, c) => .a at_ (.f e) (sign * c)) ++
    row.generation.map (fun (j, c) => .a at_ (.pg j) (sign * c)) ++
    [.rhs at_ (sign * limit / dc.baseMva)]

def linearEntries (r : ℕ) (row : LinearRow F dc.m dc.k) : List (DcEntry dc) :=
  if row.isEquality then
    row.lowerMw.toList.flatMap (limitEntries dc row (.linear r .equality) 1)
  else
    row.upperMw.toList.flatMap (limitEntries dc row (.linear r .upper) 1) ++
      row.lowerMw.toList.flatMap (limitEntries dc row (.linear r .lower) (-1))

def networkEntries : List (DcEntry dc) :=
  (List.finRange dc.n).flatMap (balanceEntries dc) ++
    (List.finRange dc.k).flatMap (generatorEntries dc) ++
    (List.finRange dc.m).flatMap (branchEntries dc)

def programEntries (rows : List (LinearRow F dc.m dc.k)) : List (DcEntry dc) :=
  networkEntries dc ++ rows.zipIdx.flatMap fun (row, r) => linearEntries dc r row

end

end Tellegen.Dc
