import Tellegen.Lib.Wire

/-!
Element keys, the rows of a balanced network that the program reads, and the
vocabulary of observables and parameters. A network carries the rest of its
tables as one opaque value.
-/

open Binary64 Std

namespace Tellegen

/-! ### Element keys -/

inductive ElementKey where
  | id (value : ℤ)
  | uid (value : String)
  deriving DecidableEq

namespace ElementKey

/-- The derived order: numeric ids first. -/
instance : Ord ElementKey where
  compare
    | .id a, .id b => compare a b
    | .id _, .uid _ => .lt
    | .uid _, .id _ => .gt
    | .uid a, .uid b => compare a b

@[simp] theorem compare_id (a b : ℤ) : compare (id a) (id b) = compare a b := rfl

@[simp] theorem compare_uid (a b : String) : compare (uid a) (uid b) = compare a b := rfl

@[simp] theorem compare_id_uid (a : ℤ) (b : String) : compare (id a) (uid b) = .lt := rfl

@[simp] theorem compare_uid_id (a : String) (b : ℤ) : compare (uid a) (id b) = .gt := rfl

instance : OrientedOrd ElementKey where
  eq_swap {a b} := by
    cases a <;> cases b <;> simp only [compare_id, compare_uid, compare_id_uid, compare_uid_id]
    · exact OrientedCmp.eq_swap
    · rfl
    · rfl
    · exact OrientedCmp.eq_swap

instance : TransOrd ElementKey where
  isLE_trans {a b c} hab hbc := by
    cases a <;> cases b <;> cases c <;>
      simp only [compare_id, compare_uid, compare_id_uid, compare_uid_id] at hab hbc ⊢
    · exact TransCmp.isLE_trans hab hbc
    · rfl
    · exact absurd hbc (by decide)
    · rfl
    · exact absurd hab (by decide)
    · exact absurd hab (by decide)
    · exact absurd hbc (by decide)
    · exact TransCmp.isLE_trans hab hbc

instance : LawfulEqOrd ElementKey where
  eq_of_compare {a b} h := by
    cases a <;> cases b <;> simp_all

/-- `str::parse::<i64>`: an optional sign, then decimal digits, in range. -/
def parseI64 (text : String) : Option ℤ :=
  let digits (sign : ℤ) (chars : List Char) : Option ℤ :=
    if chars ≠ [] ∧ chars.all Char.isDigit then
      let value := sign * (chars.foldl (fun n c => n * 10 + (c.toNat - '0'.toNat)) 0 : ℕ)
      if -2 ^ 63 ≤ value ∧ value < 2 ^ 63 then some value else none
    else none
  match text.toList with
  | '-' :: chars => digits (-1) chars
  | '+' :: chars => digits 1 chars
  | chars => digits 1 chars

def display : ElementKey → String
  | .id value => toString value
  | .uid value => "\"" ++ value ++ "\""

def toJson {F : Type} : ElementKey → Json F
  | .id value => .int value
  | .uid value => .str value

/-- A string that spells an integer is the numeric form of a key. -/
def read {F : Type} : Read F ElementKey
  | .int value => if value < 2 ^ 63 then .ok (.id value) else .error "element id out of range"
  | .str text => .ok (match parseI64 text with
      | some value => .id value
      | none => .uid text)
  | _ => .error "expected an integer element id or a table:row uid string"

/-- The values of the Rust type: the numeric form is an `i64`. -/
def InRange : ElementKey → Prop
  | .id value => -2 ^ 63 ≤ value ∧ value < 2 ^ 63
  | .uid _ => True

/-- A key that reads back as itself: its uid does not spell an integer. -/
def Portable : ElementKey → Prop
  | .id value => value < 2 ^ 63
  | .uid text => parseI64 text = none

instance (key : ElementKey) : Decidable key.Portable := by
  cases key <;> unfold Portable <;> infer_instance

theorem read_toJson {F : Type} (key : ElementKey) :
    read (toJson key : Json F) = .ok key ↔ key.Portable := by
  cases key with
  | id value => simp [toJson, read, Portable]
  | uid text =>
    simp only [toJson, read, Portable]
    cases parseI64 text <;> simp

end ElementKey

/-! ### Networks -/

inductive Problem where
  | dcPf | dcOpf | acPf | socwr | acopf
  deriving DecidableEq

/-- `Reference`, `Pv` and `Pq` buses are alike to the code modelled here. -/
inductive BusType where
  | connected | isolated
  deriving DecidableEq

structure Bus where
  id : ℕ
  uid : Option String
  kind : BusType
  deriving DecidableEq

structure Load (F : Type) where
  bus : ℕ
  p : F
  inService : Bool
  deriving DecidableEq

structure Branch (F : Type) where
  uid : Option String
  source : ℕ
  target : ℕ
  r : F
  x : F
  rateA : F
  inService : Bool
  deriving DecidableEq

structure Generator where
  uid : Option String
  deriving DecidableEq

structure BalancedNetwork (F T : Type) where
  buses : List Bus
  loads : List (Load F)
  branches : List (Branch F)
  generators : List Generator
  baseMva : F
  isNormalized : Bool
  tables : T
  deriving DecidableEq

/-- `validate_unique_uids`: no uid twice, and none that a numeric key could
mean instead, other than a record's own number. -/
def validateUniqueUids (family : String) :
    List String → List (Option String × Option ℕ) → Except String Unit
  | _, [] => .ok ()
  | seen, (none, _) :: rest => validateUniqueUids family seen rest
  | seen, (some uid, ownId) :: rest =>
    let digits := match uid.toList with
      | '+' :: chars => chars
      | '-' :: chars => chars
      | chars => chars
    let numeric := digits ≠ [] ∧ digits.all Char.isDigit
    let ownNumber := ownId.any fun id => uid = toString id
    if numeric ∧ ¬ ownNumber then
      .error (family ++ " uid \"" ++ uid ++ "\" is ambiguous with a numeric element id")
    else if uid ∈ seen then .error ("duplicate " ++ family ++ " uid \"" ++ uid ++ "\"")
    else validateUniqueUids family (uid :: seen) rest

def validateCanonicalIdentity {F T : Type} (network : BalancedNetwork F T) :
    Except String Unit := do
  validateUniqueUids "bus" [] (network.buses.map fun bus => (bus.uid, some bus.id))
  validateUniqueUids "branch" [] (network.branches.map fun branch => (branch.uid, none))

/-! ### Observables and parameters -/

inductive Power where
  | active | reactive
  deriving DecidableEq

inductive End where
  | from | to
  deriving DecidableEq

inductive VoltageKind where
  | magnitude | angle | squared | productReal | productImag
  deriving DecidableEq

inductive CostTerm where
  | quadratic | linear
  deriving DecidableEq

inductive GB where
  | conductance | susceptance
  deriving DecidableEq

inductive Bound where
  | min | max
  deriving DecidableEq

inductive TapKind where
  | ratio | phaseShift
  deriving DecidableEq

inductive Operand where
  | price (power : Power)
  | dispatch (power : Power)
  | flow (power : Power) (end_ : End)
  | voltage (kind : VoltageKind)
  deriving DecidableEq

inductive Parameter where
  | demand (power : Power)
  | cost (term : CostTerm)
  | lineLimit
  | seriesAdmittance (part : GB)
  | shuntAdmittance (part : GB)
  | voltageBound (bound : Bound)
  | genBound (power : Power) (bound : Bound)
  | transformer (kind : TapKind)
  | switching
  | constraintLimit
  deriving DecidableEq

inductive Axis where
  | bus | branch | generator | constraint
  deriving DecidableEq

inductive Mode where
  | forward | adjoint | auto
  deriving DecidableEq

def autoMode (nparam noperand : ℕ) : Mode := if nparam ≤ noperand then .forward else .adjoint

def Mode.direction (mode : Mode) (nparam noperand : ℕ) : Mode :=
  match mode with
  | .auto => autoMode nparam noperand
  | mode => mode

def Operand.axis : Operand → Axis
  | .voltage .productReal | .voltage .productImag | .flow _ _ => .branch
  | .price _ | .voltage _ => .bus
  | .dispatch _ => .generator

def Parameter.axis : Parameter → Axis
  | .demand _ | .shuntAdmittance _ | .voltageBound _ => .bus
  | .cost _ | .genBound _ _ => .generator
  | .lineLimit | .seriesAdmittance _ | .transformer _ | .switching => .branch
  | .constraintLimit => .constraint

/-! ### How the enumerations are printed -/

def Power.debug : Power → String
  | .active => "Active"
  | .reactive => "Reactive"

def End.debug : End → String
  | .from => "From"
  | .to => "To"

def VoltageKind.debug : VoltageKind → String
  | .magnitude => "Magnitude"
  | .angle => "Angle"
  | .squared => "Squared"
  | .productReal => "ProductReal"
  | .productImag => "ProductImag"

def CostTerm.debug : CostTerm → String
  | .quadratic => "Quadratic"
  | .linear => "Linear"

def GB.debug : GB → String
  | .conductance => "Conductance"
  | .susceptance => "Susceptance"

def Bound.debug : Bound → String
  | .min => "Min"
  | .max => "Max"

def TapKind.debug : TapKind → String
  | .ratio => "Ratio"
  | .phaseShift => "PhaseShift"

def Operand.debug : Operand → String
  | .price power => "Price(" ++ power.debug ++ ")"
  | .dispatch power => "Dispatch(" ++ power.debug ++ ")"
  | .flow power side =>
    "Flow \x7b power: " ++ power.debug ++ ", end: " ++ side.debug ++ " \x7d"
  | .voltage kind => "Voltage(" ++ kind.debug ++ ")"

def Parameter.debug : Parameter → String
  | .demand power => "Demand(" ++ power.debug ++ ")"
  | .cost term => "Cost(" ++ term.debug ++ ")"
  | .lineLimit => "LineLimit"
  | .seriesAdmittance part => "SeriesAdmittance(" ++ part.debug ++ ")"
  | .shuntAdmittance part => "ShuntAdmittance(" ++ part.debug ++ ")"
  | .voltageBound bound => "VoltageBound(" ++ bound.debug ++ ")"
  | .genBound power bound =>
    "GenBound \x7b power: " ++ power.debug ++ ", bound: " ++ bound.debug ++ " \x7d"
  | .transformer kind => "Transformer(" ++ kind.debug ++ ")"
  | .switching => "Switching"
  | .constraintLimit => "ConstraintLimit"

def Axis.debug : Axis → String
  | .bus => "Bus"
  | .branch => "Branch"
  | .generator => "Generator"
  | .constraint => "Constraint"

/-! ### Numeric identities -/

/-- `usize::try_from` on a signed id. -/
def toUsize (id : ℤ) : Option ℕ := if id < 0 then none else some id.toNat

/-- The numeric identity of the element that a key names. -/
def sourceElementId {F T : Type} (network : BalancedNetwork F T) (axis : Axis) :
    ElementKey → Except String ℕ
  | .id value =>
    match toUsize value with
    | some id => .ok id
    | none => .error "element id must be nonnegative"
  | .uid uid =>
    let found := match axis with
      | .bus => (network.buses.find? (·.uid = some uid)).map (·.id)
      | .branch => (network.branches.findIdx? (·.uid = some uid)).map (· + 1)
      | .generator => (network.generators.findIdx? (·.uid = some uid)).map (· + 1)
      | .constraint => none
    match found with
    | some id => .ok id
    | none => .error ("unknown " ++ axis.debug ++ " identity " ++ uid)

end Tellegen
