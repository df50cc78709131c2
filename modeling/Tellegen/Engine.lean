import Tellegen.Objective

/-!
What the program calls but does not contain: the PowerIO reader, writer and
problem instances, the numerical solvers, the digest behind content ids and
the JSON printer. Nothing is assumed of them here. Each may refuse any input,
and a solver may refuse an input it accepted in another form.
-/

open Binary64 Std

namespace Tellegen

/-! ### Requests -/

inductive PowerFlowStart where
  | flat | case
  deriving DecidableEq

inductive ConstraintTermKind where
  | branchFlow | busInjection | generator
  deriving DecidableEq

structure ConstraintTerm (F : Type) where
  kind : ConstraintTermKind
  element : ElementKey
  coefficient : F
  deriving DecidableEq

structure LinearConstraint (F : Type) where
  id : String
  terms : List (ConstraintTerm F)
  lower : Option F
  upper : Option F
  deriving DecidableEq

structure SensRequest where
  operand : Operand
  parameter : Parameter
  indices : Option (List ℕ)
  mode : Mode
  deriving DecidableEq

/-- A session states no limit options, so the request has no field for them. -/
structure SolveRequest (F : Type) where
  formulation : Problem
  edits : Edits F
  start : PowerFlowStart
  constraints : List (LinearConstraint F)
  sensitivities : List SensRequest

/-! ### Derivatives -/

structure DerivativeNumerics (F : Type) where
  regularization : F
  refinementIterations : ℕ
  residualToleranceFactor : F

structure DecisionDerivative (F : Type) where
  decision : String
  value : F
  units : String

structure ObjectiveResult (F : Type) where
  value : F
  gradient : List (DecisionDerivative F)
  localOnly : Bool
  numerics : DerivativeNumerics F

/-! ### PowerIO modules -/

/-- The value of a module. `I` stands for problem instances and `S` for their
solutions. -/
inductive PioValue (N I S : Type) where
  | balancedNetwork (network : N)
  | dcOpfInstance (inst : I)
  | acPfInstance (inst : I)
  | acOpfInstance (inst : I)
  | dcOpfSolution (solution : S)
  | acPfSolution (solution : S)
  | socwrOpfSolution (solution : S)
  | other (typeName : String)
  deriving DecidableEq

/-- A value with the records that travel with it: producer, source
descriptors, diagnostics, history and extensions. -/
structure PioModule (N I S E : Type) where
  value : PioValue N I S
  envelope : E

inductive StudyInput (I : Type) where
  | balancedNetwork
  | dcOpf (inst : I)
  | acPf (inst : I)
  | acOpf (inst : I)

structure Engine (F : Type) where
  Tables : Type
  Instance : Type
  Solution : Type
  Envelope : Type
  Solved : Type
  NetworkValue : Type
  [networkValueEq : DecidableEq NetworkValue]
  deserializeModule : String →
    Except String (PioModule (BalancedNetwork F Tables) Instance Solution Envelope)
  serializeModule :
    PioModule (BalancedNetwork F Tables) Instance Solution Envelope → Except String String
  /-- The records of a module built from a bare value. -/
  freshEnvelope : Envelope
  /-- The records that survive the replacement of a module's value. -/
  severEnvelope : Envelope → Envelope
  instanceNetwork : Instance → BalancedNetwork F Tables
  solutionInstance : Solution → Instance
  fromNetwork : Problem → BalancedNetwork F Tables → Except String Instance
  withNetwork : Instance → BalancedNetwork F Tables → Except String Instance
  /-- Rebind an AC power flow instance, taking one demand change per bus row
  off its prescribed injections. -/
  withNetworkAndInjections :
    Instance → BalancedNetwork F Tables → List F → Except String Instance
  solveState : StudyInput Instance → BalancedNetwork F Tables → SolveRequest F →
    Except String Solved
  assemble : Solved → SolveRequest F → Except String (SolveResponse F)
  emitSolution : Problem → Instance → Solved → Except String Solution
  /-- One implicit derivative per decision. -/
  derivative : Problem → Solved → BalancedNetwork F Tables →
    List (Operand × ElementKey × F) → (space : DecisionSpace F) →
    Except String (DerivativeNumerics F × List.Vector F space.vars.length)
  /-- In order and without repetition. -/
  activeConstraints : Solved → List String
  networkValue : BalancedNetwork F Tables → Except String NetworkValue
  printResponse : SolveResponse F → Except String String
  responseJson : SolveResponse F → Json F
  parseResponse : String → Except String (SolveResponse F)
  printJson : Json F → String
  parseJson : String → Except String (Json F)
  /-- Features and diagnostics of a geographic layer. -/
  parseGeoLayer : String → Except String (ℕ × ℕ)
  contentId : String → String

namespace Engine

variable {F : Type} (engine : Engine F)

instance : DecidableEq engine.NetworkValue := engine.networkValueEq

abbrev Network := BalancedNetwork F engine.Tables

abbrev Value := PioValue engine.Network engine.Instance engine.Solution

abbrev Module := PioModule engine.Network engine.Instance engine.Solution engine.Envelope

/-- `PioModule::new`. -/
def newModule (value : engine.Value) : engine.Module := { value, envelope := engine.freshEnvelope }

end Engine

end Tellegen
