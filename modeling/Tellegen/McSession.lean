import Tellegen.Bundle
import Tellegen.Compensation
import Tellegen.OperatingPoint

/-!
A session on a prepared network: its loads are edited in place and solved again
from the last operating point. A failed edit restores the loads that it has changed.
-/

open Binary64 Outcome

namespace Tellegen.Multiconductor

/-! ### Sessions -/

/-- The records of a module beside its value. `exclusions` is what the extension
`tellegen.energized_network` decodes to, where the module has it. -/
structure PioRecords (R : Type) where
  exclusions : Option (Except String (List McExcludedIsland))
  rest : R

structure McLoadPowerEdit (F : Type) where
  load : String
  branch : ℕ
  pW : F
  qVar : F

structure McPfSession (F T R : Type) [SparseLu F] where
  baseInstance : McAcPfInstance F T
  fullNetwork : Option (MulticonductorNetwork F T)
  excludedIslands : List McExcludedIsland
  prepared : PreparedNetwork F
  options : McPfOptions F
  /-- The records of the module of the session. -/
  module : Option (PioRecords R)
  moduleHoldsNetwork : Bool
  basePower : List (List (Complex64 F))
  /-- The position of each load, unless two loads have one name. -/
  loadIndex : Except String (List (String × ℕ))
  state : FixedPoint F prepared.index.size
  summary : McPfSummary F
  solveCount : ℕ

variable {F T R : Type} [Libm F] [SparseLu F]

def BranchLoad.powers {n : ℕ} (load : BranchLoad F n) : List (Complex64 F) :=
  (List.finRange load.branches).map load.power

def indexLoads : List String → ℕ → List (String × ℕ) → Except String (List (String × ℕ))
  | [], _, index => .ok index
  | name :: rest, position, index =>
    if (index.lookup name).isSome then
      .error ("duplicate prepared load identity `" ++ name ++ "`")
    else indexLoads rest (position + 1) (index ++ [(name, position)])

namespace McPfSession

section New

variable [DeviceModels F T]

def new (inst : McAcPfInstance F T) (options : McPfOptions F) : Result (McPfSession F T R) := do
  lift (validateOptions options)
  let prepared ← prepare inst
  let state ← lift (iterate prepared options none)
  let summary ← lift (summarize prepared options state 1)
  .ok
    { baseInstance := inst
      fullNetwork := none
      excludedIslands := []
      prepared
      options
      module := none
      moduleHoldsNetwork := false
      basePower := prepared.loads.map BranchLoad.powers
      loadIndex := indexLoads (prepared.loads.map BranchLoad.name) 0 []
      state
      summary
      solveCount := 1 }

end New

/-! ### Editing the loads -/

/-- `==` of `Complex64` -/
def complexEq (a b : Complex64 F) : Bool := eq a.re b.re && eq a.im b.im

def powersEq : List (Complex64 F) → List (Complex64 F) → Bool
  | [], [] => true
  | a :: as, b :: bs => complexEq a b && powersEq as bs
  | _, _ => false

def place (power : List (List (Complex64 F))) (load branch : ℕ) (value : Complex64 F) :
    List (List (Complex64 F)) := power.modify load fun row => row.set branch value

/-- The powers that the edits so far ask for, and the branches that they name. -/
structure Overlay (F : Type) where
  nextPower : List (List (Complex64 F))
  seen : List (ℕ × ℕ)

def overlayEdit (index : List (String × ℕ)) (overlay : Overlay F) (edit : McLoadPowerEdit F) :
    Except String (Overlay F) :=
  if isBlank edit.load || !isFinite edit.pW || !isFinite edit.qVar then
    .error "load-power edits require a name and finite P/Q values"
  else
    match index.lookup edit.load with
    | none => .error ("unknown load `" ++ edit.load ++ "`")
    | some load =>
      let branches := (overlay.nextPower.getD load []).length
      if branches ≤ edit.branch then
        .error ("load `" ++ edit.load ++ "` has no branch " ++ toString edit.branch ++
          "; expected 0.." ++ toString branches)
      else if (load, edit.branch) ∈ overlay.seen then
        .error ("load `" ++ edit.load ++ "` branch " ++ toString edit.branch ++
          " is edited more than once")
      else
        .ok ⟨place overlay.nextPower load edit.branch ⟨edit.pW, edit.qVar⟩,
          (load, edit.branch) :: overlay.seen⟩

variable {n : ℕ}

/-- The loads as far as they could be changed, the powers that the changed ones had, and the error
that has stopped the change. -/
structure Applied (F : Type) (n : ℕ) where
  loads : List (BranchLoad F n)
  previous : List (ℕ × List (Complex64 F))
  outcome : Except String Unit

def applyPowers : ℕ → List (BranchLoad F n) → List (List (Complex64 F)) → Applied F n
  | index, load :: loads, power :: powers =>
    if powersEq load.powers power then
      let rest := applyPowers (index + 1) loads powers
      { rest with loads := load :: rest.loads }
    else
      match load.replacePower power with
      | .error message => ⟨load :: loads, [], .error message⟩
      | .ok replaced =>
        let rest := applyPowers (index + 1) loads powers
        { rest with
          loads := replaced :: rest.loads
          previous := (index, load.powers) :: rest.previous }
  | _, loads, _ => ⟨loads, [], .ok ()⟩

/-- Restores powers. The source expects each of them to be valid. -/
def rollBack (loads : List (BranchLoad F n)) :
    List (ℕ × List (Complex64 F)) → Option (List (BranchLoad F n))
  | [] => some loads
  | (index, power) :: rest =>
    match loads[index]? with
    | none => none
    | some load =>
      match load.replacePower power with
      | .error _ => none
      | .ok restored => rollBack (loads.set index restored) rest

def withLoads (prepared : PreparedNetwork F) (loads : List (BranchLoad F prepared.index.size)) :
    PreparedNetwork F := { prepared with loads }

variable (session : McPfSession F T R)

/-- The network of the session after a change of its loads, solved again from the last voltage. -/
def solveAgain (loads : List (BranchLoad F session.prepared.index.size)) :
    Except String (FixedPoint F session.prepared.index.size × McPfSummary F) := do
  let prepared := withLoads session.prepared loads
  let state ← iterate prepared session.options (some session.state.voltage)
  let summary ← summarize prepared session.options state (session.solveCount + 1)
  .ok (state, summary)

/-- The session with other loads, and all else as it is. -/
def restored (loads : List (BranchLoad F session.prepared.index.size)) : McPfSession F T R :=
  { session with prepared := withLoads session.prepared loads }

def committed (loads : List (BranchLoad F session.prepared.index.size))
    (state : FixedPoint F session.prepared.index.size) (summary : McPfSummary F) :
    McPfSession F T R :=
  { session with
    prepared := withLoads session.prepared loads
    state
    summary := { summary with networkScope := scope session.excludedIslands }
    solveCount := session.solveCount + 1 }

/-- Replaces the absolute edit set. The session after the call comes with its outcome; there is
none if a power could not be restored. -/
def replaceLoadPowers (edits : List (McLoadPowerEdit F)) :
    Option (McPfSession F T R × Except String (McPfSummary F)) :=
  match session.loadIndex with
  | .error message => some (session, .error message)
  | .ok index =>
    match edits.foldlM (overlayEdit index) ⟨session.basePower, []⟩ with
    | .error message => some (session, .error message)
    | .ok overlay =>
      let applied := applyPowers 0 session.prepared.loads overlay.nextPower
      match applied.outcome.bind fun _ => session.solveAgain applied.loads with
      | .error message =>
        (rollBack applied.loads applied.previous).map fun loads =>
          (session.restored loads, .error message)
      | .ok (state, summary) =>
        let next := session.committed applied.loads state summary
        some (next, .ok next.summary)

end McPfSession

end Tellegen.Multiconductor
