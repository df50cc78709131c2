import Tellegen.Lib.Binary64
import Tellegen.Lib.StableSort
import Tellegen.ToolCalls

/-!
Edit requests of the tools, and the key by which the journal matches a prediction
to an update. A request names elements by any of their ids and is applied in order;
its key sorts the edits, so that requests which differ in order have one key.
-/

open Binary64 JsString

namespace Tellegen.CaseEdits

variable {F ρ : Type} [Binary64 F]

/-! ### The elements of a case -/

structure NetworkBus (F : Type) where
  id : ℕ
  uid : Option JsString
  demandMw : F
  editable : Bool

structure NetworkBranch (F : Type) where
  id : ℕ
  uid : Option JsString
  rateMw : F
  editable : Bool

structure Network (F : Type) where
  buses : List (NetworkBus F)
  branches : List (NetworkBranch F)

/-- The ids under which an element is found: `5`, `bus:5` and its uid. -/
def aliases (kind : String) (id : ℕ) (uid : Option JsString) : List JsString :=
  [ofNat id, js kind ++ js ":" ++ ofNat id] ++ (uid.filter (· ≠ [])).toList

/-- The map from ids to elements, in which a later alias replaces an earlier one. -/
def lookup (aliasesOf : ρ → List JsString) (elements : List ρ) (id : JsString) : Option ρ :=
  (elements.reverse.find? fun element => id ∈ aliasesOf element)

def outputIdLength : ℕ := 64

def clipAt (length : ℕ) (value : JsString) : JsString :=
  if value.length ≤ length then value else value.take (length - 1) ++ [0x2026]

def clip (value : JsString) : JsString := clipAt outputIdLength value

def notFound (kind : String) (id : JsString) : Thrown :=
  .toolError (js "ELEMENT_NOT_FOUND") (js kind ++ js " " ++ clip id ++ js " is not in the active case")

def caseNotReady : Thrown :=
  .toolError (js "CASE_NOT_READY") (js "the active case network is still loading")

def resolveBus (network : Option (Network F)) (id : JsString) : Except Thrown (NetworkBus F) :=
  match network with
  | none => .error caseNotReady
  | some network =>
    match lookup (fun bus => aliases "bus" bus.id bus.uid) network.buses id with
    | some bus => .ok bus
    | none => .error (notFound "bus" id)

def resolveBranch (network : Option (Network F)) (id : JsString) :
    Except Thrown (NetworkBranch F) :=
  match network with
  | none => .error caseNotReady
  | some network =>
    match lookup (fun branch => aliases "branch" branch.id branch.uid) network.branches id with
    | some branch => .ok branch
    | none => .error (notFound "branch" id)

/-! ### Bounds -/

def ceil (x : F) : F := -floor (-x)

def demandBounds (bus : NetworkBus F) : F × F :=
  (-floor bus.demandMw, Binary64.max (ceil bus.demandMw) (lit 50))

def ratingDeltaBounds (branch : NetworkBranch F) : F × F :=
  let span := Binary64.min (lit 50) (Binary64.max (lit 5) (lit (1 / 5) * branch.rateMw))
  (Binary64.max (-(branch.rateMw - 1)) (-span), span)

def numberText (x : F) : JsString := js (display x)

def outOfRange (kind subject : String) (id : JsString) (bounds : F × F) : Thrown :=
  .toolError (js "EDIT_OUT_OF_RANGE") (js kind ++ js " " ++ clip id ++ js " " ++ js subject ++
    js " delta must be from " ++ numberText bounds.1 ++ js " to " ++ numberText bounds.2 ++ js " MW")

def beyond (bounds : F × F) (value : F) : Bool := lt value bounds.1 || lt bounds.2 value

def validateDemand (network : Option (Network F)) (id : JsString) (value : F) :
    Except Thrown (NetworkBus F) := do
  let bus ← resolveBus network id
  if !bus.editable then
    .error (.toolError (js "EDIT_NOT_SUPPORTED") (js "bus " ++ clip id ++ js " is display-only"))
  else if beyond (demandBounds bus) value then
    .error (outOfRange "bus" "demand" id (demandBounds bus))
  else .ok bus

def validateRating (network : Option (Network F)) (id : JsString) (value : F) :
    Except Thrown (NetworkBranch F) := do
  let branch ← resolveBranch network id
  if !branch.editable || le branch.rateMw 0 then
    .error (.toolError (js "EDIT_NOT_SUPPORTED")
      (js "branch " ++ clip id ++ js " has no editable rating"))
  else if beyond (ratingDeltaBounds branch) value then
    .error (outOfRange "branch" "rating" id (ratingDeltaBounds branch))
  else .ok branch

/-! ### Requests -/

inductive EditMode where
  | set | increment
  deriving DecidableEq

structure Edit (F : Type) where
  id : JsString
  deltaMw : F
  deriving DecidableEq

structure Request (F : Type) where
  caseId : JsString
  expectedRevision : JsString
  mode : EditMode
  demand : List (Edit F)
  ratings : List (Edit F)

def maxEdits : ℕ := 24

def maxIdLength : ℕ := 128

def invalidInput (message : JsString) : Thrown := .toolError (js "INVALID_INPUT") message

def idText (id label : JsString) : Except Thrown JsString :=
  if id = [] ∨ maxIdLength < id.length then
    .error (invalidInput (label ++ js " must be a nonempty string of at most " ++ ofNat maxIdLength ++
      js " characters"))
  else .ok id

def number (value : F) (label : JsString) : Except Thrown F :=
  if isFinite value then .ok value else .error (invalidInput (label ++ js " must be a finite number"))

/-- The rows of an edit list, of which `seen` are the ids of the rows before. -/
def editRows (label idKey : JsString) : ℕ → List JsString → List (JsString × F) →
    Except Thrown (List (Edit F))
  | _, _, [] => .ok []
  | index, seen, (id, value) :: rows => do
      let row := label ++ js "[" ++ ofNat index ++ js "]"
      let id ← idText id (row ++ js "." ++ idKey)
      if id ∈ seen then .error (invalidInput (label ++ js " repeats element " ++ id))
      else
        let deltaMw ← number value (row ++ js ".delta_mw")
        let edits ← editRows label idKey (index + 1) (id :: seen) rows
        return { id, deltaMw } :: edits

def editArray (label idKey : JsString) (rows : List (JsString × F)) : Except Thrown (List (Edit F)) :=
  if maxEdits < rows.length then
    .error (invalidInput (label ++ js " must be an array with at most " ++ ofNat maxEdits ++
      js " entries"))
  else editRows label idKey 0 [] rows

/-! ### Applying a request -/

/-- The changes of a case by the number of the element. -/
abbrev Deltas (F : Type) := ℕ → Option F

def entry (value : F) : Option F := if eq value 0 then none else some value

def setEdit (edits : Deltas F) (id : ℕ) (value : F) : Deltas F := Function.update edits id (entry value)

structure Editor (F ρ : Type) where
  resolve : JsString → Except Thrown ρ
  slot : ρ → ℕ
  validate : JsString → F → Except Thrown ρ

def demandEditor (network : Option (Network F)) : Editor F (NetworkBus F) where
  resolve := resolveBus network
  slot bus := bus.id
  validate := validateDemand network

def ratingEditor (network : Option (Network F)) : Editor F (NetworkBranch F) where
  resolve := resolveBranch network
  slot branch := branch.id
  validate := validateRating network

def nextAmount (mode : EditMode) (current : Option F) (deltaMw : F) : F :=
  match mode with
  | .increment => current.getD 0 + deltaMw
  | .set => deltaMw

def applyEdits (editor : Editor F ρ) (mode : EditMode) : List (Edit F) → Deltas F →
    Except Thrown (Deltas F)
  | [], edits => .ok edits
  | edit :: rest, edits => do
      let element ← editor.resolve edit.id
      let next := nextAmount mode (edits (editor.slot element)) edit.deltaMw
      let _ ← editor.validate edit.id next
      applyEdits editor mode rest (setEdit edits (editor.slot element) next)

structure Proposed (F : Type) where
  demand : Deltas F
  ratings : Deltas F

def proposedEdits (network : Option (Network F)) (deltas ratings : Deltas F) (input : Request F) :
    Except Thrown (Proposed F) := do
  let demand ← applyEdits (demandEditor network) input.mode input.demand deltas
  let ratings ← applyEdits (ratingEditor network) input.mode input.ratings ratings
  return { demand, ratings }

/-! ### The key of a request -/

/-- What the journal's key is the text of. `collation` is `localeCompare`. -/
structure EditKey (F : Type) where
  caseId : JsString
  expectedRevision : JsString
  mode : EditMode
  demand : List (Edit F)
  ratings : List (Edit F)

def editKey (collation : Collation JsString) (input : Request F) : EditKey F where
  caseId := input.caseId
  expectedRevision := input.expectedRevision
  mode := input.mode
  demand := (collation.on Edit.id).sort input.demand
  ratings := (collation.on Edit.id).sort input.ratings

end Tellegen.CaseEdits
