import Tellegen.Network

/-!
Edits of an operating point: the log a session keeps, the net change per key
that the solver consumes, and the step-by-step replay that an export writes.
-/

open Binary64 Std

namespace Tellegen

variable {F T : Type} [Binary64 F]

inductive NetworkEdit (F : Type) where
  | addLoad (bus : ElementKey) (pMw : F)
  | adjustBranchRating (branch : ElementKey) (deltaMw : F)
  deriving DecidableEq

abbrev DeltaMap (F : Type) := ExtTreeMap ElementKey F compare

structure Edits (F : Type) where
  deltas : DeltaMap F
  rates : DeltaMap F

def Edits.empty : Edits F := { deltas := ∅, rates := ∅ }

/-- `*map.entry(key).or_insert(0.0) += mw`. -/
def addDelta (deltas : DeltaMap F) (key : ElementKey) (mw : F) : DeltaMap F :=
  deltas.insert key (deltas.getD key 0 + mw)

def Edits.add (edits : Edits F) : NetworkEdit F → Edits F
  | .addLoad bus pMw => { edits with deltas := addDelta edits.deltas bus pMw }
  | .adjustBranchRating branch deltaMw =>
    { edits with rates := addDelta edits.rates branch deltaMw }

/-- The cumulative change per key as written: the numeric and the uid form of
one element stay apart. -/
def fold (log : List (NetworkEdit F)) : Edits F := log.foldl Edits.add Edits.empty

/-! ### Validation against the source rows -/

def busById (network : BalancedNetwork F T) (id : ℕ) : Option Bus :=
  network.buses.find? (·.id = id)

def canonicalBus (network : BalancedNetwork F T) : ElementKey → Option Bus
  | .id value => (toUsize value).bind (busById network)
  | .uid uid => network.buses.find? (·.uid = some uid)

def canonicalBranch (network : BalancedNetwork F T) : ElementKey → Option (Branch F)
  | .id value => (toUsize value).bind fun position =>
    if position = 0 then none else network.branches[position - 1]?
  | .uid uid => network.branches.find? (·.uid = some uid)

def endpointIsEditable (network : BalancedNetwork F T) (id : ℕ) : Bool :=
  (busById network id).any (·.kind ≠ .isolated)

def validateDemandDelta (network : BalancedNetwork F T) (entry : ElementKey × F) :
    Except String Unit :=
  let (bus, mw) := entry
  if !isFinite mw then .error ("demand delta for bus " ++ bus.display ++ " must be finite")
  else match bus with
    | .id value => if value ≤ 0 then .error "demand delta bus must be positive" else target bus
    | .uid _ => target bus
where
  target (bus : ElementKey) : Except String Unit :=
    match canonicalBus network bus with
    | none => .error ("unknown demand delta bus " ++ bus.display)
    | some row =>
      if row.kind = .isolated then
        .error ("demand delta bus " ++ bus.display ++ " is not editable")
      else .ok ()

def validateRatingDelta (network : BalancedNetwork F T) (entry : ElementKey × F) :
    Except String Unit :=
  let (branch, mw) := entry
  if !isFinite mw then .error ("rating delta for branch " ++ branch.display ++ " must be finite")
  else match branch with
    | .id value =>
      if value ≤ 0 then .error "rating delta branch must be positive" else target branch
    | .uid _ => target branch
where
  target (branch : ElementKey) : Except String Unit :=
    match canonicalBranch network branch with
    | none => .error ("unknown rating delta branch " ++ branch.display)
    | some row =>
      if !row.inService ∨ row.source = row.target ∨ eq (row.r * row.r + row.x * row.x) 0 ∨
          !endpointIsEditable network row.source ∨ !endpointIsEditable network row.target then
        .error ("rating delta branch " ++ branch.display ++ " is not editable")
      else .ok ()

/-- Entries are visited in key order, so the error reported is a function of
the request. -/
def validateCanonicalEdits (network : BalancedNetwork F T) (edits : Edits F) :
    Except String Unit := do
  validateCanonicalIdentity network
  edits.deltas.toList.forM (validateDemandDelta network)
  edits.rates.toList.forM (validateRatingDelta network)

def validateNetworkEdits (network : BalancedNetwork F T) (edits : List (NetworkEdit F)) :
    Except String Unit :=
  validateCanonicalEdits network (fold edits)

/-! ### Replay onto the network -/

def busIdForKey (network : BalancedNetwork F T) : ElementKey → Except String ℤ
  | .id value => .ok value
  | .uid uid =>
    match network.buses.find? (·.uid = some uid) with
    | some bus => .ok bus.id
    | none => .error ("demand edit names bus uid \"" ++ uid ++ "\", which is not in the network")

def branchIdForKey (network : BalancedNetwork F T) : ElementKey → Except String ℤ
  | .id value => .ok value
  | .uid uid =>
    match network.branches.findIdx? (·.uid = some uid) with
    | some position => .ok (position + 1 : ℕ)
    | none =>
      .error ("rating edit names branch uid \"" ++ uid ++ "\", which is not in the network")

def Load.serves (load : Load F) (bus : ℕ) : Bool := load.inService && load.bus == bus

def busDemand (network : BalancedNetwork F T) (bus : ℕ) : F :=
  sum ((network.loads.filter (·.serves bus)).map (·.p))

/-- The first in-service load of the bus takes the change; a bus without one
gets a new load. -/
def addToFirstLoad (bus : ℕ) (pMw : F) : List (Load F) → List (Load F)
  | [] => [{ bus, p := pMw, inService := true }]
  | load :: rest =>
    if load.serves bus then { load with p := load.p + pMw } :: rest
    else load :: addToFirstLoad bus pMw rest

def applyAddLoad (network : BalancedNetwork F T) (bus : ElementKey) (pMw : F) :
    Except String (BalancedNetwork F T) := do
  let busId ← busIdForKey network bus
  let some id := toUsize busId
    | .error ("demand edit bus id " ++ toString busId ++ " out of range")
  if network.buses.all (·.id ≠ id) then
    .error ("demand edit names bus " ++ bus.display ++ ", which is not in the network")
  else if lt (busDemand network id + pMw) (lit (-1e-9)) then
    .error ("demand delta for bus " ++ bus.display ++ " would make demand negative")
  else .ok { network with loads := addToFirstLoad id pMw network.loads }

def applyAdjustRating (network : BalancedNetwork F T) (branch : ElementKey) (deltaMw : F) :
    Except String (BalancedNetwork F T) := do
  let position ← branchIdForKey network branch
  let some row := (toUsize position).bind fun position =>
      if position = 0 then none else some (position - 1)
    | .error ("rating edit branch " ++ branch.display ++ " out of range")
  let some edited := network.branches[row]?
    | .error ("rating edit names branch " ++ branch.display ++ ", which is not in the network")
  if le edited.rateA 0 then
    .error ("rating edit on branch " ++ branch.display ++ " adjusts a limit the source does not " ++
      "state (`rate_a` is unlimited); export cannot represent it")
  else if le (edited.rateA + deltaMw) (lit 1e-9) then
    .error ("rating delta for branch " ++ branch.display ++
      " would make the line limit non-positive")
  else
    let branches := network.branches.set row { edited with rateA := edited.rateA + deltaMw }
    .ok { network with branches }

def applyNetworkEdit (network : BalancedNetwork F T) :
    NetworkEdit F → Except String (BalancedNetwork F T)
  | .addLoad bus pMw => applyAddLoad network bus pMw
  | .adjustBranchRating branch deltaMw => applyAdjustRating network branch deltaMw

/-- `apply_network_edits`: one edit after another, each checked against the
network so far. -/
def applyNetworkEdits (network : BalancedNetwork F T) (edits : List (NetworkEdit F)) :
    Except String (BalancedNetwork F T) :=
  edits.foldlM applyNetworkEdit network

end Tellegen
