import Tellegen.Lib.Binary64
import Tellegen.Lib.Outcome

/-!
Calibration of a synthetic network: a recorded search over multipliers of
ratings and capacities, each candidate of which is evaluated by an exact
solution of the optimal power flow.
-/

open Binary64 Outcome

namespace Tellegen.Synth

/-- What the calibration uses of the host's numbers beside their arithmetic. -/
class HostNumber (F : Type) extends Binary64 F where
  infinity : F
  powi : F → ℕ → F
  /-- A number with a fixed count of decimals. -/
  fixed : ℕ → F → String
  /-- `kv.round() as i64` as text. -/
  roundedText : F → String

inductive Fuel where
  | gas
  | coal
  | nuclear
  | hydro
  | wind
  | solar
  | storage
  | other
  deriving DecidableEq, Repr

def Fuel.all : List Fuel := [.gas, .coal, .nuclear, .hydro, .wind, .solar, .storage, .other]

inductive SolveOutcome where
  | optimal
  | infeasible
  | skipped
  deriving DecidableEq, Repr

inductive CalibrationStatus where
  | disabled
  | converged
  | improved
  | unchanged
  | infeasible
  deriving DecidableEq, Repr

/-! ### Networks and runs -/

/-- The object that the synthesis keeps at a branch, as far as the calibration reaches it. -/
structure BranchExtras (F : Type) where
  classKv : Option F
  ratingBasis : Option String
  ratingScale : Option F
  ratingNotches : Option ℕ

structure Branch (F : Type) where
  uid : Option String
  rateA : F
  rateB : F
  rateC : F
  extras : Option (BranchExtras F)

structure Generator (F : Type) where
  inService : Bool
  pg : F
  pmax : F
  qmax : F
  qmin : F
  mbase : F

structure Load (F : Type) where
  inService : Bool
  p : F
  q : F

structure BalancedNetwork (F T : Type) where
  branches : List (Branch F)
  generators : List (Generator F)
  loads : List (Load F)
  rest : T

structure DcOpfReport (F : Type) where
  status : SolveOutcome
  message : Option String
  maxLoading : Option F
  loadingP90 : Option F
  bindingFraction : F

/-- `rest` is what the calibration hands on unread. -/
structure DcOpfRun (F Q : Type) where
  report : DcOpfReport F
  loading : List (Option F)
  rest : Q

def DcOpfRun.feasible {F Q : Type} (run : DcOpfRun F Q) : Bool :=
  run.report.status == .optimal

structure TopologyStats (F : Type) where
  avgDegree : F
  hvShare : F

structure CalibrationTargets (F : Type) where
  avgDegree : F × F
  hvShare : F × F
  bindingFraction : F × F
  loadingP90Min : F
  loadingTarget : F

structure CalibrationOptions (F : Type) where
  enabled : Bool
  maxIterations : ℕ
  targets : Option (CalibrationTargets F)

/-- Maps are lists in the order of their keys. -/
structure CalibrationParameters (F : Type) where
  ratingScale : List (String × F)
  genCapacityScale : List (Fuel × F)
  loadScale : F
  branchRatingNotches : List (String × ℕ)

structure Terms (F : Type) where
  avgDegree : F
  bindingFraction : F
  dcInfeasible : F
  hvShare : F
  maxLoadingExcess : F
  reserveMargin : F
  underutilisation : F

structure CalibrationStep (F : Type) where
  iteration : ℕ
  parameter : String
  before : F
  after : F
  reason : String
  objectiveBefore : F
  objectiveAfter : F
  dcStatus : SolveOutcome
  accepted : Bool

structure Calibrator (F Q : Type) where
  options : CalibrationOptions F
  targets : CalibrationTargets F
  weights : Terms F
  params : CalibrationParameters F
  baseRate : List F
  branchClass : List String
  basePmax : List F
  baseQmax : List F
  baseQmin : List F
  baseLoad : List (F × F)
  fuels : List Fuel
  reserveMargin : F
  /-- The terms that no parameter moves. -/
  structural : F × F
  current : DcOpfRun F Q
  currentTerms : Terms F
  currentObjective : F
  initialObjective : F
  initialTerms : Terms F
  steps : List (CalibrationStep F)
  iteration : ℕ
  finished : Bool
  status : CalibrationStatus

variable {F T Q E : Type} [HostNumber F]

/-! ### Constants -/

def scaleMin : F := lit (8 / 10)
def scaleMax : F := lit (15 / 10)
def notchFactor : F := lit (115 / 100)
def infeasibleStep : F := lit (110 / 100)
def tolerance : F := lit (1 / 10 ^ 9)

/-- The margin within which a scale counts as at a value. -/
def scaleMargin : F := lit (1 / 10 ^ 12)

def rateBFactor : F := lit (110 / 100)
def rateCFactor : F := lit (120 / 100)

/-! ### The objective -/

def rangeExcess (v : F) (range : F × F) : F :=
  if lt v range.1 then range.1 - v
  else if lt range.2 v then v - range.2
  else 0

def BalancedNetwork.load (net : BalancedNetwork F T) : F :=
  Binary64.sum ((net.loads.filter Load.inService).map Load.p)

def BalancedNetwork.capacity (net : BalancedNetwork F T) : F :=
  Binary64.sum ((net.generators.filter Generator.inService).map Generator.pmax)

namespace Calibrator

def terms (c : Calibrator F Q) (net : BalancedNetwork F T) (run : DcOpfRun F Q) : Terms F :=
  let infeasible := !run.feasible
  let margin := if lt 0 net.load then net.capacity / net.load else HostNumber.infinity
  { avgDegree := c.structural.1
    hvShare := c.structural.2
    dcInfeasible := if infeasible then 1 else 0
    maxLoadingExcess := HostNumber.powi
      (max (run.report.maxLoading.getD 0 - c.targets.loadingTarget) 0) 2
    underutilisation :=
      if infeasible then 0
      else HostNumber.powi (max (c.targets.loadingP90Min - run.report.loadingP90.getD 0) 0) 2
    bindingFraction :=
      if infeasible then 0
      else HostNumber.powi (rangeExcess run.report.bindingFraction c.targets.bindingFraction) 2
    reserveMargin := HostNumber.powi (max ((1 + c.reserveMargin) - margin) 0) 2 }

def Terms.values (t : Terms F) : List F :=
  [t.avgDegree, t.bindingFraction, t.dcInfeasible, t.hvShare, t.maxLoadingExcess,
    t.reserveMargin, t.underutilisation]

def objective (c : Calibrator F Q) (terms : Terms F) : F :=
  Binary64.sum <| ((Terms.values c.weights).zip (Terms.values terms)).map fun (w, v) => w * v

def evaluate (c : Calibrator F Q) (net : BalancedNetwork F T) (run : DcOpfRun F Q) :
    Terms F × F :=
  let terms := c.terms net run
  (terms, c.objective terms)

def operationalTermsZero (c : Calibrator F Q) : Bool :=
  [c.currentTerms.dcInfeasible, c.currentTerms.maxLoadingExcess, c.currentTerms.underutilisation,
    c.currentTerms.bindingFraction, c.currentTerms.reserveMargin].all fun v => le v tolerance

def finalStatus (c : Calibrator F Q) : CalibrationStatus :=
  if !c.options.enabled then .disabled
  else if c.operationalTermsZero then .converged
  else if !c.current.feasible then .infeasible
  else if lt c.currentObjective (c.initialObjective - tolerance) then .improved
  else .unchanged

/-! ### Starting -/

def classOf (branch : Branch F) : String :=
  match branch.extras.bind BranchExtras.classKv with
  | some kv => HostNumber.roundedText kv
  | none => "unclassed"

def sortedKeys (keys : List String) : List String :=
  keys.dedup.mergeSort fun a b => decide (a ≤ b)

def publishedTargets : CalibrationTargets F :=
  { avgDegree := (lit (22 / 10), lit 3)
    hvShare := (lit (8 / 100), lit (35 / 100))
    bindingFraction := (0, lit (8 / 100))
    loadingP90Min := lit (25 / 100)
    loadingTarget := lit (95 / 100) }

def defaultWeights : Terms F :=
  { dcInfeasible := lit 10
    maxLoadingExcess := lit 4
    underutilisation := 1
    bindingFraction := lit 2
    reserveMargin := lit 2
    avgDegree := lit (5 / 10)
    hvShare := lit (5 / 10) }

def initialParams (branchClass : List String) (fuels : List Fuel) : CalibrationParameters F :=
  { ratingScale := (sortedKeys branchClass).map fun c => (c, 1)
    genCapacityScale := (Fuel.all.filter fun f => f ∈ fuels).map fun f => (f, 1)
    loadScale := 1
    branchRatingNotches := [] }

/-- A calibrator with given weights of the terms. -/
def start (weights : Terms F) (net : BalancedNetwork F T) (fuels : List Fuel)
    (stats : TopologyStats F) (reserveMargin : F) (options : CalibrationOptions F)
    (initial : DcOpfRun F Q) : Calibrator F Q :=
  let targets := options.targets.getD publishedTargets
  let branchClass := net.branches.map classOf
  let zero : Terms F := ⟨0, 0, 0, 0, 0, 0, 0⟩
  let c : Calibrator F Q :=
    { options
      targets
      weights
      params := initialParams branchClass fuels
      baseRate := net.branches.map Branch.rateA
      branchClass
      basePmax := net.generators.map Generator.pmax
      baseQmax := net.generators.map Generator.qmax
      baseQmin := net.generators.map Generator.qmin
      baseLoad := net.loads.map fun l => (l.p, l.q)
      fuels
      reserveMargin
      structural := (HostNumber.powi (rangeExcess stats.avgDegree targets.avgDegree) 2,
        HostNumber.powi (rangeExcess stats.hvShare targets.hvShare) 2)
      current := initial
      currentTerms := zero
      currentObjective := 0
      initialObjective := 0
      initialTerms := zero
      steps := []
      iteration := 0
      finished := false
      status := .unchanged }
  let (terms, objective) := c.evaluate net initial
  { c with
    currentTerms := terms
    currentObjective := objective
    initialTerms := terms
    initialObjective := objective
    finished := !options.enabled || options.maxIterations == 0
    status := if options.enabled then .unchanged else .disabled }

/-- Starts from a network whose optimal power flow has run once. -/
def new (net : BalancedNetwork F T) (fuels : List Fuel) (stats : TopologyStats F)
    (reserveMargin : F) (options : CalibrationOptions F) (initial : DcOpfRun F Q) :
    Calibrator F Q :=
  start defaultWeights net fuels stats reserveMargin options initial

/-! ### Applying parameters -/

def ratingScaleAt (c : Calibrator F Q) (k : ℕ) : F :=
  (c.params.ratingScale.lookup (c.branchClass.getD k "")).getD 1

def notchesOf (c : Calibrator F Q) (uid : Option String) : ℕ :=
  (uid.bind fun uid => c.params.branchRatingNotches.lookup uid).getD 0

/-- The rating of a branch is recorded as calibrated. -/
def records (notches : ℕ) (scale : F) : Bool :=
  decide (0 < notches) || lt scaleMargin (abs (scale - 1))

def applyBranch (c : Calibrator F Q) (k : ℕ) (br : Branch F) : Branch F :=
  let scale := c.ratingScaleAt k
  let notches := c.notchesOf br.uid
  let rate := c.baseRate.getD k 0 * scale * HostNumber.powi notchFactor notches
  { br with
    rateA := rate
    rateB := rate * rateBFactor
    rateC := rate * rateCFactor
    extras :=
      if records notches scale then
        br.extras.map fun object =>
          { object with
            ratingBasis := some "calibrated"
            ratingScale := some scale
            ratingNotches := some notches }
      else br.extras }

def capacityScaleAt (c : Calibrator F Q) (k : ℕ) : F :=
  (c.fuels[k]?.bind fun f => c.params.genCapacityScale.lookup f).getD 1

def applyGenerator (c : Calibrator F Q) (k : ℕ) (g : Generator F) : Generator F :=
  let scale := c.capacityScaleAt k
  let pmax := c.basePmax.getD k 0 * scale
  { g with
    pmax
    qmax := c.baseQmax.getD k 0 * scale
    qmin := c.baseQmin.getD k 0 * scale
    mbase := pmax
    pg := min g.pg pmax }

def applyLoad (c : Calibrator F Q) (k : ℕ) (l : Load F) : Load F :=
  { l with
    p := (c.baseLoad.getD k (0, 0)).1 * c.params.loadScale
    q := (c.baseLoad.getD k (0, 0)).2 * c.params.loadScale }

/-- Applies the parameters onto a network, from the base values. -/
def apply (c : Calibrator F Q) (net : BalancedNetwork F T) : BalancedNetwork F T :=
  { net with
    branches := net.branches.mapIdx c.applyBranch
    generators := net.generators.mapIdx c.applyGenerator
    loads := net.loads.mapIdx c.applyLoad }

/-! ### Candidates -/

structure Move (F : Type) where
  parameter : String
  before : F
  after : F
  reason : String

/-- The parameters after a choice, and the move that they make if there is one. -/
abbrev Choice (F : Type) := CalibrationParameters F × Option (Move F)

/-- Raises every class rating: nothing in an infeasible solution names a culprit. -/
def relieve (c : Calibrator F Q) : Choice F :=
  let movable := c.params.ratingScale.filter fun (_, v) => lt v (scaleMax - scaleMargin)
  match movable with
  | [] => (c.params, none)
  | (name, before) :: _ =>
    let scales := c.params.ratingScale.map fun (name, v) => (name, min (v * infeasibleStep) scaleMax)
    ({ c.params with ratingScale := scales },
      some
        { parameter := "rating_scale[*]"
          before
          after := (scales.lookup name).getD 1
          reason := "DC OPF infeasible: " ++ c.current.report.message.getD "" ++
            "; raising every class rating by " ++
            HostNumber.fixed 0 ((infeasibleStep - 1) * lit 100 : F) ++ "%" })

def bump (notches : List (String × ℕ)) (uid : String) : List (String × ℕ) :=
  if (notches.lookup uid).isSome then
    notches.map fun (name, n) => (name, if name = uid then n + 1 else n)
  else notches ++ [(uid, 1)]

def notchCount (notches : List (String × ℕ)) : ℕ := (notches.map Prod.snd).sum

/-- The branches that are loaded above the target, the most loaded first. -/
def binding (c : Calibrator F Q) (net : BalancedNetwork F T) : List (String × F) :=
  let rows := net.branches.zipIdx.filterMap fun (b, k) =>
    match c.current.loading.getD k none with
    | none => none
    | some l => if lt c.targets.loadingTarget l then some (b.uid.getD "", l) else none
  (rows.filter fun (uid, _) => uid ≠ "").mergeSort fun a b => le b.2 a.2

def notch (c : Calibrator F Q) (net : BalancedNetwork F T) (maxLoading : F) : Choice F :=
  match c.binding net with
  | [] => (c.params, none)
  | rows =>
    let notches := rows.foldl (fun notches (uid, _) => bump notches uid)
      c.params.branchRatingNotches
    let names := (rows.take 8).map fun (uid, l) => uid ++ " (" ++ HostNumber.fixed 3 l ++ ")"
    ({ c.params with branchRatingNotches := notches },
      some
        { parameter := "branch_rating_notches"
          before := ofNat (notchCount c.params.branchRatingNotches)
          after := ofNat (notchCount notches)
          reason := "max loading " ++ HostNumber.fixed 3 maxLoading ++ " above target " ++
            HostNumber.fixed 2 c.targets.loadingTarget ++ ": one rating notch (×" ++
            display (notchFactor : F) ++ ") on " ++ toString rows.length ++ " branch(es): " ++
            ", ".intercalate names })

/-- The capacity that is wanted over the capacity that is there. -/
def capacityRatio (c : Calibrator F Q) (net : BalancedNetwork F T) : F :=
  (1 + c.reserveMargin) * net.load / max net.capacity (lit (1 / 10 ^ 9))

/-- The source takes the first fuel for granted. -/
def enlarge (c : Calibrator F Q) (net : BalancedNetwork F T) : Result (Choice F) :=
  match c.params.genCapacityScale with
  | [] => .error .missed
  | (fuel, before) :: _ =>
    let next (v : F) := min (v * c.capacityRatio net) scaleMax
    let scales := c.params.genCapacityScale.map fun (f, v) => (f, next v)
    let params := { c.params with genCapacityScale := scales }
    if c.params.genCapacityScale.any fun (_, v) => lt scaleMargin (abs (next v - v)) then
      .ok (params,
        some
          { parameter := "gen_capacity_scale[*]"
            before
            after := (scales.lookup fuel).getD 1
            reason := "capacity " ++ HostNumber.fixed 1 net.capacity ++ " MW below (1 + " ++
              HostNumber.fixed 2 c.reserveMargin ++ ") × load " ++
              HostNumber.fixed 1 net.load ++ " MW" })
    else .ok (params, none)

/-- The largest loading of each class, in the order of the classes. -/
def classMax (c : Calibrator F Q) : List (String × F) :=
  let rows := c.current.loading.zipIdx.filterMap fun (l, k) =>
    l.map fun l => (c.branchClass.getD k "", l)
  (sortedKeys (rows.map Prod.fst)).map fun name =>
    (name, ((rows.filter fun (other, _) => other = name).map Prod.snd).foldl max 0)

/-- `min_by`, which returns the first of several least elements. -/
def leastLoaded : List (String × F) → Option (String × F)
  | [] => none
  | row :: rows => some (rows.foldl (fun least row => if lt row.2 least.2 then row else least) row)

/-- Tightens the least loaded class: ratings are generous everywhere. -/
def tighten (c : Calibrator F Q) (p90 : F) : Result (Choice F) :=
  if (c.current.loading.zipIdx.any fun (l, k) => l.isSome && decide (c.branchClass.length ≤ k)) then
    .error .missed
  else
    let candidates := c.classMax.filter fun (name, _) =>
      lt (scaleMin + scaleMargin) ((c.params.ratingScale.lookup name).getD 1)
    match leastLoaded candidates with
    | none => .ok (c.params, none)
    | some (name, worst) =>
      match c.params.ratingScale.lookup name with
      | none => .error .missed
      | some before =>
        let after := max (before * lit (9 / 10)) scaleMin
        .ok ({ c.params with
            ratingScale := c.params.ratingScale.map fun (other, v) =>
              (other, if other = name then after else v) },
          some
            { parameter := "rating_scale[" ++ name ++ "]"
              before
              after
              reason := "90th percentile loading " ++ HostNumber.fixed 3 p90 ++ " below " ++
                HostNumber.fixed 2 c.targets.loadingP90Min ++ "; class " ++ name ++
                " kV peaks at " ++ HostNumber.fixed 3 worst })

/-- The next change of a parameter, or none when every term is within tolerance or no bounded
move remains. A choice writes the parameters at once. -/
def chooseStep (c : Calibrator F Q) (net : BalancedNetwork F T) : Result (Choice F) :=
  if !c.current.feasible then .ok c.relieve
  else
    let maxLoading := c.current.report.maxLoading.getD 0
    if lt (c.targets.loadingTarget + tolerance) maxLoading then .ok (c.notch net maxLoading)
    else if lt 0 net.load &&
        lt net.capacity ((1 + c.reserveMargin) * net.load - lit (1 / 10 ^ 6)) then
      c.enlarge net
    else
      let p90 := c.current.report.loadingP90.getD 0
      if lt p90 (c.targets.loadingP90Min - tolerance) then c.tighten p90
      else .ok (c.params, none)

/-! ### Iterating -/

structure IterationOutcome where
  finished : Bool
  accepted : Bool
  deriving DecidableEq, Repr

/-- The calibrator and the network after a call, with what it returns. -/
structure Iterated (F T Q E : Type) where
  calibrator : Calibrator F Q
  net : BalancedNetwork F T
  outcome : Except E IterationOutcome

/-- A solution of the optimal power flow of a network, which may fail. -/
abbrev Solve (F T Q E : Type) := BalancedNetwork F T → Except E (DcOpfRun F Q)

/-- The end of a call that has solved: the step is recorded, and a candidate that does not improve
is given up for the parameters that were kept. -/
def settle (c : Calibrator F Q) (net : BalancedNetwork F T) (kept : CalibrationParameters F)
    (move : Move F) (run : DcOpfRun F Q) : Iterated F T Q E :=
  let (terms, objective) := c.evaluate net run
  let accepted := lt objective (c.currentObjective - tolerance)
  let step : CalibrationStep F :=
    { iteration := c.iteration
      parameter := move.parameter
      before := move.before
      after := move.after
      reason := move.reason
      objectiveBefore := c.currentObjective
      objectiveAfter := objective
      dcStatus := run.report.status
      accepted }
  let c := { c with steps := c.steps ++ [step] }
  let c :=
    if accepted then { c with current := run, currentTerms := terms, currentObjective := objective }
    else { c with params := kept }
  let net := if accepted then net else c.apply net
  let finished := c.operationalTermsZero || decide (c.options.maxIterations ≤ c.iteration) ||
    !accepted
  let c := if finished then { c with finished := true, status := c.finalStatus } else c
  ⟨c, net, .ok ⟨c.finished, accepted⟩⟩

/-- One recorded step. The parameters to go back to are read after the choice has written the
candidate. -/
def iterate (c : Calibrator F Q) (net : BalancedNetwork F T) (solve : Solve F T Q E) :
    Result (Iterated F T Q E) :=
  if c.finished then .ok ⟨c, net, .ok ⟨true, false⟩⟩
  else do
    let c := { c with iteration := c.iteration + 1 }
    let (params, move) ← c.chooseStep net
    let c := { c with params }
    match move with
    | none => .ok ⟨{ c with finished := true, status := c.finalStatus }, net, .ok ⟨true, false⟩⟩
    | some move =>
      let kept := c.params
      let net := c.apply net
      match solve net with
      | .error error => .ok ⟨c, net, .error error⟩
      | .ok run => .ok (c.settle net kept move run)

end Calibrator

end Tellegen.Synth
