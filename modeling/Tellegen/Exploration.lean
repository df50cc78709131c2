import Tellegen.Lib.Program
import Tellegen.Study

/-!
The gradient-guided search over candidate changes. Candidates are screened by
their predicted value and tried by exact solves until a budget is spent. The
host is asked before every iteration and every trial whether to cancel; the
trials completed by then are kept.
-/

open Binary64 Outcome
open Program (Checkpoint)

namespace Tellegen

variable {F : Type} [Binary64 F] {engine : Engine F}

structure SearchOptions (F : Type) where
  maxSolves : ℕ
  beamWidth : ℕ
  maxIterations : ℕ
  minImprovement : F
  deriving DecidableEq

def SearchOptions.validate (options : SearchOptions F) : Except String Unit :=
  if options.maxSolves > 256 ∨ options.beamWidth = 0 ∨ options.beamWidth > 32 ∨
      options.maxIterations > 256 ∨ !isFinite options.minImprovement ∨
      lt options.minImprovement 0 then
    .error ("search requires at most 256 solves/iterations, beam 1..32 and finite " ++
      "nonnegative improvement")
  else .ok ()

structure ExactCandidate (F : Type) where
  input : String
  solution : String
  view : String
  changes : List F
  value : F
  deriving DecidableEq

def ExactCandidate.capture (study : Study engine) (changes : List F) (value : F) :
    Except String (ExactCandidate F) := do
  let input ← study.saveInstanceModule
  let solution ← study.saveExactModule
  let view ← engine.printResponse study.last
  return { input, solution, view, changes, value }

structure SearchTrial (F : Type) where
  iteration : ℕ
  parentTrial : Option ℕ
  changes : List F
  predictedValue : F
  exact : Option (ExactCandidate F)
  accepted : Bool
  failure : Option String
  activeConstraintsAdded : List String
  activeConstraintsRemoved : List String
  deriving DecidableEq

structure SearchResult (F : Type) where
  baselineValue : F
  best : Option (ExactCandidate F)
  trials : List (SearchTrial F)
  directions : List (ObjectiveResult F)
  solveCount : ℕ
  termination : String

/-! ### Candidate moves -/

def prediction (value : F) (gradient old new : List F) : F :=
  value + sum (((gradient.zip old).zip new).map fun ((g, a), b) => g * (b - a))

/-- Zeros of either sign are one key; other values are their bits. -/
def changeKey (changes : List F) : List F := changes.map fun x => if eq x 0 then 0 else x

def sortBy {α : Type} (cmp : α → α → Ordering) (values : List α) : List α :=
  values.insertionSort fun a b => (cmp a b).isLE

def positions (space : DecisionSpace F) (intervention : Intervention) : List ℕ :=
  (space.vars.zipIdx.filter fun (v, _) => v.intervention = intervention).map (·.2)

def increment (space : DecisionSpace F) (index : ℕ) : F :=
  (space.vars[index]?.map (·.increment)).getD 0

def upper (space : DecisionSpace F) (index : ℕ) : F :=
  (space.vars[index]?.map (·.upper)).getD 0

def byGradient (gradient : List F) (a b : ℕ) : Ordering :=
  (totalCmp (gradient.getD a 0) (gradient.getD b 0)).then (compare a b)

/-- One allocation of the placement total: fill `first`, then the others in
gradient order, each up to its bound in whole increments. -/
def allocate (space : DecisionSpace F) : List ℕ → F → List F → List F
  | [], _, point => point
  | index :: rest, remaining, point =>
    let amount := floor (Binary64.min remaining (upper space index) / increment space index +
      lit 1e-10) * increment space index
    allocate space rest (remaining - amount) (point.set index amount)

def placementMoves (space : DecisionSpace F) (current gradient : List F) (increaseMw : F) :
    List (List F) :=
  let demand := positions space .activeDemand
  let order := sortBy (byGradient gradient) demand
  let cleared := demand.foldl (fun point index => point.set index 0) current
  (order.take 32).map fun first =>
    allocate space (first :: order.filter (· ≠ first)) increaseMw cleared

def ratingMoves (space : DecisionSpace F) (current gradient : List F) : List (List F) :=
  let ratings := (positions space .branchRating).flatMap fun index =>
    [-1, (1 : F)].map fun sign => (index, sign, gradient.getD index 0 * sign * increment space index)
  let ranked := sortBy (fun a b => (totalCmp a.2.2 b.2.2).then (compare a.1 b.1)) ratings
  (ranked.take 256).map fun (index, sign, _) =>
    current.modify index (· + sign * increment space index)

/-- The least common step of two increments, among the first 64 multiples of
the donor's. -/
def transferStep (a b : F) : Option F :=
  ((List.range 64).map fun n => a * ofNat (n + 1)).find? fun x =>
    lt (Binary64.abs (x / b - Binary64.round (x / b))) (lit 1e-9)

def transferMoves (space : DecisionSpace F) (current gradient : List F) : List (List F) :=
  let demand := positions space .activeDemand
  let receivers := sortBy (byGradient gradient) demand
  let donors := sortBy (fun a b =>
    (totalCmp (gradient.getD b 0) (gradient.getD a 0)).then (compare a b)) demand
  (donors.take 16).flatMap fun source => (receivers.take 16).filterMap fun target =>
    if source = target then none
    else (transferStep (increment space source) (increment space target)).map fun step =>
      (current.modify source (· - step)).modify target (· + step)

def feasibleMoves (space : DecisionSpace F) (current gradient : List F)
    (needsPlacement : Bool) : List (List F) :=
  let moves :=
    if needsPlacement then
      match space.demand with
      | some (.placement increaseMw) => placementMoves space current gradient increaseMw
      | _ => []
    else ratingMoves space current gradient ++ transferMoves space current gradient
  moves.filter (space.feasible · (lit 1e-7))

/-! ### The search -/

structure SearchGoal (F : Type) where
  objective : StudyObjective F
  space : DecisionSpace F
  options : SearchOptions F

/-- The variables of the search loop. `study` is the session searched from. -/
structure Search (engine : Engine F) where
  study : Study engine
  current : Study engine
  changes : List F
  value : F
  result : SearchResult F
  visited : List (List F)
  parentTrial : Option ℕ

structure Winner (engine : Engine F) where
  study : Study engine
  changes : List F
  value : F
  index : ℕ

structure Beam (engine : Engine F) where
  result : SearchResult F
  visited : List (List F)
  winner : Option (Winner engine)

def candidateMoves [DecidableEq F] (goal : SearchGoal F) (search : Search engine)
    (gradient : List F) : List (List F) :=
  let predicted := prediction search.value gradient search.changes
  sortBy (fun a b => (totalCmp (predicted a) (predicted b)).then
      ((partialCmpList a b).getD .eq))
    ((feasibleMoves goal.space search.changes gradient search.result.best.isNone).filter
      fun x => changeKey x ∉ search.visited)

/-- Solve one candidate on a fork of the current session. -/
def evaluateCandidate (goal : SearchGoal F) (current : Study engine) (candidate : List F) :
    Except String (ExactCandidate F) × Study engine :=
  match Study.replaceEdits (decisionEdits goal.space candidate) current.fork with
  | (.error message, tested) => (.error message, tested)
  | (.ok _, tested) =>
    let evaluated := do
      let value ← tested.objectiveValue goal.objective goal.space candidate
      ExactCandidate.capture tested candidate value
    (evaluated, tested)

def beats (goal : SearchGoal F) (value : F) (winner : Option (Winner engine)) : Bool :=
  match winner with
  | none => true
  | some best => lt value (best.value - goal.options.minImprovement)

def blankTrial (search : Search engine) (iteration : ℕ) (gradient candidate : List F) :
    SearchTrial F :=
  { iteration, parentTrial := search.parentTrial, changes := candidate
    predictedValue := prediction search.value gradient search.changes candidate
    exact := none, accepted := false, failure := none
    activeConstraintsAdded := [], activeConstraintsRemoved := [] }

/-- The record of a solved trial, with the boundaries it crossed. -/
def exactTrial (search : Search engine) (blank : SearchTrial F) (tested : Study engine)
    (exact : ExactCandidate F) : SearchTrial F :=
  let before := engine.activeConstraints search.current.solved
  let after := engine.activeConstraints tested.solved
  { blank with
    exact := some exact
    activeConstraintsAdded := after.filter (· ∉ before)
    activeConstraintsRemoved := before.filter (· ∉ after) }

/-- A failed exact solve consumes the same budget as a successful one. -/
def Beam.record (beam : Beam engine) (t : SearchTrial F) (winner : Option (Winner engine)) :
    Beam engine :=
  { visited := changeKey t.changes :: beam.visited
    winner
    result := { beam.result with
      solveCount := beam.result.solveCount + 1
      trials := beam.result.trials ++ [t] } }

/-- Without a best result yet, any exact result improves. -/
def improves (goal : SearchGoal F) (search : Search engine) (beam : Beam engine) (value : F) :
    Bool :=
  beam.result.best.isNone || lt value (search.value - goal.options.minImprovement)

def nextWinner (goal : SearchGoal F) (search : Search engine) (beam : Beam engine)
    (tested : Study engine) (exact : ExactCandidate F) : Option (Winner engine) :=
  if improves goal search beam exact.value && beats goal exact.value beam.winner then
    some { study := tested, changes := exact.changes, value := exact.value
           index := beam.result.trials.length }
  else beam.winner

def trial (goal : SearchGoal F) (search : Search engine) (iteration : ℕ) (gradient : List F)
    (beam : Beam engine) (candidate : List F) : Beam engine :=
  let blank := blankTrial search iteration gradient candidate
  match evaluateCandidate goal search.current candidate with
  | (.error message, _) => beam.record { blank with failure := some message } beam.winner
  | (.ok exact, tested) =>
    beam.record (exactTrial search blank tested exact) (nextWinner goal search beam tested exact)

def terminate (result : SearchResult F) (termination : String) : SearchResult F :=
  { result with termination }

def trials (goal : SearchGoal F) (search : Search engine) (iteration : ℕ)
    (gradient : List F) : List (List F) → Beam engine → Checkpoint (Beam engine)
  | [], beam => pure beam
  | candidate :: rest, beam => do
      if ← Checkpoint.cancelled then
        return { beam with result := terminate beam.result "cancelled" }
      if beam.result.solveCount ≥ goal.options.maxSolves then
        return { beam with result := terminate beam.result "solve_budget" }
      trials goal search iteration gradient rest (trial goal search iteration gradient beam candidate)

def accept (search : Search engine) (beam : Beam engine) (winner : Winner engine) :
    Search engine :=
  let trials := beam.result.trials.modify winner.index fun t => { t with accepted := true }
  { search with
    current := winner.study
    changes := winner.changes
    value := winner.value
    visited := beam.visited
    parentTrial := some winner.index
    result := { beam.result with
      trials, best := (trials[winner.index]?).bind (·.exact) } }

/-- What an iteration leaves: the search, and whether the loop goes on. -/
def settle (search : Search engine) (beam : Beam engine) : Search engine × Bool :=
  match beam.winner with
  | some winner =>
    let next := accept search beam winner
    (next, next.result.termination ≠ "cancelled" && next.result.termination ≠ "solve_budget")
  | none =>
    let next := { search with result := beam.result, visited := beam.visited }
    if next.result.termination = "iteration_limit" then
      ({ next with result := terminate next.result "no_verified_improvement" }, false)
    else
      (next, next.result.termination ≠ "cancelled" && next.result.termination ≠ "solve_budget")

def stop (search : Search engine) (termination : String) : Search engine :=
  { search with result := terminate search.result termination }

/-- `remaining` iterations of `options.max_iterations` are left. -/
def iterations [DecidableEq F] (goal : SearchGoal F) :
    ℕ → Search engine → Checkpoint (Search engine)
  | 0, search => pure search
  | remaining + 1, search => do
      if ← Checkpoint.cancelled then return stop search "cancelled"
      if search.result.solveCount ≥ goal.options.maxSolves then
        return stop search "solve_budget"
      match search.current.objectiveGradient goal.objective goal.space search.changes with
      | .error message => return stop search ("derivative_unavailable: " ++ message)
      | .ok direction =>
        let gradient := direction.gradient.map (·.value)
        let search := { search with
          result := { search.result with directions := search.result.directions ++ [direction] } }
        let candidates := candidateMoves goal search gradient
        if candidates.isEmpty then return stop search "no_feasible_moves"
        let iteration := goal.options.maxIterations - (remaining + 1)
        let beam ← trials goal search iteration gradient
          (candidates.take goal.options.beamWidth)
          { result := search.result, visited := search.visited, winner := none }
        let (next, continues) := settle search beam
        if continues then iterations goal remaining next else return next

/-- A starting point that breaks its own bounds has no best result to keep. -/
def startCandidate (study : Study engine) (goal : SearchGoal F) (startChanges : List F)
    (baseline : F) : Except String (Option (ExactCandidate F)) :=
  if goal.space.feasible startChanges (lit 1e-7) then
    some <$> ExactCandidate.capture study.fork startChanges baseline
  else .ok none

/-- The checks and the first record, before the loop. -/
def openSearch [DecidableEq F] (study : Study engine) (goal : SearchGoal F)
    (startChanges : List F) : Except String (Search engine) := do
  goal.space.validate study.formulation
  goal.objective.validate goal.space
  goal.options.validate
  if !Study.changesAreFinite goal.space startChanges then
    .error "search start requires one finite change per decision"
  study.checkDecisionState goal.space startChanges
  let baseline ← study.objectiveValue goal.objective goal.space startChanges
  let best ← startCandidate study goal startChanges baseline
  return { study, current := study.fork, changes := startChanges, value := baseline
           visited := [changeKey startChanges], parentTrial := none
           result := { baselineValue := baseline, best, trials := [], directions := []
                       solveCount := 0, termination := "iteration_limit" } }

/-- `explore_async`, with the session it borrowed as the state it leaves. -/
def exploreAsync [DecidableEq F] (goal : SearchGoal F) (startChanges : List F) :
    Program (Study engine) (SearchResult F) := fun study =>
  match openSearch study goal startChanges with
  | .error message => .done (.error (.error message), study)
  | .ok search => do
      let search ← iterations goal goal.options.maxIterations search
      return (.ok search.result, search.study)

end Tellegen
