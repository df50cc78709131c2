import Tellegen.Network

/-!
Thermal limits of a DC optimal power flow, of which a program may enforce some.
Enforced lazily, the first program has none of them, and each next one adds
those that the flows violate or meet together with those loaded nearly as much,
until every limit left out is slack.

A solver answers one program after another, each answer as it likes. The
programs of a run are kept in the order of their solves.
-/

set_option linter.unusedSectionVars false

open Binary64

namespace Tellegen

variable {F : Type} [Binary64 F] {m : ℕ}

/-! ### Rounds -/

structure LazyLimits (F : Type) where
  maxRounds : ℕ
  nearBinding : F

/-- The part of a model that its limits concern. `variableCount` and `otherRows` are the size
of its program without the limits. -/
structure DcNetwork (F : Type) (m : ℕ) where
  fmax : Fin m → F
  thermalLimitActive : Fin m → Bool
  angleBoundActive : Fin m → Bool
  variableCount : ℕ
  otherRows : ℕ

structure LimitRound (F : Type) where
  enforced : ℕ
  violated : ℕ
  added : ℕ
  maxLoading : F
  variableCount : ℕ
  rows : ℕ
  ipmIterations : ℕ

structure DcOpfSolution (F : Type) (m : ℕ) where
  f : Fin m → F
  iterations : ℕ
  limitRounds : Option (List (LimitRound F))

/-- A flow exceeds its limit by more than this fraction of the limit. -/
def limitViolationTol : F := lit (1 / 1000000)

def loading (dc : DcNetwork F m) (sol : DcOpfSolution F m) (e : Fin m) : F :=
  abs (sol.f e) / dc.fmax e

def violates (dc : DcNetwork F m) (sol : DcOpfSolution F m) (e : Fin m) : Bool :=
  !le (dc.fmax e) 0 && lt (1 + limitViolationTol) (loading dc sol e)

def count (p : Fin m → Bool) : ℕ := (List.finRange m).countP p

def limitRound (dc : DcNetwork F m) (sol : DcOpfSolution F m) (enforceable : Fin m → Bool) :
    LimitRound F :=
  let limited := (List.finRange m).filter fun e => enforceable e && !le (dc.fmax e) 0
  { enforced := count dc.thermalLimitActive
    violated := limited.countP (violates dc sol)
    added := 0
    maxLoading := limited.foldl (fun most e => Binary64.max most (loading dc sol e)) 0
    variableCount := dc.variableCount
    rows := dc.otherRows + 2 * count dc.thermalLimitActive + 2 * count dc.angleBoundActive
    ipmIterations := sol.iterations }

/-- The limits that a program leaves out though it may enforce them. -/
def unenforced (dc : DcNetwork F m) (enforceable : Fin m → Bool) (e : Fin m) : Bool :=
  enforceable e && !dc.thermalLimitActive e && lt 0 (dc.fmax e)

/-- The limits left out that are loaded at a threshold or above. -/
def loadedAt (dc : DcNetwork F m) (sol : DcOpfSolution F m) (enforceable : Fin m → Bool)
    (threshold : F) (e : Fin m) : Bool :=
  unenforced dc enforceable e && le threshold (loading dc sol e)

/-- An unenforced limit loaded at least this much joins the next round. -/
def met : F := 1 - limitViolationTol

def DcNetwork.enforcing (dc : DcNetwork F m) (joins : Fin m → Bool) : DcNetwork F m :=
  { dc with thermalLimitActive := fun e => dc.thermalLimitActive e || joins e }

def LimitRound.adding (round : LimitRound F) (added : ℕ) : LimitRound F :=
  { round with added }

structure LazyRun (F : Type) (m : ℕ) where
  result : Except String (DcOpfSolution F m)
  dc : DcNetwork F m
  programs : List (DcNetwork F m)

/-- The answer of the solver to the program of a round. -/
abbrev DcSolver (F : Type) (m : ℕ) := ℕ → DcNetwork F m → Except String (DcOpfSolution F m)

def givenUp (lazyLimits : LazyLimits F) (round : LimitRound F) (metUnenforced : ℕ) : String :=
  let after := " after " ++ toString lazyLimits.maxRounds ++ " round(s)"
  if round.violated > 0 then
    "lazy thermal limits still violate " ++ toString round.violated ++ " limit(s)" ++ after
  else
    "lazy thermal limits still leave " ++ toString metUnenforced ++
      " limit(s) at their limit unenforced" ++ after

/-- The rounds from a program on, of which `left` more may follow. -/
def lazyRounds (solve : DcSolver F m) (enforceable : Fin m → Bool) (lazyLimits : LazyLimits F) :
    ℕ → DcNetwork F m → List (LimitRound F) → LazyRun F m
  | left, dc, rounds =>
    match solve rounds.length dc with
    | .error error =>
      { result := .error ("lazy limit round " ++ toString (rounds.length + 1) ++ ": " ++ error)
        dc, programs := [dc] }
    | .ok sol =>
      let round := limitRound dc sol enforceable
      let metUnenforced := count (loadedAt dc sol enforceable met)
      if round.violated = 0 ∧ metUnenforced = 0 then
        { result := .ok { sol with limitRounds := some (rounds ++ [round]) }
          dc, programs := [dc] }
      else
        match left with
        | 0 => { result := .error (givenUp lazyLimits round metUnenforced), dc, programs := [dc] }
        | left + 1 =>
          let threshold := Binary64.min lazyLimits.nearBinding met
          let joins := loadedAt dc sol enforceable threshold
          let rest := lazyRounds solve enforceable lazyLimits left (dc.enforcing joins)
            (rounds ++ [round.adding (count joins)])
          { rest with programs := dc :: rest.programs }

def solveWithLazyLimits (solve : DcSolver F m) (dc : DcNetwork F m) (enforceable : Fin m → Bool)
    (lazyLimits : LazyLimits F) : LazyRun F m :=
  lazyRounds solve enforceable lazyLimits (lazyLimits.maxRounds - 1)
    { dc with thermalLimitActive := fun _ => false } []

/-! ### What the rounds keep -/

/-- Only the enforced limits differ, and none is dropped. -/
structure Grows (dc dc' : DcNetwork F m) : Prop where
  same : dc' = { dc with thermalLimitActive := dc'.thermalLimitActive }
  active : dc.thermalLimitActive ≤ dc'.thermalLimitActive

theorem Grows.refl (dc : DcNetwork F m) : Grows dc dc := ⟨rfl, le_rfl⟩

theorem Grows.trans {a b c : DcNetwork F m} (hab : Grows a b) (hbc : Grows b c) : Grows a c where
  same := by
    rw [hbc.same, hab.same]
  active := hab.active.trans hbc.active

theorem grows_enforcing (dc : DcNetwork F m) (joins : Fin m → Bool) :
    Grows dc (dc.enforcing joins) := by
  constructor
  case same => rfl
  case active =>
    intro e
    simp only [DcNetwork.enforcing]
    cases dc.thermalLimitActive e <;> simp

theorem enforcing_le {dc : DcNetwork F m} {enforceable joins : Fin m → Bool}
    (hactive : dc.thermalLimitActive ≤ enforceable)
    (hjoins : ∀ e, joins e = true → enforceable e = true) :
    (dc.enforcing joins).thermalLimitActive ≤ enforceable := by
  intro e
  have hold := hactive e
  simp only [DcNetwork.enforcing]
  cases hjoin : joins e with
  | true => simp [hjoins e hjoin]
  | false => simpa using hold

theorem enforceable_of_loadedAt {dc : DcNetwork F m} {sol : DcOpfSolution F m}
    {enforceable : Fin m → Bool} {threshold : F} {e : Fin m}
    (h : loadedAt dc sol enforceable threshold e = true) : enforceable e = true := by
  simp only [loadedAt, unenforced, Bool.and_eq_true] at h
  exact h.1.1.1

/-- The solver's answer to the last program violates no limit that may be enforced and meets
none that is left out. -/
structure Accepted (solve : DcSolver F m) (enforceable : Fin m → Bool) (run : LazyRun F m)
    (sol : DcOpfSolution F m) : Prop where
  answered : ∃ round answer, solve round run.dc = .ok answer ∧ sol.f = answer.f
  inside : ∀ e, enforceable e = true → le (run.dc.fmax e) 0 = false →
    lt (1 + limitViolationTol) (loading run.dc sol e) = false
  slack : ∀ e, enforceable e = true → run.dc.thermalLimitActive e = false →
    lt 0 (run.dc.fmax e) = true → le met (loading run.dc sol e) = false

structure Rounds (solve : DcSolver F m) (enforceable : Fin m → Bool) (left : ℕ)
    (dc : DcNetwork F m) (run : LazyRun F m) : Prop where
  bounded : run.programs.length ≤ left + 1
  grows : ∀ program ∈ run.programs, Grows dc program
  chain : run.programs.Pairwise Grows
  last : run.programs.getLast? = some run.dc
  ends : ∀ program ∈ run.programs, Grows program run.dc
  stays : dc.thermalLimitActive ≤ enforceable → run.dc.thermalLimitActive ≤ enforceable
  accepted : ∀ sol, run.result = .ok sol → Accepted solve enforceable run sol

theorem accepted_of_round {solve : DcSolver F m} {enforceable : Fin m → Bool}
    {dc : DcNetwork F m} {round : ℕ} {sol : DcOpfSolution F m} (hsolve : solve round dc = .ok sol)
    (hviolated : (limitRound dc sol enforceable).violated = 0)
    (hmet : count (loadedAt dc sol enforceable met) = 0) (rounds : List (LimitRound F))
    {result : Except String (DcOpfSolution F m)} {programs : List (DcNetwork F m)} :
    Accepted solve enforceable { result, dc, programs }
      { sol with limitRounds := some rounds } := by
  constructor
  case answered => exact ⟨round, sol, hsolve, rfl⟩
  case inside =>
    intro e henforceable hpositive
    have hnone := List.countP_eq_zero.mp hviolated e
      (by simpa [henforceable] using hpositive)
    have hloading : lt (1 + limitViolationTol) (loading dc sol e) = false := by
      simpa [violates, hpositive] using hnone
    exact hloading
  case slack =>
    intro e henforceable hactive hpositive
    have hnone := List.countP_eq_zero.mp hmet e (List.mem_finRange e)
    have hloading : le met (loading dc sol e) = false := by
      simpa [loadedAt, unenforced, henforceable, show dc.thermalLimitActive e = false from hactive,
        show lt 0 (dc.fmax e) = true from hpositive] using hnone
    exact hloading

theorem rounds_single {solve : DcSolver F m} {enforceable : Fin m → Bool} {dc : DcNetwork F m}
    (left : ℕ) {result : Except String (DcOpfSolution F m)}
    (haccepted : ∀ sol, result = .ok sol →
      Accepted solve enforceable { result, dc, programs := [dc] } sol) :
    Rounds solve enforceable left dc { result, dc, programs := [dc] } := by
  constructor
  case bounded => simp
  case grows =>
    intro program hmem
    rw [List.mem_singleton.mp hmem]
    exact Grows.refl dc
  case chain => exact List.pairwise_singleton ..
  case last => rfl
  case ends =>
    intro program hmem
    rw [List.mem_singleton.mp hmem]
    exact Grows.refl dc
  case stays => exact id
  case accepted => exact haccepted

theorem rounds_cons {solve : DcSolver F m} {enforceable : Fin m → Bool} {left : ℕ}
    {dc : DcNetwork F m} {joins : Fin m → Bool} {rest : LazyRun F m}
    (hjoins : ∀ e, joins e = true → enforceable e = true)
    (hrest : Rounds solve enforceable left (dc.enforcing joins) rest) :
    Rounds solve enforceable (left + 1) dc { rest with programs := dc :: rest.programs } := by
  have hnext := grows_enforcing dc joins
  constructor
  case bounded =>
    have hbounded := hrest.bounded
    simp only [List.length_cons]
    omega
  case grows =>
    intro program hmem
    rcases List.mem_cons.mp hmem with rfl | hlater
    · exact Grows.refl _
    · exact hnext.trans (hrest.grows program hlater)
  case chain =>
    apply List.Pairwise.cons
    · intro program hmem
      exact hnext.trans (hrest.grows program hmem)
    · exact hrest.chain
  case last =>
    rw [List.getLast?_cons, hrest.last]
    rfl
  case ends =>
    intro program hmem
    rcases List.mem_cons.mp hmem with rfl | hlater
    · exact hnext.trans (hrest.grows _ (List.mem_of_getLast? hrest.last))
    · exact hrest.ends program hlater
  case stays =>
    intro hactive
    apply hrest.stays
    exact enforcing_le hactive hjoins
  case accepted =>
    intro sol hsol
    have haccepted := hrest.accepted sol hsol
    exact ⟨haccepted.answered, haccepted.inside, haccepted.slack⟩

theorem lazyRounds_spec (solve : DcSolver F m) (enforceable : Fin m → Bool)
    (lazyLimits : LazyLimits F) (left : ℕ) (dc : DcNetwork F m) (rounds : List (LimitRound F)) :
    Rounds solve enforceable left dc (lazyRounds solve enforceable lazyLimits left dc rounds) := by
  induction left generalizing dc rounds with
  | zero =>
    unfold lazyRounds
    split
    case h_1 =>
      apply rounds_single
      simp
    case h_2 sol hsolve =>
      dsimp only
      split
      case isTrue hdone =>
        apply rounds_single
        intro other hother
        cases hother
        exact accepted_of_round hsolve hdone.1 hdone.2 _
      case isFalse =>
        apply rounds_single
        simp
  | succ left ih =>
    unfold lazyRounds
    split
    case h_1 =>
      apply rounds_single
      simp
    case h_2 sol hsolve =>
      dsimp only
      split
      case isTrue hdone =>
        apply rounds_single
        intro other hother
        cases hother
        exact accepted_of_round hsolve hdone.1 hdone.2 _
      case isFalse =>
        have hrest := ih (dc.enforcing
          (loadedAt dc sol enforceable (Binary64.min lazyLimits.nearBinding met)))
          (rounds ++ [(limitRound dc sol enforceable).adding
            (count (loadedAt dc sol enforceable (Binary64.min lazyLimits.nearBinding met)))])
        apply rounds_cons _ hrest
        intro e hjoins
        exact enforceable_of_loadedAt hjoins

/-! ### Exact arithmetic -/

section Exact

variable {K : Type} [Field K] [LinearOrder K] [IsStrictOrderedRing K] [FloorRing K]

/-- A solver that minimizes `cost` over the flows that `base` allows and the limits it is
given loses nothing to lazy enforcement: its answer costs at most what any flow within every
enforceable limit costs. -/
theorem lazy_limits_lose_nothing (text : K → String) :
    let _ := Binary64.exact text
    ∀ (solve : DcSolver K m) (dc : DcNetwork K m) (enforceable : Fin m → Bool)
      (lazyLimits : LazyLimits K) (base : Set (Fin m → K)) (cost : (Fin m → K) → K),
      (∀ round program answer, solve round program = .ok answer → ∀ flow ∈ base,
        (∀ e, program.thermalLimitActive e = true → |flow e| ≤ program.fmax e) →
        cost answer.f ≤ cost flow) →
      ∀ sol, (solveWithLazyLimits solve dc enforceable lazyLimits).result = .ok sol →
        ∀ flow ∈ base, (∀ e, enforceable e = true → |flow e| ≤ dc.fmax e) →
          cost sol.f ≤ cost flow := by
  let _ := Binary64.exact text
  intro _ solve dc enforceable lazyLimits base cost hoptimal sol hsol flow hbase hwithin
  have hspec := lazyRounds_spec solve enforceable lazyLimits (lazyLimits.maxRounds - 1)
    { dc with thermalLimitActive := fun _ => false } []
  obtain ⟨round, answer, hanswer, hflow⟩ := (hspec.accepted sol hsol).answered
  rw [hflow]
  apply hoptimal round _ answer hanswer flow hbase
  intro e hactive
  have hgrows := hspec.grows _ (List.mem_of_getLast? hspec.last)
  have hstays := hspec.stays (fun e => by simp) e
  rw [hgrows.same]
  exact hwithin e (hstays hactive)

/-- Three branches, all flowing at 2: one with a limit of 1, one without a limit, and one whose
limit a request does not select. -/
def looseNetwork : DcNetwork ℚ 3 where
  fmax := ![1, 0, 1]
  thermalLimitActive := ![true, true, true]
  angleBoundActive := fun _ => false
  variableCount := 4
  otherRows := 3

def looseSelection : Fin 3 → Bool := ![true, true, false]

def twoRounds : LazyLimits ℚ := { maxRounds := 2, nearBinding := 9 / 10 }

/-- Every enforced limit is met exactly, and every other flow is 2. -/
def looseSolver : DcSolver ℚ 3 := fun _ dc =>
  .ok { f := fun e => if dc.thermalLimitActive e then dc.fmax e else 2, iterations := 7
        limitRounds := none }

/-- A solver that drives the first branch as far as it may. -/
theorem lazy_limits_lose_nothing_loose :
    let _ := Binary64.exact (fun _ : ℚ => "")
    ∀ sol, (solveWithLazyLimits looseSolver looseNetwork looseSelection twoRounds).result = .ok sol →
      1 ≤ sol.f 0 := by
  let _ := Binary64.exact (fun _ : ℚ => "")
  intro _ sol hsol
  have hcost := lazy_limits_lose_nothing (fun _ : ℚ => "") looseSolver looseNetwork looseSelection
    twoRounds {flow | flow 0 ≤ 2} (fun flow => -flow 0) ?_ sol hsol ![1, 0, 1] (by simp) ?_
  · simpa using hcost
  · rintro round program answer ⟨⟩ flow hbase hwithin
    apply neg_le_neg
    dsimp only
    split
    case isTrue hactive => exact (le_abs_self _).trans (hwithin 0 hactive)
    case isFalse => exact hbase
  · decide +kernel

end Exact

end Tellegen
