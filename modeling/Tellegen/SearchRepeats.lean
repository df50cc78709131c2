import Tellegen.SearchMoves
import Tellegen.SearchReport

/-!
No trial of a search repeats a vector, as long as no two of the candidates that
an iteration is about to try are the same vector. The candidates were filtered
against the vectors visited before the iteration, and against nothing else.
-/

set_option linter.unusedSectionVars false

open Binary64 Outcome
open Program (Checkpoint)

namespace Tellegen

section Search

variable {F : Type} [Binary64 F] {engine : Engine F}

/-- The vectors that a search has evaluated, the start first. -/
def evaluatedKeys (startChanges : List F) (trials : List (SearchTrial F)) : List (List F) :=
  changeKey startChanges :: trials.map fun t => changeKey t.changes

/-- The vectors evaluated so far are distinct, and the visited set has them all. -/
structure NoRepeats (startChanges : List F) (trials : List (SearchTrial F))
    (visited : List (List F)) : Prop where
  distinct : (evaluatedKeys startChanges trials).Nodup
  seen : ∀ key ∈ evaluatedKeys startChanges trials, key ∈ visited

/-- No two feasible corners of a placement are the same point. -/
def CornersDiffer (space : DecisionSpace F) (current gradient : List F) (increaseMw : F) : Prop :=
  ((placementMoves space current gradient increaseMw).filter (space.feasible · (lit 1e-7))).Pairwise
    fun p q => changeKey p ≠ changeKey q

/-- What keeps the moves of a search apart: a placement that has to be met first leads to different
corners, and a transfer's step is not lost in rounding. -/
structure Separates (study : Study engine) (goal : SearchGoal F) (startChanges : List F) :
    Prop where
  corners : goal.space.feasible startChanges (lit 1e-7) = false →
    ∀ increaseMw, goal.space.demand = some (.placement increaseMw) →
      ∀ direction, study.objectiveGradient goal.objective goal.space startChanges = .ok direction →
        CornersDiffer goal.space startChanges (direction.gradient.map (·.value)) increaseMw
  transfers : Resolves goal.space

/-! ### One trial -/

theorem NoRepeats.record {startChanges : List F} {trials : List (SearchTrial F)}
    {visited : List (List F)} (h : NoRepeats startChanges trials visited) {t : SearchTrial F}
    (hnew : changeKey t.changes ∉ visited) :
    NoRepeats startChanges (trials ++ [t]) (changeKey t.changes :: visited) := by
  have hkeys : evaluatedKeys startChanges (trials ++ [t]) =
      evaluatedKeys startChanges trials ++ [changeKey t.changes] := by
    simp [evaluatedKeys]
  constructor
  case distinct =>
    rw [hkeys, List.nodup_append]
    refine ⟨h.distinct, List.nodup_singleton _, ?_⟩
    intro key hkey other hother
    rw [List.mem_singleton.mp hother]
    rintro rfl
    exact hnew (h.seen _ hkey)
  case seen =>
    intro key hkey
    rw [hkeys] at hkey
    rcases List.mem_append.mp hkey with hold | hlast
    · exact List.mem_cons_of_mem _ (h.seen key hold)
    · rw [List.mem_singleton.mp hlast]
      exact List.mem_cons_self

theorem trial_adds (goal : SearchGoal F) (search : Search engine) (iteration : ℕ)
    (gradient : List F) (beam : Beam engine) (candidate : List F) :
    ∃ t : SearchTrial F, t.changes = candidate ∧
      (trial goal search iteration gradient beam candidate).result.trials =
        beam.result.trials ++ [t] ∧
      (trial goal search iteration gradient beam candidate).visited =
        changeKey candidate :: beam.visited ∧
      (trial goal search iteration gradient beam candidate).result.solveCount =
        beam.result.solveCount + 1 ∧
      ∀ w, (trial goal search iteration gradient beam candidate).winner = some w →
        w.changes = candidate ∨ beam.winner = some w := by
  rw [trial]
  cases hrun : evaluateCandidate goal search.current candidate with
  | mk outcome tested =>
    cases outcome with
    | error message =>
      exact ⟨_, rfl, rfl, rfl, rfl, fun w hw => .inr hw⟩
    | ok exact =>
      refine ⟨exactTrial search (blankTrial search iteration gradient candidate) tested exact,
        rfl, rfl, rfl, rfl, ?_⟩
      intro w hw
      simp only [Beam.record, nextWinner] at hw
      split at hw
      case isTrue =>
        cases hw
        exact .inl (evaluateCandidate_ok hrun).1
      case isFalse => exact .inr hw

/-- The trials of an iteration so far, and the candidates that are left. -/
structure BeamFresh (goal : SearchGoal F) (startChanges : List F) (beam : Beam engine) :
    Prop where
  repeats : NoRepeats startChanges beam.result.trials beam.visited
  winner : ∀ w, beam.winner = some w →
    changeKey w.changes ∈ beam.visited ∧ goal.space.feasible w.changes (lit 1e-7) = true

theorem BeamFresh.trial {goal : SearchGoal F} {startChanges : List F} {beam : Beam engine}
    (h : BeamFresh goal startChanges beam) (search : Search engine) (iteration : ℕ)
    (gradient : List F) {candidate : List F} (hnew : changeKey candidate ∉ beam.visited)
    (hfeasible : goal.space.feasible candidate (lit 1e-7) = true) :
    BeamFresh goal startChanges
      (Tellegen.trial goal search iteration gradient beam candidate) := by
  obtain ⟨t, rfl, htrials, hvisited, -, hwinner⟩ :=
    trial_adds goal search iteration gradient beam candidate
  constructor
  case repeats =>
    rw [htrials, hvisited]
    exact h.repeats.record hnew
  case winner =>
    intro w hw
    rw [hvisited]
    rcases hwinner w hw with hchanges | hold
    · rw [hchanges]
      exact ⟨List.mem_cons_self, hfeasible⟩
    · obtain ⟨hseen, hwithin⟩ := h.winner w hold
      exact ⟨List.mem_cons_of_mem _ hseen, hwithin⟩

/-- The candidates that the solves left reach are new and distinct. -/
theorem trials_fresh {goal : SearchGoal F} {startChanges : List F} {search : Search engine}
    {iteration : ℕ} {gradient : List F} (candidates : List (List F))
    (hfeasible : ∀ c ∈ candidates, goal.space.feasible c (lit 1e-7) = true) (beam : Beam engine)
    (hdistinct : ((candidates.take (goal.options.maxSolves - beam.result.solveCount)).map
      changeKey).Nodup)
    (hnew : ∀ c ∈ candidates.take (goal.options.maxSolves - beam.result.solveCount),
      changeKey c ∉ beam.visited)
    (h : BeamFresh goal startChanges beam) :
    (trials goal search iteration gradient candidates beam).All
      (BeamFresh goal startChanges) := by
  induction candidates generalizing beam with
  | nil => exact h
  | cons candidate rest ih =>
    rw [trials, Checkpoint.all_bind, Checkpoint.all_cancelled]
    rintro (_ | _)
    · by_cases hspent : beam.result.solveCount ≥ goal.options.maxSolves
      · simp only [hspent, if_true]
        exact ⟨h.repeats, h.winner⟩
      · simp only [hspent, if_false]
        obtain ⟨_, -, -, hvisited, hcount, -⟩ :=
          trial_adds goal search iteration gradient beam candidate
        have hleft : goal.options.maxSolves - beam.result.solveCount =
            goal.options.maxSolves - (beam.result.solveCount + 1) + 1 := by omega
        rw [hleft, List.take_succ_cons] at hdistinct hnew
        rw [List.map_cons, List.nodup_cons] at hdistinct
        have hnext := h.trial search iteration gradient (hnew candidate List.mem_cons_self)
          (hfeasible candidate List.mem_cons_self)
        apply ih (fun c hc => hfeasible c (List.mem_cons_of_mem _ hc)) _ (hcount ▸ hdistinct.2)
          _ hnext
        intro c hc
        rw [hcount] at hc
        rw [hvisited, List.mem_cons, not_or]
        constructor
        · intro heq
          exact hdistinct.1 (heq ▸ List.mem_map_of_mem hc)
        · exact hnew c (List.mem_cons_of_mem _ hc)
    · exact ⟨h.repeats, h.winner⟩

/-! ### One iteration -/

/-- The loop head: before a best result there is, the search is still at its start. -/
structure Standpoint (goal : SearchGoal F) (study : Study engine) (startChanges : List F)
    (search : Search engine) : Prop where
  repeats : NoRepeats startChanges search.result.trials search.visited
  current : changeKey search.changes ∈ search.visited
  finite : ∀ x ∈ search.changes, isFinite x = true
  length : search.changes.length = goal.space.vars.length
  within : search.result.best.isNone = false →
    goal.space.feasible search.changes (lit 1e-7) = true
  opening : search.result.best.isNone = true →
    search.changes = startChanges ∧ search.current = study ∧
      goal.space.feasible startChanges (lit 1e-7) = false

theorem feasible_spec {space : DecisionSpace F} {changes : List F} {tolerance : F}
    (h : space.feasible changes tolerance = true) :
    changes.length = space.vars.length ∧ ∀ x ∈ changes, isFinite x = true := by
  rw [DecisionSpace.feasible, Bool.and_eq_true] at h
  have hlimits := h.1
  rw [DecisionSpace.withinLimits] at hlimits
  split at hlimits
  case isTrue => cases hlimits
  case isFalse hgood =>
    have hlength : changes.length = space.vars.length := by
      by_contra hne
      exact hgood (.inl hne)
    refine ⟨hlength, ?_⟩
    intro x hx
    simp only [Bool.and_eq_true, List.all_eq_true] at hlimits
    obtain ⟨k, hk, hget⟩ := List.mem_iff_getElem.mp hx
    have hk' : k < (space.vars.zip changes).length := by
      rw [List.length_zip]
      omega
    have hpair := hlimits.1.1 _ (List.getElem_mem hk')
    rw [List.getElem_zip, hget] at hpair
    exact hpair.1.1.1

/-- The candidates that an iteration is about to try: no more than the beam is wide, and no more
than there are solves left. -/
def toTry [DecidableEq F] (goal : SearchGoal F) (search : Search engine) (gradient : List F) :
    List (List F) :=
  ((candidateMoves goal search gradient).take goal.options.beamWidth).take
    (goal.options.maxSolves - search.result.solveCount)

/-- No two candidates that an iteration is about to try are the same vector. -/
def TriesApart [DecidableEq F] (goal : SearchGoal F) (head : Search engine × List F) : Prop :=
  ((toTry goal head.1 head.2).map changeKey).Nodup

instance [DecidableEq F] (goal : SearchGoal F) (head : Search engine × List F) :
    Decidable (TriesApart goal head) := by
  unfold TriesApart
  infer_instance

/-- The loop heads from which the run under these answers tries candidates, with the gradients it
has there. -/
def heads [DecidableEq F] (goal : SearchGoal F) :
    ℕ → Search engine → (ℕ → Bool) → List (Search engine × List F)
  | 0, _, _ => []
  | remaining + 1, search, answers =>
    if answers 0 ∨ search.result.solveCount ≥ goal.options.maxSolves then []
    else
      match search.current.objectiveGradient goal.objective goal.space search.changes with
      | .error _ => []
      | .ok direction =>
        let gradient := direction.gradient.map (·.value)
        let search := { search with
          result := { search.result with directions := search.result.directions ++ [direction] } }
        let beam := trials goal search (goal.options.maxIterations - (remaining + 1)) gradient
          ((candidateMoves goal search gradient).take goal.options.beamWidth)
          { result := search.result, visited := search.visited, winner := none }
        let (next, continues) := settle search (beam.run fun n => answers (n + 1))
        (search, gradient) ::
          if continues then heads goal remaining next (beam.rest fun n => answers (n + 1)) else []

section Iteration

variable [LawfulSteps F] [DecidableEq F] {goal : SearchGoal F} {study : Study engine}
  {startChanges : List F} {search : Search engine}

theorem candidateMoves_spec {gradient c : List F} (h : c ∈ candidateMoves goal search gradient) :
    goal.space.feasible c (lit 1e-7) = true ∧ changeKey c ∉ search.visited := by
  rw [candidateMoves] at h
  have hmem := List.mem_filter.mp ((sortBy_perm _ _).mem_iff.mp h)
  exact ⟨(List.mem_filter.mp hmem.1).2, of_decide_eq_true hmem.2⟩

theorem candidates_nodup (hsteps : PositiveSteps goal.space)
    (happart : Separates study goal startChanges)
    (h : Standpoint goal study startChanges search) {direction : ObjectiveResult F}
    (hdirection : search.current.objectiveGradient goal.objective goal.space search.changes =
      .ok direction) :
    ((candidateMoves goal search (direction.gradient.map (·.value))).map changeKey).Nodup := by
  have hmoves : (feasibleMoves goal.space search.changes (direction.gradient.map (·.value))
      search.result.best.isNone).Pairwise (Apart search.changes) := by
    cases hbest : search.result.best.isNone with
    | false =>
      exact feasibleMoves_apart hsteps happart.transfers (h.within hbest) h.length h.finite
    | true =>
      obtain ⟨hchanges, hcurrent, hstart⟩ := h.opening hbest
      rw [hchanges, hcurrent] at hdirection
      rw [hchanges, feasibleMoves, if_pos rfl]
      cases hdemand : goal.space.demand with
      | none => exact .nil
      | some constraint =>
        cases constraint with
        | redistribution => exact .nil
        | placement increaseMw =>
          apply (happart.corners hstart increaseMw hdemand direction hdirection).imp
          intro p q hne heq
          exact absurd heq hne
  have hfiltered : (((feasibleMoves goal.space search.changes (direction.gradient.map (·.value))
      search.result.best.isNone).filter fun x => changeKey x ∉ search.visited).map changeKey).Nodup := by
    rw [List.Nodup, List.pairwise_map, List.pairwise_filter]
    apply hmoves.imp
    intro p q hpq hp _ heq
    apply of_decide_eq_true hp
    rw [hpq heq]
    exact h.current
  exact ((sortBy_perm _ _).map changeKey).nodup_iff.mpr hfiltered

theorem triesApart_of_le_one {head : Search engine × List F}
    (h : goal.options.beamWidth ≤ 1 ∨ goal.options.maxSolves ≤ head.1.result.solveCount + 1) :
    TriesApart goal head := by
  have hlength : (toTry goal head.1 head.2).length ≤ 1 := by
    simp only [toTry, List.length_take]
    omega
  rw [TriesApart]
  match hlist : toTry goal head.1 head.2 with
  | [] => exact List.nodup_nil
  | [_] => exact List.nodup_singleton _
  | _ :: _ :: _ => simp [hlist] at hlength

/-- Ratings and transfers never collide, and the corners of a placement only if they are the same
point. -/
theorem triesApart_of_separates (hsteps : PositiveSteps goal.space)
    (happart : Separates study goal startChanges)
    (h : Standpoint goal study startChanges search) {direction : ObjectiveResult F}
    (hdirection : search.current.objectiveGradient goal.objective goal.space search.changes =
      .ok direction) :
    TriesApart goal (search, direction.gradient.map (·.value)) := by
  rw [TriesApart, toTry, List.map_take, List.map_take]
  exact ((List.take_sublist _ _).trans (List.take_sublist _ _)).nodup
    (candidates_nodup hsteps happart h hdirection)

theorem keys_accept (startChanges : List F) (trials : List (SearchTrial F)) (i : ℕ) :
    evaluatedKeys startChanges (trials.modify i fun t => { t with accepted := true }) =
      evaluatedKeys startChanges trials := by
  have hmap : (trials.modify i fun t => { t with accepted := true }).map
      (fun t => changeKey t.changes) = trials.map fun t => changeKey t.changes := by
    induction trials generalizing i with
    | nil => cases i <;> rfl
    | cons t rest ih =>
      cases i with
      | zero => rfl
      | succ i => exact congrArg (changeKey t.changes :: ·) (ih i)
  rw [evaluatedKeys, evaluatedKeys, hmap]

theorem Standpoint.withDirection (h : Standpoint goal study startChanges search)
    (direction : ObjectiveResult F) :
    Standpoint goal study startChanges { search with result :=
      { search.result with directions := search.result.directions ++ [direction] } } where
  repeats := h.repeats
  current := h.current
  finite := h.finite
  length := h.length
  within := h.within
  opening := h.opening

theorem settle_fresh (study : Study engine) {beam : Beam engine} {added : List (SearchTrial F)}
    (hbeam : BeamInv goal search beam added) (hfresh : BeamFresh goal startChanges beam) :
    (evaluatedKeys startChanges (settle search beam).1.result.trials).Nodup ∧
      ((settle search beam).2 = true →
        Standpoint goal study startChanges (settle search beam).1) := by
  rw [settle]
  cases hwinner : beam.winner with
  | none =>
    by_cases hlimit : beam.result.termination = "iteration_limit"
    · simp only [hlimit, if_true]
      exact ⟨hfresh.repeats.distinct, by simp⟩
    · simp only [hlimit, if_false]
      refine ⟨hfresh.repeats.distinct, ?_⟩
      rcases hbeam.termination with h | h | h
      · exact absurd h hlimit
      · simp [h]
      · simp [h]
  | some w =>
    obtain ⟨⟨k, t, exact, hk, hindex, hexact, -⟩, -, -⟩ := hbeam.winner w hwinner
    obtain ⟨hseen, hfeasible⟩ := hfresh.winner w hwinner
    obtain ⟨hlength, hfinite⟩ := feasible_spec hfeasible
    have hrepeats : NoRepeats startChanges
        (beam.result.trials.modify w.index fun t => { t with accepted := true }) beam.visited := by
      have hkeys := keys_accept startChanges beam.result.trials w.index
      constructor
      case distinct =>
        rw [hkeys]
        exact hfresh.repeats.distinct
      case seen =>
        rw [hkeys]
        exact hfresh.repeats.seen
    refine ⟨hrepeats.distinct, fun _ => ?_⟩
    have hbest : (accept search beam w).result.best = some exact := by
      have hentry : beam.result.trials[w.index]? = some t := by
        rw [hbeam.trials, hindex, List.getElem?_append_right (Nat.le_add_right _ _),
          Nat.add_sub_cancel_left, hk]
      simp [accept, hentry, hexact]
    constructor
    case repeats => exact hrepeats
    case current => exact hseen
    case finite => exact hfinite
    case length => exact hlength
    case within => exact fun _ => hfeasible
    case opening =>
      intro hnone
      simp only [hbest] at hnone
      cases hnone

theorem tried_fresh {start : Option (ExactCandidate F)}
    (hfinite : isFinite goal.options.minImprovement = true)
    (hnonneg : ¬ lt goal.options.minImprovement 0 = true) (hhead : Head goal study start search)
    (h : Standpoint goal study startChanges search) {gradient : List F}
    (hapart : TriesApart goal (search, gradient)) (iteration : ℕ) (answers : ℕ → Bool) :
    let beam := (trials goal search iteration gradient
      ((candidateMoves goal search gradient).take goal.options.beamWidth)
      { result := search.result, visited := search.visited, winner := none }).run answers
    (∃ added, BeamInv goal search beam added) ∧ BeamFresh goal startChanges beam := by
  have hcandidates : ∀ c ∈ (candidateMoves goal search gradient).take goal.options.beamWidth,
      goal.space.feasible c (lit 1e-7) = true ∧ changeKey c ∉ search.visited :=
    fun c hc => candidateMoves_spec (List.mem_of_mem_take hc)
  refine Checkpoint.All.run ((trials_inv hfinite hnonneg _ (fun c hc => (hcandidates c hc).1) _ []
    hhead.blank).and (trials_fresh _ (fun c hc => (hcandidates c hc).1) _ hapart
      (fun c hc => (hcandidates c (List.mem_of_mem_take hc)).2) ⟨h.repeats, ?_⟩)) answers
  intro w hw
  cases hw

theorem iterations_fresh {start : Option (ExactCandidate F)}
    (hfinite : isFinite goal.options.minImprovement = true)
    (hnonneg : ¬ lt goal.options.minImprovement 0 = true) (remaining : ℕ) (search : Search engine)
    (answers : ℕ → Bool)
    (happart : ∀ head direction, (head, direction.gradient.map (·.value)) ∈
        heads goal remaining search answers →
      Standpoint goal study startChanges head →
      head.current.objectiveGradient goal.objective goal.space head.changes = .ok direction →
      TriesApart goal (head, direction.gradient.map (·.value)))
    (hhead : Head goal study start search) (h : Standpoint goal study startChanges search) :
    (evaluatedKeys startChanges
      ((iterations goal remaining search).run answers).result.trials).Nodup := by
  induction remaining generalizing search answers with
  | zero => exact h.repeats.distinct
  | succ remaining ih =>
    rw [iterations, Checkpoint.run_bind]
    simp only [Checkpoint.cancelled, Checkpoint.run, Checkpoint.rest]
    rw [heads] at happart
    cases hanswer : answers 0 with
    | true => exact h.repeats.distinct
    | false =>
      by_cases hspent : search.result.solveCount ≥ goal.options.maxSolves
      · simp only [hspent, if_true]
        exact h.repeats.distinct
      simp only [hspent, hanswer, Bool.false_eq_true, or_self, if_false] at happart ⊢
      cases hdirection : search.current.objectiveGradient goal.objective goal.space
          search.changes with
      | error message => exact h.repeats.distinct
      | ok direction =>
        simp only [hdirection] at happart
        have hnext := hhead.withDirection direction
        have hstand := h.withDirection direction
        have htries := happart _ direction List.mem_cons_self hstand hdirection
        dsimp only
        split
        · exact h.repeats.distinct
        · rw [Checkpoint.run_bind]
          obtain ⟨⟨added, hbeam⟩, hfresh⟩ := tried_fresh hfinite hnonneg hnext hstand htries
            (goal.options.maxIterations - (remaining + 1)) fun n => answers (n + 1)
          obtain ⟨hnodup, hcontinue⟩ := settle_fresh study hbeam hfresh
          split
          case isTrue hcontinues =>
            obtain ⟨-, -, hheadNext⟩ := settle_spec hnext hbeam
            refine ih _ _ (fun head later hlater => ?_) (hheadNext hcontinues)
              (hcontinue hcontinues)
            exact happart head later (List.mem_cons_of_mem _ (by rwa [if_pos hcontinues]))
          case isFalse => exact hnodup

/-! ### The whole search -/

theorem le_zero_of_not_le {a : F} (hfinite : isFinite a = true) (h : ¬ le a 0 = true) :
    le 0 a = true := by
  apply LawfulBinary64.le_of_not_lt hfinite LawfulBinary64.isFinite_zero
  intro hlt
  exact h (LawfulSteps.le_of_lt hlt)

theorem validateVariables_increment {formulation : Problem}
    {earlier vars : List (DecisionVariable F)}
    (h : DecisionSpace.validateVariables formulation earlier vars = .ok ()) :
    ∀ v ∈ vars, isFinite v.increment = true ∧ le 0 v.increment = true := by
  induction vars generalizing earlier with
  | nil => exact fun v hv => absurd hv List.not_mem_nil
  | cons v rest ih =>
    simp only [DecisionSpace.validateVariables, bind_eq_ok] at h
    obtain ⟨_, hfirst, hrest⟩ := h
    intro w hw
    rcases List.mem_cons.mp hw with rfl | htail
    · rw [DecisionSpace.validateVariable] at hfirst
      split at hfirst
      case isTrue => cases hfirst
      case isFalse =>
        split at hfirst
        case isTrue => cases hfirst
        case isFalse hgood =>
          simp only [not_or, List.any_cons, List.any_nil, Bool.or_false, Bool.or_eq_true,
            Bool.not_eq_true', Bool.not_eq_false] at hgood
          obtain ⟨⟨-, -, hfinite, -⟩, -, hpositive, -⟩ := hgood
          exact ⟨hfinite, le_zero_of_not_le hfinite hpositive⟩
    · exact ih hrest w htail

theorem positiveSteps_of_validate {space : DecisionSpace F} {formulation : Problem}
    (h : space.validate formulation = .ok ()) : PositiveSteps space := by
  simp only [DecisionSpace.validate, bind_eq_ok, error_bind, ite_error_eq_ok] at h
  obtain ⟨-, -, _, hvars, -⟩ := h
  intro index
  rw [increment]
  cases hv : space.vars[index]? with
  | none =>
    exact ⟨LawfulBinary64.isFinite_zero, LawfulBinary64.le_of_not_lt LawfulBinary64.isFinite_zero
      LawfulBinary64.isFinite_zero (LawfulBinary64.lt_irrefl 0)⟩
  | some v => exact validateVariables_increment hvars v (List.mem_of_getElem? hv)

theorem openSearch_stands (h : openSearch study goal startChanges = .ok search) :
    PositiveSteps goal.space ∧ Standpoint goal study startChanges search := by
  rw [openSearch] at h
  simp only [bind_eq_ok, error_bind, ite_error_eq_ok, pure_eq_ok] at h
  obtain ⟨_, hspace, _, -, _, -, hstart, _, -, baseline, -, best, hbest, rfl⟩ := h
  have hgood : Study.changesAreFinite goal.space startChanges = true := by
    simpa using hstart
  rw [Study.changesAreFinite, Bool.and_eq_true, decide_eq_true_eq, List.all_eq_true] at hgood
  refine ⟨positiveSteps_of_validate hspace, ?_⟩
  constructor
  case repeats =>
    exact ⟨List.nodup_singleton _, fun key hkey => hkey⟩
  case current => exact List.mem_cons_self
  case finite => exact hgood.2
  case length => exact hgood.1
  case within =>
    intro hsome
    rw [startCandidate] at hbest
    split at hbest
    case isTrue hfeasible => exact hfeasible
    case isFalse =>
      cases hbest
      cases hsome
  case opening =>
    intro hnone
    refine ⟨rfl, rfl, ?_⟩
    rw [startCandidate] at hbest
    split at hbest
    case isTrue =>
      cases hcapture : ExactCandidate.capture study.fork startChanges baseline with
      | error message => simp [hcapture, Functor.map, Except.map] at hbest
      | ok exact =>
        simp only [hcapture, Functor.map, Except.map, Except.ok.injEq] at hbest
        rw [← hbest] at hnone
        cases hnone
    case isFalse hinfeasible => exact Bool.eq_false_iff.mpr hinfeasible

end Iteration

/-- The loop heads of a whole search. -/
def searchHeads [DecidableEq F] (goal : SearchGoal F) (startChanges : List F)
    (study : Study engine) (answers : ℕ → Bool) : List (Search engine × List F) :=
  match openSearch study goal startChanges with
  | .error _ => []
  | .ok search => heads goal goal.options.maxIterations search answers

theorem search_distinct [LawfulSteps F] [DecidableEq F] {goal : SearchGoal F}
    {startChanges : List F} {study : Study engine} {answers : ℕ → Bool}
    (happart : PositiveSteps goal.space → ∀ head direction,
      (head, direction.gradient.map (·.value)) ∈ searchHeads goal startChanges study answers →
      Standpoint goal study startChanges head →
      head.current.objectiveGradient goal.objective goal.space head.changes = .ok direction →
      TriesApart goal (head, direction.gradient.map (·.value)))
    {result : SearchResult F} {left : Study engine}
    (hrun : (exploreAsync goal startChanges study).run answers = (.ok result, left)) :
    (evaluatedKeys startChanges result.trials).Nodup := by
  rw [exploreAsync] at hrun
  rw [searchHeads] at happart
  cases hopen : openSearch study goal startChanges with
  | error message =>
    rw [hopen] at hrun
    cases hrun
  | ok search =>
    rw [hopen] at hrun happart
    obtain ⟨hsteps, hstand⟩ := openSearch_stands hopen
    obtain ⟨hfinite, hnonneg, baseline, start, -, hhead⟩ := openSearch_head hopen
    have hdistinct := iterations_fresh hfinite hnonneg _ search answers (happart hsteps) hhead
      hstand
    dsimp only at hrun
    rw [Checkpoint.run_bind] at hrun
    cases hrun
    exact hdistinct

/-- However the host answers, a search repeats nothing that tries one candidate at a time, or has
one solve to spend, or whose moves are kept apart. -/
theorem separate_moves_repeat_nothing [LawfulSteps F] [DecidableEq F] {goal : SearchGoal F}
    {startChanges : List F} {study : Study engine}
    (happart : goal.options.beamWidth ≤ 1 ∨ goal.options.maxSolves ≤ 1 ∨
      Separates study goal startChanges)
    {answers : ℕ → Bool} {result : SearchResult F} {left : Study engine}
    (hrun : (exploreAsync goal startChanges study).run answers = (.ok result, left)) :
    (evaluatedKeys startChanges result.trials).Nodup := by
  refine search_distinct (fun hsteps head direction _ hstand hdirection => ?_) hrun
  rcases happart with hnarrow | hbudget | hseparates
  · exact triesApart_of_le_one (.inl hnarrow)
  · exact triesApart_of_le_one (.inr (hbudget.trans (Nat.le_add_left _ _)))
  · exact triesApart_of_separates hsteps hseparates hstand hdirection

end Search

/-! ### Exact arithmetic -/

section Exact

variable {K : Type} [Field K] [LinearOrder K] [IsStrictOrderedRing K] [FloorRing K]

theorem exact_lawfulSteps (text : K → String) : @LawfulSteps K (exact text) := by
  let _ := exact text
  have _ := exact_lawful text
  have hkey : ∀ a : K, zeroKey a = a := by
    intro a
    rw [zeroKey]
    split
    case isTrue h => exact (of_decide_eq_true h).symm
    case isFalse => rfl
  refine { le_of_lt := ?_, le_trans := ?_, le_mul_ofNat := ?_, sub_le := ?_, le_add := ?_,
           add_neg_one_mul := ?_, add_one_mul := ?_, key_of_le := ?_, le_of_key := ?_ }
  · intro a b h
    simp only [lt, le, decide_eq_true_eq] at *
    exact h.le
  · intro a b c hab hbc
    simp only [le, decide_eq_true_eq] at *
    exact hab.trans hbc
  · intro a n h
    have hn : (0 : K) ≤ ((n + 1 : ℕ) : K) := Nat.cast_nonneg _
    simp only [le, decide_eq_true_eq, ofNat, lit] at *
    push_cast at hn ⊢
    exact decide_eq_true (mul_nonneg h hn)
  · intro a d _ h
    simp only [le, decide_eq_true_eq] at *
    exact sub_le_self a h
  · intro a d _ h
    simp only [le, decide_eq_true_eq] at *
    exact le_add_of_nonneg_right h
  · intro a d _
    exact (congrArg (a + ·) (neg_one_mul d)).trans (sub_eq_add_neg a d).symm
  · intro a d _
    exact congrArg (a + ·) (one_mul d)
  · intro a b hab hba
    simp only [le, decide_eq_true_eq] at hab hba
    rw [hkey, hkey]
    exact le_antisymm hab hba
  · intro a b c h hac
    rw [hkey, hkey] at h
    rw [← h]
    exact hac

theorem resolves_exact (text : K → String) (space : DecisionSpace K)
    (hpositive : ∀ v ∈ space.vars, 0 < v.increment) : @Resolves K (exact text) space := by
  let _ := exact text
  have hkey : ∀ a : K, zeroKey a = a := by
    intro a
    rw [zeroKey]
    split
    case isTrue h => exact (of_decide_eq_true h).symm
    case isFalse => rfl
  intro current _ source hsource target _ step hstep _ _
  obtain ⟨v, hv, -⟩ := mem_positions.mp hsource
  have hincrement : 0 < increment space source := by
    simpa [increment, hv] using hpositive v (List.mem_of_getElem? hv)
  have hmem := List.mem_of_find?_eq_some hstep
  obtain ⟨n, -, rfl⟩ := List.mem_map.mp hmem
  have hn : (0 : K) < ((n + 1 : ℕ) : K) := Nat.cast_pos.mpr (Nat.succ_pos n)
  have hpos : (0 : K) < increment space source * ofNat (n + 1) := by
    change (0 : K) < increment space source * (((n + 1 : ℕ) : ℚ) : K)
    rw [Rat.cast_natCast]
    exact mul_pos hincrement hn
  constructor
  · intro x _ heq
    rw [hkey, hkey] at heq
    exact (sub_lt_self x hpos).ne heq
  · intro y _ heq
    rw [hkey, hkey] at heq
    exact (lt_add_of_pos_right y hpos).ne' heq

end Exact

/-! ### On the sample engine -/

namespace Sample

instance lawfulSteps : LawfulSteps ℚ := exact_lawfulSteps _

def twoBuses : Network :=
  { buses := [{ id := 1, uid := none, kind := .connected },
      { id := 2, uid := none, kind := .connected }]
    loads := [{ bus := 1, p := 10, inService := true }]
    branches := [], generators := [], baseMva := 100, isNormalized := false, tables := () }

def tried (goal : SearchGoal ℚ) (startChanges : List ℚ) (study : Study engine) :
    Option (List (List ℚ)) :=
  (((exploreAsync goal startChanges study).run fun _ => false).1.toOption).map
    fun result => result.trials.map (·.changes)

end Sample

end Tellegen
