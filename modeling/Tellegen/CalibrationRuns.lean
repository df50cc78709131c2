import Tellegen.Calibration

/-!
What a calibration leaves behind. As long as every candidate is accepted, the
network is that of the accepted parameters and the current run belongs to it.
A candidate that is rejected stays in the parameters, because the ones to go
back to are read after it has been written.
-/

set_option linter.unusedSectionVars false

open Binary64 Outcome

namespace Tellegen.Synth

/-- What limits of scales rely on. Each fact holds of IEEE doubles. -/
class LawfulScales (F : Type) [HostNumber F] : Prop where
  min_le_right {a b : F} : isFinite b = true → le (min a b) b = true
  le_min {a b c : F} : le c a = true → le c b = true → le c (min a b) = true
  le_max_right {a b : F} : isFinite b = true → le b (max a b) = true
  max_le {a b c : F} : le a c = true → le b c = true → le (max a b) c = true
  /-- Scaling up leaves a positive value at least as large. -/
  le_mul {a b c : F} : lt 0 c = true → le c a = true → le 1 b = true → le c (a * b) = true
  /-- Scaling down leaves a positive value at most as large. -/
  mul_le {a b c : F} : lt 0 a = true → le a c = true → lt 0 b = true → le b 1 = true →
    le (a * b) c = true
  lt_of_lt_of_le {a b c : F} : lt a b = true → le b c = true → lt a c = true
  scaleMin_pos : lt 0 (scaleMin : F) = true
  scaleMin_le_one : le (scaleMin : F) 1 = true
  one_le_scaleMax : le 1 (scaleMax : F) = true
  scaleMin_le_scaleMax : le (scaleMin : F) scaleMax = true
  one_le_infeasibleStep : le 1 (infeasibleStep : F) = true
  isFinite_scaleMin : isFinite (scaleMin : F) = true
  isFinite_scaleMax : isFinite (scaleMax : F) = true
  nine_tenths : lt 0 (lit (9 / 10) : F) = true ∧ le (lit (9 / 10) : F) 1 = true

namespace Calibrator

variable {F T Q E : Type} [HostNumber F]

/-! ### Limits -/

def WithinLimit (v : F) : Prop := le scaleMin v = true ∧ le v scaleMax = true

structure WithinLimits (p : CalibrationParameters F) : Prop where
  rating : ∀ row ∈ p.ratingScale, WithinLimit row.2
  capacity : ∀ row ∈ p.genCapacityScale, WithinLimit row.2

section Limits

variable [LawfulScales F]

open LawfulScales

theorem withinLimit_one : WithinLimit (1 : F) := ⟨scaleMin_le_one, one_le_scaleMax⟩

theorem WithinLimit.enlarged {v ratio : F} (h : WithinLimit v) (hratio : le 1 ratio = true) :
    WithinLimit (min (v * ratio) scaleMax) :=
  ⟨le_min (le_mul scaleMin_pos h.1 hratio) scaleMin_le_scaleMax, min_le_right isFinite_scaleMax⟩

theorem WithinLimit.tightened {v : F} (h : WithinLimit v) :
    WithinLimit (max (v * lit (9 / 10)) scaleMin) :=
  ⟨le_max_right isFinite_scaleMin,
    max_le (mul_le (lt_of_lt_of_le scaleMin_pos h.1) h.2 nine_tenths.1 nine_tenths.2)
      scaleMin_le_scaleMax⟩

theorem start_withinLimits (weights : Terms F) (net : BalancedNetwork F T) (fuels : List Fuel)
    (stats : TopologyStats F) (reserveMargin : F) (options : CalibrationOptions F)
    (initial : DcOpfRun F Q) :
    WithinLimits (start weights net fuels stats reserveMargin options initial).params := by
  constructor
  case rating =>
    intro row hrow
    obtain ⟨name, -, rfl⟩ := List.mem_map.mp hrow
    exact withinLimit_one
  case capacity =>
    intro row hrow
    obtain ⟨fuel, -, rfl⟩ := List.mem_map.mp hrow
    exact withinLimit_one

def enlarges (c : Calibrator F Q) (net : BalancedNetwork F T) : Prop :=
  c.current.feasible = true ∧
    lt (c.targets.loadingTarget + tolerance) (c.current.report.maxLoading.getD 0) = false ∧
    lt 0 net.load = true ∧
    lt net.capacity ((1 + c.reserveMargin) * net.load - lit (1 / 10 ^ 6)) = true

theorem relieve_withinLimits {c : Calibrator F Q} (h : WithinLimits c.params) :
    WithinLimits c.relieve.1 := by
  unfold relieve
  dsimp only
  split
  case h_1 => exact h
  case h_2 =>
    refine ⟨?_, h.capacity⟩
    intro row hrow
    obtain ⟨old, hold, rfl⟩ := List.mem_map.mp hrow
    exact (h.rating old hold).enlarged one_le_infeasibleStep

theorem notch_withinLimits {c : Calibrator F Q} (h : WithinLimits c.params)
    (net : BalancedNetwork F T) (maxLoading : F) : WithinLimits (c.notch net maxLoading).1 := by
  unfold notch
  split
  case h_1 => exact h
  case h_2 => exact ⟨h.rating, h.capacity⟩

theorem enlarge_withinLimits {c : Calibrator F Q} {net : BalancedNetwork F T} {choice : Choice F}
    (h : WithinLimits c.params) (hratio : le 1 (c.capacityRatio net) = true)
    (hchoice : c.enlarge net = .ok choice) : WithinLimits choice.1 := by
  unfold enlarge at hchoice
  split at hchoice
  case h_1 => cases hchoice
  case h_2 =>
    dsimp only at hchoice
    have hscales : ∀ row ∈ c.params.genCapacityScale.map fun old =>
        (old.1, min (old.2 * c.capacityRatio net) scaleMax), WithinLimit row.2 := by
      intro row hrow
      obtain ⟨old, hold, rfl⟩ := List.mem_map.mp hrow
      exact (h.capacity old hold).enlarged hratio
    split at hchoice
    case isTrue =>
      obtain rfl := Except.ok.inj hchoice
      exact ⟨h.rating, hscales⟩
    case isFalse =>
      obtain rfl := Except.ok.inj hchoice
      exact ⟨h.rating, hscales⟩

theorem tighten_withinLimits {c : Calibrator F Q} {p90 : F} {choice : Choice F}
    (h : WithinLimits c.params) (hchoice : c.tighten p90 = .ok choice) :
    WithinLimits choice.1 := by
  unfold tighten at hchoice
  split at hchoice
  case isTrue => cases hchoice
  case isFalse =>
    dsimp only at hchoice
    split at hchoice
    case h_1 =>
      obtain rfl := Except.ok.inj hchoice
      exact h
    case h_2 name worst _ =>
      split at hchoice
      case h_1 => cases hchoice
      case h_2 before hbefore =>
        obtain rfl := Except.ok.inj hchoice
        obtain ⟨l₁, l₂, hlookup, -⟩ := List.lookup_eq_some_iff.mp hbefore
        have hmem : (name, before) ∈ c.params.ratingScale := by
          rw [hlookup]
          exact List.mem_append_right _ List.mem_cons_self
        refine ⟨?_, h.capacity⟩
        intro row hrow
        obtain ⟨old, hold, rfl⟩ := List.mem_map.mp hrow
        dsimp only
        split
        case isTrue => exact (h.rating _ hmem).tightened
        case isFalse => exact h.rating old hold

/-- A choice keeps scales within their limits, where a choice of capacities scales up. -/
theorem chooseStep_withinLimits {c : Calibrator F Q} {net : BalancedNetwork F T}
    {choice : Choice F} (h : WithinLimits c.params)
    (hup : c.enlarges net → le 1 (c.capacityRatio net) = true)
    (hchoice : c.chooseStep net = .ok choice) : WithinLimits choice.1 := by
  unfold chooseStep at hchoice
  split at hchoice
  case isTrue =>
    obtain rfl := Except.ok.inj hchoice
    exact relieve_withinLimits h
  case isFalse hfeasible =>
    dsimp only at hchoice
    split at hchoice
    case isTrue =>
      obtain rfl := Except.ok.inj hchoice
      exact notch_withinLimits h _ _
    case isFalse hloading =>
      split at hchoice
      case isTrue hshort =>
        rw [Bool.and_eq_true] at hshort
        have hratio := hup ⟨by simpa using hfeasible, by simpa using hloading, hshort.1, hshort.2⟩
        exact enlarge_withinLimits h hratio hchoice
      case isFalse =>
        split at hchoice
        case isTrue => exact tighten_withinLimits h hchoice
        case isFalse =>
          obtain rfl := Except.ok.inj hchoice
          exact h

end Limits

/-! ### Applying parameters one after another -/

/-- The same calibrator with other parameters in its next iteration. -/
def withParams (c : Calibrator F Q) (params : CalibrationParameters F) : Calibrator F Q :=
  { c with params, iteration := c.iteration + 1 }

/-- No rating that is recorded as calibrated goes back to its base value. -/
def KeepsRecords (c next : Calibrator F Q) (base : BalancedNetwork F T) : Prop :=
  ∀ k br, base.branches[k]? = some br → br.extras.isSome = true →
    records (c.notchesOf br.uid) (c.ratingScaleAt k) = true →
    records (next.notchesOf br.uid) (next.ratingScaleAt k) = true

/-- No dispatch is cut by a capacity that is enlarged afterwards. -/
def KeepsDispatch (c next : Calibrator F Q) (base : BalancedNetwork F T) : Prop :=
  ∀ k g, base.generators[k]? = some g →
    min (min g.pg (c.basePmax.getD k 0 * c.capacityScaleAt k))
        (next.basePmax.getD k 0 * next.capacityScaleAt k) =
      min g.pg (next.basePmax.getD k 0 * next.capacityScaleAt k)

theorem applyBranch_applyBranch {c next : Calibrator F Q} {k : ℕ} {br : Branch F}
    (hkeeps : br.extras.isSome = true →
      records (c.notchesOf br.uid) (c.ratingScaleAt k) = true →
      records (next.notchesOf br.uid) (next.ratingScaleAt k) = true) :
    next.applyBranch k (c.applyBranch k br) = next.applyBranch k br := by
  unfold applyBranch
  cases hextras : br.extras with
  | none => simp
  | some object =>
    rw [hextras] at hkeeps
    by_cases hnext : records (next.notchesOf br.uid) (next.ratingScaleAt k) = true
    · simp only [hnext, if_true]
      split <;> rfl
    · have hold : ¬ records (c.notchesOf br.uid) (c.ratingScaleAt k) = true :=
        fun h => hnext (hkeeps rfl h)
      simp only [hnext, hold]
      rfl

theorem applyGenerator_applyGenerator {c next : Calibrator F Q} {k : ℕ} {g : Generator F}
    (hkeeps : min (min g.pg (c.basePmax.getD k 0 * c.capacityScaleAt k))
        (next.basePmax.getD k 0 * next.capacityScaleAt k) =
      min g.pg (next.basePmax.getD k 0 * next.capacityScaleAt k)) :
    next.applyGenerator k (c.applyGenerator k g) = next.applyGenerator k g := by
  simp only [applyGenerator, hkeeps]

theorem mapIdx_mapIdx_of {α : Type} {f g : ℕ → α → α} {l : List α}
    (h : ∀ k a, l[k]? = some a → g k (f k a) = g k a) : (l.mapIdx f).mapIdx g = l.mapIdx g := by
  apply List.ext_getElem?
  intro k
  simp only [List.getElem?_mapIdx]
  cases hk : l[k]? with
  | none => rfl
  | some a =>
    simp only [Option.map_some]
    rw [h k a hk]

theorem apply_apply {c next : Calibrator F Q} {base : BalancedNetwork F T}
    (hrecords : KeepsRecords c next base) (hdispatch : KeepsDispatch c next base) :
    next.apply (c.apply base) = next.apply base := by
  unfold apply
  have hbranches := mapIdx_mapIdx_of (f := c.applyBranch) (g := next.applyBranch)
    fun k br hk => applyBranch_applyBranch (hrecords k br hk)
  have hgenerators := mapIdx_mapIdx_of (f := c.applyGenerator) (g := next.applyGenerator)
    fun k g hk => applyGenerator_applyGenerator (hdispatch k g hk)
  have hloads : (base.loads.mapIdx c.applyLoad).mapIdx next.applyLoad =
    base.loads.mapIdx next.applyLoad := mapIdx_mapIdx_of fun _ _ _ => rfl
  simp only [hbranches, hgenerators, hloads]

/-! ### Runs -/

/-- The parameters of the last accepted step, with the run that accepted them. -/
structure Accepted (F Q : Type) where
  params : CalibrationParameters F
  run : DcOpfRun F Q

/-- A call that accepts its candidate accepts the solution of its network. -/
def Accepted.next (accepted : Accepted F Q) (after : Iterated F T Q E) (solve : Solve F T Q E) :
    Accepted F Q :=
  match after.outcome, solve after.net with
  | .ok ⟨_, true⟩, .ok run => ⟨after.calibrator.params, run⟩
  | _, _ => accepted

/-- The accepted steps lead from one value of the objective to another, each by more than the
tolerance. -/
def Descends : F → List (CalibrationStep F) → F → Prop
  | a, [], b => a = b
  | a, step :: rest, b =>
    if step.accepted then
      step.objectiveBefore = a ∧ lt step.objectiveAfter (a - tolerance) = true ∧
        Descends step.objectiveAfter rest b
    else Descends a rest b

theorem descends_append {a b : F} {steps : List (CalibrationStep F)} (h : Descends a steps b)
    {step : CalibrationStep F} {next : F} (hstep : Descends b [step] next) :
    Descends a (steps ++ [step]) next := by
  induction steps generalizing a with
  | nil =>
    obtain rfl := h
    exact hstep
  | cons head rest ih =>
    rw [List.cons_append, Descends]
    rw [Descends] at h
    split
    case isTrue haccepted =>
      rw [if_pos haccepted] at h
      exact ⟨h.1, h.2.1, ih h.2.2⟩
    case isFalse haccepted =>
      rw [if_neg haccepted] at h
      exact ih h

/-- The network, the current run and the recorded steps all belong to the accepted parameters. -/
structure Consistent (base : BalancedNetwork F T) (c : Calibrator F Q) (net : BalancedNetwork F T)
    (accepted : Accepted F Q) : Prop where
  params : c.params = accepted.params
  network : net = c.apply base
  current : c.current = accepted.run
  evaluated : (c.currentTerms, c.currentObjective) = c.evaluate net c.current
  limits : WithinLimits c.params
  descends : Descends c.initialObjective c.steps c.currentObjective
  counted : c.steps.length ≤ c.iteration
  bounded : c.iteration ≤ c.options.maxIterations
  room : c.finished = false → c.iteration < c.options.maxIterations

/-- A candidate that is solved for and improves the objective, that leaves no record of a rating
stale and no dispatch cut short, and that scales capacities up if it is one of capacities. -/
structure Improves (base : BalancedNetwork F T) (c next : Calibrator F Q)
    (solve : Solve F T Q E) : Prop where
  records : KeepsRecords c next base
  dispatch : KeepsDispatch c next base
  solved : ∃ run, solve (next.apply (c.apply base)) = .ok run ∧
    lt (next.evaluate (next.apply (c.apply base)) run).2 (c.currentObjective - tolerance) = true

/-- A call whose candidate improves, or that finds none without moving a parameter. -/
def Clean (base : BalancedNetwork F T) (c : Calibrator F Q) (solve : Solve F T Q E) : Prop :=
  c.finished = true ∨
    (c.enlarges (c.apply base) → le 1 (c.capacityRatio (c.apply base)) = true) ∧
    ∃ params move, c.chooseStep (c.apply base) = .ok (params, move) ∧
      match move with
      | none => params = c.params
      | some _ => Improves base c (c.withParams params) solve

/-- The calibrations that clean calls lead to, with what has been accepted. -/
inductive Reaches (E : Type) (base : BalancedNetwork F T) (first : Calibrator F Q) :
    Calibrator F Q → BalancedNetwork F T → Accepted F Q → Prop
  | start : Reaches E base first first base ⟨first.params, first.current⟩
  | call {c net accepted} {after : Iterated F T Q E} (solve : Solve F T Q E) :
      Reaches E base first c net accepted → Clean base c solve →
      c.iterate net solve = .ok after →
      Reaches E base first after.calibrator after.net (accepted.next after solve)

variable {c : Calibrator F Q} {base net : BalancedNetwork F T} {accepted : Accepted F Q}

def stepOf (c : Calibrator F Q) (move : Move F) (run : DcOpfRun F Q) (objective : F)
    (accepted : Bool) : CalibrationStep F :=
  ⟨c.iteration, move.parameter, move.before, move.after, move.reason, c.currentObjective,
    objective, run.report.status, accepted⟩

/-- The calibrator at a candidate that is accepted. -/
def accepting (c : Calibrator F Q) (net : BalancedNetwork F T) (move : Move F)
    (run : DcOpfRun F Q) : Calibrator F Q :=
  { c with
    steps := c.steps ++ [stepOf c move run (c.evaluate net run).2 true]
    current := run
    currentTerms := (c.evaluate net run).1
    currentObjective := (c.evaluate net run).2 }

theorem settle_improving (kept : CalibrationParameters F) (move : Move F) {run : DcOpfRun F Q}
    (himproves : lt (c.evaluate net run).2 (c.currentObjective - tolerance) = true) :
    ∃ status, c.settle net kept move run =
      if (c.accepting net move run).operationalTermsZero ||
          decide (c.options.maxIterations ≤ c.iteration) then
        (⟨{ c.accepting net move run with finished := true, status }, net, .ok ⟨true, true⟩⟩ :
          Iterated F T Q E)
      else ⟨c.accepting net move run, net, .ok ⟨c.finished, true⟩⟩ := by
  refine ⟨(c.accepting net move run).finalStatus, ?_⟩
  cases hends : (c.accepting net move run).operationalTermsZero ||
      decide (c.options.maxIterations ≤ c.iteration) with
  | true =>
    simp only [accepting, stepOf] at hends ⊢
    simp only [settle, himproves, if_true, Bool.not_true, Bool.or_false, hends]
  | false =>
    simp only [accepting, stepOf] at hends ⊢
    simp only [settle, himproves, if_true, Bool.not_true, Bool.or_false, hends,
      Bool.false_eq_true, if_false]

theorem accepting_consistent [LawfulScales F] (h : Consistent base c net accepted)
    (hfinished : c.finished = false) (hup : c.enlarges net → le 1 (c.capacityRatio net) = true)
    {params : CalibrationParameters F} {move : Move F}
    (hchoice : c.chooseStep net = .ok (params, some move))
    (hrecords : KeepsRecords c (c.withParams params) base)
    (hdispatch : KeepsDispatch c (c.withParams params) base) {run : DcOpfRun F Q}
    (himproves : lt ((c.withParams params).evaluate ((c.withParams params).apply net) run).2
      (c.currentObjective - tolerance) = true)
    {finished : Bool} (hroom : finished = false → c.iteration + 1 < c.options.maxIterations)
    (status : CalibrationStatus) :
    Consistent base { (c.withParams params).accepting ((c.withParams params).apply net) move run with
      finished, status } ((c.withParams params).apply net) ⟨params, run⟩ := by
  have hnetwork : (c.withParams params).apply net = (c.withParams params).apply base := by
    rw [h.network]
    exact apply_apply hrecords hdispatch
  constructor
  case params => rfl
  case network => exact hnetwork
  case current => rfl
  case evaluated => rfl
  case limits => exact chooseStep_withinLimits h.limits hup hchoice
  case descends =>
    apply descends_append h.descends
    exact ⟨rfl, himproves, rfl⟩
  case counted =>
    have hlength := h.counted
    simp only [accepting, withParams, List.length_append, List.length_singleton]
    omega
  case bounded => exact h.room hfinished
  case room => exact hroom

theorem iterate_of_run (hrunning : c.finished = false) {params : CalibrationParameters F}
    {move : Move F} (hchoice : c.chooseStep net = .ok (params, some move)) (solve : Solve F T Q E)
    {run : DcOpfRun F Q} (hrun : solve ((c.withParams params).apply net) = .ok run) :
    c.iterate net solve =
      .ok ((c.withParams params).settle ((c.withParams params).apply net) params move run) := by
  have hchosen : ({ c with iteration := c.iteration + 1 } : Calibrator F Q).chooseStep net =
      .ok (params, some move) := hchoice
  rw [iterate, if_neg (Bool.eq_false_iff.mp hrunning)]
  dsimp only
  rw [hchosen, ok_bind]
  dsimp only
  split
  case h_1 hstop => cases hrun.symm.trans hstop
  case h_2 ran hran =>
    obtain rfl := Except.ok.inj (hrun.symm.trans hran)
    rfl

theorem consistent_call [LawfulScales F] (h : Consistent base c net accepted)
    {solve : Solve F T Q E} (hclean : Clean base c solve) {after : Iterated F T Q E}
    (hcall : c.iterate net solve = .ok after) :
    Consistent base after.calibrator after.net (accepted.next after solve) := by
  by_cases hrunning : c.finished = true
  · rw [iterate, if_pos hrunning] at hcall
    obtain rfl := Except.ok.inj hcall
    exact h
  · have hfinished : c.finished = false := Bool.not_eq_true _ ▸ hrunning
    obtain ⟨hup, params, move, hchoice, hmove⟩ := hclean.resolve_left hrunning
    rw [← h.network] at hup hchoice
    cases move with
    | none =>
      rw [iterate, if_neg hrunning] at hcall
      simp only [bind_eq_ok] at hcall
      obtain ⟨choice, hchosen, hcall⟩ := hcall
      obtain rfl : (params, none) = choice := Except.ok.inj (hchoice.symm.trans hchosen)
      obtain rfl := Except.ok.inj hcall
      obtain rfl : params = c.params := hmove
      exact ⟨h.params, h.network, h.current, h.evaluated, h.limits, h.descends,
        Nat.le_succ_of_le h.counted, h.room hfinished, by simp⟩
    | some move =>
      obtain ⟨hrecords, hdispatch, run, hrun, himproves⟩ := hmove
      rw [← h.network] at hrun himproves
      obtain rfl := Except.ok.inj ((iterate_of_run hfinished hchoice solve hrun).symm.trans hcall)
      obtain ⟨status, hsettle⟩ := settle_improving (E := E) params move himproves
      rw [hsettle]
      split
      case isTrue =>
        simp only [Accepted.next, hrun]
        exact accepting_consistent h hfinished hup hchoice hrecords hdispatch himproves
          (fun hends : true = false => Bool.noConfusion hends) status
      case isFalse hgoes =>
        have hroom : c.iteration + 1 < c.options.maxIterations := by
          rw [Bool.or_eq_true, not_or, decide_eq_true_eq] at hgoes
          exact Nat.lt_of_not_le hgoes.2
        simp only [Accepted.next, hrun]
        exact accepting_consistent h hfinished hup hchoice hrecords hdispatch himproves
          (fun _ => hroom) _

theorem consistent_start [LawfulScales F] (weights : Terms F) {fuels : List Fuel}
    {stats : TopologyStats F} {reserveMargin : F} {options : CalibrationOptions F}
    {initial : DcOpfRun F Q} {first : Calibrator F Q}
    (hfirst : first = start weights base fuels stats reserveMargin options initial)
    (hbase : first.apply base = base) :
    Consistent base first base ⟨first.params, first.current⟩ := by
  subst hfirst
  refine ⟨rfl, hbase.symm, rfl, rfl, start_withinLimits _ _ _ _ _ _ _, rfl, Nat.le_refl _,
    Nat.zero_le _, ?_⟩
  intro hgoes
  change (!options.enabled || options.maxIterations == 0) = false at hgoes
  rw [Bool.or_eq_false_iff, beq_eq_false_iff_ne] at hgoes
  exact Nat.pos_of_ne_zero hgoes.2

theorem clean_outcome {solve : Solve F T Q E} (hclean : Clean base c solve)
    {after : Iterated F T Q E} (hcall : c.iterate (c.apply base) solve = .ok after) :
    ∃ outcome, after.outcome = .ok outcome := by
  by_cases hrunning : c.finished = true
  · rw [iterate, if_pos hrunning] at hcall
    obtain rfl := Except.ok.inj hcall
    exact ⟨_, rfl⟩
  · obtain ⟨-, params, move, hchoice, hmove⟩ := hclean.resolve_left hrunning
    cases move with
    | none =>
      rw [iterate, if_neg hrunning] at hcall
      simp only [bind_eq_ok] at hcall
      obtain ⟨choice, hchosen, hcall⟩ := hcall
      obtain rfl : (params, none) = choice := Except.ok.inj (hchoice.symm.trans hchosen)
      obtain rfl := Except.ok.inj hcall
      exact ⟨_, rfl⟩
    | some move =>
      obtain ⟨-, -, run, hrun, -⟩ := hmove
      have hfinished : c.finished = false := Bool.not_eq_true _ ▸ hrunning
      obtain rfl := Except.ok.inj ((iterate_of_run hfinished hchoice solve hrun).symm.trans hcall)
      exact ⟨_, rfl⟩

/-- Where the network is as its own ratings leave it, clean calls keep a calibration consistent,
and none of them returns an error. -/
theorem calibration_consistent [LawfulScales F] (weights : Terms F) {fuels : List Fuel}
    {stats : TopologyStats F} {reserveMargin : F} {options : CalibrationOptions F}
    {initial : DcOpfRun F Q} {first : Calibrator F Q}
    (hfirst : first = start weights base fuels stats reserveMargin options initial)
    (hbase : first.apply base = base) (hreach : Reaches E base first c net accepted) :
    Consistent base c net accepted ∧
      ∀ (solve : Solve F T Q E) (after : Iterated F T Q E), Clean base c solve →
        c.iterate net solve = .ok after → ∃ outcome, after.outcome = .ok outcome := by
  have hconsistent : Consistent base c net accepted := by
    induction hreach with
    | start => exact consistent_start weights hfirst hbase
    | call solve _ hclean hcall ih => exact consistent_call ih hclean hcall
  refine ⟨hconsistent, ?_⟩
  intro solve after hclean hcall
  rw [hconsistent.network] at hcall
  exact clean_outcome hclean hcall

theorem rejected_call (hrunning : c.finished = false) {params : CalibrationParameters F}
    {move : Move F} (hchoice : c.chooseStep net = .ok (params, some move)) (solve : Solve F T Q E)
    {run : DcOpfRun F Q} (hrun : solve ((c.withParams params).apply net) = .ok run)
    (hworse : lt ((c.withParams params).evaluate ((c.withParams params).apply net) run).2
      (c.currentObjective - tolerance) = false) :
    ∃ after, c.iterate net solve = .ok after ∧ after.outcome = .ok ⟨true, false⟩ ∧
      after.calibrator.params = params ∧
      after.net = (c.withParams params).apply ((c.withParams params).apply net) := by
  refine ⟨(c.withParams params).settle ((c.withParams params).apply net) params move run, ?_, ?_⟩
  · exact iterate_of_run hrunning hchoice solve hrun
  · have hobjective : (c.withParams params).currentObjective = c.currentObjective := rfl
    simp only [settle, hobjective, hworse, Bool.false_eq_true, if_false, Bool.not_false,
      Bool.or_true, if_true]
    exact ⟨trivial, trivial, rfl⟩

end Calibrator

/-! ### One branch -/

section Rejected

@[reducible] def rationals : HostNumber ℚ where
  toBinary64 := Binary64.exact fun _ => ""
  infinity := 2 ^ 1024
  powi := fun a n => a ^ n
  fixed _ _ := ""
  roundedText _ := ""

attribute [local instance] rationals

theorem rationals_le {a b : ℚ} : le a b = true ↔ a ≤ b := decide_eq_true_iff

theorem rationals_lt {a b : ℚ} : lt a b = true ↔ a < b := decide_eq_true_iff

theorem rationals_min (a b : ℚ) : Binary64.min a b = Min.min a b := by
  change (if a < b then a else b) = _
  split
  case isTrue h => exact (min_eq_left h.le).symm
  case isFalse h => exact (min_eq_right (not_lt.mp h)).symm

theorem rationals_max (a b : ℚ) : Binary64.max a b = Max.max a b := by
  change (if a < b then b else a) = _
  split
  case isTrue h => exact (max_eq_right h.le).symm
  case isFalse h => exact (max_eq_left (not_lt.mp h)).symm

theorem rationals_lit (q : ℚ) : lit q = q := Rat.cast_id q

theorem rationals_lawful : LawfulScales ℚ := by
  constructor
  case min_le_right =>
    intro a b _
    rw [rationals_le, rationals_min]
    exact min_le_right a b
  case le_min =>
    intro a b c ha hb
    rw [rationals_le] at *
    rw [rationals_min]
    exact le_min ha hb
  case le_max_right =>
    intro a b _
    rw [rationals_le, rationals_max]
    exact le_max_right a b
  case max_le =>
    intro a b c ha hb
    rw [rationals_le] at *
    rw [rationals_max]
    exact max_le ha hb
  case le_mul =>
    intro a b c hc ha hb
    rw [rationals_lt] at hc
    rw [rationals_le] at *
    nlinarith
  case mul_le =>
    intro a b c ha hac hb hb1
    rw [rationals_lt] at ha hb
    rw [rationals_le] at *
    nlinarith
  case lt_of_lt_of_le =>
    intro a b c hab hbc
    rw [rationals_lt] at *
    rw [rationals_le] at hbc
    exact lt_of_lt_of_le hab hbc
  case isFinite_scaleMin => rfl
  case isFinite_scaleMax => rfl
  case nine_tenths =>
    rw [rationals_lt, rationals_le, rationals_lit]
    norm_num
  case scaleMin_pos =>
    rw [rationals_lt, scaleMin, rationals_lit]
    norm_num
  all_goals
    rw [rationals_le]
    simp only [scaleMin, scaleMax, infeasibleStep, rationals_lit]
    norm_num

def plainBranch : Branch ℚ := ⟨some "b", 100, 110, 120, none⟩

def plainNetwork : BalancedNetwork ℚ Unit := ⟨[plainBranch], [], [], ()⟩

def infeasibleRun : DcOpfRun ℚ Unit := ⟨⟨.infeasible, none, none, none, 0⟩, [], ()⟩

def feasibleRun : DcOpfRun ℚ Unit := ⟨⟨.optimal, none, none, some (1 / 2), 0⟩, [], ()⟩

def plainCalibrator : Calibrator ℚ Unit :=
  Calibrator.new plainNetwork [] ⟨0, 0⟩ 0 ⟨true, 6, none⟩ infeasibleRun

theorem plain_ratingScale : plainCalibrator.params.ratingScale = [("unclassed", 1)] := by
  have hkeys : Calibrator.sortedKeys ["unclassed"] = ["unclassed"] := by
    rw [Calibrator.sortedKeys]
    simp
  change (Calibrator.sortedKeys ["unclassed"]).map (fun c => (c, (1 : ℚ))) = _
  rw [hkeys]
  rfl

theorem apply_plain : plainCalibrator.apply plainNetwork = plainNetwork := by
  have hscale : plainCalibrator.ratingScaleAt 0 = 1 := by
    rw [Calibrator.ratingScaleAt, plain_ratingScale]
    rfl
  have hbranch : plainCalibrator.applyBranch 0 plainBranch = plainBranch := by
    have hnotches : plainCalibrator.notchesOf plainBranch.uid = 0 := rfl
    have hbase : plainCalibrator.baseRate.getD 0 0 = 100 := rfl
    have hpowi : HostNumber.powi (notchFactor : ℚ) 0 = 1 := pow_zero _
    simp only [Calibrator.applyBranch, hscale, hnotches, hbase, hpowi, rateBFactor, rateCFactor,
      rationals_lit]
    simp only [plainBranch]
    norm_num
  change (⟨[plainCalibrator.applyBranch 0 plainBranch], [], [], ()⟩ : BalancedNetwork ℚ Unit) = _
  rw [hbranch]
  rfl

theorem choose_plain : ∃ params move,
    plainCalibrator.chooseStep plainNetwork = .ok (params, some move) ∧
      params.ratingScale = [("unclassed", 11 / 10)] ∧ params.branchRatingNotches = [] := by
  have hraised : Binary64.min ((1 : ℚ) * infeasibleStep) scaleMax = 11 / 10 := by
    rw [rationals_min]
    simp only [infeasibleStep, scaleMax, rationals_lit]
    norm_num
  have hmovable : lt (1 : ℚ) (scaleMax - scaleMargin) = true := by
    rw [rationals_lt]
    simp only [scaleMax, scaleMargin, rationals_lit]
    norm_num
  have hinfeasible : plainCalibrator.current.feasible = false := rfl
  simp only [Calibrator.chooseStep, hinfeasible, Calibrator.relieve, plain_ratingScale,
    List.filter_cons, hmovable, List.map_cons, List.map_nil, hraised, Bool.not_false, if_true]
  exact ⟨_, _, rfl, rfl, rfl⟩

/-- The solution becomes feasible once the rating is raised, and the candidate is accepted. -/
theorem calibration_consistent_plain :
    ∃ after : Calibrator.Iterated ℚ Unit Unit Unit,
      plainCalibrator.iterate plainNetwork (fun _ => .ok feasibleRun) = .ok after ∧
      after.outcome = .ok ⟨true, true⟩ ∧
      after.calibrator.params.ratingScale = [("unclassed", 11 / 10)] ∧
      Calibrator.Consistent plainNetwork after.calibrator after.net
        ⟨after.calibrator.params, feasibleRun⟩ := by
  have := rationals_lawful
  obtain ⟨params, move, hchoice, hscale, hnotches⟩ := choose_plain
  let solve : Calibrator.Solve ℚ Unit Unit Unit := fun _ => .ok feasibleRun
  have himproves : lt ((plainCalibrator.withParams params).evaluate
      ((plainCalibrator.withParams params).apply plainNetwork) feasibleRun).2
      (plainCalibrator.currentObjective - tolerance) = true := by
    change lt (plainCalibrator.evaluate plainNetwork feasibleRun).2
      (plainCalibrator.currentObjective - tolerance) = true
    decide +kernel
  have hclean : Calibrator.Clean plainNetwork plainCalibrator solve := by
    refine Or.inr ⟨fun henlarges => Bool.noConfusion henlarges.1, params, some move, ?_, ?_⟩
    · rw [apply_plain]
      exact hchoice
    · rw [← apply_plain] at himproves
      refine ⟨?_, ?_, feasibleRun, rfl, himproves⟩
      · intro k br hbr hextras
        obtain rfl := List.mem_singleton.mp (List.mem_of_getElem? hbr)
        cases hextras
      · intro k g hg
        cases hg
  have hcall := Calibrator.iterate_of_run rfl hchoice solve rfl
  obtain ⟨status, hsettle⟩ := Calibrator.settle_improving (E := Unit) params move himproves
  have hends : ((plainCalibrator.withParams params).accepting
      ((plainCalibrator.withParams params).apply plainNetwork) move
        feasibleRun).operationalTermsZero = true := by
    change Calibrator.operationalTermsZero { plainCalibrator with
      currentTerms := (plainCalibrator.evaluate plainNetwork feasibleRun).1 } = true
    decide +kernel
  rw [hends, Bool.true_or, if_pos rfl] at hsettle
  rw [hsettle] at hcall
  have hreach := Calibrator.Reaches.call solve .start hclean hcall
  exact ⟨_, hcall, rfl, hscale,
    (Calibrator.calibration_consistent Calibrator.defaultWeights rfl apply_plain hreach).1⟩

/-- The solution stays infeasible, so the candidate is rejected, but the network keeps it. -/
theorem rejected_candidate_stays :
    ∃ after : Calibrator.Iterated ℚ Unit Unit Unit,
      plainCalibrator.iterate plainNetwork (fun _ => .ok infeasibleRun) = .ok after ∧
      after.outcome = .ok ⟨true, false⟩ ∧
      after.net ≠ plainCalibrator.apply plainNetwork ∧
      after.calibrator.params.ratingScale ≠ plainCalibrator.params.ratingScale := by
  obtain ⟨params, move, hchoice, hscale, hnotches⟩ := choose_plain
  obtain ⟨after, hcall, houtcome, hparams, hnet⟩ := Calibrator.rejected_call (E := Unit) rfl
    hchoice (fun _ => .ok infeasibleRun) rfl (by
      have hsame : ((plainCalibrator.withParams params).evaluate
          ((plainCalibrator.withParams params).apply plainNetwork) infeasibleRun).2 =
        plainCalibrator.currentObjective := rfl
      rw [hsame, ← Bool.not_eq_true, rationals_lt, tolerance, rationals_lit]
      norm_num)
  refine ⟨after, hcall, houtcome, ?_, ?_⟩
  · rw [hnet, apply_plain]
    intro hequal
    have hrate : (100 : ℚ) * (11 / 10) * 1 = 100 := by
      have hscaleAt : (plainCalibrator.withParams params).ratingScaleAt 0 = 11 / 10 := by
        change (params.ratingScale.lookup "unclassed").getD 1 = _
        rw [hscale]
        rfl
      have hnotchesOf : (plainCalibrator.withParams params).notchesOf (some "b") = 0 := by
        change (params.branchRatingNotches.lookup "b").getD 0 = 0
        rw [hnotches]
        rfl
      have hpowi : HostNumber.powi (notchFactor : ℚ) 0 = 1 := pow_zero _
      have hrates := congrArg (fun net => net.branches.map Branch.rateA) hequal
      change [(100 : ℚ) * (plainCalibrator.withParams params).ratingScaleAt 0 *
        HostNumber.powi notchFactor ((plainCalibrator.withParams params).notchesOf (some "b"))] =
          [100] at hrates
      rw [hscaleAt, hnotchesOf, hpowi] at hrates
      exact (List.cons.inj hrates).1
    norm_num at hrate
  · rw [hparams, hscale, plain_ratingScale]
    intro hequal
    have hvalue := (Prod.mk.inj (List.cons.inj hequal).1).2
    norm_num at hvalue

end Rejected

end Tellegen.Synth
