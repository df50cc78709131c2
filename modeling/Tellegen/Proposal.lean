import Tellegen.Approval
import Tellegen.SearchTrace

/-!
What a proposal puts on record. The search shares its budget with the solves
that rebuild the start, and its trials are filed as states whose parents are
found again through the numbers of the trials. `StandsFor` says which session
a filed state stands for, and `SearchRecord` is the contract of the experiment
the proposal files.
-/

open Binary64 Outcome Std
open Program (wp Checkpoint)

set_option linter.unusedSectionVars false

namespace Tellegen

variable {F : Type} [Binary64 F]

namespace StudyBundle

variable {engine : Engine F}

/-! ### The budget -/

/-- The goal of the search, under what the start has left of the budget. -/
def searchGoal (plan : SearchPlan F) (options : SearchOptions F) (spent : ℕ) : SearchGoal F :=
  { objective := plan.goal.objective, space := plan.goal.decisions
    options := { options with maxSolves := options.maxSolves - spent } }

def spent (outcome : Result (SearchResult F) × ℕ) : ℕ :=
  outcome.2 + match outcome.1 with
    | .ok search => search.solveCount
    | .error _ => 0

/-- The run kept its budget; a search it finished started from the selected
state and keeps its account. -/
structure Ran [DecidableEq F] (engine : Engine F) (plan : SearchPlan F) (options : SearchOptions F)
    (outcome : Result (SearchResult F) × ℕ) : Prop where
  safe : Safe outcome.1
  budget : spent outcome ≤ options.maxSolves
  search : ∀ search, outcome.1 = .ok search → ∃ study : Study engine,
    checkStart engine plan study = .ok () ∧
      Accounts (searchGoal plan options outcome.2) plan.changes study (.ok search)

section Budget

variable [LawfulBinary64 F] [DecidableEq F]

theorem Ran.refused {plan : SearchPlan F} {options : SearchOptions F} {message : String} {n : ℕ}
    (h : n ≤ options.maxSolves) : Ran engine plan options (.error (.error message), n) :=
  ⟨trivial, h, nofun⟩

theorem searchFrom_ran (plan : SearchPlan F) (options : SearchOptions F) (study : Study engine)
    {spent : ℕ} (hspent : spent ≤ options.maxSolves) :
    (searchFrom engine plan options study spent).All (Ran engine plan options) := by
  rw [searchFrom, subtract_eq_ok hspent]
  split
  · exact .refused hspent
  next hstart =>
  simp only [Checkpoint.all_bind]
  refine (exploreAsync_account (searchGoal plan options spent) plan.changes study).mono ?_
  rintro ⟨outcome, _⟩ haccount
  cases outcome with
  | error failure => exact ⟨haccount, hspent, nofun⟩
  | ok search =>
    obtain ⟨baseline, start, hstarts, hsearch⟩ := haccount
    have hbudget : search.solveCount ≤ options.maxSolves - spent := hsearch.report.budget
    refine ⟨trivial, ?_, ?_⟩
    · change spent + search.solveCount ≤ options.maxSolves
      omega
    · rintro _ ⟨⟩
      exact ⟨study, hstart, baseline, start, hstarts, hsearch⟩

/-- Every way of answering the checkpoints keeps the run within its budget, and
what is left for the search is never negative. -/
theorem runSearch_ran (plan : SearchPlan F) (options : SearchOptions F) :
    (runSearch engine plan options).All (Ran engine plan options) := by
  unfold runSearch
  rw [Checkpoint.all_bind, Checkpoint.all_cancelled]
  intro cancelled
  split
  · exact .refused (Nat.zero_le _)
  split
  · exact .refused (Nat.zero_le _)
  next hbudget =>
  have hone : 1 ≤ options.maxSolves := Nat.pos_of_ne_zero hbudget
  split
  · exact .refused hone
  split
  · rw [Checkpoint.all_bind, Checkpoint.all_cancelled]
    intro cancelled
    split
    · exact .refused hone
    split
    · exact .refused hone
    next hleft =>
    have htwo : 2 ≤ options.maxSolves := by omega
    split
    · exact .refused htwo
    · exact searchFrom_ran plan options _ htwo
  · exact searchFrom_ran plan options _ hone

end Budget

/-! ### Filed states -/

/-- The node holds the case, the solution and the view of an exact result. -/
structure Files (engine : Engine F) (node : StateNode) (exact : ExactCandidate F) : Prop where
  input : node.input = recordId engine
    (StudyArtifact.toJson { kind := .powerioIr, text := exact.input })
  solution : node.solution = some (recordId engine
    (StudyArtifact.toJson { kind := .powerioIr, text := exact.solution }))
  view : node.view = some (recordId engine
    (StudyArtifact.toJson { kind := .evidence, text := exact.view }))

/-- Every state is filed under its digest. -/
def Filed (engine : Engine F) (states : Records StateNode) : Prop :=
  ∀ (id : String) (node : StateNode), states[id]? = some node → id = recordId engine node.toJson

theorem Filed.insertIfNew (hfaithful : engine.Faithful) {states : Records StateNode}
    (h : Filed engine states) (node : StateNode) :
    Filed engine (states.insertIfNew (recordId engine node.toJson) node) ∧
      (states.insertIfNew (recordId engine node.toJson) node)[recordId engine node.toJson]? =
        some node := by
  constructor
  · intro id kept hkept
    rw [Records.get?_insertIfNew] at hkept
    split at hkept
    next heq =>
      cases hkept
      exact heq.1.symm
    next => exact h id kept hkept
  · obtain ⟨kept, hkept, -⟩ := Records.mem_insertIfNew_self states (recordId engine node.toJson) node
    rw [hkept]
    rw [Records.get?_insertIfNew] at hkept
    split at hkept
    next => exact hkept.symm ▸ rfl
    next => rw [hfaithful.state_eq (h _ kept hkept)]

theorem captureState_files (hfaithful : engine.Faithful) (exact : ExactCandidate F)
    (parent : Option String) (label : String) {s : StudyBundle F}
    (hfiled : Filed engine s.document.states) :
    wp (captureState engine exact parent label) (fun id new =>
      s.document.states.Extends new.document.states ∧ Filed engine new.document.states ∧
        ∃ node, new.document.states[id]? = some node ∧ node.parent = parent ∧
          Files engine node exact) s := by
  simp only [captureState, Program.wp_bind, Program.wp_liftM, safe_lift, true_and, wp_addArtifact,
    wp_addState]
  intro view _ _ _ _ _ _ _
  obtain ⟨hall, hfound⟩ := hfiled.insertIfNew hfaithful _
  exact ⟨Records.Extends.insertIfNew _ _ _, hall, _, hfound, rfl, rfl, rfl, rfl⟩

/-! ### The trial log -/

/-- The state that a parent reference is filed under. -/
def parentState (stateId : String) (trialStates : List (Option String)) (parent : Option ℕ) :
    String :=
  (parent.bind fun i => trialStates[i]?.join).getD stateId

/-- The record of a trial: a solved one has a state, under the state its parent
reference names. -/
structure Recounts (engine : Engine F) (stateId : String) (states : Records StateNode)
    (trialStates : List (Option String)) (t : SearchTrial F) (r : TrialRecord F) : Prop where
  changes : r.changes = t.changes
  accepted : r.accepted = t.accepted
  value : r.exactValue = t.exact.map (·.value)
  unsolved : t.exact = none → r.state = none
  solved : ∀ exact, t.exact = some exact → ∃ state node, r.state = some state ∧
    states[state]? = some node ∧ node.parent = some (parentState stateId trialStates t.parentTrial) ∧
      Files engine node exact

/-- The state that the log recommends: that of the last accepted trial. -/
def lastState (trialStates : List (Option String)) : Option ℕ → Option String
  | none => none
  | some p => trialStates[p]?.join

structure Logged (engine : Engine F) (stateId : String) (states : Records StateNode)
    (log : TrialLog F) (done : List (SearchTrial F)) : Prop where
  filed : Filed engine states
  trialStates : log.trialStates = log.trials.map (·.state)
  recounts : List.Forall₂ (Recounts engine stateId states log.trialStates) done log.trials
  results : ∀ r ∈ log.trials, ∀ state, r.state = some state → state ∈ log.resultStates
  recommendation : ∀ parent, LastAccepted done done.length parent →
    log.recommendation = lastState log.trialStates parent

/-- Parents are earlier trials. -/
def ParentsBelow (trials : List (SearchTrial F)) : Prop :=
  ∀ (i : ℕ) (t : SearchTrial F) (p : ℕ), trials[i]? = some t → t.parentTrial = some p → p < i

theorem parentState_append (stateId : String) (trialStates added : List (Option String))
    {parent : Option ℕ} (h : ∀ p, parent = some p → p < trialStates.length) :
    parentState stateId (trialStates ++ added) parent = parentState stateId trialStates parent := by
  cases parent with
  | none => rfl
  | some p => simp only [parentState, Option.bind_some, List.getElem?_append_left (h p rfl)]

theorem Recounts.extend {stateId : String} {states next : Records StateNode}
    {trialStates added : List (Option String)} {t : SearchTrial F} {r : TrialRecord F}
    (h : Recounts engine stateId states trialStates t r) (hextends : states.Extends next)
    (hparent : ∀ p, t.parentTrial = some p → p < trialStates.length) :
    Recounts engine stateId next (trialStates ++ added) t r where
  changes := h.changes
  accepted := h.accepted
  value := h.value
  unsolved := h.unsolved
  solved := by
    intro exact hexact
    obtain ⟨state, node, hstate, hnode, hchild, hfiles⟩ := h.solved exact hexact
    refine ⟨state, node, hstate, hextends _ _ hnode, ?_, hfiles⟩
    rw [parentState_append stateId trialStates added hparent]
    exact hchild

theorem captureTrial_files (hfaithful : engine.Faithful) (stateId : String) (log : TrialLog F)
    (t : SearchTrial F) {s : StudyBundle F} (hfiled : Filed engine s.document.states) :
    wp (captureTrial engine stateId log t) (fun saved new =>
      s.document.states.Extends new.document.states ∧ Filed engine new.document.states ∧
        (t.exact = none → saved = none) ∧
        ∀ exact, t.exact = some exact → ∃ state node, saved = some state ∧
          new.document.states[state]? = some node ∧
          node.parent = some (parentState stateId log.trialStates t.parentTrial) ∧
          Files engine node exact) s := by
  unfold captureTrial
  split
  next hnone => exact ⟨.refl _, hfiled, fun _ => rfl, by simp [hnone]⟩
  next exact hsome =>
    simp only [Program.wp_bind]
    refine (captureState_files hfaithful exact _ _ hfiled).mono ?_
    rintro id new ⟨hextends, hall, node, hnode, hparent, hfiles⟩
    refine ⟨hextends, hall, by simp [hsome], ?_⟩
    intro other hother
    rw [hsome] at hother
    cases hother
    exact ⟨id, node, rfl, hnode, hparent, hfiles⟩

theorem lastAccepted_succ {done : List (SearchTrial F)} {t : SearchTrial F} {parent : Option ℕ}
    (h : LastAccepted (done ++ [t]) (done ++ [t]).length parent) :
    (t.accepted = true ∧ parent = some done.length) ∨
      (t.accepted = false ∧ LastAccepted done done.length parent) := by
  have hlast : (done ++ [t])[done.length]? = some t := by simp
  rw [List.length_append, List.length_singleton] at h
  cases haccepted : t.accepted with
  | true =>
    left
    refine ⟨rfl, ?_⟩
    have hat : AcceptedAt (done ++ [t]) done.length := ⟨t, hlast, haccepted⟩
    cases parent with
    | none => exact absurd hat (h _ (Nat.lt_succ_self _))
    | some p =>
      by_contra hne
      have hp : p ≠ done.length := fun heq => hne (congrArg some heq)
      have := h.1
      exact h.2.2 done.length (by omega) (Nat.lt_succ_self _) hat
  | false =>
    right
    refine ⟨rfl, ?_⟩
    cases parent with
    | none =>
      intro i hi haccept
      exact h i (by omega) ((acceptedAt_append_left hi).mpr haccept)
    | some p =>
      obtain ⟨hp, hat, hnone⟩ := h
      have hne : p ≠ done.length := by
        rintro rfl
        obtain ⟨u, hu, hutrue⟩ := hat
        rw [hlast] at hu
        cases hu
        rw [haccepted] at hutrue
        cases hutrue
      refine ⟨by omega, (acceptedAt_append_left (by omega)).mp hat, ?_⟩
      intro i hpi hi haccept
      exact hnone i hpi (by omega) ((acceptedAt_append_left hi).mpr haccept)

theorem recordTrial_logged (hfaithful : engine.Faithful) {stateId : String}
    {done : List (SearchTrial F)} {t : SearchTrial F} (hbelow : ParentsBelow (done ++ [t]))
    {log : TrialLog F} {s : StudyBundle F}
    (h : Logged engine stateId s.document.states log done) :
    wp (recordTrial engine stateId log t) (fun next new =>
      s.document.states.Extends new.document.states ∧
        Logged engine stateId new.document.states next (done ++ [t])) s := by
  have hlength : log.trialStates.length = done.length := by
    rw [h.trialStates, List.length_map, h.recounts.length_eq]
  simp only [recordTrial, Program.wp_bind]
  refine (captureTrial_files hfaithful stateId log t h.filed).mono ?_
  rintro saved new ⟨hextends, hfiled, hunsolved, hsolved⟩
  simp only [Program.wp_bind, wp_addArtifact, Program.wp_pure]
  intro identity _
  refine ⟨hextends, ?_⟩
  have hold (i : ℕ) (u : SearchTrial F) (hu : done[i]? = some u) (p : ℕ)
      (hp : u.parentTrial = some p) : p < log.trialStates.length := by
    have hi := (List.getElem?_eq_some_iff.mp hu).1
    have hbefore : (done ++ [t])[i]? = some u := by
      rw [List.getElem?_append_left hi]
      exact hu
    have := hbelow i u p hbefore hp
    omega
  have hown (p : ℕ) (hp : t.parentTrial = some p) : p < log.trialStates.length := by
    have := hbelow done.length t p (by simp) hp
    omega
  constructor
  case filed => exact hfiled
  case trialStates => simp [h.trialStates]
  case recounts =>
    refine List.rel_append ?_ (.cons ?_ .nil)
    · refine List.forall₂_iff_get.mpr ⟨h.recounts.length_eq, fun i hi hi' => ?_⟩
      refine (h.recounts.get hi hi').extend hextends ?_
      exact hold i _ (List.getElem?_eq_getElem hi)
    · refine ⟨rfl, rfl, rfl, hunsolved, ?_⟩
      intro exact hexact
      obtain ⟨state, node, hsaved, hnode, hparent, hfiles⟩ := hsolved exact hexact
      refine ⟨state, node, hsaved, hnode, ?_, hfiles⟩
      simp only
      rw [parentState_append stateId log.trialStates [saved] hown]
      exact hparent
  case results =>
    intro r hr state hstate
    rcases List.mem_append.mp hr with hkept | hnew
    · exact List.mem_append_left _ (h.results r hkept state hstate)
    · rw [List.mem_singleton.mp hnew] at hstate
      exact List.mem_append_right _ (by simpa using hstate)
  case recommendation =>
    intro parent hparent
    rcases lastAccepted_succ hparent with ⟨haccepted, rfl⟩ | ⟨hrejected, hlast⟩
    · simp [haccepted, lastState, ← hlength]
    · simp only [hrejected, Bool.false_eq_true, if_false, h.recommendation parent hlast]
      cases parent with
      | none => rfl
      | some p =>
        have hp : p < log.trialStates.length := hlength ▸ hlast.1
        simp only [lastState, List.getElem?_append_left hp]

theorem recordTrials_logged (hfaithful : engine.Faithful) {stateId : String}
    (rest : List (SearchTrial F)) {done : List (SearchTrial F)}
    (hbelow : ParentsBelow (done ++ rest)) {log : TrialLog F} {s : StudyBundle F}
    (h : Logged engine stateId s.document.states log done) :
    wp (recordTrials engine stateId rest log) (fun last new =>
      Logged engine stateId new.document.states last (done ++ rest)) s := by
  induction rest generalizing done log s with
  | nil =>
    rw [List.append_nil]
    exact h
  | cons t rest ih =>
    have hfirst : ParentsBelow (done ++ [t]) := by
      intro i u p hu hp
      refine hbelow i u p ?_ hp
      have hi := (List.getElem?_eq_some_iff.mp hu).1
      rw [← List.singleton_append, ← List.append_assoc, List.getElem?_append_left hi]
      exact hu
    simp only [recordTrials, Program.wp_bind]
    refine (recordTrial_logged hfaithful hfirst h).mono ?_
    rintro next mid ⟨-, hnext⟩
    have hall : done ++ t :: rest = done ++ [t] ++ rest := by simp
    rw [hall] at hbelow ⊢
    exact ih hbelow hnext

/-! ### The experiment -/

/-- The session that a state stands for: the start of the search, or what the
trial that led to the state left behind. The state holds that trial's exact
result, and its parent stands for the session the trial stepped from. -/
inductive StandsFor (goal : SearchGoal F) (start : Study engine) (stateId : String)
    (states : Records StateNode) (trials : List (TrialRecord F)) :
    Option (TrialRecord F) → String → Study engine → Prop
  | start : StandsFor goal start stateId states trials none stateId start
  | step {source parent origin r state node exact left}
      (hparent : StandsFor goal start stateId states trials source parent origin)
      (htrial : r ∈ trials) (hstate : r.state = some state) (hnode : states[state]? = some node)
      (hchild : node.parent = some parent) (hfiles : Files engine node exact)
      (hvalue : r.exactValue = some exact.value)
      (hsolved : evaluateCandidate goal origin r.changes = (.ok exact, left)) :
      StandsFor goal start stateId states trials (some r) state left

/-- The exact objective of a state that the search found feasible. -/
def Valued (goal : SearchGoal F) (start : Study engine) (startChanges : List F) (stateId : String)
    (trials : List (TrialRecord F)) (state : String) (value : F) : Prop :=
  (∃ r ∈ trials, r.state = some state ∧ r.exactValue = some value) ∨
    (state = stateId ∧ goal.space.feasible startChanges (lit 1e-7) = true ∧
      start.objectiveValue goal.objective goal.space startChanges = .ok value)

structure SearchRecord (goal : SearchGoal F) (start : Study engine) (startChanges : List F)
    (stateId : String) (states : Records StateNode) (record : ExperimentRecord F)
    (recommendation : Option String) : Prop where
  feasible : ∀ r ∈ record.trials, goal.space.feasible r.changes (lit 1e-7) = true
  ancestry : ∀ r ∈ record.trials, ∀ state, r.state = some state →
    ∃ left, StandsFor goal start stateId states record.trials (some r) state left
  recommended : ∀ state, recommendation = some state → state ∈ record.resultStates ∧
    ∃ value, Valued goal start startChanges stateId record.trials state value ∧
      ∀ other rival, Valued goal start startChanges stateId record.trials other rival →
        ¬ lt rival (value - goal.options.minImprovement) = true

section Record

variable {goal : SearchGoal F} {study : Study engine} {stateId : String}
  {states : Records StateNode} {log : TrialLog F} {search : SearchResult F}

theorem Logged.get (h : Logged engine stateId states log search.trials) {i : ℕ}
    {t : SearchTrial F} (ht : search.trials[i]? = some t) :
    ∃ r, log.trials[i]? = some r ∧ r ∈ log.trials ∧
      Recounts engine stateId states log.trialStates t r := by
  obtain ⟨hi, rfl⟩ := List.getElem?_eq_some_iff.mp ht
  have hi' : i < log.trials.length := h.recounts.length_eq ▸ hi
  exact ⟨log.trials[i], List.getElem?_eq_getElem hi', List.getElem_mem hi', h.recounts.get hi hi'⟩

theorem Logged.exists_trial (h : Logged engine stateId states log search.trials)
    {r : TrialRecord F} (hr : r ∈ log.trials) :
    ∃ t ∈ search.trials, Recounts engine stateId states log.trialStates t r := by
  obtain ⟨i, hi, rfl⟩ := List.mem_iff_getElem.mp hr
  have hi' : i < search.trials.length := h.recounts.length_eq ▸ hi
  exact ⟨search.trials[i], List.getElem_mem hi', h.recounts.get hi' hi⟩

theorem Logged.state_eq (h : Logged engine stateId states log search.trials) {i : ℕ}
    {r : TrialRecord F} (hr : log.trials[i]? = some r) :
    log.trialStates[i]?.join = r.state := by
  rw [h.trialStates, List.getElem?_map, hr]
  rfl

/-- A session that the search stood at is what the state filed for it stands
for. -/
theorem Logged.standsFor (h : Logged engine stateId states log search.trials)
    {parent : Option ℕ} {session : Study engine}
    (hstands : StandsAt goal study (attempts search.trials) parent session) :
    ∃ source, StandsFor goal study stateId states log.trials source
      (parentState stateId log.trialStates parent) session := by
  induction hstands with
  | start => exact ⟨none, .start⟩
  | @trial p a exact origin left hentry hexact _ hsolved ih =>
    obtain ⟨source, hparent⟩ := ih
    rw [attempts, List.getElem?_map, Option.map_eq_some_iff] at hentry
    obtain ⟨t, ht, rfl⟩ := hentry
    obtain ⟨r, hindex, hr, hrecounts⟩ := h.get ht
    obtain ⟨state, node, hstate, hnode, hchild, hfiles⟩ := hrecounts.solved exact hexact
    have hname : parentState stateId log.trialStates (some p) = state := by
      simp only [parentState, Option.bind_some, h.state_eq hindex, hstate, Option.getD_some]
    rw [hname]
    refine ⟨some r, .step hparent hr hstate hnode hchild hfiles ?_ ?_⟩
    · rw [hrecounts.value, show t.exact = some exact from hexact]
      rfl
    · rw [hrecounts.changes]
      exact hsolved

theorem Logged.ancestry (h : Logged engine stateId states log search.trials)
    (htraced : Traced goal study (attempts search.trials)) {r : TrialRecord F}
    (hr : r ∈ log.trials) {state : String} (hstate : r.state = some state) :
    ∃ left, StandsFor goal study stateId states log.trials (some r) state left := by
  obtain ⟨t, ht, hrecounts⟩ := h.exists_trial hr
  cases hexact : t.exact with
  | none =>
    rw [hrecounts.unsolved hexact] at hstate
    cases hstate
  | some exact =>
    obtain ⟨own, node, hown, hnode, hchild, hfiles⟩ := hrecounts.solved exact hexact
    rw [hstate] at hown
    cases hown
    obtain ⟨origin, hstands, hsolved⟩ := htraced t.attempt (List.mem_map_of_mem ht)
    obtain ⟨source, hparent⟩ := h.standsFor hstands
    have hrun : (evaluateCandidate goal origin t.changes).1.toOption = some exact :=
      hsolved.trans hexact
    rcases hevaluated : evaluateCandidate goal origin t.changes with ⟨message | found, left⟩
    · rw [hevaluated] at hrun
      cases hrun
    · rw [hevaluated] at hrun
      cases hrun
      refine ⟨left, .step hparent hr hstate hnode hchild hfiles ?_ ?_⟩
      · rw [hrecounts.value, hexact]
        rfl
      · rw [hrecounts.changes]
        exact hevaluated

theorem Logged.found (h : Logged engine stateId states log search.trials)
    {startChanges : List F} {baseline : F} {start : Option (ExactCandidate F)}
    (hstarts : Starts study goal startChanges baseline start) {state : String} {value : F}
    (hvalued : Valued goal study startChanges stateId log.trials state value) :
    ∃ exact, Found start (attempts search.trials) exact ∧ exact.value = value := by
  rcases hvalued with ⟨r, hr, -, hvalue⟩ | ⟨-, hfeasible, hvalue⟩
  · obtain ⟨t, ht, hrecounts⟩ := h.exists_trial hr
    rw [hrecounts.value, Option.map_eq_some_iff] at hvalue
    obtain ⟨exact, hexact, rfl⟩ := hvalue
    exact ⟨exact, .inr ⟨t.attempt, List.mem_map_of_mem ht, hexact⟩, rfl⟩
  · obtain ⟨exact, hexact, hbaseline, -⟩ := hstarts.feasible hfeasible
    rw [hstarts.value] at hvalue
    cases hvalue
    exact ⟨exact, .inl hexact, hbaseline⟩

theorem Logged.recommended (h : Logged engine stateId states log search.trials)
    {startChanges : List F} {baseline : F} {start : Option (ExactCandidate F)}
    (hstarts : Starts study goal startChanges baseline start) (hreport : Report goal start search)
    {state : String}
    (hstate : (if log.recommendation.isNone && search.best.isSome then some stateId
      else log.recommendation) = some state) :
    state ∈ log.resultStates ++
        (if log.recommendation.isNone && search.best.isSome then [stateId] else []) ∧
      ∃ exact, search.best = some exact ∧
        Valued goal study startChanges stateId log.trials state exact.value := by
  obtain ⟨parent, hlast, hbest⟩ := hreport.best
  have hrecommendation := h.recommendation parent hlast
  cases parent with
  | none =>
    have hnone : log.recommendation = none := hrecommendation
    have hsame : search.best = start := hbest
    rw [hnone] at hstate ⊢
    cases hstart : start with
    | none => simp [hsame, hstart] at hstate
    | some exact =>
      have hown : state = stateId := by simpa [hsame, hstart, eq_comm] using hstate
      refine ⟨by simp [hsame, hstart, hown], exact, hsame.trans hstart, .inr ⟨hown, ?_⟩⟩
      cases hfeasible : goal.space.feasible startChanges (lit 1e-7) with
      | true =>
        obtain ⟨other, hother, hvalue, -⟩ := hstarts.feasible hfeasible
        rw [hstart] at hother
        cases hother
        exact ⟨rfl, hvalue ▸ hstarts.value⟩
      | false =>
        rw [hstarts.infeasible hfeasible] at hstart
        cases hstart
  | some p =>
    obtain ⟨t, ht, haccepted⟩ := hlast.2.1
    obtain ⟨exact, hexact, -⟩ := hreport.accepted_exact t (List.mem_of_getElem? ht) haccepted
    obtain ⟨r, hindex, hr, hrecounts⟩ := h.get ht
    obtain ⟨own, node, hown, -⟩ := hrecounts.solved exact hexact
    have hlogged : log.recommendation = some own := by
      rw [hrecommendation, lastState, h.state_eq hindex, hown]
    rw [hlogged] at hstate
    have hsame : own = state := by simpa using hstate
    subst hsame
    refine ⟨List.mem_append_left _ (h.results r hr own hown), exact, ?_, .inl ⟨r, hr, hown, ?_⟩⟩
    · rw [hbest, incumbent, ht]
      exact hexact
    · rw [hrecounts.value, hexact]
      rfl

end Record

/-! ### A proposal -/

/-- How a proposal's experiment ends: without a search, or with its record. -/
inductive Concluded [DecidableEq F] (engine : Engine F) (old : StudyBundle F)
    (stateId goalId : String) (options : SearchOptions F) (states : Records StateNode)
    (record : ExperimentRecord F) (recommendation : Option String) : Prop
  | stopped (htrials : record.trials = []) (hresults : record.resultStates = [])
      (hnone : recommendation = none) :
      Concluded engine old stateId goalId options states record recommendation
  | searched {plan study spent} (hplan : planProposal engine old stateId goalId = .ok plan)
      (hstart : checkStart engine plan study = .ok ())
      (hrecord : SearchRecord (searchGoal plan options spent) study plan.changes stateId states
        record recommendation) :
      Concluded engine old stateId goalId options states record recommendation

/-- What a proposal that returns has put on record. -/
def Proposed [DecidableEq F] (engine : Engine F) (old : StudyBundle F) (stateId goalId : String)
    (options : SearchOptions F) (id : String) (new : StudyBundle F) : Prop :=
  ∃ record recommendation, new.document.experiments[id]? = some record ∧
    record.solveCount ≤ options.maxSolves ∧
    new.document.recommendedState = recommendation.or old.document.recommendedState ∧
    Concluded engine old stateId goalId options new.document.states record recommendation

section Propose

variable [LawfulBinary64 F] [DecidableEq F]

theorem recordSearch_record (hfaithful : engine.Faithful) {goal : SearchGoal F}
    {study : Study engine} {startChanges : List F} {stateId : String} {record : ExperimentRecord F}
    {search : SearchResult F} {s : StudyBundle F} (hfiled : Filed engine s.document.states)
    (haccount : Accounts goal startChanges study (.ok search)) :
    wp (recordSearch engine stateId record search) (fun result new =>
      result.1.solveCount = record.solveCount + search.solveCount ∧
        SearchRecord goal study startChanges stateId new.document.states result.1 result.2) s := by
  obtain ⟨baseline, start, hstarts, haccount⟩ := haccount
  simp only [recordSearch, Program.wp_bind, wp_addArtifact]
  intro identity _
  have hblank (next : StudyBundle F) (hnext : Filed engine next.document.states) :
      Logged engine stateId next.document.states
        { trialStates := [], recommendation := none, resultStates := [], trials := [] } [] := by
    refine ⟨hnext, rfl, .nil, by simp, ?_⟩
    rintro (_ | p) hparent
    · rfl
    · exact absurd hparent.1 (Nat.not_lt_zero p)
  have hbelow : ParentsBelow ([] ++ search.trials) := haccount.report.parent_below
  refine (recordTrials_logged hfaithful search.trials hbelow
    (hblank (s.insertArtifact _ _) hfiled)).mono ?_
  rintro log new hlogged
  rw [List.nil_append] at hlogged
  refine ⟨rfl, ?_, ?_, ?_⟩
  · intro r hr
    obtain ⟨t, ht, hrecounts⟩ := hlogged.exists_trial hr
    rw [hrecounts.changes]
    exact haccount.report.feasible t ht
  · exact fun r hr state => hlogged.ancestry haccount.traced hr
  · intro state hstate
    obtain ⟨hmem, exact, hbest, hvalued⟩ :=
      hlogged.recommended hstarts haccount.report hstate
    refine ⟨hmem, exact.value, hvalued, ?_⟩
    intro other rival hrival
    obtain ⟨found, hfound, rfl⟩ := hlogged.found hstarts hrival
    exact haccount.leads.unbeaten exact hbest found hfound

theorem recordOutcome_record (hfaithful : engine.Faithful) {old : StudyBundle F}
    {stateId goalId : String} {plan : SearchPlan F} {options : SearchOptions F}
    {record : ExperimentRecord F} {outcome : Result (SearchResult F)}
    (hplan : planProposal engine old stateId goalId = .ok plan)
    (hrecord : record.trials = [] ∧ record.resultStates = [])
    (hran : Ran engine plan options (outcome, record.solveCount)) {s : StudyBundle F}
    (hfiled : Filed engine s.document.states) :
    wp (recordOutcome engine stateId record outcome) (fun result new =>
      result.1.solveCount ≤ options.maxSolves ∧
        Concluded engine old stateId goalId options new.document.states result.1 result.2) s := by
  have hbudget := hran.budget
  have hsafe := hran.safe
  cases outcome with
  | ok search =>
    obtain ⟨study, hstart, haccount⟩ := hran.search search rfl
    refine (recordSearch_record hfaithful hfiled haccount).mono ?_
    rintro result new ⟨hcount, hsearch⟩
    exact ⟨hcount ▸ hbudget, .searched hplan hstart hsearch⟩
  | error failure =>
    cases failure with
    | error message => exact ⟨hbudget, .stopped hrecord.1 hrecord.2 rfl⟩
    | missed => exact hsafe.elim
    | unbounded => exact hsafe.elim
    | underflow => exact hsafe.elim

/-- No answer at a checkpoint makes a proposal crash, and one that returns has
put its experiment on record. -/
theorem proposeAsync_proposed (hfaithful : engine.Faithful) (stateId goalId : String)
    (options : SearchOptions F) (rationale : String) {s : StudyBundle F} (hvalid : Valid engine s) :
    wp (proposeAsync engine stateId goalId options rationale)
      (Proposed engine s stateId goalId options) s := by
  simp only [proposeAsync, Program.wp_bind, Program.wp_get, Program.wp_liftM, safe_planProposal,
    true_and]
  intro plan hplan
  simp only [Program.wp_await]
  refine (runSearch_ran plan options).mono ?_
  rintro ⟨outcome, solveCount⟩ hran
  rw [Program.wp_bind]
  have hfiled : Filed engine s.document.states := fun id node hnode => (hvalid.states id node hnode).filed
  refine ((recordOutcome_spec stateId _ hran.safe s).and
    (recordOutcome_record hfaithful hplan ⟨rfl, rfl⟩ hran hfiled)).mono ?_
  rintro ⟨record, recommendation⟩ mid ⟨⟨hsaves, -⟩, hbudget, hconcluded⟩
  have hrest := hsaves.rest
  have hid : mid.experimentId engine record = s.experimentId engine record :=
    hsaves.experimentId record
  have hfresh : mid.experimentId engine record ∉ mid.document.experiments := by
    rw [hid, hrest]
    exact hvalid.experimentId_fresh hfaithful record
  have hfound : (mid.document.experiments.insertIfNew (mid.experimentId engine record)
      record)[mid.experimentId engine record]? = some record := by
    rw [Records.get?_insertIfNew, if_pos ⟨rfl, hfresh⟩]
  have hkept : mid.document.recommendedState = s.document.recommendedState := by
    rw [hrest]
    rfl
  simp only [Program.wp_bind, wp_addExperiment, wp_recommend, Program.wp_ite, Program.wp_modify,
    Program.wp_pure]
  cases recommendation with
  | none => exact ⟨by simp, fun _ => ⟨record, none, hfound, hbudget, hkept, hconcluded⟩⟩
  | some state => exact ⟨fun _ => ⟨record, some state, hfound, hbudget, rfl, hconcluded⟩, by simp⟩

/-- What a proposal returns, and the bundle it leaves. -/
def Proposes (engine : Engine F) (old : StudyBundle F) (stateId goalId : String)
    (options : SearchOptions F) : Result String × StudyBundle F → Prop
  | (.ok id, new) => Proposed engine old stateId goalId options id new
  | (.error failure, _) => failure.Returned

/-- A proposal on a validated bundle, or on the copy that a transaction works
on, stays within its budget through every run and never subtracts below zero.
Its trials are filed under the states they stepped from, and what it recommends
is a result that nothing it found beats by the improvement asked for. -/
theorem proposal_keeps_budget_and_ancestry (hfaithful : engine.Faithful) {bundle : StudyBundle F}
    (hvalidate : bundle.validate engine = .ok ()) (stateId goalId : String)
    (options : SearchOptions F) (rationale : String) (answers : ℕ → Bool) :
    (∀ plan, Ran engine plan options ((runSearch engine plan options).run answers)) ∧
      Proposes engine bundle stateId goalId options
        ((proposeAsync engine stateId goalId options rationale bundle).run answers) ∧
      Proposes engine (bundle.atVersion studyVersion) stateId goalId options
        ((proposeAsync engine stateId goalId options rationale
          (bundle.atVersion studyVersion)).run answers) := by
  have hvalid := valid_of_validate hvalidate
  have hrun {s : StudyBundle F} (hs : Valid engine s) :
      Proposes engine s stateId goalId options
        ((proposeAsync engine stateId goalId options rationale s).run answers) := by
    refine (Checkpoint.All.mono (proposeAsync_proposed hfaithful stateId goalId options rationale hs)
      ?_).run answers
    rintro ⟨failure | id, new⟩ houtcome <;> exact houtcome
  exact ⟨fun plan => (runSearch_ran plan options).run answers, hrun hvalid, hrun hvalid.atVersion⟩

end Propose

end StudyBundle

/-! ### On the sample engine -/

namespace Sample

/-- A study of one rated line whose rating may go up by one, which takes one
off the price. -/
def uprating : CreateStudy ℚ :=
  { request none
      { buses := [1, 2].map fun id => { id, uid := none, kind := .connected }
        loads := [{ bus := 1, p := 10, inService := true }]
        branches := [{ uid := none, source := 1, target := 2, r := 0, x := 1, rateA := 10
                       inService := true }]
        generators := [], baseMva := 100, isNormalized := false, tables := () } with
    objective := some (.weightedObservable (.price .active) [{ element := .id 1, weight := 1 }])
    decisions := some
      { vars := [{ id := "r", element := .id 1, intervention := .branchRating, lower := 0
                   upper := 1, increment := 1, budgetWeight := 1 }]
        totalBudget := 10, maxChangedElements := 1, demand := none } }

def modest : SearchOptions ℚ :=
  { maxSolves := 4, beamWidth := 1, maxIterations := 1, minImprovement := 5 }

def proposed (bundle : StudyBundle ℚ) : Result String × StudyBundle ℚ :=
  (StudyBundle.proposeAsync engine (bundle.document.inspectedState.getD "")
    (bundle.document.activeGoal.getD "") modest "" bundle).run fun _ => false

def objectiveAt (bundle : StudyBundle ℚ) (state : String) : Option ℚ := do
  let goal ← bundle.document.goals[← bundle.document.activeGoal]?
  (bundle.evaluateState engine goal state).toOption.map (·.1)

/-- A feasible trial is better at its state than the recommended state is. -/
def Outdone (outcome : Result String × StudyBundle ℚ) : Bool :=
  match outcome with
  | (.ok id, new) =>
    match new.document.experiments[id]?, new.document.recommendedState with
    | some record, some recommended => record.trials.any fun t => t.state.any fun state =>
      match objectiveAt new state, objectiveAt new recommended with
      | some value, some best => decide (value < best)
      | _, _ => false
    | _, _ => false
  | (.error _, _) => false

theorem exists_uprating : ∃ bundle, StudyBundle.createStudy engine uprating = .ok bundle ∧
    Outdone (proposed bundle) = true :=
  exists_ok_of (by decide +kernel)

/-- A study without a case has nothing to start a search from. -/
example : ((StudyBundle.empty "s" "").map fun bundle => (proposed bundle).1.isOk) = .ok false := by
  decide +kernel

theorem proposal_keeps_budget_and_ancestry_uprating : ∃ bundle,
    StudyBundle.createStudy engine uprating = .ok bundle ∧ bundle.validate engine = .ok () ∧
      StudyBundle.Proposes engine bundle (bundle.document.inspectedState.getD "")
        (bundle.document.activeGoal.getD "") modest (proposed bundle) := by
  obtain ⟨bundle, hcreated, -⟩ := exists_uprating
  obtain ⟨root, hopens⟩ := StudyBundle.createStudy_opens hcreated
  exact ⟨bundle, hcreated, hopens.validated,
    (StudyBundle.proposal_keeps_budget_and_ancestry faithful hopens.validated _ _ modest ""
      fun _ => false).2.1⟩

/-- The line's uprating takes the price from ten to nine. As five were asked
for, the study recommends the state it started from. -/
theorem proposal_recommends_an_outdone_state : ∃ bundle id new record recommended t state value best,
    StudyBundle.createStudy engine uprating = .ok bundle ∧ proposed bundle = (.ok id, new) ∧
      new.document.experiments[id]? = some record ∧
      new.document.recommendedState = some recommended ∧ t ∈ record.trials ∧
      t.state = some state ∧ objectiveAt new state = some value ∧
      objectiveAt new recommended = some best ∧ value < best := by
  obtain ⟨bundle, hcreated, hrun⟩ := exists_uprating
  rcases hproposed : proposed bundle with ⟨failure | id, new⟩
  · rw [hproposed] at hrun
    cases hrun
  rw [hproposed] at hrun
  unfold Outdone at hrun
  simp only at hrun
  split at hrun
  next record recommended hrecord hrecommended =>
    obtain ⟨t, ht, hworse⟩ := List.any_eq_true.mp hrun
    obtain ⟨state, hstate, hworse⟩ := (Option.any_eq_true _ _).mp hworse
    split at hworse
    next value best hvalue hbest =>
      exact ⟨bundle, id, new, record, recommended, t, state, value, best, hcreated, hproposed, hrecord,
        hrecommended, ht, hstate, hvalue, hbest, of_decide_eq_true hworse⟩
    next => cases hworse
  next => cases hrun

end Sample

end Tellegen
