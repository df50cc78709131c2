import Tellegen.StudyRuns

/-!
The history of a study is append-only, and a request either takes effect as
the next revision or changes nothing.

The report of a request is read after its transaction has published, so a
report that cannot be read is an error on a changed bundle. On a valid bundle
one part of the report can fail: the demand changes of the inspected state,
when its case and the base case have different buses.
-/

open Binary64 Outcome Std
open Program (wp Checkpoint)

set_option linter.unusedSectionVars false

namespace Tellegen

variable {F : Type} [Binary64 F]

namespace StudyBundle

variable {engine : Engine F}

/-! ### Kept records -/

/-- Every record of the old bundle is in the new one as it was, and the old
order of experiments begins the new one. -/
structure Keeps (old new : StudyBundle F) : Prop where
  states : old.document.states.Extends new.document.states
  goals : old.document.goals.Extends new.document.goals
  experiments : old.document.experiments.Extends new.document.experiments
  decisions : old.document.decisions.Extends new.document.decisions
  artifacts : old.artifacts.Extends new.artifacts
  order : old.document.experimentOrder <+: new.document.experimentOrder

namespace Keeps

variable {a b c : StudyBundle F}

theorem refl (a : StudyBundle F) : Keeps a a :=
  ⟨.refl _, .refl _, .refl _, .refl _, .refl _, List.prefix_rfl⟩

theorem trans (hab : Keeps a b) (hbc : Keeps b c) : Keeps a c where
  states := hab.states.trans hbc.states
  goals := hab.goals.trans hbc.goals
  experiments := hab.experiments.trans hbc.experiments
  decisions := hab.decisions.trans hbc.decisions
  artifacts := hab.artifacts.trans hbc.artifacts
  order := hab.order.trans hbc.order

theorem of_saves {P : StateNode → Prop} (h : Saves P a b) : Keeps a b := by
  have hrest := h.rest
  refine ⟨h.states, ?_, ?_, ?_, h.artifacts, ?_⟩ <;>
  · rw [hrest]
    first | exact .refl _ | exact List.prefix_rfl

theorem insertExperiment (a : StudyBundle F) (id : String) (e : ExperimentRecord F) :
    Keeps a (a.insertExperiment id e) where
  states := .refl _
  goals := .refl _
  experiments := Records.Extends.insertIfNew _ _ _
  decisions := .refl _
  artifacts := .refl _
  order := by
    unfold StudyBundle.insertExperiment
    dsimp only
    split
    · exact List.prefix_rfl
    · exact List.prefix_append _ _

theorem insertDecision (a : StudyBundle F) (id : String) (decision : DecisionRecord) :
    Keeps a (a.insertDecision id decision) :=
  ⟨.refl _, .refl _, .refl _, Records.Extends.insertIfNew _ _ _, .refl _, List.prefix_rfl⟩

theorem decide (engine : Engine F) (a : StudyBundle F) (decision : Option DecisionRecord) :
    Keeps a (a.decide engine decision) := by
  cases decision with
  | none => exact .refl a
  | some decision => exact insertDecision a _ decision

theorem conclude (engine : Engine F) (a : StudyBundle F) (c : Conclusion F) :
    Keeps a (a.conclude engine c) := by
  have hdecided := (insertExperiment a (a.experimentId engine c.record) c.record).trans
    (decide engine _ c.decision)
  exact ⟨hdecided.states, hdecided.goals, hdecided.experiments, hdecided.decisions,
    hdecided.artifacts, hdecided.order⟩

end Keeps

theorem conclude_baseInput (a : StudyBundle F) (c : Conclusion F) :
    (a.conclude engine c).document.baseInput = a.document.baseInput := by
  unfold StudyBundle.conclude StudyBundle.decide
  cases c.decision <;> rfl

/-- A goal filed over another one is that same goal: both are valid and have
the same digest. -/
theorem setGoal_extends (hfaithful : engine.Faithful) {old new : StudyBundle F}
    (hold : Valid engine old) (hnew : Valid engine new) {goal : GoalRevision F}
    (hgoals : new.document.goals =
      old.document.goals.insert (recordId engine goal.toJson) goal) :
    old.document.goals.Extends (old.document.goals.insert (recordId engine goal.toJson) goal) := by
  apply Records.Extends.insert
  intro kept hkept
  have hkeptValid := hold.goals _ kept hkept
  have hgoal : new.document.goals[recordId engine goal.toJson]? = some goal := by
    rw [hgoals, Records.get?_insert, if_pos rfl]
  exact hfaithful.goal_eq hkeptValid.valid (hnew.goals _ goal hgoal).valid hkeptValid.filed.symm

theorem Published.keeps (hfaithful : engine.Faithful) {call : Call F} {old new : StudyBundle F}
    (h : Published engine call old new) : Keeps old new := by
  obtain ⟨hold, mid, heffect, hpublishes⟩ := h
  have hnew := valid_of_validate hpublishes.valid
  obtain rfl := hpublishes.revision
  suffices hkeeps : Keeps (old.atVersion studyVersion) mid from
    ⟨hkeeps.states, hkeeps.goals, hkeeps.experiments, hkeeps.decisions, hkeeps.artifacts,
      hkeeps.order⟩
  generalize call.request.operation = op at heffect
  cases heffect with
  | inspect _ => exact ⟨.refl _, .refl _, .refl _, .refl _, .refl _, List.prefix_rfl⟩
  | reviseGoal _ _ _ _ =>
    exact ⟨.refl _, setGoal_extends hfaithful hold hnew rfl, .refl _, .refl _, .refl _,
      List.prefix_rfl⟩
  | conclude hconcludes => exact (Keeps.of_saves hconcludes.saves).trans (.conclude _ _ _)
  | apply _ _ _ =>
    exact ⟨.refl _, .refl _, .refl _, Records.Extends.insertIfNew _ _ _, .refl _,
      List.prefix_rfl⟩

theorem Reaches.keeps [DecidableEq F] (hfaithful : engine.Faithful)
    {P : StudyBundle F → Call F → Prop} {start s : StudyBundle F}
    (h : Reaches engine P start s) : Keeps start s :=
  h.invariant (.refl start) fun _ _ _ _ hkeeps _ hpublished =>
    hkeeps.trans (hpublished.keeps hfaithful)

/-! ### Reports that can be read -/

/-- The case of the state has the buses of the base case. -/
def SameBuses (engine : Engine F) (bundle : StudyBundle F) (state : String) : Prop :=
  ∀ base artifact baseNetwork network, bundle.document.baseInput = some base →
    bundle.artifacts[base]? = some artifact → inputNetwork engine artifact.text = .ok baseNetwork →
    bundle.stateNetwork engine state = .ok network →
    sameBusIdentities baseNetwork network = .ok ()

theorem Valid.stateNetwork {s : StudyBundle F} (h : Valid engine s) {state : String}
    (hstate : state ∈ s.document.states) : ∃ network, s.stateNetwork engine state = .ok network := by
  obtain ⟨node, hnode⟩ := (Records.mem_iff _ _).mp hstate
  obtain ⟨artifact, network, hartifact, -, hnetwork⟩ := (h.states state node hnode).input
  exact ⟨network, by simp only [StudyBundle.stateNetwork, hnode, hartifact, hnetwork]⟩

theorem Valid.demandChanges {s : StudyBundle F} (h : Valid engine s) {state : String}
    (hstate : state ∈ s.document.states) (hsame : SameBuses engine s state) :
    ∃ changes, s.demandChanges engine state = .ok changes := by
  unfold StudyBundle.demandChanges
  cases hbase : s.document.baseInput with
  | none => exact ⟨none, rfl⟩
  | some base =>
    obtain ⟨artifact, baseNetwork, hartifact, -, hnetwork⟩ := h.base base hbase
    obtain ⟨network, hcurrent⟩ := h.stateNetwork hstate
    have hbuses := hsame base artifact baseNetwork network hbase hartifact hnetwork hcurrent
    simp only [hartifact, hnetwork, hcurrent, hbuses, bind, Except.bind]
    exact ⟨_, rfl⟩

theorem Valid.stateView {s : StudyBundle F} (h : Valid engine s) {state : String}
    {node : StateNode} (hnode : s.document.states[state]? = some node)
    (hview : node.view.isSome) : ∃ view, s.stateView engine state = .ok view := by
  cases (h.states state node hnode).solve with
  | solved _ _ view _ _ hresponse _ => exact ⟨view, hresponse⟩
  | unsolved _ hnone _ => simp [hnone] at hview

/-- A valid bundle reports, unless the demand changes of its inspected state
cannot be told. -/
theorem Valid.operationResult {s : StudyBundle F} (h : Valid engine s)
    (hinspected : ∀ state, s.document.inspectedState = some state →
      ∃ changes, s.demandChanges engine state = .ok changes)
    (experiment : Option String) (comparison : Option (Comparison F)) :
    ∃ report, s.operationResult engine experiment comparison = .ok report := by
  have hview : ∃ view, s.inspectedView engine = .ok view := by
    unfold inspectedView
    cases hstate : s.document.inspectedState with
    | none => exact ⟨none, rfl⟩
    | some state =>
      obtain ⟨node, hnode⟩ := (Records.mem_iff _ _).mp (h.pointers.inspected state hstate)
      have hindex := (Records.index_eq_ok _ _ _).mpr hnode
      simp only [hindex, bind, Except.bind]
      split
      · next hsome =>
          obtain ⟨view, hview⟩ := h.stateView hnode hsome
          exact ⟨some view, by rw [hview]; rfl⟩
      · exact ⟨none, rfl⟩
  have hchanges : ∃ changes, s.inspectedDemandChanges engine = .ok changes := by
    unfold inspectedDemandChanges
    cases hstate : s.document.inspectedState with
    | none => exact ⟨none, rfl⟩
    | some state =>
      obtain ⟨changes, hchanges⟩ := hinspected state hstate
      exact ⟨changes, by simp only [hchanges]; rfl⟩
  obtain ⟨summary, hsummary⟩ := exists_summary h 8
  obtain ⟨view, hview⟩ := hview
  obtain ⟨changes, hchanges⟩ := hchanges
  exact ⟨_, by simp only [StudyBundle.operationResult, hview, hsummary, hchanges, bind, Except.bind]; rfl⟩

/-! ### Atomic calls -/

/-- What a request may come to: an error and the bundle as it was, or a report
and the next revision, valid and with everything kept. -/
def Atomic (engine : Engine F) (old : StudyBundle F)
    (outcome : Result (StudyOperationResult F) × StudyBundle F) : Prop :=
  match outcome with
  | (.error _, new) => new = old
  | (.ok _, new) =>
    new.document.revision = old.document.revision + 1 ∧ new.validate engine = .ok () ∧
      Keeps old new ∧ new.document.experimentOrder.Nodup

/-- The state whose demand changes a request reports, as far as it is one the
bundle already holds. An edit of a saved case shows its result, and compares
that to the base case before it is published. -/
def displays (bundle : StudyBundle F) : StudyOperation F → Option String
  | .inspect state | .branch state _ | .apply _ state _ _ => some state
  | .reviseGoal _ | .compare _ _ _ | .propose _ _ _ _ | .recordEvidence _ _ _ _ _ _ =>
    bundle.document.inspectedState
  | .editDemand _ goal constrainToGoal _ _ =>
    if goal.isSome ∧ constrainToGoal = true then bundle.document.inspectedState else none
  | .restoreBase _ _ _ => none

/-- The state that a request displays has the buses of the base case. -/
def DisplaysBaseBuses (engine : Engine F) (bundle : StudyBundle F) (call : Call F) : Prop :=
  ∀ state, bundle.displays call.request.operation = some state → SameBuses engine bundle state

theorem displays_of_keepsInspected {op : StudyOperation F} (bundle : StudyBundle F)
    (h : op.KeepsInspected) : bundle.displays op = bundle.document.inspectedState := by
  cases op <;> simp_all [StudyOperation.KeepsInspected, displays]

/-- Where the displayed state has the buses of the base case, the demand
changes of the state inspected after the operation can be told. -/
theorem Effect.demandChanges {op : StudyOperation F} {old mid : StudyBundle F}
    (hold : Valid engine old) (heffect : Effect engine (old.atVersion studyVersion) op mid)
    (hbuses : ∀ state, old.displays op = some state → SameBuses engine old state) (state : String)
    (hstate : mid.document.inspectedState = some state) :
    ∃ changes, mid.demandChanges engine state = .ok changes := by
  -- A displayed state of the old bundle is compared as it was there.
  have hkept : ∀ {new : StudyBundle F} {target}, old.artifacts.Extends new.artifacts →
      old.document.states.Extends new.document.states →
      new.document.baseInput = old.document.baseInput → target ∈ old.document.states →
      old.displays op = some target → ∃ changes, new.demandChanges engine target = .ok changes := by
    intro new target hartifacts hstates hbase htarget hdisplays
    obtain ⟨changes, hchanges⟩ := hold.demandChanges htarget (hbuses target hdisplays)
    exact ⟨changes, demandChanges_of_extends hartifacts hstates hbase hchanges⟩
  have hinspected := hold.pointers.inspected
  cases heffect with
  | inspect hmem =>
    cases hstate
    exact hkept (.refl _) (.refl _) rfl hmem rfl
  | reviseGoal _ _ _ _ =>
    exact hkept (.refl _) (.refl _) rfl (hinspected state hstate) hstate
  | apply _ _ hmem =>
    cases hstate
    exact hkept (.refl _) (.refl _) rfl hmem rfl
  | @conclude _ mid c hconcludes =>
    have hshows := hconcludes.shows
    change c.inspected = some state at hstate
    suffices hmid : ∃ changes, mid.demandChanges engine state = .ok changes by
      obtain ⟨changes, hchanges⟩ := hmid
      have hkeeps := Keeps.conclude engine mid c
      exact ⟨changes, demandChanges_of_extends hkeeps.artifacts hkeeps.states
        (conclude_baseInput mid c) hchanges⟩
    have hsaves := hconcludes.saves
    have hbase : mid.document.baseInput = old.document.baseInput := by
      rw [hsaves.rest]
      rfl
    generalize c.inspected = shown at hshows hstate
    cases hshows with
    | kept hkeeps =>
      exact hkept hsaves.artifacts hsaves.states hbase (hinspected state hstate)
        ((displays_of_keepsInspected old hkeeps).trans hstate)
    | selected hbranch hmem =>
      cases hstate
      subst hbranch
      exact hkept hsaves.artifacts hsaves.states hbase hmem rfl
    | compared hmem hchanges =>
      cases hstate
      exact ⟨_, hchanges⟩

theorem Call.atomic [DecidableEq F] (hfaithful : engine.Faithful) (call : Call F)
    {s : StudyBundle F} (hcall : DisplaysBaseBuses engine s call) :
    Atomic engine s (call.run engine s) := by
  have houtcome := call.outcome engine s
  revert houtcome
  generalize call.run engine s = outcome
  intro houtcome
  cases houtcome with
  | refused _ => exact rfl
  | @published mid new experiment comparison hold heffect hpublishes =>
    have hnew := valid_of_validate hpublishes.valid
    have hpublished : Published engine call s new := ⟨hold, mid, heffect, hpublishes⟩
    have hkeeps := hpublished.keeps hfaithful
    have hrevision := hpublishes.revision
    have hchanges := heffect.demandChanges hold hcall
    obtain ⟨report, hreport⟩ := hnew.operationResult (by rw [hrevision]; exact hchanges)
      experiment comparison
    rw [hreport]
    refine ⟨?_, hpublishes.valid, hkeeps, hnew.orderNodup⟩
    rw [hrevision, hpublishes.current]
    rfl

/-- In a run from a valid bundle, with requests that display states with the
buses of the base case, every request is atomic and everything is kept. -/
theorem history_is_append_only [DecidableEq F] (hfaithful : engine.Faithful)
    {start s : StudyBundle F} (hstart : start.validate engine = .ok ())
    (hreached : Reaches engine (fun s call => DisplaysBaseBuses engine s call) start s) :
    s.validate engine = .ok () ∧ Keeps start s ∧
      ∀ call : Call F, DisplaysBaseBuses engine s call → Atomic engine s (call.run engine s) :=
  ⟨hreached.validate hstart, hreached.keeps hfaithful,
    fun call hcall => call.atomic hfaithful hcall⟩

/-- The comparison of the buses of a state with those of the base case. -/
def comparedBuses (engine : Engine F) (bundle : StudyBundle F) (state : String) :
    Option (Except String Unit) := do
  let base ← bundle.document.baseInput
  let artifact ← bundle.artifacts[base]?
  let baseNetwork ← (inputNetwork engine artifact.text).toOption
  let network ← (bundle.stateNetwork engine state).toOption
  some (sameBusIdentities baseNetwork network)

theorem sameBuses_of_comparedBuses {bundle : StudyBundle F} {state : String}
    (h : bundle.comparedBuses engine state = some (.ok ())) : SameBuses engine bundle state := by
  intro base artifact baseNetwork network hbase hartifact hinput hnetwork
  simpa [comparedBuses, hbase, hartifact, hinput, hnetwork, Except.toOption] using h

/-- Bus 1 takes 5 MW more than in the saved case. -/
def raised (root : String) : Call ℚ :=
  { request :=
      { expectedRevision := 0
        operation := .editDemand root none false [⟨.id 1, 5⟩] "" }
    answers := fun _ => false }

def inspected (state : String) : Call ℚ :=
  { request := { expectedRevision := 1, operation := .inspect state }, answers := fun _ => false }

/-- An empty study has no case to inspect. -/
example : ((StudyBundle.empty "s" "").map fun bundle =>
    ((inspected "").run Sample.engine bundle).1.isOk) = .ok false := by
  decide +kernel

/-- The edited case is inspected after the edit that made it. -/
theorem history_is_append_only_oneBus : ∃ bundle edited state,
    Sample.opened none (Sample.oneBus 1 10) = .ok bundle ∧
      Reaches Sample.engine (fun s call => DisplaysBaseBuses Sample.engine s call) bundle edited ∧
      edited.document.revision = 1 ∧ edited.document.inspectedState = some state ∧
      Keeps bundle edited ∧
      ((inspected state).run Sample.engine edited).2.document.revision = 2 ∧
      Atomic Sample.engine edited ((inspected state).run Sample.engine edited) := by
  obtain ⟨bundle, hopened, hrun⟩ := exists_ok_of (x := Sample.opened none (Sample.oneBus 1 10))
    (p := fun bundle => bundle.document.appliedState.any fun root =>
      let edited := ((raised root).run Sample.engine bundle).2
      edited.document.inspectedState.any fun state =>
        edited.document.revision = 1 ∧
          edited.comparedBuses Sample.engine state = some (.ok ()) ∧
          ((inspected state).run Sample.engine edited).2.document.revision = 2)
    (by decide +kernel)
  obtain ⟨root, -, hrun⟩ := Option.any_eq_true _ _ |>.mp hrun
  obtain ⟨state, hstate, hrun⟩ := Option.any_eq_true _ _ |>.mp hrun
  obtain ⟨hrevision, hbuses, hnext⟩ := of_decide_eq_true hrun
  have hreached : Reaches Sample.engine (fun s call => DisplaysBaseBuses Sample.engine s call)
      bundle ((raised root).run Sample.engine bundle).2 :=
    .step (raised root) .start (by rintro _ ⟨⟩)
  obtain ⟨-, hkeeps, hatomic⟩ :=
    history_is_append_only Sample.faithful (Sample.opened_validates hopened) hreached
  refine ⟨bundle, _, state, hopened, hreached, hrevision, hstate, hkeeps, hnext, hatomic _ ?_⟩
  rintro shown ⟨⟩
  exact sameBuses_of_comparedBuses hbuses

/-- Bus 2 is inspected in a study whose base case is bus 1. The request returns
an error, and the bundle has moved to the next revision. -/
theorem inspect_errs_after_publishing : ∃ bundle state,
    Sample.rebased = .ok bundle ∧ bundle.validate Sample.engine = .ok () ∧
      bundle.document.inspectedState = some state ∧ bundle.document.revision = 0 ∧
      let call : Call ℚ :=
        { request := { expectedRevision := 0, operation := .inspect state }
          answers := fun _ => false }
      let outcome := call.run Sample.engine bundle
      outcome.1.isOk = false ∧ outcome.2.document.revision = 1 ∧
        ¬ Atomic Sample.engine bundle outcome := by
  let inspect (state : String) : Call ℚ :=
    { request := { expectedRevision := 0, operation := .inspect state }, answers := fun _ => false }
  obtain ⟨bundle, hrebased, hvalidate, hrevision, hrun⟩ := exists_ok_of (x := Sample.rebased)
    (p := fun bundle => bundle.validate Sample.engine = .ok () ∧ bundle.document.revision = 0 ∧
      bundle.document.inspectedState.any fun state =>
        let outcome := (inspect state).run Sample.engine bundle
        !outcome.1.isOk && outcome.2.document.revision == 1) (by decide +kernel)
  obtain ⟨state, hstate, hrun⟩ := Option.any_eq_true _ _ |>.mp hrun
  simp only [Bool.and_eq_true, Bool.not_eq_true', beq_iff_eq] at hrun
  refine ⟨bundle, state, hrebased, hvalidate, hstate, hrevision, hrun.1, hrun.2, ?_⟩
  intro hatomic
  unfold Atomic at hatomic
  split at hatomic
  · next hresult =>
      rw [hresult, hatomic] at hrun
      simp only at hrun
      omega
  · next hresult =>
      rw [hresult] at hrun
      cases hrun.1

end StudyBundle

end Tellegen
