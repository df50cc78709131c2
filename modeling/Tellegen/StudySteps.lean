import Tellegen.StudyOps
import Tellegen.Validation

/-!
What each study operation can do. `Saves` covers the part of an operation that
files artifacts and states, and `Effect` has one case for each operation: the
bundle it leaves, as the bundle it found with the records and pointers it
wrote. Every invariant of a study is derived from `Effect` by cases.

`perform_spec` is the inversion lemma. It also says that no arm of
`execute_study` crashes on a valid bundle, whatever the host answers at the
checkpoints.
-/

open Binary64 Outcome Std
open Program (wp Checkpoint)

set_option linter.unusedSectionVars false

namespace Tellegen

variable {F : Type} [Binary64 F]

/-- The state carries a solution and a view. -/
def StateNode.Solved (node : StateNode) : Prop := node.solution.isSome ∧ node.view.isSome

namespace StudyOperation

def AddsExperiment : StudyOperation F → Prop
  | .inspect _ | .reviseGoal _ | .apply _ _ _ _ => False
  | _ => True

/-- The operations that may name a state to apply. -/
def Recommends : StudyOperation F → Prop
  | .propose _ _ _ _ | .editDemand _ _ _ _ _ | .restoreBase _ _ _ => True
  | _ => False

/-- The operations that may leave the inspected state as it was. An edit of a
saved case always moves it to its result. -/
def KeepsInspected : StudyOperation F → Prop
  | .reviseGoal _ | .compare _ _ _ | .propose _ _ _ _ | .recordEvidence _ _ _ _ _ _ => True
  | .editDemand _ goal constrainToGoal _ _ => goal.isSome ∧ constrainToGoal = true
  | .inspect _ | .branch _ _ | .restoreBase _ _ _ | .apply _ _ _ _ => False

end StudyOperation

namespace StudyBundle

variable {engine : Engine F}

/-! ### Filing records -/

section Filing

variable (Q : String → StudyBundle F → Prop) (s : StudyBundle F)

@[simp] theorem wp_addArtifact (kind : ArtifactKind) (text : String) :
    wp (addArtifact engine kind text) Q s ↔
      ∀ identity, validateArtifact engine { kind, text } = .ok identity →
        let id := recordId engine (StudyArtifact.toJson { kind, text })
        Q id (s.insertArtifact id { kind, text }) := by
  simp [addArtifact]

@[simp] theorem wp_addState (node : StateNode) :
    wp (addState engine node) Q s ↔
      Q (recordId engine node.toJson) (s.insertState (recordId engine node.toJson) node) := by
  simp [addState]

def experimentId (engine : Engine F) (bundle : StudyBundle F) (e : ExperimentRecord F) : String :=
  recordId engine (.arr [Json.ofNat bundle.document.experimentOrder.length, e.toJson])

@[simp] theorem wp_addExperiment (e : ExperimentRecord F) :
    wp (addExperiment engine e) Q s ↔
      Q (experimentId engine s e) (s.insertExperiment (experimentId engine s e) e) := by
  simp [addExperiment, experimentId]

@[simp] theorem wp_addDecision (decision : DecisionRecord) :
    wp (addDecision engine decision) Q s ↔
      Q (recordId engine decision.toJson)
        (s.insertDecision (recordId engine decision.toJson) decision) := by
  simp [addDecision]

@[simp] theorem wp_inspect (Q : Unit → StudyBundle F → Prop) (state : String) :
    wp (inspect state) Q s ↔ (state ∈ s.document.states → Q () (s.setInspected state)) := by
  simp [inspect]

@[simp] theorem wp_stopIfCancelled (Q : Unit → StudyBundle F → Prop) :
    wp stopIfCancelled Q s ↔ Q () s := by
  simp only [stopIfCancelled, Program.wp_bind, Program.wp_cancelled, Program.wp_liftM, safe_refuse,
    refuse_eq_ok, true_and]
  exact ⟨fun h => h false () (by simp), fun h _ _ _ => h⟩

end Filing

/-- The bundle with other artifacts and states, and everything else kept. -/
def withSaved (artifacts : Records StudyArtifact) (states : Records StateNode)
    (bundle : StudyBundle F) : StudyBundle F :=
  { bundle with artifacts, document := { bundle.document with states } }

/-- Artifacts and states were filed, and nothing else changed. Every new state
satisfies `P`. -/
structure Saves (P : StateNode → Prop) (old new : StudyBundle F) : Prop where
  artifacts : old.artifacts.Extends new.artifacts
  states : old.document.states.Extends new.document.states
  added : ∀ (id : String) (node : StateNode), new.document.states[id]? = some node →
    old.document.states[id]? = some node ∨ P node
  rest : new = old.withSaved new.artifacts new.document.states

namespace Saves

variable {P : StateNode → Prop} {a b c : StudyBundle F}

theorem refl (a : StudyBundle F) : Saves P a a :=
  ⟨.refl _, .refl _, fun _ _ h => .inl h, rfl⟩

theorem trans (hab : Saves P a b) (hbc : Saves P b c) : Saves P a c := by
  refine ⟨hab.artifacts.trans hbc.artifacts, hab.states.trans hbc.states, ?_, ?_⟩
  · intro id node hnode
    rcases hbc.added id node hnode with hb | hnew
    · exact hab.added id node hb
    · exact .inr hnew
  · have hb := hab.rest
    have hc := hbc.rest
    rw [hb] at hc
    exact hc

theorem insertArtifact (a : StudyBundle F) (id : String) (artifact : StudyArtifact) :
    Saves P a (a.insertArtifact id artifact) :=
  ⟨Records.Extends.insertIfNew _ _ _, .refl _, fun _ _ h => .inl h, rfl⟩

theorem insertState (a : StudyBundle F) (id : String) {node : StateNode} (h : P node) :
    Saves P a (a.insertState id node) := by
  refine ⟨.refl _, Records.Extends.insertIfNew _ _ _, ?_, rfl⟩
  intro other kept hkept
  change (a.document.states.insertIfNew id node)[other]? = some kept at hkept
  rw [Records.get?_insertIfNew] at hkept
  split at hkept
  · cases hkept
    exact .inr h
  · exact .inl hkept

theorem mono {Q : StateNode → Prop} (h : Saves P a b) (hPQ : ∀ node, P node → Q node) :
    Saves Q a b :=
  ⟨h.artifacts, h.states, fun id node hnode => (h.added id node hnode).imp_right (hPQ node), h.rest⟩

theorem experimentId (h : Saves P a b) (e : ExperimentRecord F) :
    b.experimentId engine e = a.experimentId engine e := by
  rw [h.rest]
  rfl

end Saves

/-! ### Filing a solved state -/

def Backed (engine : Engine F) (id : String) : Prop :=
  ∃ node : StateNode, id = recordId engine node.toJson ∧ node.Solved

theorem mem_insertState (a : StudyBundle F) (id : String) (node : StateNode) :
    id ∈ (a.insertState id node).document.states := by
  obtain ⟨kept, hkept, -⟩ := Records.mem_insertIfNew_self a.document.states id node
  exact (Records.mem_iff _ _).mpr ⟨kept, hkept⟩

theorem captureState_spec (candidate : ExactCandidate F) (parent : Option String) (label : String)
    (s : StudyBundle F) :
    wp (captureState engine candidate parent label) (fun id new =>
      Saves StateNode.Solved s new ∧ Backed engine id ∧ id ∈ new.document.states) s := by
  simp only [captureState, Program.wp_bind, Program.wp_liftM, safe_lift, true_and, wp_addArtifact,
    wp_addState]
  intro view _ _ _ _ _ _ _
  refine ⟨?_, ⟨_, rfl, rfl, rfl⟩, mem_insertState _ _ _⟩
  refine Saves.trans ?_ (Saves.insertState _ _ ⟨rfl, rfl⟩)
  refine Saves.trans ?_ (Saves.insertArtifact _ _ _)
  refine Saves.trans ?_ (Saves.insertArtifact _ _ _)
  exact Saves.insertArtifact _ _ _

/-! ### Effects -/

/-- How an operation that adds an experiment ends. -/
structure Conclusion (F : Type) where
  record : ExperimentRecord F
  decision : Option DecisionRecord
  inspected : Option String
  recommended : Option String

def decide (engine : Engine F) (decision : Option DecisionRecord) (bundle : StudyBundle F) :
    StudyBundle F :=
  match decision with
  | none => bundle
  | some decision => bundle.insertDecision (recordId engine decision.toJson) decision

def conclude (engine : Engine F) (c : Conclusion F) (bundle : StudyBundle F) : StudyBundle F :=
  let filed := bundle.insertExperiment (experimentId engine bundle c.record) c.record
  let decided := filed.decide engine c.decision
  { decided with
    document := { decided.document with
      inspectedState := c.inspected, recommendedState := c.recommended } }

/-- A case edit that ends in a solved state: the case it writes can be solved. -/
def Solvable (engine : Engine F) (bundle : StudyBundle F) (stateId : String)
    (adjustments : Option (List (DemandAdjustment F))) : Prop :=
  ∀ node network label input, bundle.document.states[stateId]? = some node →
    editedCase engine bundle stateId adjustments = .ok (network, label) →
    engine.serializeModule (engine.newModule (.balancedNetwork network)) = .ok input →
    (Study.new engine input node.formulation).isOk

/-- `Solvable` as a computation. -/
def canSolve (engine : Engine F) (bundle : StudyBundle F) (stateId : String)
    (adjustments : Option (List (DemandAdjustment F))) : Bool :=
  match bundle.document.states[stateId]?, editedCase engine bundle stateId adjustments with
  | some node, .ok (network, _) =>
    match engine.serializeModule (engine.newModule (.balancedNetwork network)) with
    | .ok input => (Study.new engine input node.formulation).isOk
    | .error _ => true
  | _, _ => true

theorem canSolve_iff (bundle : StudyBundle F) (stateId : String)
    (adjustments : Option (List (DemandAdjustment F))) :
    bundle.canSolve engine stateId adjustments ↔ Solvable engine bundle stateId adjustments := by
  unfold canSolve Solvable
  cases hnode : bundle.document.states[stateId]? with
  | none => simp
  | some node =>
    cases hcase : editedCase engine bundle stateId adjustments with
    | error failure => simp
    | ok edited =>
      obtain ⟨network, label⟩ := edited
      cases hinput : engine.serializeModule
          (engine.newModule (.balancedNetwork network)) with
      | error message =>
        simp only [hinput, Option.some.injEq, Except.ok.injEq, Prod.mk.injEq, true_iff]
        rintro _ _ _ input rfl ⟨rfl, -⟩ hok
        rw [hinput] at hok
        cases hok
      | ok input =>
        simp only [hinput, Option.some.injEq, Except.ok.injEq, Prod.mk.injEq]
        constructor
        · rintro hsolves _ _ _ text rfl ⟨rfl, -⟩ hok
          rw [hinput] at hok
          cases hok
          exact hsolves
        · exact fun h => h node network label input rfl ⟨rfl, rfl⟩ hinput

instance (bundle : StudyBundle F) (stateId : String)
    (adjustments : Option (List (DemandAdjustment F))) :
    Decidable (Solvable engine bundle stateId adjustments) :=
  decidable_of_iff _ (canSolve_iff bundle stateId adjustments)

/-- The recommendations that no solve of the operation itself stands behind:
the start of a search, and an edited case that could not be solved. -/
inductive Unbacked (engine : Engine F) (old : StudyBundle F) : StudyOperation F → String → Prop
  | start {state goal options rationale} (hstate : state ∈ old.document.states) :
      Unbacked engine old (.propose state goal options rationale) state
  | edit {state goal constrain changes rationale result}
      (hroute : goal = none ∨ constrain = false)
      (hunsolvable : ¬ Solvable engine old state (some changes)) :
      Unbacked engine old (.editDemand state goal constrain changes rationale) result
  | restore {state goal rationale result} (hunsolvable : ¬ Solvable engine old state none) :
      Unbacked engine old (.restoreBase state goal rationale) result

/-- The state inspected after an operation that adds an experiment: the one
before, the branch selected, or a new state already compared to the base. -/
inductive Shows (engine : Engine F) (old : StudyBundle F) (op : StudyOperation F)
    (mid : StudyBundle F) : Option String → Prop
  | kept (hop : op.KeepsInspected) : Shows engine old op mid old.document.inspectedState
  | selected {state rationale} (hop : op = .branch state rationale)
      (hstate : state ∈ old.document.states) : Shows engine old op mid (some state)
  | compared {state changes} (hstate : state ∈ mid.document.states)
      (hchanges : mid.demandChanges engine state = .ok changes) :
      Shows engine old op mid (some state)

/-- The recommendation after an operation that adds an experiment. -/
inductive Advises (engine : Engine F) (old : StudyBundle F) (op : StudyOperation F)
    (record : ExperimentRecord F) : Option String → Prop
  | kept : Advises engine old op record old.document.recommendedState
  | cleared : Advises engine old op record none
  | recommended {state} (hop : op.Recommends) (hgoal : record.goal = old.document.activeGoal)
      (hresult : state ∈ record.resultStates)
      (hbacked : Backed engine state ∨ Unbacked engine old op state) :
      Advises engine old op record (some state)

structure Concludes (engine : Engine F) (old : StudyBundle F) (op : StudyOperation F)
    (mid : StudyBundle F) (c : Conclusion F) : Prop where
  adds : op.AddsExperiment
  saves : Saves (fun _ => True) old mid
  shows : Shows engine old op mid c.inspected
  advises : Advises engine old op c.record c.recommended
  decision : ∀ decision, c.decision = some decision → decision.choice = .recommend

def applyDecision (proposal state : String) (record : ExperimentRecord F) : DecisionRecord :=
  { experiment := proposal, state := some state, choice := .apply, rationale := applyRationale
    evidence := record.evidence }

def applied (engine : Engine F) (proposal state : String) (record : ExperimentRecord F)
    (bundle : StudyBundle F) : StudyBundle F :=
  let decision := applyDecision proposal state record
  ((bundle.insertDecision (recordId engine decision.toJson) decision).setApplied state).setInspected
    state

/-- The bundle that each operation leaves. -/
inductive Effect (engine : Engine F) (old : StudyBundle F) :
    StudyOperation F → StudyBundle F → Prop
  | inspect {state} (hstate : state ∈ old.document.states) :
      Effect engine old (.inspect state) (old.setInspected state)
  | reviseGoal {goal anchor} (hanchor : old.document.states[goal.anchorState]? = some anchor)
      (hdecisions : goal.decisions.validate anchor.formulation = .ok ())
      (hobjective : goal.objective.validate goal.decisions = .ok ())
      (hparent : goal.parent = old.document.activeGoal) :
      Effect engine old (.reviseGoal goal) (old.setGoal (recordId engine goal.toJson) goal)
  | conclude {op mid c} (h : Concludes engine old op mid c) :
      Effect engine old op (mid.conclude engine c)
  | apply {proposal state goal baseState record}
      (hrecord : old.document.experiments[proposal]? = some record)
      (happroves : Approves old record state goal baseState)
      (hstate : state ∈ old.document.states) :
      Effect engine old (.apply proposal state goal baseState)
        (old.applied engine proposal state record)

/-! ### Readings outlive filing -/

theorem stateNetwork_of_extends {a b : StudyBundle F} {state : String} {network : engine.Network}
    (hartifacts : a.artifacts.Extends b.artifacts)
    (hstates : a.document.states.Extends b.document.states)
    (h : a.stateNetwork engine state = .ok network) : b.stateNetwork engine state = .ok network := by
  unfold stateNetwork at h ⊢
  cases hnode : a.document.states[state]? with
  | none => simp [hnode] at h
  | some node =>
    cases hinput : a.artifacts[node.input]? with
    | none => simp [hnode, hinput] at h
    | some artifact =>
      simp only [hnode, hinput] at h
      simp only [hstates _ _ hnode, hartifacts _ _ hinput, h]

theorem demandChanges_of_extends {a b : StudyBundle F} {state : String}
    {changes : Option (List (DemandChange F))}
    (hartifacts : a.artifacts.Extends b.artifacts)
    (hstates : a.document.states.Extends b.document.states)
    (hbase : b.document.baseInput = a.document.baseInput)
    (h : a.demandChanges engine state = .ok changes) :
    b.demandChanges engine state = .ok changes := by
  unfold demandChanges at h ⊢
  rw [hbase]
  cases hinput : a.document.baseInput with
  | none => simpa [hinput] using h
  | some base =>
    cases hartifact : a.artifacts[base]? with
    | none => simp [hinput, hartifact] at h
    | some artifact =>
      simp only [hinput, hartifact, bind_eq_ok] at h
      obtain ⟨baseNetwork, hnetwork, current, hcurrent, _, hsame, hchanges⟩ := h
      have hcurrent := stateNetwork_of_extends hartifacts hstates hcurrent
      simp only [hartifacts _ _ hartifact, hnetwork, hcurrent, hsame, bind, Except.bind]
      exact hchanges

/-! ### Edits of a saved case -/

section Edits

variable {s : StudyBundle F}

theorem Valid.base_mem (h : Valid engine s) {base : String}
    (hbase : s.document.baseInput = some base) : base ∈ s.artifacts := by
  obtain ⟨artifact, _, hartifact, -⟩ := h.base base hbase
  exact (Records.mem_iff _ _).mpr ⟨artifact, hartifact⟩

theorem Valid.input_mem (h : Valid engine s) {id : String} {node : StateNode}
    (hnode : s.document.states[id]? = some node) : node.input ∈ s.artifacts := by
  obtain ⟨artifact, _, hartifact, -⟩ := (h.states id node hnode).input
  exact (Records.mem_iff _ _).mpr ⟨artifact, hartifact⟩

theorem safe_editedCase (h : Valid engine s) (stateId : String)
    (adjustments : Option (List (DemandAdjustment F))) :
    Safe (editedCase engine s stateId adjustments) := by
  cases adjustments with
  | none =>
    simp only [editedCase, safe_bind, safe_okOr, safe_lift, okOr_eq_ok, true_and]
    intro base hbase
    exact ⟨(Records.safe_index _ _).mpr (h.base_mem hbase), fun _ _ _ _ => safe_pure _⟩
  | some adjustments => simp [editedCase, safe_bind]

theorem captureEdited_spec (stateId : String) (node : StateNode) (label input : String) :
    wp (captureEdited engine stateId node label input) (fun result new =>
      Saves (fun _ => True) s new ∧ result.1 ∈ new.document.states ∧
        ((Study.new engine input node.formulation).isOk → Backed engine result.1)) s := by
  unfold captureEdited
  split
  · next study hstudy =>
      simp only [Program.wp_bind, Program.wp_liftM, safe_lift, true_and]
      intro exact hexact
      refine (captureState_spec exact (some stateId) label s).mono ?_
      rintro id new ⟨hsaves, hbacked, hmem⟩
      exact ⟨hsaves.mono fun _ _ => trivial, hmem, fun _ => hbacked⟩
  · next error hstudy =>
      simp only [Program.wp_bind, wp_addArtifact, wp_addState, Program.wp_pure]
      intro identity hidentity
      refine ⟨?_, mem_insertState _ _ _, ?_⟩
      · exact Saves.trans (Saves.insertArtifact _ _ _) (Saves.insertState _ _ trivial)
      · intro hok
        rw [hstudy] at hok
        cases hok

def savedConclusion (record : ExperimentRecord F) (result : String) : Conclusion F :=
  { record, decision := none, inspected := some result, recommended := some result }

theorem editSavedCase_spec (h : Valid engine s) (stateId : String) (goal : Option String)
    (adjustments : Option (List (DemandAdjustment F))) (rationale : String) :
    wp (editSavedCase engine stateId goal adjustments rationale) (fun _ new =>
      ∃ mid record result changes, new = mid.conclude engine (savedConclusion record result) ∧
        Saves (fun _ => True) s mid ∧ result ∈ mid.document.states ∧
        mid.demandChanges engine result = .ok changes ∧ record.goal = goal ∧
        record.resultStates = [result] ∧
        (Solvable engine s stateId adjustments → Backed engine result)) s := by
  simp only [editSavedCase, Program.wp_bind, wp_stopIfCancelled, Program.wp_get,
    Program.wp_liftM, safe_okOr, safe_lift, okOr_eq_ok, lift_eq_ok, true_and]
  intro node hnode
  refine ⟨safe_editedCase h stateId adjustments, ?_⟩
  rintro ⟨network, label⟩ hcase input hinput
  refine (captureEdited_spec stateId node label input).mono ?_
  rintro ⟨result, failure⟩ saved ⟨hsaves, hmem, hbacked⟩
  simp only [Program.wp_bind, Program.wp_get, Program.wp_liftM, safe_lift, lift_eq_ok, true_and,
    wp_addArtifact, wp_addExperiment, wp_inspect, Program.wp_modify, Program.wp_pure]
  intro changes hchanges identity hidentity _
  refine ⟨_, _, result, changes, rfl, hsaves.trans (Saves.insertArtifact _ _ _), hmem, ?_, rfl, rfl,
    fun hsolvable => hbacked (hsolvable node network label input hnode hcase hinput)⟩
  exact demandChanges_of_extends (Records.Extends.insertIfNew _ _ _) (.refl _) rfl hchanges

/-! ### Edits under a goal -/

theorem Valid.anchor_mem (h : Valid engine s) {id : String} {goal : GoalRevision F}
    (hgoal : s.document.goals[id]? = some goal) : goal.anchorState ∈ s.document.states :=
  (h.goals id goal hgoal).anchor

theorem safe_planEdit (h : Valid engine s) {goal : GoalRevision F}
    (hanchor : goal.anchorState ∈ s.document.states) (state : StateNode)
    (anchor current : engine.Network) (changes : List F)
    (adjustments : List (DemandAdjustment F)) :
    Safe (planEdit engine s goal state anchor current changes adjustments) := by
  simp only [planEdit, safe_bind, safe_refuse, safe_lift, Records.index_eq_ok, true_and]
  intro _ _ _ _ _ _ _ _ _ _ _ _ _ _
  refine ⟨(Records.safe_index _ _).mpr hanchor, fun node hnode => ?_⟩
  exact ⟨(Records.safe_index _ _).mpr (h.input_mem hnode), fun _ _ => safe_pure _⟩

theorem safe_planRestore (h : Valid engine s) (goal : GoalRevision F) (state : StateNode)
    (anchor current : engine.Network) : Safe (planRestore engine s goal state anchor current) := by
  simp only [planRestore, safe_bind, safe_okOr, safe_lift, okOr_eq_ok, true_and]
  intro base hbase
  exact ⟨(Records.safe_index _ _).mpr (h.base_mem hbase), fun _ _ _ _ _ _ _ _ => safe_pure _⟩

theorem safe_planCounterfactual (h : Valid engine s) (stateId goalId : String)
    (adjustments : Option (List (DemandAdjustment F))) :
    Safe (planCounterfactual engine s stateId goalId adjustments) := by
  simp only [planCounterfactual, safe_bind, safe_okOr, safe_refuse, safe_lift, okOr_eq_ok, true_and]
  intro goal hgoal state _
  have hanchor := h.anchor_mem hgoal
  refine ⟨(Records.safe_index _ _).mpr hanchor, fun _ _ _ _ _ _ _ _ _ _ => ?_⟩
  cases adjustments with
  | none =>
    rw [safe_bind]
    exact ⟨safe_planRestore h goal state _ _, fun _ _ => safe_pure _⟩
  | some adjustments =>
    rw [safe_bind]
    exact ⟨safe_planEdit h hanchor state _ _ _ adjustments, fun _ _ => safe_pure _⟩

/-- How the recording of a plan's outcome leaves the bundle: as it was, or with
the new state filed and inspected. -/
inductive Recorded (engine : Engine F) (old : StudyBundle F) (record : ExperimentRecord F) :
    ExperimentRecord F × Option String → StudyBundle F → Prop
  | failed {error} : Recorded engine old record ({ record with termination := error }, none) old
  | filed {mid next candidate state changes} (hsaves : Saves (fun _ => True) old mid)
      (hstate : state ∈ mid.document.states) (hbacked : Backed engine state)
      (hchanges : mid.demandChanges engine state = .ok changes)
      (hgoal : next.goal = record.goal) (hresult : state ∈ next.resultStates)
      (hcandidate : candidate = none ∨ candidate = some state) :
      Recorded engine old record (next, candidate) (mid.setInspected state)

theorem recordPlan_spec (stateId : String) (restore permittedTotal : Bool) (label : String)
    (record : ExperimentRecord F) (outcome : Except String (ExactCandidate F)) :
    wp (recordPlan engine stateId restore permittedTotal label record outcome)
      (Recorded engine s record) s := by
  cases outcome with
  | error error => exact .failed
  | ok exact =>
    simp only [recordPlan, Program.wp_bind]
    refine (captureState_spec exact (some stateId) label s).mono ?_
    rintro state saved ⟨hsaves, hbacked, hmem⟩
    simp only [Program.wp_bind, Program.wp_get, Program.wp_liftM, safe_lift, lift_eq_ok, true_and,
      wp_addArtifact, wp_inspect, Program.wp_pure]
    intro changes hchanges identity hidentity _
    refine .filed ((hsaves.mono fun _ _ => trivial).trans (Saves.insertArtifact saved _ _)) hmem
      hbacked
      (demandChanges_of_extends (Records.Extends.insertIfNew _ _ _) (.refl _) rfl hchanges) rfl ?_ ?_
    · exact List.mem_append_right _ (List.mem_singleton_self _)
    · cases restore || permittedTotal
      · exact .inl rfl
      · exact .inr rfl

def recommendation (experiment : String) (evidence : List String) (rationale : String)
    (candidate : Option String) : Option DecisionRecord :=
  candidate.map fun state =>
    { experiment, state := some state, choice := .recommend, rationale, evidence }

theorem recommendation_choice {experiment rationale : String} {evidence : List String}
    {candidate : Option String} {decision : DecisionRecord}
    (h : recommendation experiment evidence rationale candidate = some decision) :
    decision.choice = .recommend := by
  obtain ⟨state, -, rfl⟩ := Option.map_eq_some_iff.mp h
  rfl

@[simp] theorem wp_recommend (Q : Unit → StudyBundle F → Prop) (s : StudyBundle F)
    (experiment : String) (evidence : List String) (rationale : String)
    (candidate : Option String) :
    wp (recommend engine experiment evidence rationale candidate) Q s ↔
      Q () (s.decide engine (recommendation experiment evidence rationale candidate)) := by
  cases candidate <;> simp [recommend, recommendation, decide]

theorem counterfactual_spec (h : Valid engine s) {stateId : String} {goalId : Option String}
    {adjustments : Option (List (DemandAdjustment F))} {constrainToGoal : Bool} {rationale : String}
    {op : StudyOperation F}
    (hop : (∃ changes, adjustments = some changes ∧
        op = .editDemand stateId goalId constrainToGoal changes rationale) ∨
      (adjustments = none ∧ constrainToGoal = false ∧ op = .restoreBase stateId goalId rationale)) :
    wp (counterfactual engine stateId goalId adjustments constrainToGoal rationale)
      (fun _ new => ∃ mid c, new = mid.conclude engine c ∧ Concludes engine s op mid c) s := by
  have hadds : op.AddsExperiment ∧ op.Recommends := by
    rcases hop with ⟨_, -, rfl⟩ | ⟨-, -, rfl⟩ <;> exact ⟨trivial, trivial⟩
  simp only [counterfactual, Program.wp_bind, Program.wp_get, Program.wp_liftM, safe_refuse,
    refuse_eq_ok, not_not, true_and]
  rintro - hactive
  split
  · next goalId =>
      -- The goal constrains the edit.
      simp only [Program.wp_bind, Program.wp_liftM]
      refine ⟨safe_planCounterfactual h stateId goalId adjustments, ?_⟩
      rintro ⟨goal, plan⟩ -
      simp only [Program.wp_bind, Program.wp_await]
      refine Checkpoint.All.of_forall fun outcome => ?_
      refine (recordPlan_spec stateId adjustments.isNone _ plan.label _ outcome.1).mono ?_
      rintro ⟨record, candidate⟩ saved hrecorded
      simp only [Program.wp_bind, wp_addExperiment, Program.wp_modify, wp_recommend, Program.wp_pure]
      have hkeeps : op.KeepsInspected := by
        rcases hop with ⟨_, -, rfl⟩ | ⟨-, hconstrain, -⟩
        · exact ⟨rfl, rfl⟩
        · cases hconstrain
      cases hrecorded with
      | failed =>
        refine ⟨s, ⟨_, none, s.document.inspectedState, none⟩, rfl, hadds.1, .refl s, .kept hkeeps,
          .cleared, by simp⟩
      | @filed mid _ _ state changes hsaves hstate hbacked hchanges hgoal hresult hcandidate =>
        let decision := recommendation (mid.experimentId engine record) record.evidence
          (planRationale adjustments.isNone) candidate
        refine ⟨mid, ⟨record, decision, some state, candidate⟩, ?_, hadds.1, hsaves,
          .compared hstate hchanges, ?_, fun _ => recommendation_choice⟩
        · cases candidate <;> rfl
        rcases hcandidate with rfl | rfl
        · exact .cleared
        · exact .recommended hadds.2 (hgoal.trans hactive.symm) hresult (.inl hbacked)
  · next hroute =>
      refine (editSavedCase_spec h stateId goalId adjustments rationale).mono ?_
      rintro id new ⟨mid, record, result, changes, rfl, hsaves, hmem, hchanges, hgoal, hresults,
        hsolvable⟩
      refine ⟨mid, _, rfl, hadds.1, hsaves, .compared hmem hchanges,
        .recommended hadds.2 (hgoal.trans hactive.symm) (by simp [savedConclusion, hresults]) ?_,
        by simp [savedConclusion]⟩
      by_cases hsolves : Solvable engine s stateId adjustments
      · exact .inl (hsolvable hsolves)
      · right
        rcases hop with ⟨changes, rfl, rfl⟩ | ⟨rfl, -, rfl⟩
        · refine .edit ?_ hsolves
          cases goalId with
          | none => exact .inl rfl
          | some goalId =>
            cases constrainToGoal with
            | false => exact .inr rfl
            | true => exact (hroute goalId rfl rfl).elim
        · exact .restore hsolves

/-! ### Proposals -/

theorem exploreAsync_safe [DecidableEq F] (goal : SearchGoal F) (changes : List F)
    (study : Study engine) :
    (exploreAsync goal changes study).All fun outcome => Safe outcome.1 := by
  unfold exploreAsync
  cases openSearch study goal changes with
  | error message => exact trivial
  | ok search =>
    rw [Checkpoint.all_bind]
    exact Checkpoint.All.of_forall fun _ => trivial

theorem searchFrom_safe [DecidableEq F] (plan : SearchPlan F) (options : SearchOptions F)
    (study : Study engine) {spent : ℕ} (hspent : spent ≤ options.maxSolves) :
    (searchFrom engine plan options study spent).All fun outcome => Safe outcome.1 := by
  rw [searchFrom, subtract_eq_ok hspent]
  split
  · exact trivial
  · simp only [Checkpoint.all_bind]
    exact (exploreAsync_safe _ _ _).mono fun _ h => h

theorem runSearch_safe [DecidableEq F] (plan : SearchPlan F) (options : SearchOptions F) :
    (runSearch engine plan options).All fun outcome => Safe outcome.1 := by
  unfold runSearch
  rw [Checkpoint.all_bind, Checkpoint.all_cancelled]
  intro cancelled
  split
  · exact trivial
  split
  · exact trivial
  next hbudget =>
  split
  · exact trivial
  split
  · rw [Checkpoint.all_bind, Checkpoint.all_cancelled]
    intro cancelled
    split
    · exact trivial
    split
    · exact trivial
    next hleft =>
    split
    · exact trivial
    · exact searchFrom_safe plan options _ (by omega)
  · exact searchFrom_safe plan options _ (by omega)

/-- What the recorded trials recommend was solved, and is among the results. -/
def TrialLog.Supported (engine : Engine F) (log : TrialLog F) : Prop :=
  ∀ state, log.recommendation = some state → state ∈ log.resultStates ∧ Backed engine state

theorem captureTrial_spec (stateId : String) (log : TrialLog F) (t : SearchTrial F)
    (s : StudyBundle F) :
    wp (captureTrial engine stateId log t) (fun saved new => Saves StateNode.Solved s new ∧
      ∀ state, saved = some state → Backed engine state) s := by
  unfold captureTrial
  split
  · exact ⟨.refl s, nofun⟩
  · simp only [Program.wp_bind]
    refine (captureState_spec _ _ _ s).mono ?_
    rintro id new ⟨hsaves, hbacked, -⟩
    refine ⟨hsaves, ?_⟩
    intro state hstate
    cases hstate
    exact hbacked

theorem recordTrial_spec (stateId : String) {log : TrialLog F} (hlog : log.Supported engine)
    (t : SearchTrial F) (s : StudyBundle F) :
    wp (recordTrial engine stateId log t) (fun next new => Saves StateNode.Solved s new ∧
      next.Supported engine) s := by
  simp only [recordTrial, Program.wp_bind]
  refine (captureTrial_spec stateId log t s).mono ?_
  rintro saved new ⟨hsaves, hbacked⟩
  simp only [Program.wp_bind, wp_addArtifact, Program.wp_pure]
  intro identity _
  refine ⟨hsaves.trans (Saves.insertArtifact _ _ _), ?_⟩
  intro state hstate
  simp only at hstate ⊢
  split at hstate
  · subst hstate
    exact ⟨by simp, hbacked state rfl⟩
  · obtain ⟨hmem, hstateBacked⟩ := hlog state hstate
    exact ⟨List.mem_append_left _ hmem, hstateBacked⟩

theorem recordTrials_spec (stateId : String) (trials : List (SearchTrial F)) {log : TrialLog F}
    (hlog : log.Supported engine) (s : StudyBundle F) :
    wp (recordTrials engine stateId trials log) (fun last new => Saves StateNode.Solved s new ∧
      last.Supported engine) s := by
  induction trials generalizing log s with
  | nil => exact ⟨.refl s, hlog⟩
  | cons t rest ih =>
    simp only [recordTrials, Program.wp_bind]
    refine (recordTrial_spec stateId hlog t s).mono ?_
    rintro next mid ⟨hsaves, hnext⟩
    refine (ih hnext mid).mono ?_
    rintro last new ⟨hrest, hlast⟩
    exact ⟨hsaves.trans hrest, hlast⟩

/-- A recommendation is a solved result, or the state searched from. -/
def Recommendable (engine : Engine F) (stateId : String) (record : ExperimentRecord F)
    (candidate : Option String) : Prop :=
  ∀ state, candidate = some state →
    state ∈ record.resultStates ∧ (Backed engine state ∨ state = stateId)

theorem recordSearch_spec (stateId : String) (record : ExperimentRecord F)
    (search : SearchResult F) (s : StudyBundle F) :
    wp (recordSearch engine stateId record search) (fun result new =>
      Saves StateNode.Solved s new ∧ result.1.goal = record.goal ∧
        Recommendable engine stateId result.1 result.2) s := by
  simp only [recordSearch, Program.wp_bind, wp_addArtifact]
  intro identity _
  refine (recordTrials_spec stateId search.trials (by rintro state ⟨⟩) _).mono ?_
  rintro log new ⟨hsaves, hlog⟩
  refine ⟨(Saves.insertArtifact _ _ _).trans hsaves, rfl, ?_⟩
  intro state hstate
  simp only at hstate ⊢
  split at hstate
  · next hstart =>
      cases hstate
      exact ⟨by simp [hstart], .inr rfl⟩
  · obtain ⟨hmem, hbacked⟩ := hlog state hstate
    exact ⟨List.mem_append_left _ hmem, .inl hbacked⟩

theorem recordOutcome_spec (stateId : String) (record : ExperimentRecord F)
    {outcome : Result (SearchResult F)} (hsafe : Safe outcome) (s : StudyBundle F) :
    wp (recordOutcome engine stateId record outcome) (fun result new =>
      Saves StateNode.Solved s new ∧ result.1.goal = record.goal ∧
        Recommendable engine stateId result.1 result.2) s := by
  cases outcome with
  | ok search => exact recordSearch_spec stateId record search s
  | error failure =>
    cases failure with
    | error message => exact ⟨.refl s, rfl, nofun⟩
    | missed => exact hsafe.elim
    | unbounded => exact hsafe.elim
    | underflow => exact hsafe.elim

theorem safe_planProposal (s : StudyBundle F) (stateId goalId : String) :
    Safe (planProposal engine s stateId goalId) := by
  simp [planProposal, safe_bind]

/-- What a proposal leaves, whatever the host answers: new solved states, an
experiment under the active goal, and perhaps a recommendation. -/
theorem proposeAsync_spec [DecidableEq F] (stateId goalId : String) (options : SearchOptions F)
    (rationale : String) (s : StudyBundle F) :
    wp (proposeAsync engine stateId goalId options rationale) (fun _ new => ∃ mid c,
      new = mid.conclude engine c ∧ Saves StateNode.Solved s mid ∧
        c.inspected = s.document.inspectedState ∧
        (∀ decision, c.decision = some decision → decision.choice = .recommend) ∧
        (c.recommended = s.document.recommendedState ∨ ∃ state, c.recommended = some state ∧
          c.record.goal = s.document.activeGoal ∧ state ∈ c.record.resultStates ∧
          (Backed engine state ∨ (state = stateId ∧ state ∈ s.document.states)))) s := by
  simp only [proposeAsync, Program.wp_bind, Program.wp_get, Program.wp_liftM, safe_planProposal,
    true_and]
  intro plan hplan
  simp only [planProposal, bind_eq_ok, refuse_eq_ok, not_not, okOr_eq_ok] at hplan
  obtain ⟨_, hactive, _, -, node, hnode, -⟩ := hplan
  have hstart : stateId ∈ s.document.states := (Records.mem_iff _ _).mpr ⟨node, hnode⟩
  simp only [Program.wp_await]
  refine (runSearch_safe plan options).mono ?_
  rintro ⟨outcome, solveCount⟩ hsafe
  rw [Program.wp_bind]
  refine (recordOutcome_spec stateId _ hsafe s).mono ?_
  rintro ⟨record, candidate⟩ mid ⟨hsaves, hgoal, hcandidate⟩
  simp only [Program.wp_bind, wp_addExperiment, wp_recommend, Program.wp_ite, Program.wp_modify,
    Program.wp_pure]
  let decision := recommendation (mid.experimentId engine record) record.evidence
    proposalRationale candidate
  have hchoice : ∀ d, decision = some d → d.choice = .recommend := fun _ => recommendation_choice
  have hrest := hsaves.rest
  constructor
  · intro hsome
    obtain ⟨state, rfl⟩ := Option.isSome_iff_exists.mp hsome
    obtain ⟨hmem, hbacked⟩ := hcandidate state rfl
    refine ⟨mid, ⟨record, decision, mid.document.inspectedState, some state⟩, rfl, hsaves, ?_,
      hchoice, .inr ⟨state, rfl, hgoal.trans hactive.symm, hmem, hbacked.imp_right ?_⟩⟩
    · rw [hrest]
      rfl
    · rintro rfl
      exact ⟨rfl, hstart⟩
  · intro hnone
    have hnone : candidate = none := by simpa using hnone
    subst hnone
    refine ⟨mid, ⟨record, decision, mid.document.inspectedState, mid.document.recommendedState⟩,
      rfl, hsaves, ?_, hchoice, .inl ?_⟩ <;>
    · rw [hrest]
      rfl

end Edits

/-! ### The arms of `execute_study` -/

/-- A conclusion that leaves every pointer as it was. -/
def quietConclusion (s : StudyBundle F) (record : ExperimentRecord F) : Conclusion F :=
  { record, decision := none, inspected := s.document.inspectedState
    recommended := s.document.recommendedState }

theorem reviseGoal_spec (goal : GoalRevision F) (s : StudyBundle F) :
    wp (reviseGoal engine goal) (fun _ new => Effect engine s (.reviseGoal goal) new) s := by
  simp only [reviseGoal, Program.wp_bind, Program.wp_get, Program.wp_liftM, safe_okOr, safe_lift,
    safe_refuse, okOr_eq_ok, lift_eq_ok, refuse_eq_ok, not_not, true_and, Program.wp_modify,
    Program.wp_pure]
  intro anchor hanchor _ hdecisions _ hobjective _ _ _ _ _ hparent
  exact .reviseGoal hanchor hdecisions hobjective hparent

theorem applyProposal_spec (proposal state : String) (goal : Option String) (baseState : String)
    (s : StudyBundle F) :
    wp (applyProposal engine proposal state goal baseState)
      (fun _ new => Effect engine s (.apply proposal state goal baseState) new) s := by
  simp only [applyProposal, Program.wp_bind, Program.wp_get, Program.wp_liftM, safe_okOr,
    safe_refuse, okOr_eq_ok, refuse_eq_ok, not_not, true_and, wp_addDecision, Program.wp_modify,
    wp_inspect, Program.wp_pure]
  intro record hrecord _ happroves hstate
  exact .apply hrecord happroves hstate

theorem perform_spec [DecidableEq F] {s : StudyBundle F} (h : Valid engine s)
    (op : StudyOperation F) :
    wp (perform engine op) (fun _ new => Effect engine s op new) s := by
  cases op with
  | inspect state =>
    simp only [perform, Program.wp_bind, wp_inspect, Program.wp_pure]
    exact fun hstate => .inspect hstate
  | branch state rationale =>
    simp only [perform, branch, Program.wp_bind, wp_inspect, Program.wp_get, wp_addExperiment,
      Program.wp_pure]
    intro hstate
    let selection (record : ExperimentRecord F) : Conclusion F :=
      { record, decision := none, inspected := some state
        recommended := s.document.recommendedState }
    exact .conclude (c := selection _) ⟨trivial, .refl s, .selected rfl hstate, .kept, by simp [selection]⟩
  | reviseGoal goal =>
    simp only [perform, Program.wp_bind]
    exact (reviseGoal_spec goal s).mono fun _ _ heffect => heffect
  | compare left right goal =>
    simp only [perform, compareAndRecord, Program.wp_bind, Program.wp_get, Program.wp_liftM,
      safe_lift, true_and, wp_addArtifact, wp_addExperiment, Program.wp_pure]
    intro comparison _ identity _
    exact .conclude (c := quietConclusion s _)
      ⟨trivial, Saves.insertArtifact _ _ _, .kept trivial, .kept, by simp [quietConclusion]⟩
  | propose state goal options rationale =>
    simp only [perform, Program.wp_bind, Program.wp_liftM, safe_lift, true_and]
    intro _ _
    refine (proposeAsync_spec state goal options rationale s).mono ?_
    rintro id new ⟨mid, c, rfl, hsaves, hinspected, hdecision, hadvises⟩
    refine .conclude ⟨trivial, hsaves.mono fun _ _ => trivial, ?_, ?_, hdecision⟩
    · rw [hinspected]
      exact .kept trivial
    · rcases hadvises with hkept | ⟨result, hrecommended, hgoal, hmem, hbacked⟩
      · rw [hkept]
        exact .kept
      · rw [hrecommended]
        refine .recommended trivial hgoal hmem (hbacked.imp_right ?_)
        rintro ⟨rfl, hstart⟩
        exact .start hstart
  | editDemand state goal constrainToGoal changes rationale =>
    simp only [perform, Program.wp_bind]
    refine (counterfactual_spec h (.inl ⟨changes, rfl, rfl⟩)).mono ?_
    rintro id new ⟨mid, c, rfl, hconcludes⟩
    exact .conclude hconcludes
  | restoreBase state goal rationale =>
    simp only [perform, Program.wp_bind]
    refine (counterfactual_spec h (.inr ⟨rfl, rfl, rfl⟩)).mono ?_
    rintro id new ⟨mid, c, rfl, hconcludes⟩
    exact .conclude hconcludes
  | recordEvidence state goal sensitivity assessedRecommendation rationale evidence =>
    simp only [perform, recordEvidence, Program.wp_bind, wp_addArtifact, wp_addExperiment,
      Program.wp_pure]
    intro identity _
    exact .conclude (c := quietConclusion s _)
      ⟨trivial, Saves.insertArtifact _ _ _, .kept trivial, .kept, by simp [quietConclusion]⟩
  | apply proposal state goal baseState =>
    simp only [perform, Program.wp_bind]
    exact (applyProposal_spec proposal state goal baseState s).mono fun _ _ heffect => heffect

end StudyBundle

end Tellegen
