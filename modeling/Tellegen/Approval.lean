import Tellegen.History

/-!
What stands behind the states that a study recommends and applies. A
recommendation belongs to an experiment under the goal in force; a goal
revision withdraws it; applying takes an explicit request that names the
recommended state, and leaves a decision.

Whether a recommended state was ever solved is another matter. An edit of a
saved case recommends its result even when the case could not be solved, and a
search may recommend the state it started from.
-/

open Binary64 Outcome Std
open Program (wp Checkpoint)

set_option linter.unusedSectionVars false

namespace Tellegen

variable {F : Type} [Binary64 F]

namespace StudyBundle

variable {engine : Engine F}

/-! ### New experiments -/

/-- The digest of the next experiment is that of no experiment on record: it
includes the position. -/
theorem Valid.experimentId_fresh (hfaithful : engine.Faithful) {s : StudyBundle F}
    (h : Valid engine s) (e : ExperimentRecord F) :
    s.experimentId engine e ∉ s.document.experiments := by
  intro hmem
  obtain ⟨position, hposition⟩ := List.getElem?_of_mem ((h.orderMem _).mpr hmem)
  obtain ⟨found, hfound⟩ := h.experiments position _ hposition
  have heq := hfaithful.position_eq hfound.filed
  have hlt := (List.getElem?_eq_some_iff.mp hposition).1
  omega

/-- The experiment that concludes an operation is on record afterwards, under a
digest that was free. -/
theorem Concludes.filed (hfaithful : engine.Faithful) {op : StudyOperation F}
    {old mid : StudyBundle F} {c : Conclusion F} (hold : Valid engine old)
    (h : Concludes engine (old.atVersion studyVersion) op mid c) :
    ∃ id, id ∉ old.document.experiments ∧
      (mid.conclude engine c).document.experiments[id]? = some c.record := by
  have hrest := h.saves.rest
  have hfresh := hold.atVersion.experimentId_fresh hfaithful c.record
  refine ⟨(old.atVersion studyVersion).experimentId engine c.record, hfresh, ?_⟩
  have hid : mid.experimentId engine c.record = _ := h.saves.experimentId c.record
  have hexperiments : mid.document.experiments = old.document.experiments := by
    rw [hrest]
    rfl
  have hconclude : (mid.conclude engine c).document.experiments =
      mid.document.experiments.insertIfNew (mid.experimentId engine c.record) c.record := by
    unfold conclude StudyBundle.decide
    cases c.decision <;> rfl
  rw [hconclude, hid, hexperiments, Records.get?_insertIfNew, if_pos ⟨rfl, hfresh⟩]

/-! ### Recommendations and approvals -/

/-- The experiment is under the goal in force and has the state as a result. -/
def Supports (bundle : StudyBundle F) (id state : String) : Prop :=
  ∃ e, bundle.document.experiments[id]? = some e ∧ e.goal = bundle.document.activeGoal ∧
    state ∈ e.resultStates

/-- A decision to apply the state is on record, of an experiment that has it as
a result. -/
def Approved (bundle : StudyBundle F) (state : String) : Prop :=
  ∃ (id : String) (decision : DecisionRecord) (e : ExperimentRecord F),
    bundle.document.decisions[id]? = some decision ∧ decision.choice = .apply ∧
    decision.state = some state ∧
    bundle.document.experiments[decision.experiment]? = some e ∧ state ∈ e.resultStates

theorem Approved.of_keeps {old new : StudyBundle F} {state : String} (h : Approved old state)
    (hkeeps : Keeps old new) : Approved new state := by
  obtain ⟨id, decision, e, hdecision, hchoice, hstate, he, hresult⟩ := h
  exact ⟨id, decision, e, hkeeps.decisions _ _ hdecision, hchoice, hstate,
    hkeeps.experiments _ _ he, hresult⟩

theorem Supports.of_keeps {old new : StudyBundle F} {id state : String} (h : Supports old id state)
    (hkeeps : Keeps old new) (hgoal : new.document.activeGoal = old.document.activeGoal) :
    Supports new id state := by
  obtain ⟨e, he, hactive, hresult⟩ := h
  exact ⟨e, hkeeps.experiments _ _ he, hactive.trans hgoal.symm, hresult⟩

/-- What stands behind the recommendation: an experiment of a certain kind. -/
def Current (kind : String → Prop) (bundle : StudyBundle F) : Prop :=
  ∀ state, bundle.document.recommendedState = some state →
    ∃ id, kind id ∧ Supports bundle id state

section Steps

variable {old mid : StudyBundle F} {op : StudyOperation F}

theorem conclude_activeGoal (a : StudyBundle F) (c : Conclusion F) :
    (a.conclude engine c).document.activeGoal = a.document.activeGoal := by
  unfold conclude StudyBundle.decide
  cases c.decision <;> rfl

theorem conclude_appliedState (a : StudyBundle F) (c : Conclusion F) :
    (a.conclude engine c).document.appliedState = a.document.appliedState := by
  unfold conclude StudyBundle.decide
  cases c.decision <;> rfl

/-- Every operation leaves a recommendation, if any, with an experiment behind
it: the one before, or the one the operation has filed. -/
theorem Effect.current (hfaithful : engine.Faithful) {kind : String → Prop}
    (hold : Valid engine old) (heffect : Effect engine (old.atVersion studyVersion) op mid)
    (hfresh : ∀ id, id ∉ old.document.experiments → kind id) (hcurrent : Current kind old) :
    Current kind mid := by
  cases heffect with
  | inspect _ => exact hcurrent
  | reviseGoal _ _ _ _ => exact nofun
  | apply _ _ _ => exact hcurrent
  | @conclude _ mid c h =>
    have hsaves := h.saves
    have hkeeps := (Keeps.of_saves hsaves).trans (.conclude engine mid c)
    have hactive : (mid.conclude engine c).document.activeGoal = old.document.activeGoal := by
      rw [conclude_activeGoal, hsaves.rest]
      rfl
    obtain ⟨id, hid, hfiled⟩ := h.filed hfaithful hold
    have hadvises := h.advises
    intro state hstate
    change c.recommended = some state at hstate
    rw [hstate] at hadvises
    generalize hsome : some state = advice at hadvises
    cases hadvises with
    | kept =>
      obtain ⟨supporter, hkind, hsupports⟩ := hcurrent state hsome.symm
      have hversioned : Supports (old.atVersion studyVersion) supporter state := hsupports
      exact ⟨supporter, hkind, hversioned.of_keeps hkeeps hactive⟩
    | cleared => cases hsome
    | recommended _ hgoal hresult _ =>
      cases hsome
      exact ⟨id, hfresh id hid, c.record, hfiled, hgoal.trans hactive.symm, hresult⟩

/-- The applied state moves only where an Apply names the recommended state, of
an experiment under the goal in force. -/
theorem Effect.applied (heffect : Effect engine old op mid) :
    mid.document.appliedState = old.document.appliedState ∨
      ∃ proposal state goal baseState, op = .apply proposal state goal baseState ∧
        mid.document.appliedState = some state ∧ old.document.recommendedState = some state ∧
        old.document.activeGoal = goal ∧ Supports old proposal state := by
  cases heffect with
  | inspect _ => exact .inl rfl
  | reviseGoal _ _ _ _ => exact .inl rfl
  | conclude h =>
    left
    rw [conclude_appliedState, h.saves.rest]
    rfl
  | @apply proposal state goal baseState record hrecord happroves _ =>
    obtain ⟨-, hgoal, -, hactive, hrecommended, hresult⟩ := happroves
    exact .inr ⟨proposal, state, goal, baseState, rfl, rfl, hrecommended, hactive, record, hrecord,
      hgoal.trans hactive.symm, hresult⟩

theorem Effect.approved (hfaithful : engine.Faithful) {proposal state baseState : String}
    {goal : Option String} (hold : Valid engine old)
    (heffect : Effect engine old (.apply proposal state goal baseState) mid) :
    Approved mid state := by
  cases heffect with
  | conclude h => exact h.adds.elim
  | @apply _ _ _ _ record hrecord happroves _ =>
    obtain ⟨-, -, -, -, -, hresult⟩ := happroves
    let decision := applyDecision proposal state record
    obtain ⟨kept, hkept, hsame⟩ := Records.mem_insertIfNew_self old.document.decisions
      (recordId engine (decision.toJson)) decision
    have hdecision : kept = decision := by
      rcases hsame with hsame | hfound
      · exact hsame
      · exact (hfaithful.decision_eq (hold.decisions _ kept hfound).filed).symm
    subst hdecision
    exact ⟨_, decision, record, hkept, rfl, rfl, hrecord, hresult⟩

end Steps

/-! ### Runs from a created study -/

section Runs

variable [DecidableEq F] {P : StudyBundle F → Call F → Prop} {start s : StudyBundle F}

/-- In a run, a recommendation made since its start has an experiment filed
since its start behind it. -/
theorem Reaches.current (hfaithful : engine.Faithful) {kind : String → Prop}
    (hreached : Reaches engine P start s) (hstart : Current kind start)
    (hfresh : ∀ id, id ∉ start.document.experiments → kind id) : Current kind s := by
  refine hreached.invariant hstart fun s new call hs hcurrent _ hpublished => ?_
  obtain ⟨hold, mid, heffect, hpublishes⟩ := hpublished
  obtain rfl := hpublishes.revision
  have hkind : ∀ id, id ∉ s.document.experiments → kind id :=
    fun id hid => hfresh id fun hmem => hid ((hs.keeps hfaithful).experiments.mem hmem)
  have hmid : Current kind mid := heffect.current hfaithful hold hkind hcurrent
  exact hmid

/-- What a request may do to the applied state: nothing, unless it is an Apply
of the recommended state, out of an experiment under the goal in force. -/
def AppliesByApproval (call : Call F) (old new : StudyBundle F) : Prop :=
  match call.request.operation with
  | .apply proposal state goal _ =>
    new = old ∨ (new.document.appliedState = some state ∧
      old.document.recommendedState = some state ∧ old.document.activeGoal = goal ∧
      Supports old proposal state)
  | _ => new.document.appliedState = old.document.appliedState

theorem Call.appliesByApproval (call : Call F) (s : StudyBundle F) :
    AppliesByApproval call s (call.run engine s).2 := by
  unfold AppliesByApproval
  rcases call.refused_or_published engine s with ⟨-, hsame⟩ | ⟨-, mid, heffect, hpublishes⟩
  · rw [hsame]
    split
    · exact .inl rfl
    · rfl
  · rw [hpublishes.revision]
    have happlied := heffect.applied
    split
    · next proposal state goal baseState hop =>
        rw [hop] at heffect
        cases heffect with
        | conclude h => exact h.adds.elim
        | apply hrecord happroves _ =>
          obtain ⟨-, hgoal, -, hactive, hrecommended, hresult⟩ := happroves
          exact .inr ⟨rfl, hrecommended, hactive, _, hrecord, hgoal.trans hactive.symm, hresult⟩
    · next hother =>
        rcases happlied with hkept | ⟨proposal, state, goal, baseState, hop, -⟩
        · exact hkept
        · exact (hother proposal state goal baseState hop).elim

theorem Reaches.applied (hfaithful : engine.Faithful) (hreached : Reaches engine P start s) :
    s.document.appliedState = start.document.appliedState ∨
      ∃ state, s.document.appliedState = some state ∧ Approved s state := by
  refine hreached.invariant (I := fun s => s.document.appliedState = start.document.appliedState ∨
    ∃ state, s.document.appliedState = some state ∧ Approved s state) (.inl rfl)
    fun s new call _ happlied _ hpublished => ?_
  have hkeeps := hpublished.keeps hfaithful
  obtain ⟨hold, mid, heffect, hpublishes⟩ := hpublished
  obtain rfl := hpublishes.revision
  rcases heffect.applied with hkept | ⟨proposal, state, goal, baseState, hop, hmoved, -⟩
  · rcases happlied with hstart | ⟨state, hstate, happroved⟩
    · exact .inl (hkept.trans hstart)
    · exact .inr ⟨state, hkept.trans hstate, happroved.of_keeps hkeeps⟩
  · rw [hop] at heffect
    have happroved : Approved mid state := heffect.approved hfaithful hold.atVersion
    exact .inr ⟨state, hmoved, happroved⟩

/-- After a goal revision, what is applied next is a result of an experiment
filed since. -/
theorem apply_after_revision (hfaithful : engine.Faithful) {revise apply : Call F}
    {goal : GoalRevision F} {later : StudyBundle F} {proposal state baseState : String}
    {agreed : Option String} (hrevise : revise.request.operation = .reviseGoal goal)
    (hrevised : (revise.run engine s).1.isOk)
    (hlater : Reaches engine P (revise.run engine s).2 later)
    (happly : apply.request.operation = .apply proposal state agreed baseState)
    (happlied : (apply.run engine later).1.isOk) :
    ∃ id, id ∉ (revise.run engine s).2.document.experiments ∧ Supports later id state := by
  obtain ⟨-, mid, heffect, hpublishes⟩ := Call.published_of_isOk hrevised
  have hwithdrawn : (revise.run engine s).2.document.recommendedState = none := by
    rw [hpublishes.revision]
    rw [hrevise] at heffect
    cases heffect with
    | reviseGoal _ _ _ _ => rfl
    | conclude h => exact h.adds.elim
  have hcurrent : Current (fun id => id ∉ (revise.run engine s).2.document.experiments) later :=
    hlater.current hfaithful (by simp [Current, hwithdrawn]) fun _ hid => hid
  have hrecommended : later.document.recommendedState = some state := by
    obtain ⟨-, mid, heffect, -⟩ := Call.published_of_isOk happlied
    rw [happly] at heffect
    cases heffect with
    | conclude h => exact h.adds.elim
    | apply _ happroves _ => exact happroves.2.2.2.2.1
  exact hcurrent state hrecommended

end Runs

/-- The applied state of a study is its root, or a result of an experiment with
an Apply decision on record. Only an Apply of the recommended state moves it,
and after a goal revision that takes a new experiment. -/
theorem applied_state_is_approved [DecidableEq F] (hfaithful : engine.Faithful)
    {P : StudyBundle F → Call F → Prop} {request : CreateStudy F} {created s : StudyBundle F}
    (hcreated : createStudy engine request = .ok created)
    (hreached : Reaches engine P created s) :
    (∃ root, created.document.appliedState = some root ∧
      (∃ node, created.document.states[root]? = some node ∧ node.parent = none) ∧
      (s.document.appliedState = some root ∨
        ∃ state, s.document.appliedState = some state ∧ Approved s state)) ∧
    (∀ call : Call F, AppliesByApproval call s (call.run engine s).2) ∧
    ∀ (revise apply : Call F) goal proposal state agreed baseState later,
      revise.request.operation = .reviseGoal goal → (revise.run engine s).1.isOk →
      Reaches engine P (revise.run engine s).2 later →
      apply.request.operation = .apply proposal state agreed baseState →
      (apply.run engine later).1.isOk →
      ∃ id, id ∉ (revise.run engine s).2.document.experiments ∧ Supports later id state := by
  obtain ⟨root, hopens⟩ := createStudy_opens hcreated
  refine ⟨⟨root, hopens.applied, hopens.node, ?_⟩, fun call => call.appliesByApproval s, ?_⟩
  · rw [← hopens.applied]
    exact hreached.applied hfaithful
  · intro revise apply goal proposal state agreed baseState later hrevise hrevised hlater happly
      happlied
    exact apply_after_revision hfaithful hrevise hrevised hlater happly happlied

end StudyBundle

/-! ### A case edited and applied -/

namespace Sample

open StudyBundle

/-- The load of bus 1 of the inspected state is changed. -/
def edit (deltaMw : ℚ) (bundle : StudyBundle ℚ) : Call ℚ :=
  { request :=
      { expectedRevision := bundle.document.revision
        operation := .editDemand (bundle.document.inspectedState.getD "") none false
          [{ bus := .id 1, deltaMw }] "" }
    answers := fun _ => false }

/-- The result of the last experiment, which started from the applied state, is
applied. -/
def applyLast (bundle : StudyBundle ℚ) : Call ℚ :=
  { request :=
      { expectedRevision := bundle.document.revision
        operation := .apply (bundle.document.experimentOrder.getLastD "")
          (bundle.document.recommendedState.getD "") none
          (bundle.document.appliedState.getD "") }
    answers := fun _ => false }

def editedAndApplied (deltaMw : ℚ) (bundle : StudyBundle ℚ) : StudyBundle ℚ :=
  let edited := ((edit deltaMw bundle).run engine bundle).2
  ((applyLast edited).run engine edited).2

/-- An empty study has no case to edit or apply. -/
example : ((StudyBundle.empty "s" "").map fun bundle =>
    (editedAndApplied 5 bundle).document.appliedState) = .ok none := by
  decide +kernel

end Sample

namespace StudyBundle

variable {engine : Engine F}

theorem edited_and_applied : ∃ created, Sample.opened none (Sample.oneBus 1 10) = .ok created ∧
    Solvable Sample.engine created (created.document.inspectedState.getD "")
      (some [{ bus := .id 1, deltaMw := 5 }]) ∧
    (Sample.editedAndApplied 5 created).document.appliedState ≠ created.document.appliedState :=
  exists_ok_of (by decide +kernel)

theorem applied_state_is_approved_edit : ∃ created state,
    Sample.opened none (Sample.oneBus 1 10) = .ok created ∧
      (Sample.editedAndApplied 5 created).document.appliedState = some state ∧
      Approved (Sample.editedAndApplied 5 created) state := by
  obtain ⟨created, hcreated, -, hmoved⟩ := edited_and_applied
  have hreached : Reaches Sample.engine (fun _ _ => True) created
      (Sample.editedAndApplied 5 created) :=
    .step _ (.step _ .start trivial) trivial
  obtain ⟨⟨root, hroot, -, happlied⟩, -, -⟩ :=
    applied_state_is_approved Sample.faithful hcreated hreached
  rcases happlied with hkept | ⟨state, hstate, happroved⟩
  · exact (hmoved (hkept.trans hroot.symm)).elim
  · exact ⟨created, state, hcreated, hstate, happroved⟩

/-! ### Solves behind recommendations -/

def SolvedAt (bundle : StudyBundle F) (state : String) : Prop :=
  ∃ node, bundle.document.states[state]? = some node ∧ node.Solved

/-- The request solves what it may come to recommend: an edited case that is
not planned under a goal can be solved, and a search starts from a solved
state. -/
def Solves (engine : Engine F) (bundle : StudyBundle F) (call : Call F) : Prop :=
  match call.request.operation with
  | .editDemand state goal constrainToGoal changes _ =>
    goal = none ∨ constrainToGoal = false → Solvable engine bundle state (some changes)
  | .restoreBase state _ _ => Solvable engine bundle state none
  | .propose state _ _ _ =>
    ∀ node, bundle.document.states[state]? = some node → node.Solved
  | _ => True

theorem Valid.solvedAt_of_backed (hfaithful : engine.Faithful) {s : StudyBundle F}
    (h : Valid engine s) {state : String} (hbacked : Backed engine state)
    (hstate : state ∈ s.document.states) : SolvedAt s state := by
  obtain ⟨node, hnode⟩ := (Records.mem_iff _ _).mp hstate
  obtain ⟨solved, hid, hsolved⟩ := hbacked
  have hsame := hfaithful.state_eq ((h.states state node hnode).filed.symm.trans hid)
  exact ⟨node, hnode, hsame ▸ hsolved⟩

def RecommendsSolved (engine : Engine F) (bundle : StudyBundle F) : Prop :=
  ∀ state, bundle.document.recommendedState = some state → Backed engine state

theorem Published.recommendsSolved {call : Call F} {old new : StudyBundle F}
    (hpublished : Published engine call old new) (hsolves : Solves engine old call)
    (h : RecommendsSolved engine old) : RecommendsSolved engine new := by
  obtain ⟨hold, mid, heffect, hpublishes⟩ := hpublished
  obtain rfl := hpublishes.revision
  unfold Solves at hsolves
  generalize call.request.operation = op at heffect hsolves
  cases heffect with
  | inspect _ => exact h
  | reviseGoal _ _ _ _ => exact nofun
  | apply _ _ _ => exact h
  | @conclude _ mid c hconcludes =>
    have hadvises := hconcludes.advises
    intro state hstate
    change c.recommended = some state at hstate
    rw [hstate] at hadvises
    generalize hsome : some state = advice at hadvises
    cases hadvises with
    | kept => exact h state hsome.symm
    | cleared => cases hsome
    | recommended _ _ _ hbacked =>
      cases hsome
      rcases hbacked with hbacked | hunbacked
      · exact hbacked
      · cases hunbacked with
        | start hmem =>
          obtain ⟨node, hnode⟩ := (Records.mem_iff _ _).mp hmem
          exact ⟨node, (hold.states _ node hnode).filed, hsolves node hnode⟩
        | edit hroute hunsolvable => exact (hunsolvable (hsolves hroute)).elim
        | restore hunsolvable => exact (hunsolvable hsolves).elim

section Solved

variable [DecidableEq F] {start s : StudyBundle F}

theorem Reaches.recommendsSolved (hreached : Reaches engine (Solves engine) start s)
    (hstart : RecommendsSolved engine start) : RecommendsSolved engine s :=
  hreached.invariant hstart fun _ _ _ _ h hsolves hpublished =>
    hpublished.recommendsSolved hsolves h

theorem Reaches.appliesSolved (hreached : Reaches engine (Solves engine) start s)
    (hrecommends : RecommendsSolved engine start)
    (happlies : ∀ state, start.document.appliedState = some state → Backed engine state) :
    ∀ state, s.document.appliedState = some state → Backed engine state := by
  refine hreached.invariant (I := fun s =>
    ∀ state, s.document.appliedState = some state → Backed engine state) happlies
    fun s new call hs happlied _ hpublished => ?_
  obtain ⟨-, mid, heffect, hpublishes⟩ := hpublished
  obtain rfl := hpublishes.revision
  intro state hstate
  change mid.document.appliedState = some state at hstate
  rcases heffect.applied with hkept | ⟨_, moved, _, _, -, hmoved, hrecommended, -⟩
  · exact happlied state (hkept.symm.trans hstate)
  · rw [hmoved] at hstate
    cases hstate
    exact hs.recommendsSolved hrecommends state hrecommended

end Solved

/-- In a run from a created study whose requests solve what they may recommend,
a recommended state has a solution and a view, and so has the applied state
once an Apply has succeeded. -/
theorem recommended_and_applied_are_solved [DecidableEq F] (hfaithful : engine.Faithful)
    {request : CreateStudy F} {created s : StudyBundle F}
    (hcreated : createStudy engine request = .ok created)
    (hreached : Reaches engine (Solves engine) created s) :
    (∀ state, s.document.recommendedState = some state → SolvedAt s state) ∧
    ∀ (apply : Call F) proposal state goal baseState later,
      apply.request.operation = .apply proposal state goal baseState →
      (apply.run engine s).1.isOk → Reaches engine (Solves engine) (apply.run engine s).2 later →
      ∀ kept, later.document.appliedState = some kept → SolvedAt later kept := by
  obtain ⟨root, hopens⟩ := createStudy_opens hcreated
  have hvalidated := hreached.validate hopens.validated
  have hvalid := valid_of_validate hvalidated
  have hrecommends : RecommendsSolved engine s :=
    hreached.recommendsSolved (by simp [RecommendsSolved, hopens.recommended])
  constructor
  · intro state hstate
    exact hvalid.solvedAt_of_backed hfaithful (hrecommends state hstate)
      (hvalid.pointers.recommended state hstate)
  · intro apply proposal state goal baseState later happly happlied hlater kept hkept
    have hpublished := Call.published_of_isOk happlied
    have hmoved : ∀ moved, (apply.run engine s).2.document.appliedState = some moved →
        Backed engine moved := by
      intro moved hmoved
      obtain ⟨-, mid, heffect, hpublishes⟩ := hpublished
      rw [hpublishes.revision] at hmoved
      rw [happly] at heffect
      cases heffect with
      | conclude h => exact h.adds.elim
      | apply _ happroves _ =>
        cases hmoved
        exact hrecommends _ happroves.2.2.2.2.1
    have hbacked := hlater.appliesSolved
      (hpublished.recommendsSolved (by simp [Solves, happly]) hrecommends) hmoved kept hkept
    have hlaterValid := valid_of_validate (hlater.validate (apply.validate_run hvalidated))
    exact hlaterValid.solvedAt_of_backed hfaithful hbacked (hlaterValid.pointers.applied kept hkept)

theorem recommended_and_applied_are_solved_edit : ∃ created,
    Sample.opened none (Sample.oneBus 1 10) = .ok created ∧
      ∀ state, (Sample.editedAndApplied 5 created).document.recommendedState = some state →
        SolvedAt (Sample.editedAndApplied 5 created) state := by
  obtain ⟨created, hcreated, hsolvable, -⟩ := edited_and_applied
  have hreached : Reaches Sample.engine (Solves Sample.engine) created
      (Sample.editedAndApplied 5 created) :=
    .step _ (.step _ .start fun _ => hsolvable) trivial
  exact ⟨created, hcreated,
    (recommended_and_applied_are_solved Sample.faithful hcreated hreached).1⟩

/-- The state that the pointer names has no view. -/
def namesUnsolved (bundle : StudyBundle F) (pointer : Option String) : Bool :=
  pointer.any fun state => bundle.document.states[state]?.any (·.view.isNone)

theorem not_solvedAt_of_namesUnsolved {bundle : StudyBundle F} {pointer : Option String}
    (h : bundle.namesUnsolved pointer) :
    ∃ state, pointer = some state ∧ ¬ SolvedAt bundle state := by
  obtain ⟨state, hstate, h⟩ := (Option.any_eq_true _ _).mp h
  obtain ⟨node, hnode, hview⟩ := (Option.any_eq_true _ _).mp h
  refine ⟨state, hstate, ?_⟩
  rintro ⟨found, hfound, -, hsome⟩
  rw [hnode] at hfound
  cases hfound
  rw [Option.isNone_iff_eq_none] at hview
  simp [hview] at hsome

/-- A load of 210 cannot be served. The state it leads to is recommended all
the same, and then applied. -/
theorem unsolved_edit_is_recommended_and_applied : ∃ created recommended applied,
    Sample.opened none (Sample.oneBus 1 10) = .ok created ∧
      (let edited := ((Sample.edit 200 created).run Sample.engine created).2
       edited.document.recommendedState = some recommended ∧ ¬ SolvedAt edited recommended) ∧
      (Sample.editedAndApplied 200 created).document.appliedState = some applied ∧
      ¬ SolvedAt (Sample.editedAndApplied 200 created) applied := by
  obtain ⟨created, hcreated, hrecommended, happlied⟩ := exists_ok_of
    (x := Sample.opened none (Sample.oneBus 1 10)) (p := fun created =>
      let edited := ((Sample.edit 200 created).run Sample.engine created).2
      edited.namesUnsolved edited.document.recommendedState ∧
        (Sample.editedAndApplied 200 created).namesUnsolved
          (Sample.editedAndApplied 200 created).document.appliedState) (by decide +kernel)
  obtain ⟨recommended, hrecommended⟩ := not_solvedAt_of_namesUnsolved hrecommended
  obtain ⟨applied, happlied⟩ := not_solvedAt_of_namesUnsolved happlied
  exact ⟨created, recommended, applied, hcreated, hrecommended, happlied⟩

end StudyBundle

end Tellegen
