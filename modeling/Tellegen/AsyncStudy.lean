import Tellegen.Approval

/-!
The checkpointed path of a proposal against the plain one. Both run the same
search and record it the same way. The plain path does so inside a transaction,
on a copy that has been brought to the current version; the checkpointed path
does so on a copy of its own, and its transaction then installs that copy whole
and with it the version the document came in.
-/

open Binary64 Outcome Std
open Program (wp Checkpoint)

set_option linter.unusedSectionVars false

namespace Tellegen

variable {F : Type} [Binary64 F]

namespace StudyBundle

variable {engine : Engine F}

/-! ### Programs that ignore the version -/

def reversion {α : Type} (version : ℕ) (outcome : Result α × StudyBundle F) :
    Result α × StudyBundle F :=
  (outcome.1, outcome.2.atVersion version)

/-- The program neither reads nor writes the version. -/
def Unversioned {α : Type} (m : Edit F α) : Prop :=
  ∀ version s, m (s.atVersion version) = (m s).bind fun outcome => .done (reversion version outcome)

namespace Unversioned

variable {α β : Type}

theorem pure (value : α) : Unversioned (pure value : Edit F α) := fun _ _ => rfl

theorem lift (result : Result α) : Unversioned (liftM result : Edit F α) := fun _ _ => rfl

theorem await (m : Checkpoint α) : Unversioned (Program.await m : Edit F α) := by
  intro version s
  change m.bind _ = (m.bind _).bind _
  rw [Checkpoint.bind_assoc]
  rfl

theorem modify (f : StudyBundle F → StudyBundle F)
    (h : ∀ version s, f (s.atVersion version) = (f s).atVersion version) :
    Unversioned (Program.modify f) := by
  intro version s
  change Checkpoint.done (Except.ok (), f (s.atVersion version)) = _
  rw [h]
  rfl

theorem bind {m : Edit F α} {f : α → Edit F β} (hm : Unversioned m)
    (hf : ∀ value, Unversioned (f value)) : Unversioned (m >>= f) := by
  intro version s
  change (m (s.atVersion version)).bind _ = ((m s).bind _).bind _
  rw [hm version s, Checkpoint.bind_assoc, Checkpoint.bind_assoc]
  congr 1
  funext outcome
  obtain ⟨result, next⟩ := outcome
  cases result with
  | error failure => rfl
  | ok value => exact hf value version next

theorem get_bind {f : StudyBundle F → Edit F β} (hread : ∀ version s, f (s.atVersion version) = f s)
    (hf : ∀ s, Unversioned (f s)) : Unversioned (Program.get >>= f) := by
  intro version s
  change f (s.atVersion version) (s.atVersion version) = (f s s).bind _
  rw [hread]
  exact hf s version s

theorem ite {c : Prop} [Decidable c] {m n : Edit F α} (hm : Unversioned m) (hn : Unversioned n) :
    Unversioned (if c then m else n) := by
  split
  · exact hm
  · exact hn

end Unversioned

theorem addArtifact_unversioned (kind : ArtifactKind) (text : String) :
    Unversioned (addArtifact engine kind text) :=
  .bind (.lift _) fun _ => .bind (.modify _ fun _ _ => rfl) fun _ => .pure _

theorem captureState_unversioned (candidate : ExactCandidate F) (parent : Option String)
    (label : String) : Unversioned (captureState engine candidate parent label) :=
  .bind (.lift _) fun _ => .bind (addArtifact_unversioned _ _) fun _ =>
    .bind (addArtifact_unversioned _ _) fun _ => .bind (addArtifact_unversioned _ _) fun _ =>
      .bind (.modify _ fun _ _ => rfl) fun _ => .pure _

theorem addExperiment_unversioned (e : ExperimentRecord F) :
    Unversioned (addExperiment engine e) :=
  .get_bind (fun _ _ => rfl) fun _ => .bind (.modify _ fun _ _ => rfl) fun _ => .pure _

theorem recommend_unversioned (experiment : String) (evidence : List String) (rationale : String)
    (candidate : Option String) :
    Unversioned (recommend engine experiment evidence rationale candidate) := by
  cases candidate with
  | none => exact .pure _
  | some state =>
    exact .bind (.bind (.modify _ fun _ _ => rfl) fun _ => .pure _) fun _ => .pure _

theorem captureTrial_unversioned (stateId : String) (log : TrialLog F) (t : SearchTrial F) :
    Unversioned (captureTrial engine stateId log t) := by
  unfold captureTrial
  split
  · exact .pure _
  · exact .bind (captureState_unversioned _ _ _) fun _ => .pure _

theorem recordTrials_unversioned (stateId : String) (trials : List (SearchTrial F))
    (log : TrialLog F) : Unversioned (recordTrials engine stateId trials log) := by
  induction trials generalizing log with
  | nil => exact .pure _
  | cons t rest ih =>
    have htrial : Unversioned (recordTrial engine stateId log t) :=
      .bind (captureTrial_unversioned _ _ _) fun _ =>
        .bind (addArtifact_unversioned _ _) fun _ => .pure _
    exact .bind htrial fun log => ih log

theorem recordOutcome_unversioned (stateId : String) (record : ExperimentRecord F)
    (outcome : Result (SearchResult F)) :
    Unversioned (recordOutcome engine stateId record outcome) := by
  cases outcome with
  | ok search =>
    exact .bind (addArtifact_unversioned _ _) fun _ =>
      .bind (recordTrials_unversioned _ _ _) fun _ => .pure _
  | error failure =>
    cases failure with
    | error message => exact .pure _
    | missed => exact .lift _
    | unbounded => exact .lift _
    | underflow => exact .lift _

theorem proposeAsync_unversioned [DecidableEq F] (stateId goalId : String)
    (options : SearchOptions F) (rationale : String) :
    Unversioned (proposeAsync engine stateId goalId options rationale) :=
  .get_bind (fun _ _ => rfl) fun _ => .bind (.lift _) fun _ => .bind (.await _) fun _ =>
    .bind (recordOutcome_unversioned _ _ _) fun _ => .bind (addExperiment_unversioned _) fun _ =>
      .bind (recommend_unversioned _ _ _ _) fun _ =>
        .ite (.bind (.modify _ fun _ _ => rfl) fun _ => .pure _) (.pure _)

/-! ### The two paths -/

/-- The checks before a proposal runs. -/
def opening (engine : Engine F) (expected : ℕ) (options : SearchOptions F)
    (bundle : StudyBundle F) : Result Unit := do
  lift (bundle.checkRevision expected)
  bundle.validate engine
  lift options.validate

/-- What follows a proposal: the copy it left is published and reported. -/
def finish (engine : Engine F) (expected : ℕ) (old : StudyBundle F) :
    Result String × StudyBundle F → Result (StudyOperationResult F) × StudyBundle F
  | (.error failure, _) => (.error failure, old)
  | (.ok id, next) =>
    match publish engine expected (.ok id) next with
    | .error failure => (.error failure, old)
    | .ok (id, new) => (new.operationResult engine (some id) none, new)

section Paths

variable [DecidableEq F] (expected : ℕ) (state goal : String) (options : SearchOptions F)
  (rationale : String) (s : StudyBundle F)

def proposal : StudyRequest F :=
  { expectedRevision := expected, operation := .propose state goal options rationale }

theorem publish_ok {α : Type} (value : α) (next : StudyBundle F) :
    publish engine expected (.ok value) next =
      (publish engine expected (.ok ()) next).map fun outcome => (value, outcome.2) := by
  simp only [publish, bind, Except.bind, pure, Except.pure]
  cases refuse (expected + 1 ≥ 2 ^ 64) "Study revision exhausted" with
  | error failure => rfl
  | ok _ => cases (next.atRevision (expected + 1)).validate engine <;> rfl

theorem executeStudy_propose (hopening : opening engine expected options s = .ok ()) :
    executeStudy engine (proposal expected state goal options rationale) s =
      (proposeAsync engine state goal options rationale (s.atVersion studyVersion)).bind
        fun outcome => .done (finish engine expected s outcome) := by
  simp only [opening, bind_eq_ok, lift_eq_ok] at hopening
  obtain ⟨_, hrevision, _, hvalidate, hoptions⟩ := hopening
  simp only [executeStudy, transaction, perform, proposal, reportResult, Bind.bind, Program.bind,
    Program.get, Program.lift, Checkpoint.bind, Checkpoint.bind_assoc, liftM, monadLift,
    MonadLift.monadLift, hrevision, hvalidate, hoptions, lift]
  congr 1
  funext outcome
  obtain ⟨result, next⟩ := outcome
  cases result with
  | error failure => rfl
  | ok id =>
    simp only [finish, Pure.pure, Program.pure, Checkpoint.bind]
    rw [publish_ok expected (some id, none), publish_ok expected id]
    cases publish engine expected (.ok ()) next <;> rfl

theorem executeStudyAsync_propose (hopening : opening engine expected options s = .ok ()) :
    executeStudyAsync engine (proposal expected state goal options rationale) s =
      (proposeAsync engine state goal options rationale s).bind
        fun outcome => .done (finish engine expected s outcome) := by
  simp only [opening, bind_eq_ok, lift_eq_ok] at hopening
  obtain ⟨_, hrevision, _, hvalidate, hoptions⟩ := hopening
  simp only [executeStudyAsync, executeProposalAsync, proposal, onCopy, transaction, reportResult,
    Bind.bind, Program.bind, Program.get, Program.lift, Program.modify, Checkpoint.bind,
    Checkpoint.bind_assoc, liftM, monadLift, MonadLift.monadLift, hrevision, hvalidate, hoptions,
    lift]
  congr 1
  funext outcome
  obtain ⟨result, next⟩ := outcome
  cases result with
  | error failure => rfl
  | ok id =>
    simp only [finish, Except.map, Pure.pure, Checkpoint.bind, hrevision]
    rw [publish_ok expected id]
    cases publish engine expected (.ok ()) next <;> rfl

theorem opening_refused {failure : Failure}
    (hopening : opening engine expected options s = .error failure) :
    executeStudy engine (proposal expected state goal options rationale) s =
        .done (.error failure, s) ∧
      executeStudyAsync engine (proposal expected state goal options rationale) s =
        .done (.error failure, s) := by
  simp only [executeStudy, executeStudyAsync, executeProposalAsync, transaction, perform, proposal,
    Bind.bind, Program.bind, Program.get, Program.lift, Checkpoint.bind, liftM, monadLift,
    MonadLift.monadLift]
  simp only [opening, bind, Except.bind] at hopening
  cases hrevision : s.checkRevision expected with
  | error message =>
    simp only [hrevision, lift] at hopening ⊢
    cases hopening
    exact ⟨rfl, rfl⟩
  | ok _ =>
    cases hvalidate : s.validate engine with
    | error failure =>
      simp only [hrevision, hvalidate, lift] at hopening ⊢
      cases hopening
      exact ⟨rfl, rfl⟩
    | ok _ =>
      cases hoptions : options.validate with
      | error message =>
        simp only [hrevision, hvalidate, hoptions, lift] at hopening ⊢
        cases hopening
        exact ⟨rfl, rfl⟩
      | ok _ =>
        simp only [hrevision, hvalidate, hoptions, lift] at hopening
        cases hopening

end Paths

/-! ### The version of a document -/

theorem forM_congr {α : Type} {l : List α} {f g : α → Result PUnit} (h : ∀ a ∈ l, f a = g a) :
    l.forM f = l.forM g := by
  induction l with
  | nil => rfl
  | cons a rest ih =>
    change (f a >>= fun _ => rest.forM f) = (g a >>= fun _ => rest.forM g)
    rw [h a List.mem_cons_self, ih fun b hb => h b (List.mem_cons_of_mem _ hb)]

theorem validate_atVersion {b : StudyBundle F}
    (hversion : 1 ≤ b.document.version ∧ b.document.version ≤ studyVersion)
    (hsolved : ∀ (id : String) (node : StateNode), b.document.states[id]? = some node → node.Solved) :
    (b.atVersion studyVersion).validate engine = b.validate engine := by
  have hidentity : (b.atVersion studyVersion).validateIdentity = b.validateIdentity := by
    unfold studyVersion at hversion
    have hle : ¬ 2 < b.document.version := by omega
    have hpos : b.document.version ≠ 0 := by omega
    simp [validateIdentity, atVersion, studyVersion, hle, hpos]
  have hstates (identities : Records ElectricalIdentity) :
      b.document.states.toList.forM ((b.atVersion studyVersion).validateState engine identities) =
        b.document.states.toList.forM (b.validateState engine identities) := by
    apply forM_congr
    rintro ⟨id, node⟩ hmem
    have hnode := hsolved id node (ExtTreeMap.mem_toList_iff_getElem?_eq_some.mp hmem)
    obtain ⟨solution, hsolution⟩ := Option.isSome_iff_exists.mp hnode.1
    obtain ⟨view, hview⟩ := Option.isSome_iff_exists.mp hnode.2
    simp only [validateState, hsolution, hview]
    rfl
  have hsame : (b.atVersion studyVersion).document.states = b.document.states := rfl
  unfold validate
  simp only [hidentity, hsame, hstates]
  rfl

theorem publish_atVersion {expected : ℕ} {id : String} {next : StudyBundle F}
    (hversion : 1 ≤ next.document.version ∧ next.document.version ≤ studyVersion)
    (hsolved : ∀ (key : String) (node : StateNode),
      next.document.states[key]? = some node → node.Solved) :
    publish engine expected (.ok id) (next.atVersion studyVersion) =
      (publish engine expected (.ok id) next).map fun outcome =>
        (outcome.1, outcome.2.atVersion studyVersion) := by
  have hvalidate : ((next.atVersion studyVersion).atRevision (expected + 1)).validate engine =
      (next.atRevision (expected + 1)).validate engine :=
    validate_atVersion (b := next.atRevision (expected + 1)) hversion hsolved
  simp only [publish, hvalidate, bind, Except.bind, pure, Except.pure]
  cases refuse (expected + 1 ≥ 2 ^ 64) "Study revision exhausted" with
  | error failure => rfl
  | ok _ => cases (next.atRevision (expected + 1)).validate engine <;> rfl

section Outcomes

variable [DecidableEq F] (expected : ℕ) (state goal : String) (options : SearchOptions F)
  (rationale : String) {s : StudyBundle F} (answers : ℕ → Bool)

theorem proposeAsync_version (s : StudyBundle F) :
    ((proposeAsync engine state goal options rationale s).run answers).2.document.version =
      s.document.version := by
  have hunversioned : Unversioned (proposeAsync engine state goal options rationale) :=
    proposeAsync_unversioned _ _ _ _
  have hsame := hunversioned s.document.version s
  have hself : s.atVersion s.document.version = s := rfl
  rw [hself] at hsame
  have hrun := congrArg (Checkpoint.run answers) hsame
  rw [Checkpoint.run_bind_done] at hrun
  rw [hrun]
  rfl

/-- A document of the first version has solved states only, and a proposal
adds no other. -/
theorem proposeAsync_solved (hvalid : Valid engine s) (hversion : s.document.version ≠ studyVersion)
    (id : String) (next : StudyBundle F)
    (hrun : (proposeAsync engine state goal options rationale s).run answers = (.ok id, next)) :
    ∀ (key : String) (node : StateNode), next.document.states[key]? = some node → node.Solved := by
  have hspec : (proposeAsync engine state goal options rationale s).All _ :=
    proposeAsync_spec state goal options rationale s
  have hspec := hspec.run answers
  rw [hrun] at hspec
  obtain ⟨mid, c, rfl, hsaves, -⟩ := hspec
  intro key node hnode
  have hmid : mid.document.states[key]? = some node := by
    have hstates : (mid.conclude engine c).document.states = mid.document.states := by
      unfold conclude StudyBundle.decide
      cases c.decision <;> rfl
    rw [← hstates]
    exact hnode
  rcases hsaves.added key node hmid with hold | hnew
  · cases (hvalid.states key node hold).solve with
    | solved solution view _ hsolution hview _ _ => exact ⟨by simp [hsolution], by simp [hview]⟩
    | unsolved _ _ hsecond =>
      have hle := hvalid.version.2
      unfold studyVersion at hversion hle
      omega
  · exact hnew

end Outcomes

/-! ### A refused search -/

/-- The records that `validateIdentity` counts. -/
def recordCount (bundle : StudyBundle F) : ℕ :=
  let d := bundle.document
  [d.states.size, d.goals.size, d.experiments.size, d.decisions.size, bundle.artifacts.size].sum

/-- The record of a search that had no solve to spend. -/
def unspent (state goal rationale : String) : ExperimentRecord F :=
  { startState := some state, goal := some goal, kind := .planning, rationale, evidence := []
    trials := [], resultStates := [], assessedRecommendation := none, solveCount := 0
    termination := "solve_budget" }

section Unspent

variable {s : StudyBundle F} {state goal rationale : String}

theorem proposeAsync_unspent [DecidableEq F] {options : SearchOptions F} {plan : SearchPlan F}
    (hplan : planProposal engine s state goal = .ok plan) (hbudget : options.maxSolves = 0) :
    let id := s.experimentId engine (unspent state goal rationale)
    (proposeAsync engine state goal options rationale s).run (fun _ => false) =
      (.ok id, s.insertExperiment id (unspent state goal rationale)) := by
  have hsearch : runSearch engine plan options = Program.Checkpoint.ask fun answer =>
      if answer then .done (.error (.error "cancelled"), 0)
      else .done (.error (.error "solve_budget"), 0) := by
    unfold runSearch
    rw [if_pos hbudget]
    change (Checkpoint.ask Checkpoint.done).bind _ = _
    simp only [Checkpoint.bind]
    congr 1
  simp only [proposeAsync, Bind.bind, Program.bind, Program.get, Program.lift, Program.await,
    Checkpoint.bind, liftM, monadLift, MonadLift.monadLift, hplan, hsearch]
  rfl

theorem insertExperiment_validate {e : ExperimentRecord F} {id : String}
    (hvalidate : s.validate engine = .ok ())
    (hfresh : id ∉ s.document.experiments) (hroom : s.recordCount < maxRecords)
    (hchecks : validateExperiment engine (s.insertExperiment id e)
      (id, s.document.experimentOrder.length) = .ok ()) (revision : ℕ) :
    ((s.insertExperiment id e).atRevision revision).validate engine = .ok () := by
  let t := (s.insertExperiment id e).atRevision revision
  have hexperiments : t.document.experiments = s.document.experiments.insertIfNew id e := rfl
  have horderEq : t.document.experimentOrder = s.document.experimentOrder ++ [id] :=
    if_neg hfresh
  have hextends : s.document.experiments.Extends t.document.experiments := .insertIfNew _ _ _
  have hsize : t.document.experiments.size = s.document.experiments.size + 1 := by
    rw [hexperiments, ExtTreeMap.size_insertIfNew, if_neg hfresh]
  simp only [validate, bind_eq_ok, forM_eq_ok, Prod.forall] at hvalidate
  obtain ⟨_, hidentity, identities, hidentities, _, hbase, _, hdisplay, _, hstates, _, hparents, _,
    hgoals, _, hgoalParents, _, horder, _, hexperimentsOk, _, hdecisions, hpointers⟩ := hvalidate
  simp only [validate, bind_eq_ok, forM_eq_ok, Prod.forall]
  refine ⟨(), ?_, identities, hidentities, (), hbase, (), hdisplay, (), hstates, (), hparents, (),
    hgoals, (), hgoalParents, (), ?_, (), ?_, (), ?_, hpointers⟩
  · simp only [validateIdentity, bind_eq_ok, refuse_eq_ok] at hidentity ⊢
    obtain ⟨_, hversion, _, hname, _, -, hbytes⟩ := hidentity
    refine ⟨(), hversion, (), hname, (), ?_, hbytes⟩
    simp only [recordCount, List.sum_cons, List.sum_nil] at hroom
    change ¬ [s.document.states.size, s.document.goals.size, t.document.experiments.size,
      s.document.decisions.size, s.artifacts.size].sum > maxRecords
    simp only [hsize, List.sum_cons, List.sum_nil]
    omega
  · obtain ⟨-, hmem⟩ := validateOrder_ok horder
    simp only [validateOrder, refuse_eq_ok, not_or, not_not] at horder ⊢
    change t.document.experimentOrder.length = t.document.experiments.size ∧
      t.document.experimentOrder ⊆ t.document.experiments.keys ∧
        t.document.experiments.keys ⊆ t.document.experimentOrder
    have hkeys : ∀ key, key ∈ t.document.experiments.keys ↔
        key = id ∨ key ∈ s.document.experiments := by
      intro key
      rw [ExtTreeMap.mem_keys, hexperiments, ExtTreeMap.mem_insertIfNew,
        LawfulEqCmp.compare_eq_iff_eq]
      exact or_congr_left eq_comm
    refine ⟨by simp [horderEq, hsize, horder.1], fun key hkey => ?_, fun key hkey => ?_⟩
    · rw [horderEq, List.mem_append, hmem] at hkey
      exact (hkeys key).mpr (hkey.symm.imp_left List.mem_singleton.mp)
    · rw [horderEq, List.mem_append, hmem]
      exact ((hkeys key).mp hkey).symm.imp_right List.mem_singleton.mpr
  · intro key position hmem
    change (key, position) ∈ t.document.experimentOrder.zipIdx at hmem
    rw [horderEq, List.zipIdx_append, List.mem_append] at hmem
    rcases hmem with hold | hnew
    · have hexperiment := hexperimentsOk key position hold
      simp only [validateExperiment, bind_eq_ok, Records.index_eq_ok] at hexperiment ⊢
      obtain ⟨found, hfound, hrest⟩ := hexperiment
      exact ⟨found, hextends key found hfound, hrest⟩
    · obtain ⟨rfl, rfl⟩ : key = id ∧ position = s.document.experimentOrder.length := by
        simpa using hnew
      exact hchecks
  · intro key decision hmem
    have hdecision := hdecisions key decision hmem
    simp only [validateDecision, bind_eq_ok, require_eq_ok] at hdecision ⊢
    obtain ⟨_, hverified, _, hexperiment, hrest⟩ := hdecision
    exact ⟨(), hverified, (), hextends.mem hexperiment, hrest⟩

/-- The goal is a goal of the study and can be searched for from the state: its anchor is solved in
the same formulation, and its decisions are known there. -/
def Startable (engine : Engine F) (state goal : String) (s : StudyBundle F) : Prop :=
  ∃ g node anchor changes, s.document.goals[goal]? = some g ∧
    s.document.states[state]? = some node ∧ s.document.states[g.anchorState]? = some anchor ∧
    node.formulation = anchor.formulation ∧
    s.stateChanges engine g.anchorState state g.decisions = .ok changes

theorem planProposal_startable {plan : SearchPlan F}
    (h : planProposal engine s state goal = .ok plan) :
    s.document.activeGoal = some goal ∧ Startable engine state goal s := by
  simp only [planProposal, bind_eq_ok, refuse_eq_ok, not_not, okOr_eq_ok, lift_eq_ok] at h
  obtain ⟨_, hactive, g, hg, node, hnode, anchor, hanchor, _, hformulation, changes, hchanges, -⟩ :=
    h
  exact ⟨hactive, g, node, anchor, changes, hg, hnode, hanchor, hformulation, hchanges⟩

/-- Whether a proposal of the state can be put on record: the request is of the revision in force
and its goal is the active one, the state can start it, and there is room for one record more and
for one revision more. -/
structure Proposable (engine : Engine F) (expected : ℕ) (state goal : String)
    (options : SearchOptions F) (s : StudyBundle F) : Prop where
  revision : s.document.revision = expected
  next : expected + 1 < 2 ^ 64
  room : s.recordCount < maxRecords
  options : { options with maxSolves := 0 }.validate = .ok ()
  active : s.document.activeGoal = some goal
  started : Startable engine state goal s

variable {expected : ℕ} {options : SearchOptions F}

theorem Proposable.plan (h : Proposable engine expected state goal options s)
    (hvalid : Valid engine s) : ∃ plan, planProposal engine s state goal = .ok plan := by
  obtain ⟨g, node, anchor, changes, hg, hnode, hanchor, hformulation, hchanges⟩ := h.started
  obtain ⟨input, -, hinput, -⟩ := (hvalid.states _ _ hanchor).input
  obtain ⟨startInput, -, hstartInput, -⟩ := (hvalid.states _ _ hnode).input
  refine ⟨{ goal := g, formulation := node.formulation, changes, input := input.text
            startInput := startInput.text }, ?_⟩
  simp only [planProposal, bind_eq_ok, refuse_eq_ok, not_not, okOr_eq_ok, lift_eq_ok, pure_eq_ok]
  exact ⟨(), h.active, g, hg, node, hnode, anchor, hanchor, (), hformulation, changes, hchanges,
    input, hinput, startInput, hstartInput, rfl⟩

theorem Proposable.checks (h : Proposable engine expected state goal options s) (rationale : String)
    {id : String} (hid : id = s.experimentId engine (unspent state goal rationale))
    (hfresh : id ∉ s.document.experiments) :
    validateExperiment engine (s.insertExperiment id (unspent state goal rationale))
      (id, s.document.experimentOrder.length) = .ok () := by
  obtain ⟨g, node, _, _, hg, hnode, -⟩ := h.started
  have hfound : (s.insertExperiment id (unspent state goal rationale)).document.experiments[id]? =
      some (unspent state goal rationale) := by
    change (s.document.experiments.insertIfNew id _)[id]? = _
    rw [Records.get?_insertIfNew, if_pos ⟨rfl, hfresh⟩]
  have hstate : state ∈ (s.insertExperiment id
      (unspent state goal rationale)).document.states := (Records.mem_iff _ _).mpr ⟨node, hnode⟩
  have hgoal : goal ∈ (s.insertExperiment id
      (unspent state goal rationale)).document.goals := (Records.mem_iff _ _).mpr ⟨g, hg⟩
  simp only [validateExperiment, bind_eq_ok, Records.index_eq_ok, verifyRecord_eq_ok]
  refine ⟨_, hfound, (), hid, ?_⟩
  simp only [unspent] at hstate hgoal ⊢
  simp [hstate, hgoal]

theorem recordCount_conclude (hfaithful : engine.Faithful) (hvalid : Valid engine s)
    {P : StateNode → Prop} {mid : StudyBundle F} (hsaves : Saves P s mid) (c : Conclusion F) :
    s.recordCount < (mid.conclude engine c).recordCount := by
  have hexperiments : mid.document.experiments = s.document.experiments := by
    rw [hsaves.rest]
    rfl
  have hrest : mid.document.goals = s.document.goals ∧
      mid.document.decisions = s.document.decisions := by
    rw [hsaves.rest]
    exact ⟨rfl, rfl⟩
  have hfresh : mid.experimentId engine c.record ∉ mid.document.experiments := by
    rw [hsaves.experimentId, hexperiments]
    exact hvalid.experimentId_fresh hfaithful c.record
  have hsize : (mid.conclude engine c).document.experiments.size =
      s.document.experiments.size + 1 := by
    have hconclude : (mid.conclude engine c).document.experiments =
        mid.document.experiments.insertIfNew (mid.experimentId engine c.record) c.record := by
      unfold conclude StudyBundle.decide
      cases c.decision <;> rfl
    rw [hconclude, ExtTreeMap.size_insertIfNew, if_neg hfresh, hexperiments]
  have hkept : mid.artifacts = (mid.conclude engine c).artifacts ∧
      mid.document.states = (mid.conclude engine c).document.states ∧
      mid.document.goals = (mid.conclude engine c).document.goals ∧
      mid.document.decisions.size ≤ (mid.conclude engine c).document.decisions.size := by
    unfold conclude StudyBundle.decide
    cases c.decision with
    | none => exact ⟨rfl, rfl, rfl, le_rfl⟩
    | some decision => exact ⟨rfl, rfl, rfl, (Records.Extends.insertIfNew _ _ _).size_le⟩
  have hartifacts := hsaves.artifacts.size_le
  have hstates := hsaves.states.size_le
  rw [hkept.1] at hartifacts
  rw [hkept.2.1] at hstates
  have hgoals : s.document.goals.size = (mid.conclude engine c).document.goals.size := by
    rw [← hkept.2.2.1, hrest.1]
  have hdecisions := hkept.2.2.2
  rw [hrest.2] at hdecisions
  simp only [recordCount, List.sum_cons, List.sum_nil]
  omega

end Unspent

/-! ### Agreement -/

section Agreement

variable [DecidableEq F] (engine : Engine F) (expected : ℕ) (state goal : String)
  (options : SearchOptions F) (rationale : String) (s : StudyBundle F)

/-- The sync path's checkpoint, which reads a copy of the current version, would pass the bundle. -/
def Passes (engine : Engine F) (bundle : StudyBundle F) : Prop :=
  bundle.validate engine = .ok () ∧ (bundle.atVersion studyVersion).validate engine = .ok ()

/-- Uncancelled, the checkpointed path ends as the plain one does. Wherever it is cancelled and
however it ends, the bundle is as it was or one that the plain path would publish. -/
def PathsAgree : Prop :=
  (executeStudyAsync engine (proposal expected state goal options rationale) s).run (fun _ => false) =
      (executeStudy engine (proposal expected state goal options rationale) s).run (fun _ => false) ∧
    ∀ cancelled : ℕ → Bool,
      let outcome :=
        (executeStudyAsync engine (proposal expected state goal options rationale) s).run cancelled
      outcome.2 = s ∨ Passes engine outcome.2

/-- The proposal runs and its result can be published as a document of the current version. -/
def Publishable : Prop :=
  opening engine expected options s = .ok () ∧ ∃ id next published,
    (proposeAsync engine state goal options rationale s).run (fun _ => false) = (.ok id, next) ∧
    publish engine expected (.ok id) (next.atVersion studyVersion) = .ok published

theorem opening_valid (hopening : opening engine expected options s = .ok ()) :
    s.document.revision = expected ∧ s.validate engine = .ok () ∧ options.validate = .ok () := by
  simp only [opening, bind_eq_ok, lift_eq_ok] at hopening
  obtain ⟨_, hrevision, _, hvalidate, hoptions⟩ := hopening
  refine ⟨?_, hvalidate, hoptions⟩
  by_contra hne
  simp [checkRevision, hne] at hrevision

theorem publish_valid {id : String} {next : StudyBundle F} {published : String × StudyBundle F}
    (hpublish : publish engine expected (.ok id) next = .ok published) :
    expected + 1 < 2 ^ 64 ∧ published = (id, next.atRevision (expected + 1)) ∧
      (next.atRevision (expected + 1)).validate engine = .ok () := by
  simp only [publish, bind_eq_ok, refuse_eq_ok, pure_eq_ok, Nat.not_le] at hpublish
  obtain ⟨_, hid, _, hnext, _, hvalid, rfl⟩ := hpublish
  cases hid
  exact ⟨hnext, rfl, hvalid⟩

theorem async_bundle_passes (cancelled : ℕ → Bool) :
    let outcome :=
      (executeStudyAsync engine (proposal expected state goal options rationale) s).run cancelled
    outcome.2 = s ∨ Passes engine outcome.2 := by
  intro outcome
  cases hopening : opening engine expected options s with
  | error failure =>
    left
    change ((executeStudyAsync engine _ s).run cancelled).2 = s
    rw [(opening_refused expected state goal options rationale s hopening).2]
    rfl
  | ok _ =>
    have hrun : outcome = finish engine expected s
        ((proposeAsync engine state goal options rationale s).run cancelled) := by
      change (executeStudyAsync engine _ s).run cancelled = _
      rw [executeStudyAsync_propose expected state goal options rationale s hopening,
        Checkpoint.run_bind_done]
    have hvalid := valid_of_validate (opening_valid engine expected options s hopening).2.1
    have hversion : ((proposeAsync engine state goal options rationale s).run
        cancelled).2.document.version = s.document.version :=
      proposeAsync_version state goal options rationale cancelled s
    have hsolved := proposeAsync_solved state goal options rationale cancelled hvalid
    rw [hrun]
    generalize (proposeAsync engine state goal options rationale s).run cancelled = proposed
      at hversion hsolved ⊢
    obtain ⟨result, next⟩ := proposed
    change next.document.version = s.document.version at hversion
    cases result with
    | error failure => exact .inl rfl
    | ok id =>
      simp only [finish]
      cases hpublish : publish engine expected (.ok id) next with
      | error failure => exact .inl rfl
      | ok published =>
        obtain ⟨-, rfl, hnext⟩ := publish_valid engine expected hpublish
        refine .inr ⟨hnext, ?_⟩
        by_cases hcurrent : s.document.version = studyVersion
        · have hsame : (next.atRevision (expected + 1)).atVersion studyVersion =
              next.atRevision (expected + 1) := by
            rw [← hcurrent, ← hversion]
            rfl
          exact hsame.symm ▸ hnext
        · have hbounds := hvalid.version
          rw [← hversion] at hbounds
          exact (validate_atVersion (b := next.atRevision (expected + 1)) hbounds
            (hsolved hcurrent id next rfl)).trans hnext

/-- One request: the paths agree unless a document of the first version gets a proposal. -/
theorem paths_agree_iff_publishable (hvalidate : s.validate engine = .ok ()) :
    PathsAgree engine expected state goal options rationale s ↔
      s.document.version = studyVersion ∨
        ¬ Publishable engine expected state goal options rationale s := by
  have hclean := async_bundle_passes engine expected state goal options rationale s
  have hvalid := valid_of_validate hvalidate
  unfold PathsAgree
  rw [and_iff_left hclean]
  cases hopening : opening engine expected options s with
  | error failure =>
    obtain ⟨hsync, hasync⟩ := opening_refused expected state goal options rationale s hopening
    rw [hsync, hasync]
    simp [Publishable, hopening]
  | ok _ =>
    rw [executeStudy_propose expected state goal options rationale s hopening,
      executeStudyAsync_propose expected state goal options rationale s hopening,
      Checkpoint.run_bind_done, Checkpoint.run_bind_done,
      proposeAsync_unversioned state goal options rationale studyVersion s,
      Checkpoint.run_bind_done]
    have hversion : ((proposeAsync engine state goal options rationale s).run
        fun _ => false).2.document.version = s.document.version :=
      proposeAsync_version state goal options rationale _ s
    have hsolved := proposeAsync_solved state goal options rationale (fun _ => false) hvalid
    unfold Publishable
    simp only [hopening, true_and]
    generalize (proposeAsync engine state goal options rationale s).run (fun _ => false) = outcome
      at hversion hsolved ⊢
    obtain ⟨result, next⟩ := outcome
    change next.document.version = s.document.version at hversion
    by_cases hcurrent : s.document.version = studyVersion
    · have hsame : next.atVersion studyVersion = next := by
        rw [← hcurrent, ← hversion]
        rfl
      simp [hcurrent, reversion, hsame]
    · cases result with
      | error failure => simp [finish, reversion]
      | ok id =>
        have hbounds := hvalid.version
        rw [← hversion] at hbounds
        have hpublish : publish engine expected (.ok id) (next.atVersion studyVersion) = _ :=
          publish_atVersion hbounds (hsolved hcurrent id next rfl)
        simp only [finish, reversion, hpublish, hcurrent, false_or]
        cases hfirst : publish engine expected (.ok id) next with
        | error failure => simp [Except.map, hpublish, hfirst]
        | ok published =>
          -- The plain path ends in the current version, and this one does not.
          have hnew : published.2.document.version = s.document.version := by
            obtain ⟨-, rfl, -⟩ := publish_valid engine expected hfirst
            exact hversion
          constructor
          · intro hequal
            have hbundle := congrArg (fun outcome => outcome.2.document.version) hequal
            exact (hcurrent (hnew.symm.trans hbundle)).elim
          · intro hnone
            rw [hfirst] at hpublish
            exact (hnone ⟨id, next, _, rfl, hpublish⟩).elim

variable {engine s}

theorem Publishable.proposable (hfaithful : engine.Faithful)
    (h : Publishable engine expected state goal options rationale s) :
    Proposable engine expected state goal options s := by
  obtain ⟨hopening, id, next, published, hrun, hpublish⟩ := h
  obtain ⟨hrevision, hvalidate, hoptions⟩ := opening_valid engine expected options s hopening
  have hvalid := valid_of_validate hvalidate
  obtain ⟨hnext, -, hpublished⟩ := publish_valid engine expected hpublish
  have hspec : (proposeAsync engine state goal options rationale s).All _ :=
    proposeAsync_spec state goal options rationale s
  have hspec := hspec.run fun _ => false
  rw [hrun] at hspec
  obtain ⟨mid, c, rfl, hsaves, -⟩ := hspec
  have hplan : ∃ plan, planProposal engine s state goal = .ok plan := by
    cases hplan : planProposal engine s state goal with
    | ok plan => exact ⟨plan, rfl⟩
    | error failure =>
      simp only [proposeAsync, Bind.bind, Program.bind, Program.get, Program.lift, Checkpoint.bind,
        liftM, monadLift, MonadLift.monadLift, hplan] at hrun
      cases hrun
  obtain ⟨plan, hplan⟩ := hplan
  obtain ⟨hactive, hstarted⟩ := planProposal_startable hplan
  constructor
  case revision => exact hrevision
  case next => exact hnext
  case room =>
    have hsize := recordCount_conclude hfaithful hvalid hsaves c
    simp only [validate, validateIdentity, bind_eq_ok, refuse_eq_ok, Nat.not_lt] at hpublished
    obtain ⟨_, ⟨_, -, _, -, _, hroom, -⟩, -⟩ := hpublished
    exact hsize.trans_le hroom
  case options =>
    simp only [SearchOptions.validate, ite_error_eq_ok, not_or] at hoptions ⊢
    exact ⟨⟨by simp, hoptions.1.2⟩, hoptions.2⟩
  case active => exact hactive
  case started => exact hstarted

/-- Without a solve to spend, a proposal that can be put on record is. -/
theorem Proposable.publishable (hfaithful : engine.Faithful)
    (hvalidate : s.validate engine = .ok ()) (hversion : s.document.version ≠ studyVersion)
    (h : Proposable engine expected state goal options s) :
    Publishable engine expected state goal { options with maxSolves := 0 } rationale s := by
  have hvalid := valid_of_validate hvalidate
  obtain ⟨plan, hplan⟩ := h.plan hvalid
  let e := unspent (F := F) state goal rationale
  let id := s.experimentId engine e
  have hfresh : id ∉ s.document.experiments := hvalid.experimentId_fresh hfaithful e
  have hpublished := insertExperiment_validate hvalidate hfresh h.room
    (h.checks rationale rfl hfresh) (expected + 1)
  have hrun : (proposeAsync engine state goal { options with maxSolves := 0 } rationale s).run
      (fun _ => false) = (.ok id, s.insertExperiment id e) := proposeAsync_unspent hplan rfl
  have hsolved := proposeAsync_solved state goal { options with maxSolves := 0 } rationale
    (fun _ => false) hvalid hversion id _ hrun
  have hpublish : publish engine expected (.ok id) ((s.insertExperiment id e).atVersion
      studyVersion) = _ :=
    publish_atVersion hvalid.version hsolved
  have hfirst : publish engine expected (.ok id) (s.insertExperiment id e) =
      .ok (id, (s.insertExperiment id e).atRevision (expected + 1)) := by
    simp only [publish, bind_eq_ok, refuse_eq_ok, pure_eq_ok, Nat.not_le]
    exact ⟨id, rfl, (), h.next, (), hpublished, rfl⟩
  refine ⟨?_, id, _, _, hrun, hpublish.trans (congrArg _ hfirst)⟩
  simp only [opening, bind_eq_ok, lift_eq_ok]
  exact ⟨(), by simp [checkRevision, h.revision], (), hvalidate, h.options⟩

/-- The two paths agree on a proposal for a valid bundle, whatever its solve budget is, exactly
when the document is of the current version already or the proposal cannot be put on record. That
a proposal can be rests on the request and the bundle alone, not on what a solve returns. -/
theorem paths_agree_iff (hfaithful : engine.Faithful) (hvalidate : s.validate engine = .ok ()) :
    (∀ budget, PathsAgree engine expected state goal { options with maxSolves := budget }
        rationale s) ↔
      s.document.version = studyVersion ∨ ¬ Proposable engine expected state goal options s := by
  simp only [paths_agree_iff_publishable engine expected state goal _ rationale s hvalidate]
  constructor
  · intro hagree
    by_cases hversion : s.document.version = studyVersion
    · exact .inl hversion
    · refine .inr fun hproposable => ?_
      exact (hagree 0).elim hversion fun hnot =>
        hnot (hproposable.publishable expected state goal options rationale hfaithful hvalidate hversion)
  · rintro (hversion | hnot) budget
    · exact .inl hversion
    · exact .inr fun hpublishable => hnot
        { hpublishable.proposable expected state goal _ rationale hfaithful with }

end Agreement

def noSolves : SearchOptions ℚ :=
  { maxSolves := 0, beamWidth := 1, maxIterations := 1, minImprovement := 0 }

/-- The study of the first version takes a proposal without a solve to spend. One path leaves its
version, the other does not. -/
theorem exists_firstVersion : ∃ bundle state goal, Sample.firstVersion = .ok bundle ∧
    bundle.validate Sample.engine = .ok () ∧ bundle.document.version ≠ studyVersion ∧
    bundle.document.revision = 0 ∧ bundle.recordCount < maxRecords ∧
    bundle.document.appliedState = some state ∧ bundle.document.activeGoal = some goal ∧
    (planProposal Sample.engine bundle state goal).isOk ∧
    ((executeStudyAsync Sample.engine (proposal 0 state goal noSolves "") bundle).run
      fun _ => false).2.document.version = 1 ∧
    ((executeStudy Sample.engine (proposal 0 state goal noSolves "") bundle).run
      fun _ => false).2.document.version = 2 := by
  obtain ⟨bundle, hbundle, hvalidate, hversion, hrevision, hroom, hruns⟩ := exists_ok_of
    (x := Sample.firstVersion) (p := fun bundle => bundle.validate Sample.engine = .ok () ∧
      bundle.document.version ≠ studyVersion ∧ bundle.document.revision = 0 ∧
      bundle.recordCount < maxRecords ∧
      bundle.document.appliedState.any fun state => bundle.document.activeGoal.any fun goal =>
        let request := proposal 0 state goal noSolves ""
        (planProposal Sample.engine bundle state goal).isOk ∧
          ((executeStudyAsync Sample.engine request bundle).run
            fun _ => false).2.document.version = 1 ∧
          ((executeStudy Sample.engine request bundle).run
            fun _ => false).2.document.version = 2) (by decide +kernel)
  obtain ⟨state, hstate, hruns⟩ := (Option.any_eq_true _ _).mp hruns
  obtain ⟨goal, hgoal, hruns⟩ := (Option.any_eq_true _ _).mp hruns
  exact ⟨bundle, state, goal, hbundle, hvalidate, hversion, hrevision, hroom, hstate, hgoal,
    of_decide_eq_true hruns⟩

/-- A created study is of the current version: the paths agree on every proposal for it. Brought
to the first version, it takes one on which they do not. -/
theorem paths_agree_iff_oneBus : (∃ bundle, Sample.opened none (Sample.oneBus 1 10) = .ok bundle ∧
    ∀ expected state goal (options : SearchOptions ℚ) rationale budget, PathsAgree Sample.engine
      expected state goal { options with maxSolves := budget } rationale bundle) ∧
    ∃ bundle state goal, Sample.firstVersion = .ok bundle ∧
      ¬ ∀ budget, PathsAgree Sample.engine 0 state goal
        { maxSolves := budget, beamWidth := 1, maxIterations := 1, minImprovement := 0 } ""
        bundle := by
  constructor
  · obtain ⟨bundle, hopened, hversion⟩ := Sample.exists_opened
    exact ⟨bundle, hopened, fun expected state goal options rationale =>
      (paths_agree_iff expected state goal options rationale Sample.faithful
        (Sample.opened_validates hopened)).mpr (.inl hversion)⟩
  · obtain ⟨bundle, state, goal, hbundle, hvalidate, hversion, hrevision, hroom, -, -, hplan, -⟩ :=
      exists_firstVersion
    obtain ⟨plan, hplan⟩ := exists_ok hplan
    obtain ⟨hactive, hstarted⟩ := planProposal_startable hplan
    refine ⟨bundle, state, goal, hbundle, fun hagree => ?_⟩
    rcases (paths_agree_iff 0 state goal noSolves "" Sample.faithful hvalidate).mp hagree with
      hcurrent | hnot
    · exact hversion hcurrent
    · exact hnot
        { revision := hrevision, next := by decide, room := hroom, options := by decide
          active := hactive, started := hstarted }

/-- A proposal without a solve to spend, on a solved study of the first
version: the checkpointed path leaves the document in that version, and the
plain path brings it to the current one. -/
theorem paths_differ_on_first_version : ∃ bundle state goal,
    Sample.firstVersion = .ok bundle ∧ bundle.validate Sample.engine = .ok () ∧
      bundle.document.appliedState = some state ∧ bundle.document.activeGoal = some goal ∧
      let options : SearchOptions ℚ :=
        { maxSolves := 0, beamWidth := 1, maxIterations := 1, minImprovement := 0 }
      let request := proposal 0 state goal options ""
      ((executeStudyAsync Sample.engine request bundle).run
        fun _ => false).2.document.version = 1 ∧
      ((executeStudy Sample.engine request bundle).run fun _ => false).2.document.version = 2 ∧
      ¬ PathsAgree Sample.engine 0 state goal options "" bundle := by
  obtain ⟨bundle, state, goal, hbundle, hvalidate, -, -, -, hstate, hgoal, -, hruns⟩ :=
    exists_firstVersion
  refine ⟨bundle, state, goal, hbundle, hvalidate, hstate, hgoal, hruns.1, hruns.2, ?_⟩
  rintro ⟨hequal, -⟩
  have hversion := congrArg (fun outcome => outcome.2.document.version) hequal
  have hone : (1 : ℕ) = 2 := hruns.1.symm.trans (hversion.trans hruns.2)
  cases hone

end StudyBundle

end Tellegen
