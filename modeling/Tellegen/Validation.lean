import Tellegen.Bundle

/-!
What `validate` establishes, and that it never crashes. `Valid` lists the
checks that the operations rely on: which references resolve, which records
are filed under their own digest, and which texts are readable.

Each part of `validate` has two lemmas, one saying what it checks and one
saying what it needs to be safe. The second is discharged by the parts before.
-/

open Binary64 Outcome Std

set_option linter.unusedSectionVars false

namespace Tellegen

variable {F : Type} [Binary64 F]

namespace StudyBundle

section Parts

variable {engine : Engine F} {bundle : StudyBundle F}

/-! ### References -/

@[simp] theorem require_eq_ok {V : Type} (records : Records V) (id kind : String) (u : Unit) :
    require records id kind = .ok u ↔ id ∈ records := by
  simp [require]

@[simp] theorem safe_require {V : Type} (records : Records V) (id kind : String) :
    Safe (require records id kind) := safe_refuse _ _

@[simp] theorem verifyRecord_eq_ok (id : String) (value : Json F) (u : Unit) :
    verifyRecord engine id value = .ok u ↔ id = recordId engine value := by
  simp [verifyRecord]

@[simp] theorem safe_verifyRecord (id : String) (value : Json F) :
    Safe (verifyRecord engine id value) := safe_refuse _ _

/-- The artifact exists and is, or is not, an electrical one. -/
def HoldsArtifact (bundle : StudyBundle F) (id : String) (electrical : Bool) : Prop :=
  ∃ artifact, bundle.artifacts[id]? = some artifact ∧
    decide (artifact.kind = .powerioIr) = electrical

@[simp] theorem requireArtifact_eq_ok (id : String) (electrical : Bool) (u : Unit) :
    bundle.requireArtifact id electrical = .ok u ↔ bundle.HoldsArtifact id electrical := by
  simp [requireArtifact, HoldsArtifact]

@[simp] theorem safe_requireArtifact (id : String) (electrical : Bool) :
    Safe (bundle.requireArtifact id electrical) := by
  simp [requireArtifact, safe_bind]

theorem HoldsArtifact.mem {id : String} {electrical : Bool}
    (h : bundle.HoldsArtifact id electrical) : id ∈ bundle.artifacts := by
  obtain ⟨artifact, hartifact, -⟩ := h
  exact (Records.mem_iff _ _).mpr ⟨artifact, hartifact⟩

theorem safe_requireGeography (id missing unexpected : String) :
    Safe (bundle.requireGeography id missing unexpected) := by
  simp [requireGeography, safe_bind]

/-! ### Identity, artifacts, base and display -/

theorem safe_validateIdentity : Safe bundle.validateIdentity := by
  simp [validateIdentity, safe_bind]

theorem validateIdentity_ok (h : bundle.validateIdentity = .ok ()) :
    1 ≤ bundle.document.version ∧ bundle.document.version ≤ studyVersion := by
  simp only [validateIdentity, bind_eq_ok, refuse_eq_ok, not_or, not_not] at h
  obtain ⟨_, ⟨-, hversion⟩, -⟩ := h
  exact hversion

theorem safe_electricalIdentities (entries : List (String × StudyArtifact))
    (identities : Records ElectricalIdentity) :
    Safe (electricalIdentities engine entries identities) := by
  induction entries generalizing identities with
  | nil => exact safe_ok _
  | cons entry rest ih =>
    obtain ⟨id, artifact⟩ := entry
    rw [electricalIdentities, safe_bind]
    refine ⟨safe_verifyRecord _ _, fun _ _ => ?_⟩
    rw [safe_bind]
    exact ⟨safe_lift _, fun identity _ => ih _⟩

/-- Every artifact is filed under its digest and readable, and an identity in
the result is that of the artifact of its key. -/
theorem electricalIdentities_ok (entries : List (String × StudyArtifact))
    (start identities : Records ElectricalIdentity)
    (h : electricalIdentities engine entries start = .ok identities) :
    (∀ id artifact, (id, artifact) ∈ entries →
      id = recordId engine artifact.toJson ∧ ∃ identity, validateArtifact engine artifact = .ok identity) ∧
    (∀ (id : String) identity, identities[id]? = some identity → start[id]? = some identity ∨
      ∃ artifact, (id, artifact) ∈ entries ∧
        validateArtifact engine artifact = .ok (some identity)) := by
  induction entries generalizing start with
  | nil =>
    cases h
    exact ⟨by simp, fun id identity hid => .inl hid⟩
  | cons entry rest ih =>
    obtain ⟨key, head⟩ := entry
    simp only [electricalIdentities, bind_eq_ok, verifyRecord_eq_ok, lift_eq_ok] at h
    obtain ⟨_, hkey, found, hfound, hrest⟩ := h
    obtain ⟨hverified, hsource⟩ := ih _ hrest
    constructor
    · intro id artifact hmem
      rcases List.mem_cons.mp hmem with heq | hmem
      · cases heq
        exact ⟨hkey, found, hfound⟩
      · exact hverified id artifact hmem
    · intro id identity hid
      rcases hsource id identity hid with hstart | ⟨artifact, hmem, hartifact⟩
      · cases found with
        | none => exact .inl hstart
        | some foundIdentity =>
          rw [Records.get?_insert] at hstart
          split at hstart
          · next heq =>
              subst heq
              cases hstart
              exact .inr ⟨head, List.mem_cons_self, hfound⟩
          · exact .inl hstart
      · exact .inr ⟨artifact, List.mem_cons_of_mem _ hmem, hartifact⟩

theorem safe_validateBaseInput : Safe (bundle.validateBaseInput engine) := by
  unfold validateBaseInput
  split
  · exact safe_ok ()
  · next base hbase =>
      rw [safe_bind]
      refine ⟨safe_requireArtifact _ _, fun _ hrequired => ?_⟩
      have hmem : base ∈ bundle.artifacts := ((requireArtifact_eq_ok _ _ _).mp hrequired).mem
      rw [safe_bind]
      refine ⟨(Records.safe_index _ _).mpr hmem, fun artifact _ => ?_⟩
      rw [safe_bind]
      exact ⟨safe_lift _, fun _ _ => safe_pure _⟩

/-- An electrical artifact that can stand as an input. -/
def ReadableInput (engine : Engine F) (bundle : StudyBundle F) (id : String) : Prop :=
  ∃ artifact network, bundle.artifacts[id]? = some artifact ∧ artifact.kind = .powerioIr ∧
    inputNetwork engine artifact.text = .ok network

theorem validateBaseInput_ok (h : bundle.validateBaseInput engine = .ok ()) (base : String)
    (hbase : bundle.document.baseInput = some base) : bundle.ReadableInput engine base := by
  simp only [validateBaseInput, hbase, bind_eq_ok, requireArtifact_eq_ok, Records.index_eq_ok,
    lift_eq_ok] at h
  obtain ⟨_, ⟨required, hrequired, hkind⟩, artifact, hartifact, network, hnetwork, -⟩ := h
  rw [hrequired] at hartifact
  cases hartifact
  exact ⟨required, network, hrequired, by simpa using hkind, hnetwork⟩

theorem safe_validateDisplay : Safe bundle.validateDisplay := by
  unfold validateDisplay
  split
  · exact safe_ok ()
  · simp only [safe_bind, safe_refuse, true_and]
    refine ⟨safe_requireGeography _ _ _, fun _ _ => ⟨?_, fun _ _ _ _ => ⟨?_, fun _ _ => ?_⟩⟩⟩
    · exact safe_forM _ _ fun layer _ => safe_requireGeography _ _ _
    · exact safe_option_forM _ _ fun camera _ => safe_refuse _ _
    · exact safe_option_forM _ _ fun camera _ => safe_refuse _ _

theorem validateDisplay_ok (h : bundle.validateDisplay = .ok ()) (display : DisplayContext F)
    (hdisplay : bundle.document.display = some display) : display.Finite := by
  simp only [validateDisplay, hdisplay, bind_eq_ok, option_forM_eq_ok] at h
  obtain ⟨_, -, _, -, _, -, _, hdiagram, hcamera⟩ := h
  constructor
  case camera =>
    intro c hc
    have hfinite := hcamera c hc
    simp only [validateCamera, refuse_eq_ok, not_or, List.all_cons, List.all_nil, Bool.and_true,
      Bool.not_eq_true', Bool.not_eq_false, Bool.and_eq_true] at hfinite
    obtain ⟨⟨hx, hy, hzoom, hbearing, hpitch⟩, -⟩ := hfinite
    exact ⟨⟨hx, hy⟩, hzoom, hbearing, hpitch⟩
  case diagramCamera =>
    intro c hc
    have hfinite := hdiagram c hc
    simp only [validateDiagramCamera, refuse_eq_ok, not_or, List.all_cons, List.all_nil,
      Bool.and_true, Bool.not_eq_true', Bool.not_eq_false, Bool.and_eq_true] at hfinite
    obtain ⟨⟨hx, hy, hscale⟩, -⟩ := hfinite
    exact ⟨⟨hx, hy⟩, hscale⟩

/-! ### States -/

/-- The two forms of a state: solved with a readable view of its own
formulation, or saved without a solve. -/
inductive Solve (engine : Engine F) (bundle : StudyBundle F) (id : String) (s : StateNode) : Prop
  | solved (solution view : String) (response : SolveResponse F)
      (hsolution : s.solution = some solution) (hview : s.view = some view)
      (hresponse : bundle.stateView engine id = .ok response)
      (hformulation : response.formulation = s.formulation)
  | unsolved (hsolution : s.solution = none) (hview : s.view = none)
      (hversion : 2 ≤ bundle.document.version)

structure ValidState (engine : Engine F) (bundle : StudyBundle F) (id : String) (s : StateNode) :
    Prop where
  filed : id = recordId engine s.toJson
  input : bundle.ReadableInput engine s.input
  parent : ∀ parent, s.parent = some parent → parent ∈ bundle.document.states
  solve : Solve engine bundle id s

theorem safe_validateUnsolved {s : StateNode} (hinput : s.input ∈ bundle.artifacts) :
    Safe (bundle.validateUnsolved engine s) := by
  simp only [validateUnsolved, safe_bind, safe_refuse, safe_lift, true_and]
  exact fun _ _ => ⟨(Records.safe_index _ _).mpr hinput, fun _ _ _ _ => safe_pure _⟩

theorem safe_validatePairing (identities : Records ElectricalIdentity) (s : StateNode)
    (solution : String) : Safe (validatePairing identities s solution) := by
  unfold validatePairing
  split
  · simp [safe_bind]
  · exact safe_error _

theorem safe_validateSolved (identities : Records ElectricalIdentity) (id : String) (s : StateNode)
    (solution view : String) :
    Safe (bundle.validateSolved engine identities id s solution view) := by
  simp [validateSolved, safe_bind, safe_validatePairing]

theorem safe_validateState (identities : Records ElectricalIdentity)
    (entry : String × StateNode) : Safe (bundle.validateState engine identities entry) := by
  obtain ⟨id, s⟩ := entry
  simp only [validateState, safe_bind, safe_verifyRecord, safe_requireArtifact, true_and]
  refine fun _ _ _ hrequired => ⟨?_, fun _ _ => ?_⟩
  · exact safe_option_forM _ _ fun parent _ => safe_require _ _ _
  · split
    · exact safe_validateSolved _ _ _ _ _
    · exact safe_validateUnsolved ((requireArtifact_eq_ok _ _ _).mp hrequired).mem

/-- An electrical identity that is no solution is that of an instance, which
holds a network. -/
theorem inputNetwork_of_identity {artifact : StudyArtifact} {formulation : Problem} {id : String}
    (hkind : artifact.kind = .powerioIr)
    (h : validateArtifact engine artifact = .ok (some (formulation, false, id))) :
    ∃ network, inputNetwork engine artifact.text = .ok network := by
  simp only [validateArtifact, hkind, ite_error_eq_ok, validateIr, bind_eq_ok] at h
  obtain ⟨-, _, -, pioModule, hmodule, hpart⟩ := h
  simp only [inputNetwork, hmodule, bind, Except.bind]
  cases hvalue : pioModule.value <;>
    simp_all [electricalPart, pure, Except.pure]

theorem validateState_ok {identities : Records ElectricalIdentity} {id : String} {s : StateNode}
    (hidentities : ∀ (id : String) identity, identities[id]? = some identity →
      ∃ artifact, bundle.artifacts[id]? = some artifact ∧
        validateArtifact engine artifact = .ok (some identity))
    (h : bundle.validateState engine identities (id, s) = .ok ()) :
    ValidState engine bundle id s := by
  simp only [validateState, bind_eq_ok, verifyRecord_eq_ok, requireArtifact_eq_ok,
    option_forM_eq_ok, require_eq_ok] at h
  obtain ⟨_, hfiled, _, ⟨artifact, hartifact, hkind⟩, _, hparent, hsolve⟩ := h
  have hkind : artifact.kind = .powerioIr := by simpa using hkind
  split at hsolve
  · next solution view hsolution hview =>
      simp only [validateSolved, bind_eq_ok, requireArtifact_eq_ok, lift_eq_ok, refuse_eq_ok,
        not_not] at hsolve
      obtain ⟨_, -, _, -, response, hresponse, _, hformulation, hpairing⟩ := hsolve
      unfold validatePairing at hpairing
      split at hpairing
      · next inputKind inputId solutionKind solutionId hinput _ =>
          obtain ⟨source, hsource, hvalid⟩ := hidentities _ _ hinput
          rw [hartifact] at hsource
          cases hsource
          obtain ⟨network, hnetwork⟩ := inputNetwork_of_identity hkind hvalid
          exact ⟨hfiled, ⟨artifact, network, hartifact, hkind, hnetwork⟩, hparent,
            .solved solution view response hsolution hview hresponse hformulation⟩
      · cases hpairing
  · simp only [validateUnsolved, bind_eq_ok, refuse_eq_ok, not_or, Records.index_eq_ok,
      lift_eq_ok] at hsolve
    obtain ⟨_, ⟨hversion, hsolution, hview⟩, source, hsource, network, hnetwork, -⟩ := hsolve
    rw [hartifact] at hsource
    cases hsource
    exact ⟨hfiled, ⟨artifact, network, hartifact, hkind, hnetwork⟩, hparent,
      .unsolved (by simpa using hsolution) (by simpa using hview) (by omega)⟩

/-! ### Parent walks -/

theorem safe_validateParents {V : Type} (records : Records V) (parent : V → Option String)
    (cycle : String)
    (h : ∀ (key : String) value, records[key]? = some value →
      ∀ p, parent value = some p → p ∈ records) :
    Safe (validateParents records parent cycle) := by
  apply safe_forM
  intro id hid
  have hkeys : ∀ key, key ∈ records.keys ↔ key ∈ records := fun key => ExtTreeMap.mem_keys
  apply safe_walk (fun key => do return parent (← records.index key)) cycle records.keys
  · intro key hkey
    have hmem := (hkeys key).mp hkey
    obtain ⟨value, hvalue⟩ := (Records.mem_iff _ _).mp hmem
    constructor
    · rw [safe_bind]
      exact ⟨(Records.safe_index _ _).mpr hmem, fun _ _ => safe_pure _⟩
    · intro p hp
      simp only [bind_eq_ok, Records.index_eq_ok, pure_eq_ok] at hp
      obtain ⟨found, hfound, hparent⟩ := hp
      exact (hkeys p).mpr (h key found hfound p hparent)
  · exact List.nodup_nil
  · exact List.nil_subset _
  · rintro key hkey
    cases hkey
    exact hid
  · simp

/-! ### Goals -/

structure ValidGoal (engine : Engine F) (bundle : StudyBundle F) (id : String)
    (g : GoalRevision F) : Prop where
  filed : id = recordId engine g.toJson
  anchor : g.anchorState ∈ bundle.document.states
  valid : g.Valid
  parent : ∀ parent, g.parent = some parent → parent ∈ bundle.document.goals

theorem safe_validateGoal (entry : String × GoalRevision F) :
    Safe (bundle.validateGoal engine entry) := by
  obtain ⟨id, g⟩ := entry
  simp only [validateGoal, safe_bind, safe_verifyRecord, safe_require, safe_lift, safe_refuse,
    true_and]
  intro _ _ _ hanchor
  refine ⟨(Records.safe_index _ _).mpr ((require_eq_ok _ _ _ _).mp hanchor), ?_⟩
  intro _ _ _ _ _ _ _ _
  exact safe_option_forM _ _ fun parent _ => safe_require _ _ _

theorem validateGoal_ok {id : String} {g : GoalRevision F}
    (h : bundle.validateGoal engine (id, g) = .ok ()) : ValidGoal engine bundle id g := by
  simp only [validateGoal, bind_eq_ok, verifyRecord_eq_ok, require_eq_ok, lift_eq_ok,
    refuse_eq_ok, option_forM_eq_ok] at h
  obtain ⟨_, hfiled, _, hanchor, anchor, -, _, hdecisions, _, hobjective, _, hsuccess, hparent⟩ := h
  refine ⟨hfiled, hanchor, ⟨⟨_, hdecisions⟩, hobjective, ?_⟩, hparent⟩
  intro x hx
  have hx : g.successValue = some x := hx
  simpa [hx] using hsuccess

/-! ### Experiments -/

theorem safe_validateOrder : Safe bundle.validateOrder := safe_refuse _ _

/-- The order is a permutation of the experiments: it has their number, and
names no other. -/
theorem validateOrder_ok (h : bundle.validateOrder = .ok ()) :
    bundle.document.experimentOrder.Nodup ∧
      ∀ id, id ∈ bundle.document.experimentOrder ↔ id ∈ bundle.document.experiments := by
  simp only [validateOrder, refuse_eq_ok, not_or, not_not] at h
  obtain ⟨hlength, hsubset, hsupset⟩ := h
  have hkeys : ∀ id, id ∈ bundle.document.experiments.keys ↔ id ∈ bundle.document.experiments :=
    fun id => ExtTreeMap.mem_keys
  have hcard : bundle.document.experiments.keys.length =
      bundle.document.experimentOrder.length := by
    rw [ExtTreeMap.length_keys, hlength]
  have hnodup : bundle.document.experimentOrder.Nodup := by
    have hsubperm := (Records.nodup_keys bundle.document.experiments).subperm hsupset
    exact (hsubperm.perm_of_length_le hcard.ge).nodup_iff.mp (Records.nodup_keys _)
  exact ⟨hnodup, fun id => ⟨fun hid => (hkeys id).mp (hsubset hid),
    fun hid => hsupset ((hkeys id).mpr hid)⟩⟩

theorem safe_validateTrial (t : TrialRecord F) : Safe (bundle.validateTrial t) := by
  simp only [validateTrial, safe_bind, safe_refuse, true_and]
  refine fun _ _ => ⟨?_, fun _ _ _ _ => ?_⟩
  · exact safe_option_forM _ _ fun state _ => safe_require _ _ _
  · exact safe_forM _ _ fun evidence _ => safe_requireArtifact _ _

theorem validateTrial_ok {t : TrialRecord F} (h : bundle.validateTrial t = .ok ()) : t.Finite := by
  simp only [validateTrial, bind_eq_ok, refuse_eq_ok, not_or] at h
  obtain ⟨_, ⟨hchanges, hpredicted, hexact⟩, -⟩ := h
  refine ⟨by simpa using hchanges, ?_, ?_⟩
  · intro x hx
    have hx : t.predictedValue = some x := hx
    simpa [hx] using hpredicted
  · intro x hx
    have hx : t.exactValue = some x := hx
    simpa [hx] using hexact

structure ValidExperiment (engine : Engine F) (bundle : StudyBundle F) (position : ℕ)
    (id : String) (e : ExperimentRecord F) : Prop where
  found : bundle.document.experiments[id]? = some e
  filed : id = recordId engine (.arr [Json.ofNat position, e.toJson])
  start : ∀ state, e.startState = some state → state ∈ bundle.document.states
  goal : ∀ goal, e.goal = some goal → goal ∈ bundle.document.goals
  results : ∀ state ∈ e.resultStates, state ∈ bundle.document.states
  trials : ∀ t ∈ e.trials, t.Finite

theorem safe_validateExperiment {id : String} {position : ℕ}
    (hid : id ∈ bundle.document.experiments) :
    Safe (bundle.validateExperiment engine (id, position)) := by
  simp only [validateExperiment, safe_bind, safe_verifyRecord, safe_refuse, true_and]
  refine ⟨(Records.safe_index _ _).mpr hid, fun e _ _ _ _ _ _ _ => ⟨?_, fun _ _ => ⟨?_, fun _ _ =>
    ⟨?_, fun _ _ => ⟨?_, fun _ _ _ _ => ?_⟩⟩⟩⟩⟩
  · exact safe_option_forM _ _ fun state _ => safe_require _ _ _
  · exact safe_option_forM _ _ fun goal _ => safe_require _ _ _
  · exact safe_forM _ _ fun state _ => safe_require _ _ _
  · exact safe_forM _ _ fun evidence _ => safe_requireArtifact _ _
  · exact safe_forM _ _ fun t _ => safe_validateTrial t

theorem validateExperiment_ok {id : String} {position : ℕ}
    (h : bundle.validateExperiment engine (id, position) = .ok ()) :
    ∃ e, ValidExperiment engine bundle position id e := by
  simp only [validateExperiment, bind_eq_ok, Records.index_eq_ok, verifyRecord_eq_ok,
    option_forM_eq_ok, require_eq_ok, forM_eq_ok] at h
  obtain ⟨e, hfound, _, hfiled, _, -, _, -, _, hstart, _, hgoal, _, hresults, _, -, _, -, htrials⟩ := h
  exact ⟨e, hfound, hfiled, hstart, hgoal,
    fun state hstate => hresults state (List.mem_append_left _ hstate),
    fun t ht => validateTrial_ok (htrials t ht)⟩

/-! ### Decisions and pointers -/

structure ValidDecision (engine : Engine F) (bundle : StudyBundle F) (id : String)
    (decision : DecisionRecord) : Prop where
  filed : id = recordId engine decision.toJson
  experiment : decision.experiment ∈ bundle.document.experiments
  state : ∀ state, decision.state = some state → state ∈ bundle.document.states

theorem safe_validateDecision (entry : String × DecisionRecord) :
    Safe (bundle.validateDecision engine entry) := by
  obtain ⟨id, decision⟩ := entry
  simp only [validateDecision, safe_bind, safe_verifyRecord, safe_require, true_and]
  refine fun _ _ _ _ => ⟨?_, fun _ _ => ?_⟩
  · exact safe_option_forM _ _ fun state _ => safe_require _ _ _
  · exact safe_forM _ _ fun evidence _ => safe_requireArtifact _ _

theorem validateDecision_ok {id : String} {decision : DecisionRecord}
    (h : bundle.validateDecision engine (id, decision) = .ok ()) :
    ValidDecision engine bundle id decision := by
  simp only [validateDecision, bind_eq_ok, verifyRecord_eq_ok, require_eq_ok,
    option_forM_eq_ok] at h
  obtain ⟨_, hfiled, _, hexperiment, _, hstate, -⟩ := h
  exact ⟨hfiled, hexperiment, hstate⟩

theorem safe_validatePointers : Safe bundle.validatePointers := by
  simp only [validatePointers, safe_bind]
  refine ⟨safe_forM _ _ fun pointer _ => ?_, fun _ _ => ?_⟩
  · exact safe_option_forM _ _ fun state _ => safe_require _ _ _
  · exact safe_option_forM _ _ fun goal _ => safe_require _ _ _

structure ValidPointers (bundle : StudyBundle F) : Prop where
  inspected : ∀ state, bundle.document.inspectedState = some state → state ∈ bundle.document.states
  recommended : ∀ state, bundle.document.recommendedState = some state →
    state ∈ bundle.document.states
  applied : ∀ state, bundle.document.appliedState = some state → state ∈ bundle.document.states
  active : ∀ goal, bundle.document.activeGoal = some goal → goal ∈ bundle.document.goals

theorem validatePointers_ok (h : bundle.validatePointers = .ok ()) : ValidPointers bundle := by
  simp only [validatePointers, bind_eq_ok, forM_eq_ok, option_forM_eq_ok, require_eq_ok] at h
  obtain ⟨_, hpointers, hactive⟩ := h
  exact ⟨hpointers _ (by simp), hpointers _ (by simp), hpointers _ (by simp), hactive⟩

end Parts

/-! ### The whole check -/

/-- What a bundle that passes `validate` satisfies. -/
structure Valid (engine : Engine F) (bundle : StudyBundle F) : Prop where
  version : 1 ≤ bundle.document.version ∧ bundle.document.version ≤ studyVersion
  artifacts : ∀ (id : String) artifact, bundle.artifacts[id]? = some artifact →
    id = recordId engine artifact.toJson
  base : ∀ base, bundle.document.baseInput = some base → bundle.ReadableInput engine base
  states : ∀ (id : String) s, bundle.document.states[id]? = some s → ValidState engine bundle id s
  goals : ∀ (id : String) g, bundle.document.goals[id]? = some g → ValidGoal engine bundle id g
  orderNodup : bundle.document.experimentOrder.Nodup
  orderMem : ∀ id, id ∈ bundle.document.experimentOrder ↔ id ∈ bundle.document.experiments
  experiments : ∀ (position : ℕ) id, bundle.document.experimentOrder[position]? = some id →
    ∃ e, ValidExperiment engine bundle position id e
  decisions : ∀ (id : String) decision, bundle.document.decisions[id]? = some decision →
    ValidDecision engine bundle id decision
  pointers : ValidPointers bundle

section Whole

variable (engine : Engine F) (bundle : StudyBundle F)

theorem safe_validate : Safe (bundle.validate engine) := by
  have hentries {V : Type} (records : Records V) (key : String) (value : V)
      (h : records[key]? = some value) : (key, value) ∈ records.toList :=
    ExtTreeMap.mem_toList_iff_getElem?_eq_some.mpr h
  unfold validate
  rw [safe_bind]
  refine ⟨safe_validateIdentity, fun _ _ => ?_⟩
  rw [safe_bind]
  refine ⟨safe_electricalIdentities _ _, fun identities hidentities => ?_⟩
  rw [safe_bind]
  refine ⟨safe_validateBaseInput, fun _ _ => ?_⟩
  rw [safe_bind]
  refine ⟨safe_validateDisplay, fun _ _ => ?_⟩
  rw [safe_bind]
  refine ⟨safe_forM _ _ fun entry _ => safe_validateState _ _, fun _ hstates => ?_⟩
  rw [safe_bind]
  constructor
  · apply safe_validateParents
    intro key s hs parent hparent
    have hstate := (forM_eq_ok _ _ _).mp hstates _ (hentries _ key s hs)
    simp only [validateState, bind_eq_ok, option_forM_eq_ok, require_eq_ok] at hstate
    obtain ⟨_, -, _, -, _, hparents, -⟩ := hstate
    exact hparents parent hparent
  intro _ _
  rw [safe_bind]
  refine ⟨safe_forM _ _ fun entry _ => safe_validateGoal _, fun _ hgoals => ?_⟩
  rw [safe_bind]
  constructor
  · apply safe_validateParents
    intro key g hg parent hparent
    exact (validateGoal_ok ((forM_eq_ok _ _ _).mp hgoals _ (hentries _ key g hg))).parent
      parent hparent
  intro _ _
  rw [safe_bind]
  refine ⟨safe_validateOrder, fun _ horder => ?_⟩
  rw [safe_bind]
  constructor
  · apply safe_forM
    rintro ⟨id, position⟩ hmem
    have hid : id ∈ bundle.document.experimentOrder := by
      have h := List.mem_zipIdx hmem
      exact h.2.2 ▸ List.getElem_mem _
    exact safe_validateExperiment (((validateOrder_ok horder).2 id).mp hid)
  intro _ _
  rw [safe_bind]
  exact ⟨safe_forM _ _ fun entry _ => safe_validateDecision _, fun _ _ => safe_validatePointers⟩

variable {engine bundle}

theorem valid_of_validate (h : bundle.validate engine = .ok ()) : Valid engine bundle := by
  have hentries {V : Type} (records : Records V) (key : String) (value : V) :
      (key, value) ∈ records.toList ↔ records[key]? = some value :=
    ExtTreeMap.mem_toList_iff_getElem?_eq_some
  simp only [validate, bind_eq_ok, forM_eq_ok, Prod.forall, hentries] at h
  obtain ⟨_, hidentity, identities, hidentities, _, hbase, _, -, _, hstates, _, -, _, hgoals, _, -,
    _, horder, _, hexperiments, _, hdecisions, hpointers⟩ := h
  obtain ⟨hartifacts, hsources⟩ := electricalIdentities_ok _ _ _ hidentities
  have hsources : ∀ (id : String) identity, identities[id]? = some identity →
      ∃ artifact, bundle.artifacts[id]? = some artifact ∧
        validateArtifact engine artifact = .ok (some identity) := by
    intro id identity hid
    rcases hsources id identity hid with hempty | ⟨artifact, hmem, hartifact⟩
    · simp at hempty
    · exact ⟨artifact, (hentries _ _ _).mp hmem, hartifact⟩
  constructor
  case version => exact validateIdentity_ok hidentity
  case artifacts => exact fun id artifact hid => (hartifacts id artifact ((hentries _ _ _).mpr hid)).1
  case base => exact validateBaseInput_ok hbase
  case states => exact fun id s hs => validateState_ok hsources (hstates id s hs)
  case goals => exact fun id g hg => validateGoal_ok (hgoals id g hg)
  case orderNodup => exact (validateOrder_ok horder).1
  case orderMem => exact (validateOrder_ok horder).2
  case experiments =>
    intro position id hid
    exact validateExperiment_ok (hexperiments id position (List.mem_zipIdx_iff_getElem?.mpr hid))
  case decisions => exact fun id decision hd => validateDecision_ok (hdecisions id decision hd)
  case pointers => exact validatePointers_ok hpointers

end Whole

end StudyBundle

end Tellegen
