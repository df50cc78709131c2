import Tellegen.CreateStudy
import Tellegen.StudySteps

/-!
What a created study is: a valid bundle whose applied state is its root, with
no recommendation and no decision, and with no experiment that has a result.
-/

open Binary64 Outcome Std
open Program (wp Checkpoint)

set_option linter.unusedSectionVars false

namespace Tellegen

variable {F : Type} [Binary64 F]

namespace StudyBundle

variable {engine : Engine F}

structure Blank (bundle : StudyBundle F) : Prop where
  states : bundle.document.states = ∅
  experiments : bundle.document.experiments = ∅
  decisions : bundle.document.decisions = ∅
  recommended : bundle.document.recommendedState = none

/-- A starting point, and nothing decided or recommended since. -/
structure Rooted (root : String) (bundle : StudyBundle F) : Prop where
  node : ∃ node, bundle.document.states[root]? = some node ∧ node.parent = none
  results : ∀ (id : String) (e : ExperimentRecord F),
    bundle.document.experiments[id]? = some e → e.resultStates = []
  decisions : bundle.document.decisions = ∅
  recommended : bundle.document.recommendedState = none

structure Opens (engine : Engine F) (root : String) (bundle : StudyBundle F) : Prop
    extends Rooted root bundle where
  validated : bundle.validate engine = .ok ()
  applied : bundle.document.appliedState = some root

theorem empty_blank {id title : String} {bundle : StudyBundle F}
    (h : empty id title = .ok bundle) : bundle.Blank := by
  simp only [empty] at h
  split at h
  · cases h
  · cases h
    exact ⟨rfl, rfl, rfl, rfl⟩

variable {s : StudyBundle F}

theorem Blank.insertArtifact (h : s.Blank) (id : String) (artifact : StudyArtifact) :
    (s.insertArtifact id artifact).Blank :=
  ⟨h.states, h.experiments, h.decisions, h.recommended⟩

theorem addLayers_spec (layers : List String) (h : s.Blank) :
    wp (addLayers engine layers) (fun _ new => new.Blank) s := by
  induction layers generalizing s with
  | nil => exact h
  | cons text rest ih =>
    simp only [addLayers, Program.wp_bind, wp_addArtifact]
    intro _ _
    exact (ih (h.insertArtifact _ _)).mono fun _ _ h => h

theorem addDisplay_spec (display : Option (CreateDisplay F)) (h : s.Blank) :
    wp (addDisplay engine display) (fun _ new => new.Blank) s := by
  cases display with
  | none => exact h
  | some display =>
    simp only [addDisplay, Program.wp_bind, wp_addArtifact]
    intro _ _
    refine (addLayers_spec display.layers (h.insertArtifact _ _)).mono ?_
    rintro layers new hnew
    exact ⟨hnew.states, hnew.experiments, hnew.decisions, hnew.recommended⟩

theorem Blank.insertState (h : s.Blank) (id : String) {node : StateNode}
    (hparent : node.parent = none) : (s.insertState id node).Rooted id where
  node := by
    refine ⟨node, ?_, hparent⟩
    change (s.document.states.insertIfNew id node)[id]? = some node
    rw [h.states, Records.get?_insertIfNew, if_pos ⟨rfl, ExtTreeMap.not_mem_empty⟩]
  results := by
    intro id e he
    change s.document.experiments[id]? = some e at he
    rw [h.experiments] at he
    simp at he
  decisions := h.decisions
  recommended := h.recommended

theorem captureState_root (candidate : ExactCandidate F) (label : String) (h : s.Blank) :
    wp (captureState engine candidate none label) (fun root new => new.Rooted root) s := by
  simp only [captureState, Program.wp_bind, Program.wp_liftM, safe_lift, true_and, wp_addArtifact,
    wp_addState]
  intro _ _ _ _ _ _ _ _
  exact (((h.insertArtifact _ _).insertArtifact _ _).insertArtifact _ _).insertState _ rfl

theorem addRoot_spec (request : CreateStudy F) (goal : Option (StudyObjective F × DecisionSpace F))
    (h : s.Blank) :
    wp (addRoot engine request goal) (fun result new => new.Rooted result.1) s := by
  unfold addRoot
  split
  · simp only [Program.wp_bind, Program.wp_liftM, safe_lift, true_and]
    intro _ _
    exact (captureState_root _ _ h).mono fun _ _ h => h
  · simp only [Program.wp_bind, Program.wp_liftM, safe_lift, true_and]
    intro _ _
    exact (captureState_root _ _ h).mono fun _ _ h => h
  · simp only [Program.wp_bind, wp_addArtifact, wp_addState, Program.wp_pure]
    intro _ _
    exact (h.insertArtifact _ _).insertState _ rfl
  · exact trivial

theorem addGoal_spec (request : CreateStudy F) {root : String}
    (goal : Option (StudyObjective F × DecisionSpace F)) (h : s.Rooted root)
    (happlied : s.document.appliedState = some root) :
    wp (addGoal engine request root goal) (fun _ new =>
      new.Rooted root ∧ new.document.appliedState = some root) s := by
  cases goal with
  | none => exact ⟨h, happlied⟩
  | some goal =>
    simp only [addGoal, Program.wp_bind]
    refine (reviseGoal_spec _ s).mono ?_
    rintro id new heffect
    cases heffect with
    | conclude hconcludes => exact hconcludes.adds.elim
    | reviseGoal _ _ _ _ => exact ⟨⟨h.node, h.results, h.decisions, rfl⟩, happlied⟩

theorem addFirstSolve_spec {root : String} (solveCount : ℕ) (h : s.Rooted root)
    (happlied : s.document.appliedState = some root) :
    wp (addFirstSolve engine root solveCount) (fun _ new =>
      new.Rooted root ∧ new.document.appliedState = some root) s := by
  unfold addFirstSolve
  rw [Program.wp_ite]
  refine ⟨fun _ => ⟨h, happlied⟩, fun _ => ?_⟩
  simp only [Program.wp_bind, wp_addArtifact, Program.wp_get, wp_addExperiment, Program.wp_pure]
  intro _ _
  refine ⟨⟨h.node, ?_, h.decisions, h.recommended⟩, happlied⟩
  intro id e he
  simp only [insertExperiment, Records.get?_insertIfNew] at he
  split at he
  · cases he
    rfl
  · exact h.results id e he

theorem populate_spec (request : CreateStudy F) (baseInput : String) (h : s.Blank) :
    wp (populate engine request baseInput) (fun root new => Opens engine root new) s := by
  simp only [populate, Program.wp_bind, wp_addArtifact, Program.wp_modify]
  intro _ _
  have hbased (id : String) (artifact : StudyArtifact) :
      (setBaseInput id (s.insertArtifact id artifact)).Blank :=
    ⟨h.states, h.experiments, h.decisions, h.recommended⟩
  refine (addDisplay_spec request.display (hbased _ _)).mono ?_
  rintro _ shown hshown
  simp only [Program.wp_bind, Program.wp_modify, Program.wp_liftM, safe_lift, true_and]
  intro goal _
  have hdetailed : (setModelDetails request.modelDetails shown).Blank :=
    ⟨hshown.states, hshown.experiments, hshown.decisions, hshown.recommended⟩
  refine (addRoot_spec request goal hdetailed).mono ?_
  rintro ⟨root, solveCount⟩ rooted hrooted
  simp only [Program.wp_bind, Program.wp_modify]
  have hpointed : ((rooted.setApplied root).setInspected root).Rooted root :=
    ⟨hrooted.node, hrooted.results, hrooted.decisions, hrooted.recommended⟩
  refine (addGoal_spec request goal hpointed rfl).mono ?_
  rintro _ planned ⟨hplanned, happlied⟩
  rw [Program.wp_bind]
  refine (addFirstSolve_spec solveCount hplanned happlied).mono ?_
  rintro _ new ⟨hnew, happlied⟩
  simp only [Program.wp_bind, Program.wp_get, Program.wp_liftM, Program.wp_pure]
  exact ⟨safe_validate engine new, fun _ hvalid => ⟨hnew, hvalid, happlied⟩⟩

theorem createStudy_opens {request : CreateStudy F} {bundle : StudyBundle F}
    (h : createStudy engine request = .ok bundle) : ∃ root, Opens engine root bundle := by
  simp only [createStudy, bind_eq_ok, lift_eq_ok, pure_eq_ok] at h
  obtain ⟨_, -, blank, hblank, root, hroot, rfl⟩ := h
  have hspec : wp (populate engine request (request.baseInput.getD request.input))
      (fun root new => Opens engine root new) blank := populate_spec _ _ (empty_blank hblank)
  have hrun := hspec.run fun _ => false
  revert hroot hrun
  generalize Checkpoint.run _ _ = outcome
  rintro hroot hrun
  obtain ⟨result, created⟩ := outcome
  cases hroot
  exact ⟨root, hrun⟩

end StudyBundle

end Tellegen
