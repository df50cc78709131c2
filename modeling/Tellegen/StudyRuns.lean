import Tellegen.SampleStudy

/-!
Runs of study operations. A call is a request together with the host's answers
at the checkpoints. Either it is refused and leaves the bundle as it was, or it
publishes the effect of its operation as the next revision.

A published bundle can still be followed by an error: the report that
`executeStudy` returns is read from the bundle after it was published.
-/

open Binary64 Outcome Std
open Program (wp Checkpoint)

namespace Tellegen

variable {F : Type} [Binary64 F]

namespace StudyBundle

variable {engine : Engine F}

/-! ### Transactions -/

theorem Valid.atVersion {s : StudyBundle F} (h : Valid engine s) :
    Valid engine (s.atVersion studyVersion) := by
  constructor
  case version => simp [StudyBundle.atVersion, studyVersion]
  case artifacts => exact h.artifacts
  case base => exact h.base
  case states =>
    intro id node hnode
    have hold := h.states id node hnode
    refine ⟨hold.filed, hold.input, hold.parent, ?_⟩
    cases hold.solve with
    | solved solution view response hsolution hview hresponse hformulation =>
      exact .solved solution view response hsolution hview hresponse hformulation
    | unsolved hsolution hview hversion => exact .unsolved hsolution hview (Nat.le_refl _)
  case goals =>
    intro id goal hgoal
    have hold := h.goals id goal hgoal
    exact ⟨hold.filed, hold.anchor, hold.valid, hold.parent⟩
  case orderNodup => exact h.orderNodup
  case orderMem => exact h.orderMem
  case experiments =>
    intro position id hid
    obtain ⟨e, he⟩ := h.experiments position id hid
    exact ⟨e, he.found, he.filed, he.start, he.goal, he.results, he.trials⟩
  case decisions =>
    intro id decision hdecision
    have hold := h.decisions id decision hdecision
    exact ⟨hold.filed, hold.experiment, hold.state⟩
  case pointers =>
    exact ⟨h.pointers.inspected, h.pointers.recommended, h.pointers.applied, h.pointers.active⟩

/-- The next revision of a copy, when it validates. -/
structure Publishes (engine : Engine F) (expected : ℕ) (old mid new : StudyBundle F) : Prop where
  current : old.document.revision = expected
  revision : new = mid.atRevision (expected + 1)
  valid : new.validate engine = .ok ()

theorem transaction_spec {α : Type} {expected : ℕ} {operation : Edit F α}
    {Q : α → StudyBundle F → Prop} {s : StudyBundle F}
    (h : wp operation Q (s.atVersion studyVersion)) :
    (transaction engine expected operation s).All fun outcome =>
      Safe outcome.1 ∧
        ((outcome.1.isOk = false ∧ outcome.2 = s) ∨ ∃ value mid, outcome.1 = .ok value ∧
          Q value mid ∧ Publishes engine expected s mid outcome.2) := by
  unfold transaction
  cases hrevision : s.checkRevision expected with
  | error message => exact ⟨trivial, .inl ⟨rfl, rfl⟩⟩
  | ok _ =>
    have hcurrent : s.document.revision = expected := by
      simpa [checkRevision] using hrevision
    rw [Checkpoint.all_bind]
    refine Checkpoint.All.mono h ?_
    rintro ⟨result, mid⟩ hresult
    cases result with
    | error failure => exact ⟨hresult, .inl ⟨rfl, rfl⟩⟩
    | ok value =>
      simp only
      cases hpublish : publish engine expected (.ok value) mid with
      | error failure =>
        have hsafe : Safe (publish engine expected (.ok value) mid) := by
          simp [publish, safe_bind, safe_validate]
        rw [hpublish] at hsafe
        exact ⟨hsafe, .inl ⟨rfl, rfl⟩⟩
      | ok published =>
        simp only [publish, bind_eq_ok, refuse_eq_ok, pure_eq_ok] at hpublish
        obtain ⟨_, hvalue, _, -, _, hvalid, rfl⟩ := hpublish
        cases hvalue
        exact ⟨trivial, .inr ⟨value, mid, rfl, hresult, hcurrent, rfl, hvalid⟩⟩

/-! ### Reports -/

theorem exists_summary {s : StudyBundle F} (h : Valid engine s) (limit : ℕ) :
    ∃ summary, s.summary limit = .ok summary := by
  have hrecent : ∃ recent, (s.document.experimentOrder.reverse.take (min limit 20)).mapM
      s.experimentSummary = .ok recent := by
    apply exists_mapM_ok
    intro id hid
    have hmem : id ∈ s.document.experimentOrder :=
      List.mem_reverse.mp (List.mem_of_mem_take hid)
    obtain ⟨e, he⟩ := (Records.mem_iff _ _).mp ((h.orderMem id).mp hmem)
    have hindex := (Records.index_eq_ok _ _ _).mpr he
    exact ⟨_, by simp only [experimentSummary, hindex, bind, Except.bind]; rfl⟩
  obtain ⟨recent, hrecent⟩ := hrecent
  exact ⟨_, by simp only [summary, hrecent, bind, Except.bind]; rfl⟩

theorem safe_summary {s : StudyBundle F} (h : Valid engine s) (limit : ℕ) :
    Safe (s.summary limit) := by
  obtain ⟨summary, hsummary⟩ := exists_summary h limit
  exact safe_of_eq_ok hsummary

theorem safe_operationResult {s : StudyBundle F} (h : Valid engine s)
    (experiment : Option String) (comparison : Option (Comparison F)) :
    Safe (s.operationResult engine experiment comparison) := by
  have hview : Safe (s.inspectedView engine) := by
    unfold inspectedView
    split
    · exact safe_ok _
    · next state hstate =>
        rw [safe_bind]
        refine ⟨(Records.safe_index _ _).mpr (h.pointers.inspected state hstate), fun node _ => ?_⟩
        split
        · simp
        · exact safe_pure _
  have hchanges : Safe (s.inspectedDemandChanges engine) := by
    unfold inspectedDemandChanges
    split
    · exact safe_ok _
    · exact safe_lift _
  simp [operationResult, safe_bind, hview, hchanges, safe_summary h]

/-! ### Calls -/

/-- What a request can lead to: a refusal that leaves the bundle as it was, or
the next revision, whose report may itself be an error. -/
inductive Outcome (engine : Engine F) (request : StudyRequest F) (old : StudyBundle F) :
    Result (StudyOperationResult F) × StudyBundle F → Prop
  | refused {failure} (hreturned : failure.Returned) :
      Outcome engine request old (.error failure, old)
  | published {mid new experiment comparison} (hold : Valid engine old)
      (heffect : Effect engine (old.atVersion studyVersion) request.operation mid)
      (hpublishes : Publishes engine request.expectedRevision old mid new) :
      Outcome engine request old (new.operationResult engine experiment comparison, new)

theorem executeStudy_spec [DecidableEq F] (request : StudyRequest F) (s : StudyBundle F) :
    (executeStudy engine request s).All (Outcome engine request s) := by
  unfold executeStudy
  simp only [Program.all_bind, Program.all_get, Program.all_liftM]
  cases hrevision : s.checkRevision request.expectedRevision with
  | error message => exact .refused trivial
  | ok _ =>
    cases hvalidate : s.validate engine with
    | error failure =>
      have hsafe := safe_validate engine s
      rw [hvalidate] at hsafe
      exact .refused hsafe
    | ok _ =>
      have hvalid := valid_of_validate hvalidate
      refine (transaction_spec (perform_spec hvalid.atVersion request.operation)).mono ?_
      rintro ⟨result, new⟩ ⟨hsafe, ⟨hrefused, hsame⟩ | ⟨value, mid, hvalue, heffect, hpublishes⟩⟩
      · cases result with
        | ok value => cases hrefused
        | error failure =>
          simp only at hsame
          subst hsame
          exact .refused hsafe
      · simp only at hvalue
        subst hvalue
        exact .published hvalid heffect hpublishes

structure Call (F : Type) where
  request : StudyRequest F
  answers : ℕ → Bool

def Call.run [DecidableEq F] (engine : Engine F) (call : Call F) (bundle : StudyBundle F) :
    Result (StudyOperationResult F) × StudyBundle F :=
  (executeStudy engine call.request bundle).run call.answers

theorem Call.outcome [DecidableEq F] (call : Call F) (engine : Engine F) (bundle : StudyBundle F) :
    Outcome engine call.request bundle (call.run engine bundle) :=
  (executeStudy_spec call.request bundle).run call.answers

theorem Outcome.safe {request : StudyRequest F} {old : StudyBundle F}
    {outcome : Result (StudyOperationResult F) × StudyBundle F}
    (h : Outcome engine request old outcome) : Safe outcome.1 := by
  cases h with
  | refused hreturned => exact hreturned
  | published _ _ hpublishes =>
    exact safe_operationResult (valid_of_validate hpublishes.valid) _ _

/-- A bundle that comes from elsewhere is validated without a crash: no index
misses, and every parent walk ends. Once it has passed, neither a summary, nor
a view or a report, nor any request crashes on it. -/
theorem untrusted_bundle_is_safe [DecidableEq F] (engine : Engine F) (bundle : StudyBundle F) :
    Safe (bundle.validate engine) ∧
      (bundle.validate engine = .ok () →
        (∀ limit, Safe (bundle.summary limit)) ∧
        (∀ state, Safe (lift (bundle.stateView engine state))) ∧
        (∀ experiment comparison, Safe (bundle.operationResult engine experiment comparison)) ∧
        ∀ call : Call F, Safe (call.run engine bundle).1) := by
  refine ⟨safe_validate engine bundle, fun hvalidate => ?_⟩
  have hvalid := valid_of_validate hvalidate
  exact ⟨safe_summary hvalid, fun _ => safe_lift _, safe_operationResult hvalid,
    fun call => (call.outcome engine bundle).safe⟩

/-- The study of one bus with a load of ten, which passes validation. -/
theorem untrusted_bundle_is_safe_oneBus :
    ∃ bundle, Sample.opened none (Sample.oneBus 1 10) = .ok bundle ∧
      bundle.validate Sample.engine = .ok () ∧
      ∀ call : Call ℚ, Safe (call.run Sample.engine bundle).1 := by
  obtain ⟨bundle, hopened, -⟩ := Sample.exists_opened
  have hvalidates := Sample.opened_validates hopened
  exact ⟨bundle, hopened, hvalidates,
    ((untrusted_bundle_is_safe Sample.engine bundle).2 hvalidates).2.2.2⟩

def Published (engine : Engine F) (call : Call F) (old new : StudyBundle F) : Prop :=
  Valid engine old ∧ ∃ mid,
    Effect engine (old.atVersion studyVersion) call.request.operation mid ∧
    Publishes engine call.request.expectedRevision old mid new

theorem Call.refused_or_published [DecidableEq F] (call : Call F) (engine : Engine F)
    (s : StudyBundle F) :
    ((call.run engine s).1.isOk = false ∧ (call.run engine s).2 = s) ∨
      Published engine call s (call.run engine s).2 := by
  have houtcome := call.outcome engine s
  generalize call.run engine s = outcome at houtcome ⊢
  cases houtcome with
  | refused _ => exact .inl ⟨rfl, rfl⟩
  | published hold heffect hpublishes => exact .inr ⟨hold, _, heffect, hpublishes⟩

theorem Call.published_of_isOk [DecidableEq F] {call : Call F} {s : StudyBundle F}
    (h : (call.run engine s).1.isOk) : Published engine call s (call.run engine s).2 := by
  rcases call.refused_or_published engine s with ⟨hrefused, -⟩ | hpublished
  · rw [hrefused] at h
    cases h
  · exact hpublished

theorem Call.validate_run [DecidableEq F] (call : Call F) {s : StudyBundle F}
    (h : s.validate engine = .ok ()) : (call.run engine s).2.validate engine = .ok () := by
  rcases call.refused_or_published engine s with ⟨-, hsame⟩ | ⟨-, mid, -, hpublishes⟩
  · rw [hsame]
    exact h
  · exact hpublishes.valid

/-- The bundles that a run reaches when its calls meet `P`. -/
inductive Reaches [DecidableEq F] (engine : Engine F) (P : StudyBundle F → Call F → Prop)
    (start : StudyBundle F) : StudyBundle F → Prop
  | start : Reaches engine P start start
  | step {s} (call : Call F) (hreached : Reaches engine P start s) (hcall : P s call) :
      Reaches engine P start (call.run engine s).2

section Reaches

variable [DecidableEq F] {P : StudyBundle F → Call F → Prop} {start s : StudyBundle F}

theorem Reaches.validate (h : Reaches engine P start s) (hstart : start.validate engine = .ok ()) :
    s.validate engine = .ok () := by
  induction h with
  | start => exact hstart
  | step call _ _ ih => exact call.validate_run ih

/-- An invariant of a run: it holds at its start, and the calls that take
effect preserve it. -/
theorem Reaches.invariant {I : StudyBundle F → Prop} (h : Reaches engine P start s)
    (hstart : I start)
    (hstep : ∀ s new call, Reaches engine P start s → I s → P s call →
      Published engine call s new → I new) : I s := by
  induction h with
  | start => exact hstart
  | @step s call hreached hcall ih =>
    rcases call.refused_or_published engine s with ⟨-, hsame⟩ | hpublished
    · rw [hsame]
      exact ih
    · exact hstep s _ call hreached ih hcall hpublished

end Reaches

end StudyBundle

end Tellegen
