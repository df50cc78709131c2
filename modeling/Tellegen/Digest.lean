import Tellegen.Validation

/-!
Content ids name records: under a printer that a parser undoes and a digest
without collisions, records filed under one id are one record.

Both are assumptions about code outside the program. A parser undoes a printer
only on the values a JSON text can hold, nested no deeper than the parser
follows, so the wire forms of the records are shown to be such values.
-/

open Binary64 Outcome Std

namespace Tellegen

variable {F : Type} [Binary64 F]

/-! ### The wire forms are well formed -/

section WellFormed

open Json

variable {n : ℕ}

theorem wellFormed_name (value : Option String) : WellFormed n (name value : Json F) :=
  wellFormed_ofOption (fun text => .str text) value

theorem wellFormed_number (value : Option F) : WellFormed n (number value) :=
  wellFormed_ofOption wellFormed_ofFloat value

theorem wellFormed_strings (values : List String) : WellFormed (n + 1) (strings values : Json F) :=
  wellFormed_ofList fun text _ => .str text

theorem wellFormed_floats (values : List F) : WellFormed (n + 1) (floats values) :=
  wellFormed_ofList fun value _ => wellFormed_ofFloat value

theorem wellFormed_key (key : ElementKey) : WellFormed n (key.toJson : Json F) := by
  cases key with
  | id value => exact .int value
  | uid text => exact .str text

/-- An object by its entries one by one. -/
theorem wellFormed_fields {fields : List (String × Json F)}
    (horder : decide ((fields.map Prod.fst).Pairwise fun a b => byteOrder a b = .lt) = true)
    (h : fields.Forall fun entry => WellFormed n entry.2) : WellFormed (n + 1) (.obj fields) :=
  .obj (of_decide_eq_true horder) (List.forall_iff_forall_mem.mp h)

theorem StudyArtifact.wellFormed (a : StudyArtifact) : WellFormed (n + 1) (a.toJson : Json F) :=
  wellFormed_fields rfl ⟨.str _, .str _⟩

theorem StateNode.wellFormed (s : StateNode) : WellFormed (n + 1) (s.toJson : Json F) :=
  wellFormed_fields rfl ⟨.str _, .str _, .str _, wellFormed_name _, wellFormed_name _, wellFormed_name _⟩

theorem DecisionRecord.wellFormed (d : DecisionRecord) :
    WellFormed (n + 2) (d.toJson : Json F) :=
  wellFormed_fields rfl ⟨.str _, wellFormed_strings _, .str _, .str _, wellFormed_name _⟩

theorem TrialRecord.wellFormed (t : TrialRecord F) : WellFormed (n + 2) t.toJson :=
  wellFormed_fields rfl ⟨.bool _, wellFormed_floats _, wellFormed_strings _, wellFormed_number _,
    wellFormed_name _, wellFormed_number _, wellFormed_name _⟩

theorem ExperimentRecord.wellFormed (e : ExperimentRecord F) : WellFormed (n + 4) e.toJson :=
  wellFormed_fields rfl ⟨wellFormed_name _, wellFormed_strings _, wellFormed_name _, .str _, .str _,
    wellFormed_strings _, wellFormed_ofNat _, wellFormed_name _, .str _,
    wellFormed_ofList fun t _ => t.wellFormed⟩

theorem Operand.wellFormed (operand : Operand) : WellFormed (n + 2) (operand.toJson : Json F) := by
  cases operand with
  | price power => exact .obj (by simp) (by simpa using .str _)
  | dispatch power => exact .obj (by simp) (by simpa using .str _)
  | voltage kind => exact .obj (by simp) (by simpa using .str _)
  | flow power end_ =>
    refine .obj (by simp) ?_
    simp only [List.forall_mem_cons, List.not_mem_nil, false_implies, implies_true, and_true]
    exact wellFormed_fields rfl ⟨.str _, .str _⟩

theorem ObservableWeight.wellFormed (w : ObservableWeight F) : WellFormed (n + 1) w.toJson :=
  wellFormed_fields rfl ⟨wellFormed_key _, wellFormed_ofFloat _⟩

namespace StudyObjective

mutual

theorem wellFormed_of_walk (ids : List String) (expr : StudyObjective F) (m depth count k : ℕ)
    (hwalk : walk ids expr depth count = .ok k) (hm : 35 ≤ m + 2 * depth) :
    WellFormed m expr.toJson := by
  have hdepth := depth_of_walk hwalk
  obtain ⟨m, rfl⟩ : ∃ rest, m = rest + 3 := ⟨m - 3, by omega⟩
  cases expr with
  | weightedObservable operand weights =>
    rw [toJson]
    exact wellFormed_fields rfl ⟨.str _, operand.wellFormed, wellFormed_ofList fun w _ => w.wellFormed⟩
  | sum terms =>
    simp only [walk, ite_error_eq_ok] at hwalk
    obtain ⟨-, -, hterms⟩ := hwalk
    rw [toJson]
    exact wellFormed_fields rfl ⟨.str _, .arr (wellFormed_of_walkTerms ids terms _ _ _ k hterms (by omega))⟩
  | scale factor expression =>
    simp only [walk, ite_error_eq_ok] at hwalk
    obtain ⟨-, -, hexpression⟩ := hwalk
    rw [toJson]
    exact wellFormed_fields rfl ⟨wellFormed_of_walk ids expression _ _ _ k hexpression (by omega),
      wellFormed_ofFloat _, .str _⟩
  | squaredTarget target expression =>
    simp only [walk, ite_error_eq_ok] at hwalk
    obtain ⟨-, -, hexpression⟩ := hwalk
    rw [toJson]
    exact wellFormed_fields rfl ⟨wellFormed_of_walk ids expression _ _ _ k hexpression (by omega), .str _,
      wellFormed_ofFloat _⟩
  | interventionPenalty decision linear quadratic =>
    rw [toJson]
    exact wellFormed_fields rfl ⟨.str _, .str _, wellFormed_ofFloat _, wellFormed_ofFloat _⟩

theorem wellFormed_of_walkTerms (ids : List String) (terms : List (StudyObjective F))
    (m depth count k : ℕ) (hwalk : walkTerms ids terms depth count = .ok k)
    (hm : 35 ≤ m + 2 * depth) : ∀ item ∈ termsToJson terms, WellFormed m item := by
  cases terms with
  | nil => simp [termsToJson]
  | cons term rest =>
    simp only [walkTerms] at hwalk
    cases hterm : walk ids term depth count with
    | error message =>
      rw [hterm] at hwalk
      cases hwalk
    | ok next =>
      rw [hterm] at hwalk
      have hhead := wellFormed_of_walk ids term m depth count next hterm hm
      have htail := wellFormed_of_walkTerms ids rest m depth next k hwalk hm
      rw [termsToJson]
      exact List.forall_mem_cons.mpr ⟨hhead, htail⟩

end

theorem wellFormed_of_validate {objective : StudyObjective F} {space : DecisionSpace F}
    (h : objective.validate space = .ok ()) : WellFormed (n + 35) objective.toJson := by
  unfold validate at h
  split at h
  · next k hwalk => exact (wellFormed_of_walk _ _ 35 0 0 k hwalk (by omega)).mono (by omega)
  · cases h

end StudyObjective

theorem DecisionVariable.wellFormed (v : DecisionVariable F) : WellFormed (n + 1) v.toJson :=
  wellFormed_fields rfl ⟨wellFormed_ofFloat _, wellFormed_key _, .str _, wellFormed_ofFloat _, .str _,
    wellFormed_ofFloat _, wellFormed_ofFloat _⟩

theorem DemandConstraint.wellFormed (c : DemandConstraint F) : WellFormed (n + 1) c.toJson := by
  cases c with
  | placement increaseMw =>
    exact wellFormed_fields rfl ⟨wellFormed_ofFloat _, .str _⟩
  | redistribution => exact .obj (by simp) (by simpa using .str _)

theorem DecisionSpace.wellFormed (space : DecisionSpace F) : WellFormed (n + 3) space.toJson :=
  wellFormed_fields rfl ⟨wellFormed_ofOption (fun c => c.wellFormed) _, wellFormed_ofNat _, wellFormed_ofFloat _,
    wellFormed_ofList fun v _ => v.wellFormed⟩

theorem GoalRevision.Valid.wellFormed {goal : GoalRevision F} (h : goal.Valid) :
    WellFormed (n + 36) goal.toJson :=
  wellFormed_fields rfl ⟨.str _, goal.decisions.wellFormed, .str _,
    StudyObjective.wellFormed_of_validate h.objective, wellFormed_name _, .str _,
    wellFormed_number _⟩

theorem wellFormed_pair (value : F × F) : WellFormed (n + 1) (pair value) := by
  refine .arr ?_
  simp only [List.forall_mem_cons, List.not_mem_nil, false_implies, implies_true, and_true]
  exact ⟨wellFormed_ofFloat _, wellFormed_ofFloat _⟩

theorem Camera.wellFormed (c : Camera F) : WellFormed (n + 2) c.toJson :=
  wellFormed_fields rfl ⟨wellFormed_ofFloat _, wellFormed_pair _, wellFormed_ofFloat _, wellFormed_ofFloat _⟩

theorem DiagramCamera.wellFormed (c : DiagramCamera F) : WellFormed (n + 2) c.toJson :=
  wellFormed_fields rfl ⟨wellFormed_pair _, wellFormed_ofFloat _⟩

theorem DisplayContext.wellFormed (d : DisplayContext F) : WellFormed (n + 3) d.toJson :=
  wellFormed_fields rfl ⟨wellFormed_ofOption (fun c => c.wellFormed) _, .str _,
    wellFormed_ofOption (fun c => c.wellFormed) _, .str _, wellFormed_strings _⟩

theorem GenCost.wellFormed (c : GenCost F) : WellFormed (n + 2) c.toJson :=
  wellFormed_fields rfl ⟨wellFormed_floats _, wellFormed_ofNat _, wellFormed_ofNat _, wellFormed_ofFloat _,
    wellFormed_ofFloat _⟩

theorem CostApproximation.wellFormed (a : CostApproximation F) : WellFormed (n + 3) a.toJson :=
  wellFormed_fields rfl ⟨wellFormed_ofNat _, wellFormed_ofNat _, wellFormed_ofFloat _, a.modelCost.wellFormed,
    wellFormed_ofFloat _, a.sourceCost.wellFormed⟩

theorem ModelDetails.wellFormed (m : ModelDetails F) : WellFormed (n + 5) m.toJson :=
  wellFormed_fields rfl ⟨wellFormed_ofList fun a _ => a.wellFormed, .str _, .str _, .str _, .str _, .str _⟩

theorem StudyDocument.wellFormed {d : StudyDocument F}
    (hgoals : ∀ (id : String) (g : GoalRevision F), d.goals[id]? = some g → g.Valid) :
    WellFormed (n + 38) d.toJson := by
  refine wellFormed_present (by simp only [fields, List.map_cons, List.map_nil]; decide) ?_
  simp only [fields, List.forall_mem_cons, List.not_mem_nil, false_implies, implies_true, and_true,
    Option.mem_def, Option.map_eq_some_iff, forall_exists_index, and_imp, Option.some.injEq,
    forall_eq', forall_apply_eq_imp_iff₂]
  exact ⟨wellFormed_name _, wellFormed_name _, fun _ _ => .str _,
    wellFormed_ofRecords fun _ d _ => d.wellFormed, fun d _ => d.wellFormed, wellFormed_strings _,
    wellFormed_ofRecords fun _ e _ => e.wellFormed,
    wellFormed_ofRecords fun id g hg => (hgoals id g hg).wellFormed, .str _, wellFormed_name _,
    fun m _ => m.wellFormed, wellFormed_name _, wellFormed_ofNat _, .str _,
    wellFormed_ofRecords fun _ s _ => s.wellFormed, .str _, wellFormed_ofNat _⟩

theorem StudyBundle.wellFormed {bundle : StudyBundle F}
    (hgoals : ∀ (id : String) (g : GoalRevision F), bundle.document.goals[id]? = some g → g.Valid) :
    WellFormed (n + 39) bundle.toJson :=
  wellFormed_fields rfl ⟨wellFormed_ofRecords fun _ a _ => a.wellFormed, StudyDocument.wellFormed hgoals⟩

end WellFormed

/-! ### Digests -/

/-- The nesting that the JSON parser follows. -/
def maxNesting : ℕ := 127

/-- Texts read back as the values they were printed from, and different texts
have different digests. -/
structure Engine.Faithful (engine : Engine F) : Prop where
  parse_print : ∀ value : Json F, value.WellFormed maxNesting →
    engine.parseJson (engine.printJson value) = .ok value
  contentId_injective : Function.Injective engine.contentId

namespace Engine.Faithful

variable {engine : Engine F} (h : engine.Faithful)

include h

theorem value_eq {a b : Json F} (ha : a.WellFormed maxNesting) (hb : b.WellFormed maxNesting)
    (hid : recordId engine a = recordId engine b) : a = b := by
  have htext := h.contentId_injective hid
  have hread := h.parse_print a ha
  rw [htext, h.parse_print b hb] at hread
  exact (Except.ok.inj hread).symm

theorem state_eq {a b : StateNode}
    (hid : recordId engine (a.toJson (F := F)) = recordId engine b.toJson) : a = b := by
  have hvalue := h.value_eq (a.wellFormed (n := 126)) (b.wellFormed (n := 126)) hid
  have hread := StateNode.read_toJson (F := F) a
  rw [hvalue, StateNode.read_toJson] at hread
  exact (Except.ok.inj hread).symm

theorem decision_eq {a b : DecisionRecord}
    (hid : recordId engine (a.toJson (F := F)) = recordId engine b.toJson) : a = b := by
  have hvalue := h.value_eq (a.wellFormed (n := 125)) (b.wellFormed (n := 125)) hid
  have hread := DecisionRecord.read_toJson (F := F) a
  rw [hvalue, DecisionRecord.read_toJson] at hread
  exact (Except.ok.inj hread).symm

theorem goal_eq {a b : GoalRevision F} (ha : a.Valid) (hb : b.Valid)
    (hid : recordId engine a.toJson = recordId engine b.toJson) : a = b :=
  GoalRevision.toJson_injective ha hb
    (h.value_eq (ha.wellFormed (n := 91)) (hb.wellFormed (n := 91)) hid)

theorem position_eq {p q : ℕ} {a b : ExperimentRecord F}
    (hid : recordId engine (.arr [Json.ofNat p, a.toJson]) =
      recordId engine (.arr [Json.ofNat q, b.toJson])) : p = q := by
  have hform (k : ℕ) (e : ExperimentRecord F) :
      Json.WellFormed maxNesting (.arr [Json.ofNat k, e.toJson]) := by
    refine .arr (n := 126) ?_
    simp only [List.forall_mem_cons, List.not_mem_nil, false_implies, implies_true, and_true]
    exact ⟨Json.wellFormed_ofNat k, e.wellFormed (n := 122)⟩
  have hvalue := h.value_eq (hform p a) (hform q b) hid
  simp only [Json.arr.injEq, List.cons.injEq, Json.ofNat, Json.int.injEq] at hvalue
  exact_mod_cast hvalue.1

end Engine.Faithful

end Tellegen
