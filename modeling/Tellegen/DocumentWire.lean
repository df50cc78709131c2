import Tellegen.Lib.Wire
import Tellegen.Document

/-!
The wire form of a study. Each record has a writer and a reader; objects are
written in key order, which is the order `record_id` hashes them in, and read
in any order. An element key is written as a number or a string, and readers
take the reader of keys as a parameter: `ElementKey.read` is the one the
program uses, and `ElementKey.readExact` keeps the two forms apart.

A record reads back as it was written when its numbers are finite and the key
reader returns the keys that were written. With `readExact` that makes the
writers of valid records injective.
-/

open Binary64 Outcome Std

namespace Tellegen

variable {F : Type}

/-! ### Enumerations -/

def Problem.tag : Problem → String
  | .dcPf => "dcpf"
  | .dcOpf => "dcopf"
  | .acPf => "acpf"
  | .socwr => "socwr"
  | .acopf => "acopf"

def Problem.read : Read F Problem := Json.readTag
  [("dcpf", .dcPf), ("dcopf", .dcOpf), ("acpf", .acPf), ("socwr", .socwr), ("acopf", .acopf)]

def Power.tag : Power → String
  | .active => "Active"
  | .reactive => "Reactive"

def Power.read : Read F Power := Json.readTag [("Active", .active), ("Reactive", .reactive)]

def End.tag : End → String
  | .from => "From"
  | .to => "To"

def End.read : Read F End := Json.readTag [("From", .from), ("To", .to)]

def VoltageKind.tag : VoltageKind → String
  | .magnitude => "Magnitude"
  | .angle => "Angle"
  | .squared => "Squared"
  | .productReal => "ProductReal"
  | .productImag => "ProductImag"

def VoltageKind.read : Read F VoltageKind := Json.readTag
  [("Magnitude", .magnitude), ("Angle", .angle), ("Squared", .squared),
   ("ProductReal", .productReal), ("ProductImag", .productImag)]

def Intervention.tag : Intervention → String
  | .branchRating => "branch_rating"
  | .activeDemand => "active_demand"

def Intervention.read : Read F Intervention :=
  Json.readTag [("branch_rating", .branchRating), ("active_demand", .activeDemand)]

def ArtifactKind.tag : ArtifactKind → String
  | .powerioIr => "powerio_ir"
  | .geoLayer => "geo_layer"
  | .evidence => "evidence"

def ArtifactKind.read : Read F ArtifactKind := Json.readTag
  [("powerio_ir", .powerioIr), ("geo_layer", .geoLayer), ("evidence", .evidence)]

def ExperimentKind.tag : ExperimentKind → String
  | .inspection => "inspection"
  | .sensitivity => "sensitivity"
  | .planning => "planning"
  | .counterfactual => "counterfactual"
  | .challenge => "challenge"
  | .historicalImport => "historical_import"

def ExperimentKind.read : Read F ExperimentKind := Json.readTag
  [("inspection", .inspection), ("sensitivity", .sensitivity), ("planning", .planning),
   ("counterfactual", .counterfactual), ("challenge", .challenge),
   ("historical_import", .historicalImport)]

def DecisionKind.tag : DecisionKind → String
  | .retain => "retain"
  | .reject => "reject"
  | .recommend => "recommend"
  | .apply => "apply"

def DecisionKind.read : Read F DecisionKind := Json.readTag
  [("retain", .retain), ("reject", .reject), ("recommend", .recommend), ("apply", .apply)]

def CostPreparation.tag : CostPreparation → String
  | .exact => "exact"
  | .convexQuadraticFit => "convex_quadratic_fit"

def CostPreparation.read : Read F CostPreparation := Json.readTag
  [("exact", .exact), ("convex_quadratic_fit", .convexQuadraticFit)]


@[simp] theorem Problem.read_tag (p : Problem) : Problem.read (.str p.tag : Json F) = .ok p := by
  cases p <;> rfl

@[simp] theorem Power.read_tag (p : Power) : Power.read (.str p.tag : Json F) = .ok p := by
  cases p <;> rfl

@[simp] theorem End.read_tag (e : End) : End.read (.str e.tag : Json F) = .ok e := by
  cases e <;> rfl

@[simp] theorem VoltageKind.read_tag (k : VoltageKind) :
    VoltageKind.read (.str k.tag : Json F) = .ok k := by
  cases k <;> rfl

@[simp] theorem Intervention.read_tag (i : Intervention) :
    Intervention.read (.str i.tag : Json F) = .ok i := by
  cases i <;> rfl

@[simp] theorem ArtifactKind.read_tag (k : ArtifactKind) :
    ArtifactKind.read (.str k.tag : Json F) = .ok k := by
  cases k <;> rfl

@[simp] theorem ExperimentKind.read_tag (k : ExperimentKind) :
    ExperimentKind.read (.str k.tag : Json F) = .ok k := by
  cases k <;> rfl

@[simp] theorem DecisionKind.read_tag (k : DecisionKind) :
    DecisionKind.read (.str k.tag : Json F) = .ok k := by
  cases k <;> rfl

@[simp] theorem CostPreparation.read_tag (c : CostPreparation) :
    CostPreparation.read (.str c.tag : Json F) = .ok c := by
  cases c <;> rfl

/-! ### Records of names and texts -/

def strings (values : List String) : Json F := Json.ofList .str values

def readStrings : Read F (List String) := Json.readList Json.readStr

def name (value : Option String) : Json F := Json.ofOption .str value

def StudyArtifact.toJson (a : StudyArtifact) : Json F :=
  .obj [("kind", .str a.kind.tag), ("text", .str a.text)]

def StudyArtifact.read : Read F StudyArtifact := fun value => do
  let fields ← Json.entries value
  Json.denyUnknown ["kind", "text"] fields
  return { kind := ← Json.field fields "kind" ArtifactKind.read
           text := ← Json.field fields "text" Json.readStr }

def StateNode.toJson (s : StateNode) : Json F :=
  .obj [("formulation", .str s.formulation.tag), ("input", .str s.input), ("label", .str s.label),
    ("parent", name s.parent), ("solution", name s.solution), ("view", name s.view)]

def StateNode.read : Read F StateNode := fun value => do
  let fields ← Json.entries value
  Json.denyUnknown ["formulation", "input", "label", "parent", "solution", "view"] fields
  return { parent := ← Json.fieldOption fields "parent" Json.readStr
           formulation := ← Json.field fields "formulation" Problem.read
           input := ← Json.field fields "input" Json.readStr
           solution := ← Json.fieldOption fields "solution" Json.readStr
           view := ← Json.fieldOption fields "view" Json.readStr
           label := ← Json.field fields "label" Json.readStr }

theorem readOption_name (value : Option String) :
    Json.readOption Json.readStr (name value : Json F) = .ok value := by
  cases value <;> rfl

theorem readStrings_strings (values : List String) :
    readStrings (strings values : Json F) = .ok values :=
  Json.readList_ofList _ _ values fun _ _ => rfl

@[simp] theorem StudyArtifact.read_toJson (a : StudyArtifact) :
    StudyArtifact.read (a.toJson : Json F) = .ok a := by
  simp [StudyArtifact.read, StudyArtifact.toJson, Json.entries, Json.denyUnknown, Json.field,
    List.lookup_cons, bind, Except.bind, pure, Except.pure]

@[simp] theorem StateNode.read_toJson (s : StateNode) :
    StateNode.read (s.toJson : Json F) = .ok s := by
  simp [StateNode.read, StateNode.toJson, Json.entries, Json.denyUnknown, Json.field,
    Json.fieldOption, Json.fieldOr, readOption_name,
    List.lookup_cons, bind, Except.bind, pure, Except.pure]

def DecisionRecord.toJson (d : DecisionRecord) : Json F :=
  .obj [("choice", .str d.choice.tag), ("evidence", strings d.evidence),
    ("experiment", .str d.experiment), ("rationale", .str d.rationale), ("state", name d.state)]

def DecisionRecord.read : Read F DecisionRecord := fun value => do
  let fields ← Json.entries value
  Json.denyUnknown ["choice", "evidence", "experiment", "rationale", "state"] fields
  return { experiment := ← Json.field fields "experiment" Json.readStr
           state := ← Json.fieldOption fields "state" Json.readStr
           choice := ← Json.field fields "choice" DecisionKind.read
           rationale := ← Json.field fields "rationale" Json.readStr
           evidence := ← Json.field fields "evidence" readStrings }

@[simp] theorem DecisionRecord.read_toJson (d : DecisionRecord) :
    DecisionRecord.read (d.toJson : Json F) = .ok d := by
  simp [DecisionRecord.read, DecisionRecord.toJson, Json.entries, Json.denyUnknown, Json.field,
    Json.fieldOption, Json.fieldOr, readOption_name, readStrings_strings,
    List.lookup_cons, bind, Except.bind, pure, Except.pure]

/-! ### Numbers -/

section Numbers

variable [Binary64 F]

def floats (values : List F) : Json F := Json.ofList Json.ofFloat values

def readFloats : Read F (List F) := Json.readList Json.readFloat

def number (value : Option F) : Json F := Json.ofOption Json.ofFloat value

theorem readFloats_floats (values : List F) (h : ∀ x ∈ values, isFinite x) :
    readFloats (floats values) = .ok values :=
  Json.readList_ofList _ _ values fun x hx => Json.readFloat_ofFloat x (h x hx)

theorem readOption_number (value : Option F) (h : ∀ x ∈ value, isFinite x) :
    Json.readOption Json.readFloat (number value) = .ok value := by
  apply Json.readOption_ofOption
  intro x hx
  exact ⟨by simp [h x hx], Json.readFloat_ofFloat x (h x hx)⟩

end Numbers

/-! ### Goals -/

section Goals

variable [Binary64 F]

/-- The forms of a key kept apart, as `ElementKey::serialize` writes them. -/
def ElementKey.readExact : Read F ElementKey
  | .int value => .ok (.id value)
  | .str text => .ok (.uid text)
  | _ => .error "expected an integer element id or a table:row uid string"

omit [Binary64 F] in
@[simp] theorem ElementKey.readExact_toJson (key : ElementKey) :
    ElementKey.readExact (key.toJson : Json F) = .ok key := by
  cases key <;> rfl

def Operand.toJson : Operand → Json F
  | .price power => .obj [("Price", .str power.tag)]
  | .dispatch power => .obj [("Dispatch", .str power.tag)]
  | .flow power end_ => .obj [("Flow", .obj [("end", .str end_.tag), ("power", .str power.tag)])]
  | .voltage kind => .obj [("Voltage", .str kind.tag)]

def Operand.read : Read F Operand
  | .obj [("Price", value)] => .price <$> Power.read value
  | .obj [("Dispatch", value)] => .dispatch <$> Power.read value
  | .obj [("Flow", value)] => do
      let fields ← Json.entries value
      return .flow (← Json.field fields "power" Power.read) (← Json.field fields "end" End.read)
  | .obj [("Voltage", value)] => .voltage <$> VoltageKind.read value
  | _ => .error "unknown operand"

omit [Binary64 F] in
@[simp] theorem Operand.read_toJson (operand : Operand) :
    Operand.read (operand.toJson : Json F) = .ok operand := by
  cases operand <;> simp [Operand.read, Operand.toJson, Json.entries, Json.field, List.lookup_cons,
    bind, Except.bind, pure, Except.pure, Functor.map, Except.map]

def ObservableWeight.toJson (w : ObservableWeight F) : Json F :=
  .obj [("element", w.element.toJson), ("weight", Json.ofFloat w.weight)]

def ObservableWeight.read (readKey : Read F ElementKey) : Read F (ObservableWeight F) :=
  fun value => do
    let fields ← Json.entries value
    Json.denyUnknown ["element", "weight"] fields
    return { element := ← Json.field fields "element" readKey
             weight := ← Json.field fields "weight" Json.readFloat }

namespace StudyObjective

mutual

def toJson : StudyObjective F → Json F
  | .weightedObservable operand weights => .obj [("kind", .str "weighted_observable"),
      ("operand", operand.toJson), ("weights", Json.ofList ObservableWeight.toJson weights)]
  | .sum terms => .obj [("kind", .str "sum"), ("terms", .arr (termsToJson terms))]
  | .scale factor expression => .obj [("expression", toJson expression),
      ("factor", Json.ofFloat factor), ("kind", .str "scale")]
  | .squaredTarget target expression => .obj [("expression", toJson expression),
      ("kind", .str "squared_target"), ("target", Json.ofFloat target)]
  | .interventionPenalty decision linear quadratic => .obj [("decision", .str decision),
      ("kind", .str "intervention_penalty"), ("linear", Json.ofFloat linear),
      ("quadratic", Json.ofFloat quadratic)]

def termsToJson : List (StudyObjective F) → List (Json F)
  | [] => []
  | term :: rest => toJson term :: termsToJson rest

end

mutual

def keys : StudyObjective F → List ElementKey
  | .weightedObservable _ weights => weights.map (·.element)
  | .sum terms => termsKeys terms
  | .scale _ expression => keys expression
  | .squaredTarget _ expression => keys expression
  | .interventionPenalty _ _ _ => []

def termsKeys : List (StudyObjective F) → List ElementKey
  | [] => []
  | term :: rest => keys term ++ termsKeys rest

end

/-- The first argument is the nesting the parser still allows. -/
def read (readKey : Read F ElementKey) : ℕ → Read F (StudyObjective F)
  | 0, _ => .error "recursion limit exceeded"
  | depth + 1, value => do
      let fields ← Json.entries value
      let kind ← Json.field fields "kind" Json.readStr
      match kind with
      | "weighted_observable" =>
        Json.denyUnknown ["kind", "operand", "weights"] fields
        return .weightedObservable (← Json.field fields "operand" Operand.read)
          (← Json.field fields "weights" (Json.readList (ObservableWeight.read readKey)))
      | "sum" =>
        Json.denyUnknown ["kind", "terms"] fields
        return .sum (← Json.field fields "terms" (Json.readList (read readKey depth)))
      | "scale" =>
        Json.denyUnknown ["expression", "factor", "kind"] fields
        return .scale (← Json.field fields "factor" Json.readFloat)
          (← Json.field fields "expression" (read readKey depth))
      | "squared_target" =>
        Json.denyUnknown ["expression", "kind", "target"] fields
        return .squaredTarget (← Json.field fields "target" Json.readFloat)
          (← Json.field fields "expression" (read readKey depth))
      | "intervention_penalty" =>
        Json.denyUnknown ["decision", "kind", "linear", "quadratic"] fields
        return .interventionPenalty (← Json.field fields "decision" Json.readStr)
          (← Json.field fields "linear" Json.readFloat)
          (← Json.field fields "quadratic" Json.readFloat)
      | other => .error ("unknown variant " ++ other)

theorem depth_of_walk {ids : List String} {expr : StudyObjective F} {depth count n : ℕ}
    (h : walk ids expr depth count = .ok n) : depth ≤ 16 := by
  unfold walk at h
  dsimp only at h
  split at h
  · cases h
  · next hdepth => omega

theorem readWeights_toJson (readKey : Read F ElementKey) (weights : List (ObservableWeight F))
    (hkeys : ∀ w ∈ weights, readKey w.element.toJson = .ok w.element)
    (hfinite : ∀ w ∈ weights, isFinite w.weight) :
    Json.readList (ObservableWeight.read readKey)
      (Json.ofList ObservableWeight.toJson weights) = .ok weights := by
  apply Json.readList_ofList
  intro w hw
  have hweight := Json.readFloat_ofFloat w.weight (hfinite w hw)
  simp [ObservableWeight.read, ObservableWeight.toJson, Json.entries, Json.denyUnknown,
    Json.field, List.lookup_cons, hkeys w hw, hweight, bind, Except.bind, pure, Except.pure]

mutual

/-- An objective that passes `walk` reads back. The walk's bound on the depth
is within what the parser allows, and its checks make every number finite. -/
theorem read_toJson (readKey : Read F ElementKey) (ids : List String) (expr : StudyObjective F)
    (fuel depth count n : ℕ) (hwalk : walk ids expr depth count = .ok n)
    (hkeys : ∀ key ∈ expr.keys, readKey key.toJson = .ok key) (hfuel : 17 ≤ fuel + depth) :
    read readKey fuel expr.toJson = .ok expr := by
  have hdepth := depth_of_walk hwalk
  obtain ⟨fuel, rfl⟩ : ∃ rest, fuel = rest + 1 := ⟨fuel - 1, by omega⟩
  cases expr with
  | weightedObservable operand weights =>
    simp only [walk, ite_error_eq_ok, not_or] at hwalk
    obtain ⟨-, ⟨-, -, hweights⟩, -⟩ := hwalk
    have hfinite : ∀ w ∈ weights, isFinite w.weight := by simpa using hweights
    have hread := readWeights_toJson readKey weights
      (fun w hw => hkeys _ (List.mem_map.mpr ⟨w, hw, rfl⟩)) hfinite
    simp [read, toJson, Json.entries, Json.denyUnknown, Json.field, List.lookup_cons, hread,
      bind, Except.bind, pure, Except.pure]
  | sum terms =>
    simp only [walk, ite_error_eq_ok] at hwalk
    obtain ⟨-, -, hterms⟩ := hwalk
    have hread := readTerms_toJson readKey ids terms fuel (depth + 1) _ n hterms hkeys (by omega)
    simp [read, toJson, Json.entries, Json.denyUnknown, Json.field, List.lookup_cons, Json.readList,
      hread, bind, Except.bind, pure, Except.pure]
  | scale factor expression =>
    simp only [walk, ite_error_eq_ok] at hwalk
    obtain ⟨-, hfactor, hexpression⟩ := hwalk
    have hnumber := Json.readFloat_ofFloat factor (by simpa using hfactor)
    have hread := read_toJson readKey ids expression fuel (depth + 1) _ n hexpression hkeys
      (by omega)
    simp [read, toJson, Json.entries, Json.denyUnknown, Json.field, List.lookup_cons, hnumber,
      hread, bind, Except.bind, pure, Except.pure]
  | squaredTarget target expression =>
    simp only [walk, ite_error_eq_ok] at hwalk
    obtain ⟨-, htarget, hexpression⟩ := hwalk
    have hnumber := Json.readFloat_ofFloat target (by simpa using htarget)
    have hread := read_toJson readKey ids expression fuel (depth + 1) _ n hexpression hkeys
      (by omega)
    simp [read, toJson, Json.entries, Json.denyUnknown, Json.field, List.lookup_cons, hnumber,
      hread, bind, Except.bind, pure, Except.pure]
  | interventionPenalty decision linear quadratic =>
    simp only [walk, ite_error_eq_ok, not_or] at hwalk
    obtain ⟨-, ⟨-, hlinear, hquadratic⟩, -⟩ := hwalk
    have hread := Json.readFloat_ofFloat linear (by simpa using hlinear)
    have hread' := Json.readFloat_ofFloat quadratic (by simpa using hquadratic)
    simp [read, toJson, Json.entries, Json.denyUnknown, Json.field, List.lookup_cons, hread, hread',
      bind, Except.bind, pure, Except.pure]

theorem readTerms_toJson (readKey : Read F ElementKey) (ids : List String)
    (terms : List (StudyObjective F)) (fuel depth count n : ℕ)
    (hwalk : walkTerms ids terms depth count = .ok n)
    (hkeys : ∀ key ∈ termsKeys terms, readKey key.toJson = .ok key) (hfuel : 17 ≤ fuel + depth) :
    (termsToJson terms).mapM (read readKey fuel) = .ok terms := by
  cases terms with
  | nil => rfl
  | cons term rest =>
    simp only [walkTerms] at hwalk
    cases hterm : walk ids term depth count with
    | error message =>
      rw [hterm] at hwalk
      cases hwalk
    | ok next =>
      rw [hterm] at hwalk
      have hhead := read_toJson readKey ids term fuel depth count next hterm
        (fun key hkey => hkeys key (by simp [termsKeys, hkey])) hfuel
      have htail := readTerms_toJson readKey ids rest fuel depth next n hwalk
        (fun key hkey => hkeys key (by simp [termsKeys, hkey])) hfuel
      simp [termsToJson, List.mapM_cons, hhead, htail, bind, Except.bind, pure, Except.pure]

end

theorem read_toJson_of_validate (readKey : Read F ElementKey) (objective : StudyObjective F)
    (space : DecisionSpace F) (hvalid : objective.validate space = .ok ())
    (hkeys : ∀ key ∈ objective.keys, readKey key.toJson = .ok key) :
    read readKey 128 objective.toJson = .ok objective := by
  unfold validate at hvalid
  split at hvalid
  · next n hwalk => exact read_toJson readKey _ objective 128 0 0 n hwalk hkeys (by omega)
  · cases hvalid

end StudyObjective

def DecisionVariable.toJson (v : DecisionVariable F) : Json F :=
  .obj [("budget_weight", Json.ofFloat v.budgetWeight), ("element", v.element.toJson),
    ("id", .str v.id), ("increment", Json.ofFloat v.increment),
    ("intervention", .str v.intervention.tag), ("lower", Json.ofFloat v.lower),
    ("upper", Json.ofFloat v.upper)]

def DecisionVariable.read (readKey : Read F ElementKey) : Read F (DecisionVariable F) :=
  fun value => do
    let fields ← Json.entries value
    Json.denyUnknown
      ["budget_weight", "element", "id", "increment", "intervention", "lower", "upper"] fields
    return { id := ← Json.field fields "id" Json.readStr
             element := ← Json.field fields "element" readKey
             intervention := ← Json.field fields "intervention" Intervention.read
             lower := ← Json.field fields "lower" Json.readFloat
             upper := ← Json.field fields "upper" Json.readFloat
             increment := ← Json.field fields "increment" Json.readFloat
             budgetWeight := ← Json.field fields "budget_weight" Json.readFloat }

def DemandConstraint.toJson : DemandConstraint F → Json F
  | .placement increaseMw =>
    .obj [("increase_mw", Json.ofFloat increaseMw), ("kind", .str "placement")]
  | .redistribution => .obj [("kind", .str "redistribution")]

def DemandConstraint.read : Read F (DemandConstraint F) := fun value => do
  let fields ← Json.entries value
  let kind ← Json.field fields "kind" Json.readStr
  match kind with
  | "placement" =>
    Json.denyUnknown ["increase_mw", "kind"] fields
    return .placement (← Json.field fields "increase_mw" Json.readFloat)
  | "redistribution" =>
    Json.denyUnknown ["kind"] fields
    return .redistribution
  | other => .error ("unknown variant " ++ other)

def DecisionSpace.toJson (space : DecisionSpace F) : Json F :=
  .obj [("demand", Json.ofOption DemandConstraint.toJson space.demand),
    ("max_changed_elements", Json.ofNat space.maxChangedElements),
    ("total_budget", Json.ofFloat space.totalBudget),
    ("variables", Json.ofList DecisionVariable.toJson space.vars)]

def DecisionSpace.read (readKey : Read F ElementKey) : Read F (DecisionSpace F) :=
  fun value => do
    let fields ← Json.entries value
    Json.denyUnknown ["demand", "max_changed_elements", "total_budget", "variables"] fields
    return { vars := ← Json.field fields "variables" (Json.readList (DecisionVariable.read readKey))
             totalBudget := ← Json.field fields "total_budget" Json.readFloat
             maxChangedElements := ← Json.field fields "max_changed_elements" Json.readNat
             demand := ← Json.fieldOption fields "demand" DemandConstraint.read }

def GoalRevision.toJson (goal : GoalRevision F) : Json F :=
  .obj [("anchor_state", .str goal.anchorState), ("decisions", goal.decisions.toJson),
    ("interpretation", .str goal.interpretation), ("objective", goal.objective.toJson),
    ("parent", name goal.parent), ("request", .str goal.request),
    ("success_value", number goal.successValue)]

def GoalRevision.read (readKey : Read F ElementKey) : Read F (GoalRevision F) :=
  fun value => do
    let fields ← Json.entries value
    Json.denyUnknown ["anchor_state", "decisions", "interpretation", "objective", "parent",
      "request", "success_value"] fields
    return { parent := ← Json.fieldOption fields "parent" Json.readStr
             anchorState := ← Json.field fields "anchor_state" Json.readStr
             request := ← Json.field fields "request" Json.readStr
             interpretation := ← Json.field fields "interpretation" Json.readStr
             objective := ← Json.field fields "objective" (StudyObjective.read readKey 128)
             decisions := ← Json.field fields "decisions" (DecisionSpace.read readKey)
             successValue := ← Json.fieldOption fields "success_value" Json.readFloat }

/-! ### Validated goals read back -/

theorem DecisionVariable.read_toJson (readKey : Read F ElementKey) (v : DecisionVariable F)
    (hkey : readKey v.element.toJson = .ok v.element) (hlower : isFinite v.lower)
    (hupper : isFinite v.upper) (hincrement : isFinite v.increment)
    (hweight : isFinite v.budgetWeight) :
    DecisionVariable.read readKey v.toJson = .ok v := by
  have h1 := Json.readFloat_ofFloat v.lower hlower
  have h2 := Json.readFloat_ofFloat v.upper hupper
  have h3 := Json.readFloat_ofFloat v.increment hincrement
  have h4 := Json.readFloat_ofFloat v.budgetWeight hweight
  simp [DecisionVariable.read, DecisionVariable.toJson, Json.entries, Json.denyUnknown,
    Json.field, List.lookup_cons, hkey, h1, h2, h3, h4, bind, Except.bind, pure, Except.pure]

/-- The finiteness that `DecisionSpace::validate` checks. -/
structure DecisionSpace.Finite (space : DecisionSpace F) : Prop where
  budget : isFinite space.totalBudget
  vars : ∀ v ∈ space.vars, isFinite v.lower ∧ isFinite v.upper ∧ isFinite v.increment ∧
    isFinite v.budgetWeight
  increase : ∀ increaseMw, space.demand = some (.placement increaseMw) → isFinite increaseMw

theorem DecisionSpace.finite_of_validateVariables (formulation : Problem)
    (rest earlier : List (DecisionVariable F))
    (h : validateVariables formulation earlier rest = .ok ()) :
    ∀ v ∈ rest, isFinite v.lower ∧ isFinite v.upper ∧ isFinite v.increment ∧
      isFinite v.budgetWeight := by
  induction rest generalizing earlier with
  | nil => simp
  | cons v rest ih =>
    simp only [validateVariables, bind_eq_ok] at h
    obtain ⟨_, hv, hrest⟩ := h
    simp only [validateVariable, ite_error_eq_ok, not_or] at hv
    obtain ⟨-, ⟨hnumbers, -⟩, -⟩ := hv
    intro w hw
    rcases List.mem_cons.mp hw with rfl | hw
    · simpa using hnumbers
    · exact ih _ hrest w hw

theorem DecisionSpace.finite_of_validate {space : DecisionSpace F} {formulation : Problem}
    (h : space.validate formulation = .ok ()) : space.Finite := by
  simp only [validate, bind_eq_ok, error_bind, ite_error_eq_ok, not_or] at h
  obtain ⟨-, ⟨hbudget, -⟩, _, hvars, -, hdemand⟩ := h
  constructor
  case budget => simpa using hbudget
  case vars => exact finite_of_validateVariables formulation space.vars [] hvars
  case increase =>
    intro increaseMw hplacement
    simp only [validateDemand, hplacement, ite_error_eq_ok, not_or] at hdemand
    simpa using hdemand.1.2.1

theorem DecisionSpace.read_toJson (readKey : Read F ElementKey) (space : DecisionSpace F)
    (hfinite : space.Finite) (hkeys : ∀ v ∈ space.vars, readKey v.element.toJson = .ok v.element) :
    DecisionSpace.read readKey space.toJson = .ok space := by
  have hvars : Json.readList (DecisionVariable.read readKey)
      (Json.ofList DecisionVariable.toJson space.vars) = .ok space.vars := by
    apply Json.readList_ofList
    intro v hv
    obtain ⟨hlower, hupper, hincrement, hweight⟩ := hfinite.vars v hv
    exact DecisionVariable.read_toJson readKey v (hkeys v hv) hlower hupper hincrement hweight
  have hbudget := Json.readFloat_ofFloat space.totalBudget hfinite.budget
  have hdemand : Json.readOption DemandConstraint.read
      (Json.ofOption DemandConstraint.toJson space.demand) = .ok space.demand := by
    apply Json.readOption_ofOption
    rintro (increaseMw | _) hmem
    · have hnumber := Json.readFloat_ofFloat increaseMw (hfinite.increase increaseMw hmem)
      simp [DemandConstraint.read, DemandConstraint.toJson, Json.entries, Json.denyUnknown,
        Json.field, List.lookup_cons, hnumber, bind, Except.bind, pure, Except.pure]
    · simp [DemandConstraint.read, DemandConstraint.toJson, Json.entries, Json.denyUnknown,
        Json.field, bind, Except.bind, pure, Except.pure]
  simp [DecisionSpace.read, DecisionSpace.toJson, Json.entries, Json.denyUnknown, Json.field,
    Json.fieldOption, Json.fieldOr, List.lookup_cons, hvars, hbudget, hdemand,
    bind, Except.bind, pure, Except.pure]

def GoalRevision.keys (goal : GoalRevision F) : List ElementKey :=
  goal.objective.keys ++ goal.decisions.vars.map (·.element)

/-- What `validate` checks of a goal on its own. -/
structure GoalRevision.Valid (goal : GoalRevision F) : Prop where
  decisions : ∃ formulation, goal.decisions.validate formulation = .ok ()
  objective : goal.objective.validate goal.decisions = .ok ()
  success : ∀ x ∈ goal.successValue, isFinite x

theorem GoalRevision.read_toJson (readKey : Read F ElementKey) {goal : GoalRevision F}
    (hvalid : goal.Valid) (hkeys : ∀ key ∈ goal.keys, readKey key.toJson = .ok key) :
    GoalRevision.read readKey goal.toJson = .ok goal := by
  obtain ⟨formulation, hdecisions⟩ := hvalid.decisions
  have hobjective := StudyObjective.read_toJson_of_validate readKey goal.objective goal.decisions
    hvalid.objective fun key hkey => hkeys key (List.mem_append_left _ hkey)
  have hspace := DecisionSpace.read_toJson readKey goal.decisions
    (DecisionSpace.finite_of_validate hdecisions) fun v hv =>
      hkeys _ (List.mem_append_right _ (List.mem_map.mpr ⟨v, hv, rfl⟩))
  have hsuccess := readOption_number goal.successValue hvalid.success
  simp [GoalRevision.read, GoalRevision.toJson, Json.entries, Json.denyUnknown, Json.field,
    Json.fieldOption, Json.fieldOr, List.lookup_cons, hobjective, hspace, hsuccess, readOption_name,
    bind, Except.bind, pure, Except.pure]

theorem GoalRevision.toJson_injective {a b : GoalRevision F} (ha : a.Valid) (hb : b.Valid)
    (h : a.toJson = b.toJson) : a = b := by
  have hreada := read_toJson ElementKey.readExact ha fun key _ => ElementKey.readExact_toJson key
  have hreadb := read_toJson ElementKey.readExact hb fun key _ => ElementKey.readExact_toJson key
  rw [h, hreadb] at hreada
  exact (Except.ok.inj hreada).symm

end Goals

/-! ### Experiments -/

section Experiments

variable [Binary64 F]

def TrialRecord.toJson (t : TrialRecord F) : Json F :=
  .obj [("accepted", .bool t.accepted), ("changes", floats t.changes),
    ("evidence", strings t.evidence), ("exact_value", number t.exactValue),
    ("failure", name t.failure), ("predicted_value", number t.predictedValue),
    ("state", name t.state)]

def TrialRecord.read : Read F (TrialRecord F) := fun value => do
  let fields ← Json.entries value
  Json.denyUnknown ["accepted", "changes", "evidence", "exact_value", "failure",
    "predicted_value", "state"] fields
  return { changes := ← Json.field fields "changes" readFloats
           predictedValue := ← Json.fieldOption fields "predicted_value" Json.readFloat
           exactValue := ← Json.fieldOption fields "exact_value" Json.readFloat
           state := ← Json.fieldOption fields "state" Json.readStr
           accepted := ← Json.field fields "accepted" Json.readBool
           failure := ← Json.fieldOption fields "failure" Json.readStr
           evidence := ← Json.field fields "evidence" readStrings }

def ExperimentRecord.toJson (e : ExperimentRecord F) : Json F :=
  .obj [("assessed_recommendation", name e.assessedRecommendation),
    ("evidence", strings e.evidence), ("goal", name e.goal), ("kind", .str e.kind.tag),
    ("rationale", .str e.rationale), ("result_states", strings e.resultStates),
    ("solve_count", Json.ofNat e.solveCount), ("start_state", name e.startState),
    ("termination", .str e.termination), ("trials", Json.ofList TrialRecord.toJson e.trials)]

def ExperimentRecord.read : Read F (ExperimentRecord F) := fun value => do
  let fields ← Json.entries value
  Json.denyUnknown ["assessed_recommendation", "evidence", "goal", "kind", "rationale",
    "result_states", "solve_count", "start_state", "termination", "trials"] fields
  return { startState := ← Json.fieldOption fields "start_state" Json.readStr
           goal := ← Json.fieldOption fields "goal" Json.readStr
           kind := ← Json.field fields "kind" ExperimentKind.read
           rationale := ← Json.field fields "rationale" Json.readStr
           evidence := ← Json.field fields "evidence" readStrings
           trials := ← Json.field fields "trials" (Json.readList TrialRecord.read)
           resultStates := ← Json.field fields "result_states" readStrings
           assessedRecommendation := ← Json.fieldOption fields "assessed_recommendation" Json.readStr
           solveCount := ← Json.field fields "solve_count" Json.readNat
           termination := ← Json.field fields "termination" Json.readStr }

/-- The finiteness that `validate` checks of a trial. -/
structure TrialRecord.Finite (t : TrialRecord F) : Prop where
  changes : ∀ x ∈ t.changes, isFinite x
  predicted : ∀ x ∈ t.predictedValue, isFinite x
  exact : ∀ x ∈ t.exactValue, isFinite x

theorem TrialRecord.read_toJson {t : TrialRecord F} (hfinite : t.Finite) :
    TrialRecord.read t.toJson = .ok t := by
  have hchanges := readFloats_floats t.changes hfinite.changes
  have hpredicted := readOption_number t.predictedValue hfinite.predicted
  have hexact := readOption_number t.exactValue hfinite.exact
  simp [TrialRecord.read, TrialRecord.toJson, Json.entries, Json.denyUnknown, Json.field,
    Json.fieldOption, Json.fieldOr, List.lookup_cons, hchanges, hpredicted, hexact, readOption_name,
    readStrings_strings, bind, Except.bind, pure, Except.pure]

theorem ExperimentRecord.read_toJson {e : ExperimentRecord F}
    (hfinite : ∀ t ∈ e.trials, t.Finite) : ExperimentRecord.read e.toJson = .ok e := by
  have htrials : Json.readList TrialRecord.read (Json.ofList TrialRecord.toJson e.trials) =
      .ok e.trials :=
    Json.readList_ofList _ _ e.trials fun t ht => TrialRecord.read_toJson (hfinite t ht)
  simp [ExperimentRecord.read, ExperimentRecord.toJson, Json.entries, Json.denyUnknown,
    Json.field, Json.fieldOption, Json.fieldOr, List.lookup_cons, htrials, readOption_name,
    readStrings_strings, bind, Except.bind, pure, Except.pure]

end Experiments

/-! ### Display and model details -/

section Display

variable [Binary64 F]

def pair (value : F × F) : Json F := .arr [Json.ofFloat value.1, Json.ofFloat value.2]

def Camera.toJson (c : Camera F) : Json F :=
  .obj [("bearing", Json.ofFloat c.bearing), ("center", pair c.center),
    ("pitch", Json.ofFloat c.pitch), ("zoom", Json.ofFloat c.zoom)]

def Camera.read : Read F (Camera F) := fun value => do
  let fields ← Json.entries value
  Json.denyUnknown ["bearing", "center", "pitch", "zoom"] fields
  return { center := ← Json.field fields "center" (Json.readPair Json.readFloat)
           zoom := ← Json.field fields "zoom" Json.readFloat
           bearing := ← Json.field fields "bearing" Json.readFloat
           pitch := ← Json.field fields "pitch" Json.readFloat }

def DiagramCamera.toJson (c : DiagramCamera F) : Json F :=
  .obj [("center", pair c.center), ("scale", Json.ofFloat c.scale)]

def DiagramCamera.read : Read F (DiagramCamera F) := fun value => do
  let fields ← Json.entries value
  Json.denyUnknown ["center", "scale"] fields
  return { center := ← Json.field fields "center" (Json.readPair Json.readFloat)
           scale := ← Json.field fields "scale" Json.readFloat }

def DisplayContext.toJson (d : DisplayContext F) : Json F :=
  .obj [("camera", Json.ofOption Camera.toJson d.camera), ("case_id", .str d.caseId),
    ("diagram_camera", Json.ofOption DiagramCamera.toJson d.diagramCamera),
    ("geography", .str d.geography), ("layers", strings d.layers)]

def DisplayContext.read : Read F (DisplayContext F) := fun value => do
  let fields ← Json.entries value
  Json.denyUnknown ["camera", "case_id", "diagram_camera", "geography", "layers"] fields
  return { caseId := ← Json.field fields "case_id" Json.readStr
           geography := ← Json.field fields "geography" Json.readStr
           layers := ← Json.fieldOr fields "layers" [] readStrings
           camera := ← Json.fieldOption fields "camera" Camera.read
           diagramCamera := ← Json.fieldOption fields "diagram_camera" DiagramCamera.read }

def GenCost.toJson (c : GenCost F) : Json F :=
  .obj [("coeffs", floats c.coeffs), ("model", Json.ofNat c.model), ("ncost", Json.ofNat c.ncost),
    ("shutdown", Json.ofFloat c.shutdown), ("startup", Json.ofFloat c.startup)]

def GenCost.read : Read F (GenCost F) := fun value => do
  let fields ← Json.entries value
  return { model := ← Json.field fields "model" Json.readNat
           startup := ← Json.field fields "startup" Json.readFloat
           shutdown := ← Json.field fields "shutdown" Json.readFloat
           ncost := ← Json.field fields "ncost" Json.readNat
           coeffs := ← Json.field fields "coeffs" readFloats }

def CostApproximation.toJson (a : CostApproximation F) : Json F :=
  .obj [("bus", Json.ofNat a.bus), ("generator", Json.ofNat a.generator),
    ("max_breakpoint_error", Json.ofFloat a.maxBreakpointError),
    ("model_cost", a.modelCost.toJson), ("rms_breakpoint_error", Json.ofFloat a.rmsBreakpointError),
    ("source_cost", a.sourceCost.toJson)]

def CostApproximation.read : Read F (CostApproximation F) := fun value => do
  let fields ← Json.entries value
  return { generator := ← Json.field fields "generator" Json.readNat
           bus := ← Json.field fields "bus" Json.readNat
           sourceCost := ← Json.field fields "source_cost" GenCost.read
           modelCost := ← Json.field fields "model_cost" GenCost.read
           rmsBreakpointError := ← Json.field fields "rms_breakpoint_error" Json.readFloat
           maxBreakpointError := ← Json.field fields "max_breakpoint_error" Json.readFloat }

def ModelDetails.toJson (m : ModelDetails F) : Json F :=
  .obj [("approximations", Json.ofList CostApproximation.toJson m.approximations),
    ("method", .str m.method.tag), ("model", .str m.model), ("quantity", .str m.quantity),
    ("source", .str m.source), ("units", .str m.units)]

def ModelDetails.read : Read F (ModelDetails F) := fun value => do
  let fields ← Json.entries value
  return { method := ← Json.field fields "method" CostPreparation.read
           source := ← Json.field fields "source" Json.readStr
           model := ← Json.field fields "model" Json.readStr
           quantity := ← Json.field fields "quantity" Json.readStr
           units := ← Json.field fields "units" Json.readStr
           approximations := ←
             Json.field fields "approximations" (Json.readList CostApproximation.read) }

structure Camera.Finite (c : Camera F) : Prop where
  center : isFinite c.center.1 ∧ isFinite c.center.2
  zoom : isFinite c.zoom
  bearing : isFinite c.bearing
  pitch : isFinite c.pitch

structure DiagramCamera.Finite (c : DiagramCamera F) : Prop where
  center : isFinite c.center.1 ∧ isFinite c.center.2
  scale : isFinite c.scale

structure DisplayContext.Finite (d : DisplayContext F) : Prop where
  camera : ∀ c ∈ d.camera, c.Finite
  diagramCamera : ∀ c ∈ d.diagramCamera, c.Finite

structure GenCost.Finite (c : GenCost F) : Prop where
  startup : isFinite c.startup
  shutdown : isFinite c.shutdown
  coeffs : ∀ x ∈ c.coeffs, isFinite x

structure CostApproximation.Finite (a : CostApproximation F) : Prop where
  sourceCost : a.sourceCost.Finite
  modelCost : a.modelCost.Finite
  rmsError : isFinite a.rmsBreakpointError
  maxError : isFinite a.maxBreakpointError

def ModelDetails.Finite (m : ModelDetails F) : Prop := ∀ a ∈ m.approximations, a.Finite

theorem readPair_pair {value : F × F} (h : isFinite value.1 ∧ isFinite value.2) :
    Json.readPair Json.readFloat (pair value) = .ok value := by
  simp [Json.readPair, pair, Json.readFloat_ofFloat _ h.1, Json.readFloat_ofFloat _ h.2,
    bind, Except.bind, pure, Except.pure]

theorem Camera.read_toJson {c : Camera F} (h : c.Finite) : Camera.read c.toJson = .ok c := by
  simp [Camera.read, Camera.toJson, Json.entries, Json.denyUnknown, Json.field, List.lookup_cons,
    readPair_pair h.center, Json.readFloat_ofFloat _ h.zoom, Json.readFloat_ofFloat _ h.bearing,
    Json.readFloat_ofFloat _ h.pitch, bind, Except.bind, pure, Except.pure]

theorem DiagramCamera.read_toJson {c : DiagramCamera F} (h : c.Finite) :
    DiagramCamera.read c.toJson = .ok c := by
  simp [DiagramCamera.read, DiagramCamera.toJson, Json.entries, Json.denyUnknown, Json.field,
    List.lookup_cons, readPair_pair h.center, Json.readFloat_ofFloat _ h.scale,
    bind, Except.bind, pure, Except.pure]

theorem DisplayContext.read_toJson {d : DisplayContext F} (h : d.Finite) :
    DisplayContext.read d.toJson = .ok d := by
  have hcamera : Json.readOption Camera.read (Json.ofOption Camera.toJson d.camera) =
      .ok d.camera :=
    Json.readOption_ofOption _ _ _ fun c hc =>
      ⟨by simp [Camera.toJson], Camera.read_toJson (h.camera c hc)⟩
  have hdiagram : Json.readOption DiagramCamera.read
      (Json.ofOption DiagramCamera.toJson d.diagramCamera) = .ok d.diagramCamera :=
    Json.readOption_ofOption _ _ _ fun c hc =>
      ⟨by simp [DiagramCamera.toJson], DiagramCamera.read_toJson (h.diagramCamera c hc)⟩
  simp [DisplayContext.read, DisplayContext.toJson, Json.entries, Json.denyUnknown, Json.field,
    Json.fieldOption, Json.fieldOr, List.lookup_cons, hcamera, hdiagram, readStrings_strings,
    bind, Except.bind, pure, Except.pure]

theorem GenCost.read_toJson {c : GenCost F} (h : c.Finite) : GenCost.read c.toJson = .ok c := by
  simp [GenCost.read, GenCost.toJson, Json.entries, Json.field, List.lookup_cons,
    readFloats_floats _ h.coeffs, Json.readFloat_ofFloat _ h.startup,
    Json.readFloat_ofFloat _ h.shutdown, bind, Except.bind, pure, Except.pure]

theorem CostApproximation.read_toJson {a : CostApproximation F} (h : a.Finite) :
    CostApproximation.read a.toJson = .ok a := by
  simp [CostApproximation.read, CostApproximation.toJson, Json.entries, Json.field, List.lookup_cons,
    GenCost.read_toJson h.sourceCost, GenCost.read_toJson h.modelCost,
    Json.readFloat_ofFloat _ h.rmsError, Json.readFloat_ofFloat _ h.maxError,
    bind, Except.bind, pure, Except.pure]

theorem ModelDetails.read_toJson {m : ModelDetails F} (h : m.Finite) :
    ModelDetails.read m.toJson = .ok m := by
  have happroximations : Json.readList CostApproximation.read
      (Json.ofList CostApproximation.toJson m.approximations) = .ok m.approximations :=
    Json.readList_ofList _ _ _ fun a ha => CostApproximation.read_toJson (h a ha)
  simp [ModelDetails.read, ModelDetails.toJson, Json.entries, Json.field, List.lookup_cons,
    happroximations, bind, Except.bind, pure, Except.pure]

end Display

/-! ### Documents and bundles -/

section Documents

variable [Binary64 F]

/-- Three fields are left out when they are `None`. -/
def StudyDocument.fields (d : StudyDocument F) : List (String × Option (Json F)) :=
  [("active_goal", some (name d.activeGoal)), ("applied_state", some (name d.appliedState)),
   ("base_input", d.baseInput.map .str),
   ("decisions", some (Json.ofRecords DecisionRecord.toJson d.decisions)),
   ("display", d.display.map DisplayContext.toJson),
   ("experiment_order", some (strings d.experimentOrder)),
   ("experiments", some (Json.ofRecords ExperimentRecord.toJson d.experiments)),
   ("goals", some (Json.ofRecords GoalRevision.toJson d.goals)), ("id", some (.str d.id)),
   ("inspected_state", some (name d.inspectedState)),
   ("model_details", d.modelDetails.map ModelDetails.toJson),
   ("recommended_state", some (name d.recommendedState)),
   ("revision", some (Json.ofNat d.revision)), ("schema", some (.str d.schema)),
   ("states", some (Json.ofRecords StateNode.toJson d.states)),
   ("title", some (.str d.title)), ("version", some (Json.ofNat d.version))]

def StudyDocument.toJson (d : StudyDocument F) : Json F := .obj (Json.present d.fields)

def StudyDocument.fieldNames : List String :=
  ["active_goal", "applied_state", "base_input", "decisions", "display", "experiment_order",
   "experiments", "goals", "id", "inspected_state", "model_details", "recommended_state",
   "revision", "schema", "states", "title", "version"]

def StudyDocument.read (readKey : Read F ElementKey) : Read F (StudyDocument F) :=
  fun value => do
    let fields ← Json.entries value
    Json.denyUnknown fieldNames fields
    return { schema := ← Json.field fields "schema" Json.readStr
             version := ← Json.field fields "version" Json.readNat
             id := ← Json.field fields "id" Json.readStr
             title := ← Json.field fields "title" Json.readStr
             revision := ← Json.field fields "revision" Json.readNat
             goals := ← Json.field fields "goals" (Json.readRecords (GoalRevision.read readKey))
             states := ← Json.field fields "states" (Json.readRecords StateNode.read)
             experiments := ← Json.field fields "experiments"
               (Json.readRecords ExperimentRecord.read)
             experimentOrder := ← Json.field fields "experiment_order" readStrings
             decisions := ← Json.field fields "decisions" (Json.readRecords DecisionRecord.read)
             activeGoal := ← Json.fieldOption fields "active_goal" Json.readStr
             inspectedState := ← Json.fieldOption fields "inspected_state" Json.readStr
             recommendedState := ← Json.fieldOption fields "recommended_state" Json.readStr
             appliedState := ← Json.fieldOption fields "applied_state" Json.readStr
             baseInput := ← Json.fieldOption fields "base_input" Json.readStr
             display := ← Json.fieldOption fields "display" DisplayContext.read
             modelDetails := ← Json.fieldOption fields "model_details" ModelDetails.read }

def StudyBundle.toJson (bundle : StudyBundle F) : Json F :=
  .obj [("artifacts", Json.ofRecords StudyArtifact.toJson bundle.artifacts),
    ("document", bundle.document.toJson)]

def StudyBundle.read (readKey : Read F ElementKey) : Read F (StudyBundle F) := fun value => do
  let fields ← Json.entries value
  Json.denyUnknown ["artifacts", "document"] fields
  return { document := ← Json.field fields "document" (StudyDocument.read readKey)
           artifacts := ← Json.field fields "artifacts" (Json.readRecords StudyArtifact.read) }

/-- Every number of the document is one JSON can hold, and every goal is valid. -/
structure StudyDocument.Writable (d : StudyDocument F) : Prop where
  goals : ∀ (id : String) (g : GoalRevision F), d.goals[id]? = some g → g.Valid
  trials : ∀ (id : String) (e : ExperimentRecord F), d.experiments[id]? = some e →
    ∀ t ∈ e.trials, t.Finite
  display : ∀ c ∈ d.display, c.Finite
  modelDetails : ∀ m ∈ d.modelDetails, m.Finite

/-- The element keys that a document's goals name. -/
def StudyDocument.Names (d : StudyDocument F) (key : ElementKey) : Prop :=
  ∃ (id : String) (g : GoalRevision F), d.goals[id]? = some g ∧ key ∈ g.keys

theorem StudyDocument.read_toJson (readKey : Read F ElementKey) {d : StudyDocument F}
    (h : d.Writable) (hkeys : ∀ key, d.Names key → readKey key.toJson = .ok key) :
    StudyDocument.read readKey d.toJson = .ok d := by
  have hgoals := Json.readRecords_ofRecords (GoalRevision.read readKey) GoalRevision.toJson d.goals
    fun id g hg => GoalRevision.read_toJson readKey (h.goals id g hg) fun key hkey =>
      hkeys key ⟨id, g, hg, hkey⟩
  have hexperiments := Json.readRecords_ofRecords ExperimentRecord.read ExperimentRecord.toJson
    d.experiments fun id e he => ExperimentRecord.read_toJson (h.trials id e he)
  have hstates := Json.readRecords_ofRecords (F := F) StateNode.read StateNode.toJson d.states
    fun _ s _ => s.read_toJson
  have hdecisions := Json.readRecords_ofRecords (F := F) DecisionRecord.read DecisionRecord.toJson
    d.decisions fun _ r _ => r.read_toJson
  have hnames : d.fields.map Prod.fst = fieldNames := rfl
  have hnodup : fieldNames.Nodup := by decide
  have hfields : (d.fields.map Prod.fst).Nodup := hnames ▸ hnodup
  have hpointer (field : String) (value : Option String)
      (hfield : d.fields.lookup field = some (some (name value))) :
      Json.fieldOption (Json.present d.fields) field Json.readStr = .ok value :=
    Json.fieldOption_written hfields Json.readStr .str hfield fun _ _ => ⟨nofun, rfl⟩
  have hgoal := hpointer "active_goal" d.activeGoal rfl
  have happlied := hpointer "applied_state" d.appliedState rfl
  have hinspected := hpointer "inspected_state" d.inspectedState rfl
  have hrecommended := hpointer "recommended_state" d.recommendedState rfl
  have hbase : Json.fieldOption (Json.present d.fields) "base_input" Json.readStr =
      .ok d.baseInput :=
    Json.fieldOption_left_out hfields Json.readStr .str rfl fun _ _ => ⟨nofun, rfl⟩
  have hdisplay : Json.fieldOption (Json.present d.fields) "display" DisplayContext.read =
      .ok d.display :=
    Json.fieldOption_left_out hfields DisplayContext.read DisplayContext.toJson rfl fun c hc =>
      ⟨nofun, DisplayContext.read_toJson (h.display c hc)⟩
  have hdetails : Json.fieldOption (Json.present d.fields) "model_details" ModelDetails.read =
      .ok d.modelDetails :=
    Json.fieldOption_left_out hfields ModelDetails.read ModelDetails.toJson rfl fun m hm =>
      ⟨nofun, ModelDetails.read_toJson (h.modelDetails m hm)⟩
  have hlookup := Json.lookup_present hfields
  simp only [read, toJson, Json.entries, Json.denyUnknown_present hnames hnodup, hgoal, happlied,
    hinspected, hrecommended, hbase, hdisplay, hdetails, Json.field, hlookup, bind, Except.bind,
    pure, Except.pure]
  simp [fields, List.lookup_cons, readStrings_strings, hgoals, hexperiments, hstates, hdecisions]

theorem StudyBundle.read_toJson (readKey : Read F ElementKey) {bundle : StudyBundle F}
    (h : bundle.document.Writable)
    (hkeys : ∀ key, bundle.document.Names key → readKey key.toJson = .ok key) :
    StudyBundle.read readKey bundle.toJson = .ok bundle := by
  have hdocument := StudyDocument.read_toJson readKey h hkeys
  have hartifacts := Json.readRecords_ofRecords (F := F) StudyArtifact.read StudyArtifact.toJson
    bundle.artifacts fun _ a _ => a.read_toJson
  simp [read, toJson, Json.entries, Json.denyUnknown, Json.field, List.lookup_cons, hdocument,
    hartifacts, bind, Except.bind, pure, Except.pure]

end Documents

end Tellegen
