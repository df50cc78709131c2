import Tellegen.Preflight

/-!
What the checks of a raw document establish about its terminal maps and the
vectors of its loads. The maps of coils are read through their texts alone and
a WYE map with any other entry is let through, so an accepted document has
well-formed maps exactly where those entries do no harm.
-/

set_option linter.unusedSectionVars false

open Binary64 Outcome Json

namespace Tellegen.Preflight

variable {F : Type} [Binary64 F]

/-! ### Checks that pass -/

@[simp] theorem reject_eq_ok {bad : Bool} {message : String} {u : Unit} :
    reject bad message = .ok u ↔ bad = false := by
  cases bad with
  | true => simp [reject]
  | false => simp [reject]

@[simp] theorem whenSome_eq_ok {α : Type} {option : Option α} {check : α → Except String Unit}
    {u : Unit} : whenSome option check = .ok u ↔ ∀ value, option = some value → check value = .ok () := by
  cases option with
  | none => simp [whenSome]
  | some value => simp [whenSome]

@[simp] theorem whenever_eq_ok {condition : Bool} {check : Except String Unit} {u : Unit} :
    whenever condition check = .ok u ↔ (condition = true → check = .ok ()) := by
  cases condition with
  | true => simp [whenever]
  | false => simp [whenever]

@[simp] theorem whenPresent_eq_ok {fields : Fields F} {key : String}
    {check : Json F → Except String Unit} {u : Unit} :
    whenPresent fields key check = .ok u ↔
      ∀ value, fields.lookup key = some value → check value = .ok () := whenSome_eq_ok

def AllText (value : Json F) : Prop :=
  ∀ items, value = .arr items → ∀ item ∈ items, ∃ text, item = .str text

theorem map_filterMap_asStr {items : List (Json F)} (h : ∀ item ∈ items, ∃ text, item = .str text) :
    (items.filterMap asStr).map .str = items := by
  induction items with
  | nil => rfl
  | cons item items ih =>
    rw [List.forall_mem_cons] at h
    obtain ⟨⟨text, rfl⟩, hrest⟩ := h
    have hhead : asStr (.str text : Json F) = some text := rfl
    rw [List.filterMap_cons, hhead, List.map_cons, ih hrest]

theorem repeats_eq_false {before names : List String} :
    repeats before names = false ↔
      "" ∉ names ∧ (∀ name ∈ names, name ∉ before) ∧ names.Nodup := by
  induction names generalizing before with
  | nil => simp [repeats]
  | cons name names ih =>
    rw [repeats, Bool.or_eq_false_iff, Bool.or_eq_false_iff, ih, List.nodup_cons,
      List.forall_mem_cons, List.mem_cons, not_or, String.isEmpty_eq_false_iff]
    constructor
    · rintro ⟨⟨hname, hbefore⟩, hempty, hrest, hnodup⟩
      refine ⟨⟨fun h => hname h.symm, hempty⟩, ⟨by simpa using hbefore, ?_⟩, ?_, hnodup⟩
      · exact fun other hother hmem => hrest other hother (List.mem_append_left _ hmem)
      · exact fun hmem => hrest name hmem (List.mem_append_right _ List.mem_cons_self)
    · rintro ⟨⟨hname, hempty⟩, ⟨hbefore, hrest⟩, hnew, hnodup⟩
      refine ⟨⟨fun h => hname h.symm, by simpa using hbefore⟩, hempty, ?_, hnodup⟩
      intro other hother hmem
      obtain hmem | hmem := List.mem_append.mp hmem
      · exact hrest other hother hmem
      · rw [List.mem_singleton.mp hmem] at hother
        exact hnew hother

/-- A list of so many different names that are not empty. -/
def TerminalList (count : ℕ) (value : Json F) : Prop :=
  ∃ names : List String, value = .arr (names.map .str) ∧ names.length = count ∧ names.Nodup ∧ "" ∉ names

theorem validateDistinct_eq_ok {kind name field : String} {value : Json F} {expected : ℕ}
    {result : Option (List String)}
    (h : validateDistinctTerminalMap kind name field (some value) expected = .ok result) :
    ∃ items, value = .arr items ∧ result = some (items.filterMap asStr) ∧
      (items.filterMap asStr).length = expected ∧ (items.filterMap asStr).Nodup ∧
        "" ∉ items.filterMap asStr := by
  rw [validateDistinctTerminalMap] at h
  cases value with
  | arr items =>
    simp only [asArray, bind_eq_ok, reject_eq_ok, Except.ok.injEq] at h
    obtain ⟨-, hlength, -, hrepeats, rfl⟩ := h
    obtain ⟨hempty, -, hnodup⟩ := repeats_eq_false.mp hrepeats
    exact ⟨items, rfl, rfl, by simpa using hlength, hnodup, hempty⟩
  | _ => simp [asArray] at h

theorem terminalList_of_ok {kind name field : String} {value : Json F} {expected : ℕ}
    {result : Option (List String)}
    (h : validateDistinctTerminalMap kind name field (some value) expected = .ok result)
    (htext : AllText value) :
    TerminalList expected value ∧ ∃ names, value = .arr (names.map .str) ∧ result = some names := by
  obtain ⟨items, rfl, rfl, hlength, hnodup, hempty⟩ := validateDistinct_eq_ok h
  have hitems := map_filterMap_asStr (htext items rfl)
  exact ⟨⟨_, by rw [hitems], hlength, hnodup, hempty⟩, _, by rw [hitems], rfl⟩

/-- A declared neutral is nowhere but at the end. -/
def NeutralLast (nonPhase : List String) (value : Json F) : Prop :=
  ∀ items, value = .arr items → ∀ i name, items[i]? = some (.str name) → name ∈ nonPhase →
    i + 1 = items.length

theorem neutralLast_of_ok {kind name field : String} {value : Json F} {nonPhase : List String}
    {phases : Option ℕ}
    (h : validateWyeTerminalOrder kind name field (some value) nonPhase phases = .ok ())
    (htext : AllText value) : NeutralLast nonPhase value := by
  rintro items rfl i terminal hget hneutral
  have hitems := map_filterMap_asStr (htext items rfl)
  have hlength : (items.filterMap asStr).length = items.length := by
    rw [← List.length_map (f := Json.str), hitems]
  have hname : (items.filterMap asStr)[i]? = some terminal := by
    rw [← hitems, List.getElem?_map] at hget
    obtain ⟨found, hfound, heq⟩ := Option.map_eq_some_iff.mp hget
    rw [hfound, Json.str.inj heq]
  rw [validateWyeTerminalOrder] at h
  change (if (items.filterMap asStr).length ≠ items.length then _ else _) = _ at h
  rw [if_neg (not_not.mpr hlength), hlength] at h
  split at h
  case h_1 hnone =>
    rw [List.findIdx?_eq_none_iff] at hnone
    have hphase := hnone terminal (List.mem_of_getElem? hname)
    rw [List.contains_iff_mem.mpr hneutral] at hphase
    exact nomatch hphase
  case h_2 position hposition =>
    simp only [bind_eq_ok, reject_eq_ok] at h
    obtain ⟨-, -, h⟩ := h
    have hbefore : ((items.filterMap asStr).take (items.length - 1)).any nonPhase.contains = false :=
      (Bool.or_eq_false_iff.mp h).2
    have hlt : i < items.length := by
      rw [← hlength]
      exact (List.getElem?_eq_some_iff.mp hname).1
    by_contra hlast
    have hmem : terminal ∈ (items.filterMap asStr).take (items.length - 1) := by
      apply List.mem_of_getElem? (i := i)
      rw [List.getElem?_take_of_lt (by omega), hname]
    have hany := List.any_eq_false.mp hbefore terminal hmem
    exact hany (List.contains_iff_mem.mpr hneutral)

theorem validateNumericVector_eq_ok {value : Json F} {field : String}
    (h : validateNumericVector value field = .ok ()) :
    ∃ items, value = .arr items ∧ items ≠ [] ∧
      ∀ item ∈ items, ∃ x, item.asF64 = some x ∧ isFinite x = true := by
  rw [validateNumericVector] at h
  cases value with
  | arr items =>
    simp only [asArray, bind_eq_ok, reject_eq_ok] at h
    obtain ⟨-, hempty, hfinite⟩ := h
    refine ⟨items, rfl, by simpa using hempty, ?_⟩
    intro item hitem
    have hgood := List.any_eq_false.mp hfinite item hitem
    cases hx : item.asF64 with
    | none => simp [hx] at hgood
    | some x => exact ⟨x, rfl, by simpa [hx] using hgood⟩
  | _ => simp [asArray] at h

theorem validateLoadVector_eq_ok {load : Fields F} {name key : String}
    (h : validateLoadVector load name key = .ok ()) {value : Json F}
    (hvalue : load.lookup key = some value) :
    ∃ items, value = .arr items ∧ items ≠ [] ∧
      (∀ item ∈ items, ∃ x, item.asF64 = some x ∧ isFinite x = true) ∧
        ∀ branches, branchCount load = some branches → items.length = 1 ∨ items.length = branches := by
  simp only [validateLoadVector, whenPresent_eq_ok, bind_eq_ok] at h
  obtain ⟨_, hnumeric, harity⟩ := h value hvalue
  obtain ⟨items, rfl, hempty, hfinite⟩ := validateNumericVector_eq_ok hnumeric
  refine ⟨items, rfl, hempty, hfinite, ?_⟩
  intro branches hbranches
  rw [whenSome_eq_ok] at harity
  have harity := harity branches hbranches
  simp only [validateVectorArity, asArray, Option.elim, reject_eq_ok] at harity
  by_contra hneither
  rw [not_or] at hneither
  simp [hneither.1, hneither.2] at harity

/-! ### What a document holds -/

def table (root : Json F) (name : String) : Fields F := rowsOf (getIn (some root) name)

/-- The rows that extras lay over a table. -/
def overlay (root : Json F) (name : String) : Fields F :=
  rowsOf (getIn (getIn (some root) "extras") name)

def conventionsOf (root : Json F) : Option (Json F) := getIn (some root) "terminal_conventions"

structure TransformerRecord (root : Json F) (subtype name : String) (record : Fields F) : Prop where
  row : ∃ records raw, ((subtype, records) ∈ table root "transformer" ∨
    (subtype, records) ∈ overlay root "transformer") ∧
      (name, raw) ∈ rowsOf (some records) ∧ raw.asObject = some record

/-- The terminal maps of single-phase and centre-tap transformers, with the names each asks for. -/
inductive CoilMap (root : Json F) : ℕ → Json F → Prop where
  | primary {subtype name : String} {record : Fields F} {value : Json F}
      (h : TransformerRecord root subtype name record)
      (hsubtype : subtype = "single_phase" ∨ subtype = "center_tap")
      (hvalue : record.lookup "terminal_map_from" = some value) : CoilMap root 2 value
  | secondary {name : String} {record : Fields F} {value : Json F}
      (h : TransformerRecord root "single_phase" name record)
      (hvalue : record.lookup "terminal_map_to" = some value) : CoilMap root 2 value
  | tapped {name : String} {record : Fields F} {value : Json F}
      (h : TransformerRecord root "center_tap" name record)
      (hvalue : record.lookup "terminal_map_to" = some value) : CoilMap root 3 value

def isWye (configuration : Option (Json F)) : Bool :=
  eqIgnoreAsciiCase (configurationOf configuration) "WYE"

/-- The terminal maps of loads and windings that are connected in WYE. -/
inductive WyeMap (root : Json F) : Json F → Prop where
  | load {name : String} {row value : Json F} {load : Fields F} (h : (name, row) ∈ table root "load")
      (hrow : row.asObject = some load) (hwye : isWye (load.lookup "configuration") = true)
      (hvalue : load.lookup "terminal_map" = some value) : WyeMap root value
  | winding {name : String} {record fields : Fields F} {windings : List (Json F)} {raw value : Json F}
      (h : TransformerRecord root "n_winding" name record)
      (hwindings : (record.lookup "windings").bind asArray = some windings) (hraw : raw ∈ windings)
      (hfields : raw.asObject = some fields)
      (hwye : isWye ((fields.lookup "configuration").or (fields.lookup "connection")) = true)
      (hvalue : fields.lookup "terminal_map" = some value) : WyeMap root value
  | primary {subtype name : String} {record : Fields F} {value : Json F}
      (h : TransformerRecord root subtype name record)
      (hsubtype : subtype = "wye_delta" ∨ subtype = "single_phase_autotransformer")
      (hvalue : record.lookup "terminal_map_from" = some value) : WyeMap root value
  | secondary {subtype name : String} {record : Fields F} {value : Json F}
      (h : TransformerRecord root subtype name record)
      (hsubtype : subtype = "delta_wye" ∨ subtype = "single_phase_autotransformer")
      (hvalue : record.lookup "terminal_map_to" = some value) : WyeMap root value

inductive LoadVector (root : Json F) : Fields F → Json F → Prop where
  | intro {name key : String} {row value : Json F} {load : Fields F} (h : (name, row) ∈ table root "load")
      (hrow : row.asObject = some load) (hkey : key ∈ zipFields ++ exponentialFields ++ ["v_nom"])
      (hvalue : load.lookup key = some value) : LoadVector root load value

/-- The maps and vectors of a document, as the checks are meant to leave them. -/
structure WellFormed (root : Json F) : Prop where
  coils : ∀ count value, CoilMap root count value → TerminalList count value
  centre : ∀ value, CoilMap root 3 value →
    ∃ a b c, value = .arr [.str a, .str b, .str c] ∧ b ∈ nonPhaseNames (conventionsOf root) ∧
      a ∉ nonPhaseNames (conventionsOf root) ∧ c ∉ nonPhaseNames (conventionsOf root)
  wye : ∀ value, WyeMap root value → NeutralLast (nonPhaseNames (conventionsOf root)) value
  vectors : ∀ load value, LoadVector root load value → ∃ items, value = .arr items ∧ items ≠ [] ∧
    (∀ item ∈ items, ∃ x, item.asF64 = some x ∧ isFinite x = true) ∧
      (items.length = 1 ∨ branchCount load = some items.length)

/-- The maps of coils hold texts alone; a WYE map with any other entry has no neutral before its end;
and a load of which the branches cannot be counted has no vector of more than one number. -/
structure Textual (root : Json F) : Prop where
  coils : ∀ count value, CoilMap root count value → AllText value
  wye : ∀ value, WyeMap root value →
    AllText value ∨ NeutralLast (nonPhaseNames (conventionsOf root)) value
  vectors : ∀ load value, LoadVector root load value → branchCount load = none →
    ∀ items, value = .arr items → items.length = 1

/-! ### Accepted documents -/

structure Accepted (root : Json F) : Prop where
  loads : ∀ name row, (name, row) ∈ table root "load" →
    validateLoad (nonPhaseNames (conventionsOf root)) name row = .ok ()
  transformers : ∀ subtype name record, TransformerRecord root subtype name record →
    ∃ raw : Json F, raw.asObject = some record ∧
      validateTransformerTerminalOrder subtype name raw (conventionsOf root) = .ok ()

theorem validateTransformerGroups_eq_ok {unknown notObject : String → String}
    {conventions : Option (Json F)} {groups : Fields F}
    (h : validateTransformerGroups unknown notObject conventions groups = .ok ()) {subtype name : String}
    {records raw : Json F} (hgroup : (subtype, records) ∈ groups)
    (hrow : (name, raw) ∈ rowsOf (some records)) :
    validateTransformerTerminalOrder subtype name raw conventions = .ok () := by
  rw [validateTransformerGroups, forM_eq_ok] at h
  have hchecked := h _ hgroup
  simp only [bind_eq_ok] at hchecked
  obtain ⟨_, -, hchecked⟩ := hchecked
  rw [rowsOf, Option.bind_some] at hrow
  cases hobject : records.asObject with
  | none =>
    rw [hobject] at hrow
    exact absurd hrow List.not_mem_nil
  | some rows =>
    rw [hobject] at hrow hchecked
    simp only [forM_eq_ok, bind_eq_ok] at hchecked
    obtain ⟨_, -, horder⟩ := hchecked _ hrow
    exact horder

theorem accepted_of_ok {root : Json F} (h : validateBmopf root = .ok ()) : Accepted root := by
  rw [validateBmopf] at h
  cases hroot : root.asObject with
  | none =>
    rw [hroot] at h
    exact nomatch h
  | some object =>
    have hget : ∀ key, getIn (some root) key = object.lookup key := by
      intro key
      rw [getIn, Option.bind_some, hroot, Option.bind_some]
    rw [hroot] at h
    simp only [bind_eq_ok] at h
    obtain ⟨_, -, _, hloads, _, -, _, -, _, htables, hextras⟩ := h
    rw [forM_eq_ok] at hloads
    constructor
    case loads =>
      intro name row hrow
      rw [table, hget] at hrow
      rw [conventionsOf, hget]
      exact hloads _ hrow
    case transformers =>
      rintro subtype name record ⟨records, raw, hgroup, hrow, hraw⟩
      refine ⟨raw, hraw, ?_⟩
      rw [conventionsOf, hget]
      obtain hgroup | hgroup := hgroup
      · rw [table, hget] at hgroup
        exact validateTransformerGroups_eq_ok htables hgroup hrow
      · rw [overlay, hget] at hgroup
        exact validateTransformerGroups_eq_ok hextras hgroup hrow

/-! ### Maps of an accepted document -/

theorem neutralLast_nil (value : Json F) : NeutralLast [] value :=
  fun _ _ _ _ _ hneutral => absurd hneutral List.not_mem_nil

theorem validateLoad_eq_ok {nonPhase : List String} {name : String} {row : Json F} {load : Fields F}
    (h : validateLoad nonPhase name row = .ok ()) (hrow : row.asObject = some load) :
    (∀ key ∈ zipFields ++ exponentialFields ++ ["v_nom"], validateLoadVector load name key = .ok ()) ∧
      (isWye (load.lookup "configuration") = true → nonPhase ≠ [] →
        validateWyeTerminalOrder "load" name "terminal_map" (load.lookup "terminal_map") nonPhase
          (branchCount load) = .ok ()) := by
  rw [validateLoad, hrow] at h
  simp only [bind_eq_ok] at h
  obtain ⟨_, -, _, -, _, -, _, -, _, -, _, -, _, -, _, hvectors, _, hnominal, _, -, _, -, hwye⟩ := h
  rw [forM_eq_ok] at hvectors
  constructor
  · intro key hkey
    obtain hkey | hkey := List.mem_append.mp hkey
    · exact hvectors key hkey
    · rw [List.mem_singleton.mp hkey]
      exact hnominal
  · intro hconfiguration hnonPhase
    rw [whenever_eq_ok] at hwye
    apply hwye
    rw [Bool.and_eq_true, Bool.not_eq_true', List.isEmpty_eq_false_iff]
    exact ⟨hconfiguration, hnonPhase⟩

theorem Accepted.vector {root : Json F} (h : Accepted root) {load : Fields F} {value : Json F}
    (hvector : LoadVector root load value) :
    ∃ items, value = .arr items ∧ items ≠ [] ∧
      (∀ item ∈ items, ∃ x, item.asF64 = some x ∧ isFinite x = true) ∧
        ∀ branches, branchCount load = some branches → items.length = 1 ∨ items.length = branches := by
  obtain ⟨hmem, hrow, hkey, hvalue⟩ := hvector
  exact validateLoadVector_eq_ok ((validateLoad_eq_ok (h.loads _ _ hmem) hrow).1 _ hkey) hvalue

theorem order_coils {subtype name : String} {raw : Json F} {record : Fields F}
    {conventions : Option (Json F)} (hraw : raw.asObject = some record)
    (h : validateTransformerTerminalOrder subtype name raw conventions = .ok ())
    (hsubtype : subtype = "single_phase" ∨ subtype = "center_tap") :
    (∃ result, validateDistinctTerminalMap "transformer" name "terminal_map_from"
      (record.lookup "terminal_map_from") 2 = .ok result) ∧
      ∃ result, validateDistinctTerminalMap "transformer" name "terminal_map_to"
        (record.lookup "terminal_map_to") (if subtype = "single_phase" then 2 else 3) = .ok result := by
  rw [validateTransformerTerminalOrder, hraw] at h
  dsimp only at h
  obtain rfl | rfl := hsubtype
  · rw [if_pos rfl] at h ⊢
    simp only [bind_eq_ok] at h
    obtain ⟨first, hfirst, second, hsecond, -⟩ := h
    exact ⟨⟨first, hfirst⟩, second, hsecond⟩
  · have hne : ¬ "center_tap" = "single_phase" := by decide
    rw [if_neg hne] at h ⊢
    rw [if_pos rfl] at h
    simp only [bind_eq_ok] at h
    obtain ⟨first, hfirst, second, hsecond, -⟩ := h
    exact ⟨⟨first, hfirst⟩, second, hsecond⟩

/-- The secondary of a centre-tap transformer has a declared neutral between its legs. -/
theorem order_centre {name : String} {raw : Json F} {record : Fields F}
    {conventions : Option (Json F)} (hraw : raw.asObject = some record)
    (h : validateTransformerTerminalOrder "center_tap" name raw conventions = .ok ()) {value : Json F}
    (hvalue : record.lookup "terminal_map_to" = some value) (htext : AllText value) :
    ∃ a b c, value = .arr [.str a, .str b, .str c] ∧ b ∈ nonPhaseNames conventions ∧
      a ∉ nonPhaseNames conventions ∧ c ∉ nonPhaseNames conventions := by
  have hne : ¬ "center_tap" = "single_phase" := by decide
  rw [validateTransformerTerminalOrder, hraw] at h
  dsimp only at h
  rw [if_neg hne, if_pos rfl, hvalue] at h
  simp only [bind_eq_ok] at h
  obtain ⟨_, -, second, hsecond, h⟩ := h
  obtain ⟨-, names, hnames, rfl⟩ := terminalList_of_ok hsecond htext
  obtain ⟨⟨names', hnames', hlength, -⟩, -⟩ := terminalList_of_ok hsecond htext
  have hthree : names.length = 3 := by
    rw [hnames, Json.arr.injEq] at hnames'
    rw [← hlength, ← List.length_map (f := Json.str (F := F)), hnames', List.length_map]
  obtain ⟨a, b, c, rfl⟩ := List.length_eq_three.mp hthree
  simp only [bind_eq_ok, reject_eq_ok] at h
  obtain ⟨_, -, h⟩ := h
  simp only [Bool.or_eq_false_iff, Bool.not_eq_false'] at h
  obtain ⟨⟨hb, ha⟩, hc⟩ := h
  refine ⟨a, b, c, hnames, ?_, ?_, ?_⟩
  · exact List.contains_iff_mem.mp hb
  · exact fun hmem => Bool.false_ne_true (ha.symm.trans (List.contains_iff_mem.mpr hmem))
  · exact fun hmem => Bool.false_ne_true (hc.symm.trans (List.contains_iff_mem.mpr hmem))

theorem order_windings {name : String} {raw : Json F} {record : Fields F}
    {conventions : Option (Json F)} (hraw : raw.asObject = some record)
    (h : validateTransformerTerminalOrder "n_winding" name raw conventions = .ok ())
    (hnonPhase : nonPhaseNames conventions ≠ []) {windings : List (Json F)}
    (hwindings : (record.lookup "windings").bind asArray = some windings) {winding : Json F}
    (hmem : winding ∈ windings) :
    ∃ idx phases, validateWindingOrder name (nonPhaseNames conventions) phases (idx, winding) = .ok () := by
  have hsingle : ¬ "n_winding" = "single_phase" := by decide
  have hcentre : ¬ "n_winding" = "center_tap" := by decide
  rw [validateTransformerTerminalOrder, hraw] at h
  dsimp only at h
  rw [if_neg hsingle, if_neg hcentre,
    if_neg (by simpa using hnonPhase), if_pos rfl, whenSome_eq_ok] at h
  have hall := h windings hwindings
  rw [forM_eq_ok] at hall
  obtain ⟨i, hi, hget⟩ := List.getElem_of_mem hmem
  refine ⟨i, _, hall (i, winding) ?_⟩
  apply List.mem_of_getElem? (i := i)
  rw [List.getElem?_zip_eq_some]
  refine ⟨?_, ?_⟩
  · rw [List.getElem?_range hi]
  · rw [List.getElem?_eq_getElem hi, hget]

theorem order_sides {subtype name : String} {raw : Json F} {record : Fields F}
    {conventions : Option (Json F)} (hraw : raw.asObject = some record)
    (h : validateTransformerTerminalOrder subtype name raw conventions = .ok ())
    (hnonPhase : nonPhaseNames conventions ≠ [])
    (hsubtype : subtype = "wye_delta" ∨ subtype = "delta_wye" ∨
      subtype = "single_phase_autotransformer") :
    ∃ phases,
      (subtype ≠ "delta_wye" → validateWyeTerminalOrder "transformer" name "terminal_map_from"
        (record.lookup "terminal_map_from") (nonPhaseNames conventions) phases = .ok ()) ∧
      (subtype ≠ "wye_delta" → validateWyeTerminalOrder "transformer" name "terminal_map_to"
        (record.lookup "terminal_map_to") (nonPhaseNames conventions) phases = .ok ()) := by
  have hother : subtype ≠ "single_phase" ∧ subtype ≠ "center_tap" ∧ subtype ≠ "n_winding" := by
    obtain rfl | rfl | rfl := hsubtype
    · decide
    · decide
    · decide
  rw [validateTransformerTerminalOrder, hraw] at h
  dsimp only at h
  rw [if_neg hother.1, if_neg hother.2.1, if_neg (by simpa using hnonPhase),
    if_neg hother.2.2] at h
  simp only [bind_eq_ok, whenever_eq_ok, bne_iff_ne] at h
  obtain ⟨_, hfirst, hsecond⟩ := h
  exact ⟨_, hfirst, hsecond⟩

theorem Accepted.coil {root : Json F} (h : Accepted root) {count : ℕ} {value : Json F}
    (hmap : CoilMap root count value) (htext : AllText value) : TerminalList count value := by
  cases hmap with
  | primary hrecord hsubtype hvalue =>
    obtain ⟨raw, hraw, horder⟩ := h.transformers _ _ _ hrecord
    obtain ⟨⟨result, hfirst⟩, -⟩ := order_coils hraw horder hsubtype
    rw [hvalue] at hfirst
    exact (terminalList_of_ok hfirst htext).1
  | secondary hrecord hvalue =>
    obtain ⟨raw, hraw, horder⟩ := h.transformers _ _ _ hrecord
    obtain ⟨-, result, hsecond⟩ := order_coils hraw horder (Or.inl rfl)
    rw [hvalue, if_pos rfl] at hsecond
    exact (terminalList_of_ok hsecond htext).1
  | tapped hrecord hvalue =>
    have hne : ¬ "center_tap" = "single_phase" := by decide
    obtain ⟨raw, hraw, horder⟩ := h.transformers _ _ _ hrecord
    obtain ⟨-, result, hsecond⟩ := order_coils hraw horder (Or.inr rfl)
    rw [hvalue, if_neg hne] at hsecond
    exact (terminalList_of_ok hsecond htext).1

theorem Accepted.centre {root : Json F} (h : Accepted root) {value : Json F}
    (hmap : CoilMap root 3 value) (htext : AllText value) :
    ∃ a b c, value = .arr [.str a, .str b, .str c] ∧ b ∈ nonPhaseNames (conventionsOf root) ∧
      a ∉ nonPhaseNames (conventionsOf root) ∧ c ∉ nonPhaseNames (conventionsOf root) := by
  cases hmap with
  | tapped hrecord hvalue =>
    obtain ⟨raw, hraw, horder⟩ := h.transformers _ _ _ hrecord
    exact order_centre hraw horder hvalue htext

theorem Accepted.wye {root : Json F} (h : Accepted root) {value : Json F} (hmap : WyeMap root value)
    (htext : AllText value) : NeutralLast (nonPhaseNames (conventionsOf root)) value := by
  by_cases hnone : nonPhaseNames (conventionsOf root) = []
  · rw [hnone]
    exact neutralLast_nil value
  · cases hmap with
    | load hmem hrow hwye hvalue =>
      have hchecked := (validateLoad_eq_ok (h.loads _ _ hmem) hrow).2 hwye hnone
      rw [hvalue] at hchecked
      exact neutralLast_of_ok hchecked htext
    | winding hrecord hwindings hmem hfields hwye hvalue =>
      obtain ⟨raw, hraw, horder⟩ := h.transformers _ _ _ hrecord
      obtain ⟨idx, phases, hchecked⟩ := order_windings hraw horder hnone hwindings hmem
      rw [validateWindingOrder, hfields] at hchecked
      rw [isWye] at hwye
      dsimp only at hchecked
      rw [hwye, whenever_eq_ok] at hchecked
      have hordered := hchecked rfl
      rw [hvalue] at hordered
      exact neutralLast_of_ok hordered htext
    | primary hrecord hsubtype hvalue =>
      obtain ⟨raw, hraw, horder⟩ := h.transformers _ _ _ hrecord
      obtain ⟨phases, hfirst, -⟩ := order_sides hraw horder hnone (by tauto)
      have hordered := hfirst (by obtain rfl | rfl := hsubtype <;> decide)
      rw [hvalue] at hordered
      exact neutralLast_of_ok hordered htext
    | secondary hrecord hsubtype hvalue =>
      obtain ⟨raw, hraw, horder⟩ := h.transformers _ _ _ hrecord
      obtain ⟨phases, -, hsecond⟩ := order_sides hraw horder hnone (by tauto)
      have hordered := hsecond (by obtain rfl | rfl := hsubtype <;> decide)
      rw [hvalue] at hordered
      exact neutralLast_of_ok hordered htext

theorem TerminalList.allText {count : ℕ} {value : Json F} (h : TerminalList count value) :
    AllText value := by
  obtain ⟨names, rfl, -⟩ := h
  rintro items heq item hitem
  rw [← Json.arr.inj heq] at hitem
  obtain ⟨name, -, rfl⟩ := List.mem_map.mp hitem
  exact ⟨name, rfl⟩

/-- An accepted document is well formed exactly where the entries that the checks pass over do no harm. Which
documents are refused is not said. -/
theorem validate_bmopf_wellFormed_iff (read : String → Except String (Json F)) (text : String)
    (root : Json F) (hread : read text = .ok root) (h : validateBmopfJson read text = .ok ()) :
    WellFormed root ↔ Textual root := by
  have haccepted : Accepted root := by
    rw [validateBmopfJson, hread] at h
    exact accepted_of_ok h
  constructor
  · intro hformed
    constructor
    case coils => exact fun count value hmap => (hformed.coils count value hmap).allText
    case wye => exact fun value hmap => Or.inr (hformed.wye value hmap)
    case vectors =>
      intro load value hvector hnone items hitems
      obtain ⟨found, rfl, -, -, hlength⟩ := hformed.vectors load value hvector
      obtain rfl := Json.arr.inj hitems
      obtain hlength | hlength := hlength
      · exact hlength
      · rw [hnone] at hlength
        exact nomatch hlength
  · intro htextual
    constructor
    case coils => exact fun count value hmap => haccepted.coil hmap (htextual.coils count value hmap)
    case centre => exact fun value hmap => haccepted.centre hmap (htextual.coils 3 value hmap)
    case wye =>
      intro value hmap
      obtain htext | hlast := htextual.wye value hmap
      · exact haccepted.wye hmap htext
      · exact hlast
    case vectors =>
      intro load value hvector
      obtain ⟨items, rfl, hempty, hfinite, hlength⟩ := haccepted.vector hvector
      refine ⟨items, rfl, hempty, hfinite, ?_⟩
      cases hcount : branchCount load with
      | none => exact Or.inl (htextual.vectors load _ hvector hcount items rfl)
      | some branches =>
        obtain hone | hall := hlength branches hcount
        · exact Or.inl hone
        · exact Or.inr (by rw [hall])

/-! ### A map of three entries -/

@[reducible] local instance preflightNumbers : Binary64 ℚ := exact fun _ => ""

/-- A document of one single-phase transformer with a map of its first winding. -/
def oneTransformer (map : Json ℚ) : Json ℚ :=
  .obj [("transformer", .obj [("single_phase", .obj [("t", .obj [("terminal_map_from", map)])])])]

def twoNames : Json ℚ := .arr [.str "1", .str "2"]

def twoNamesAndNumber : Json ℚ := .arr [.str "1", .int 5, .str "2"]

theorem record_oneTransformer {map : Json ℚ} {subtype name : String} {record : Fields ℚ}
    (h : TransformerRecord (oneTransformer map) subtype name record) :
    subtype = "single_phase" ∧ record = [("terminal_map_from", map)] := by
  obtain ⟨records, raw, hgroup, hrow, hraw⟩ := h
  have htable : table (oneTransformer map) "transformer" =
      [("single_phase", .obj [("t", .obj [("terminal_map_from", map)])])] := rfl
  have hoverlay : overlay (oneTransformer map) "transformer" = [] := rfl
  rw [htable, hoverlay, List.mem_singleton, or_iff_left List.not_mem_nil, Prod.mk.injEq] at hgroup
  obtain ⟨rfl, rfl⟩ := hgroup
  have hrows : rowsOf (some (.obj [("t", .obj [("terminal_map_from", map)])])) =
      [("t", (.obj [("terminal_map_from", map)] : Json ℚ))] := rfl
  rw [hrows, List.mem_singleton, Prod.mk.injEq] at hrow
  obtain ⟨rfl, rfl⟩ := hrow
  exact ⟨rfl, (Option.some.inj hraw).symm⟩

theorem textual_twoNames : Textual (oneTransformer twoNames) := by
  constructor
  case coils =>
    intro count value hmap
    cases hmap with
    | primary h _ hvalue =>
      obtain ⟨-, rfl⟩ := record_oneTransformer h
      obtain rfl : twoNames = value := Option.some.inj hvalue
      rintro items heq item hitem
      rw [← Json.arr.inj heq] at hitem
      simp only [List.mem_cons, List.not_mem_nil, or_false] at hitem
      obtain rfl | rfl := hitem
      · exact ⟨_, rfl⟩
      · exact ⟨_, rfl⟩
    | secondary h hvalue =>
      obtain ⟨-, rfl⟩ := record_oneTransformer h
      cases hvalue
    | tapped h hvalue => exact absurd (record_oneTransformer h).1 (by decide)
  case wye =>
    intro value hmap
    cases hmap with
    | load h => exact absurd h List.not_mem_nil
    | winding h => exact absurd (record_oneTransformer h).1 (by decide)
    | primary h hsubtype =>
      rw [(record_oneTransformer h).1] at hsubtype
      exact absurd hsubtype (by decide)
    | secondary h hsubtype =>
      rw [(record_oneTransformer h).1] at hsubtype
      exact absurd hsubtype (by decide)
  case vectors =>
    rintro load value ⟨h, -⟩
    exact absurd h List.not_mem_nil

def readsAs (spelling : String) (root : Json ℚ) (text : String) : Except String (Json ℚ) :=
  if text = spelling then .ok root else .error "another text"

def oneTransformerText (map : String) : String :=
  "\x7b\"transformer\":\x7b\"single_phase\":\x7b\"t\":\x7b\"terminal_map_from\":" ++ map ++
    "\x7d\x7d\x7d\x7d"

theorem readsAs_self (spelling : String) (root : Json ℚ) : readsAs spelling root spelling = .ok root :=
  if_pos rfl

theorem validate_readsAs (spelling : String) (root : Json ℚ) :
    validateBmopfJson (readsAs spelling root) spelling = validateBmopf root := by
  rw [validateBmopfJson, readsAs_self]
  rfl

theorem validate_bmopf_wellFormed_twoNames : WellFormed (oneTransformer twoNames) :=
  (validate_bmopf_wellFormed_iff
    (readsAs (oneTransformerText "[\"1\",\"2\"]") (oneTransformer twoNames))
    (oneTransformerText "[\"1\",\"2\"]") (oneTransformer twoNames) (readsAs_self _ _)
    ((validate_readsAs _ _).trans rfl)).mpr textual_twoNames

/-- The number is passed over, and the map of three entries is accepted as one of two names. -/
theorem validate_bmopf_accepts_number :
    validateBmopfJson
        (readsAs (oneTransformerText "[\"1\",5,\"2\"]") (oneTransformer twoNamesAndNumber))
        (oneTransformerText "[\"1\",5,\"2\"]") = .ok () ∧
      CoilMap (oneTransformer twoNamesAndNumber) 2 twoNamesAndNumber ∧
        ¬ TerminalList 2 twoNamesAndNumber := by
  refine ⟨(validate_readsAs _ _).trans rfl, ?_, ?_⟩
  · have hrecord : TransformerRecord (oneTransformer twoNamesAndNumber) "single_phase" "t"
        [("terminal_map_from", twoNamesAndNumber)] :=
      ⟨_, _, Or.inl List.mem_cons_self, List.mem_cons_self, rfl⟩
    exact .primary hrecord (Or.inl rfl) rfl
  · rintro ⟨names, hnames, hlength, -⟩
    have hthree := congrArg List.length (Json.arr.inj hnames)
    rw [List.length_map, hlength] at hthree
    exact absurd hthree (by decide)

end Tellegen.Preflight
