import Tellegen.Bundle
import Tellegen.Lib.Outcome
import Tellegen.Lib.Wire

/-!
The checks of a raw multiconductor document before the permissive reader runs.
They look only at what that reader would collapse or leave out: the shapes of
the tables, the voltage models of loads, finite source impedances, and the
terminal maps and records of transformers, also where extras overlay them.
-/

open Binary64 Outcome

namespace Json

variable {F : Type}

/-! ### Reading values -/

abbrev Fields (F : Type) := List (String × Json F)

def asObject : Json F → Option (Fields F)
  | .obj fields => some fields
  | _ => none

def asArray : Json F → Option (List (Json F))
  | .arr items => some items
  | _ => none

def asStr : Json F → Option String
  | .str value => some value
  | _ => none

def asF64 [Binary64 F] : Json F → Option F
  | .int value => some (lit value)
  | .float value => some value
  | _ => none

def asI64 : Json F → Option ℤ
  | .int value => if -2 ^ 63 ≤ value ∧ value < 2 ^ 63 then some value else none
  | _ => none

def isNumber : Json F → Bool
  | .int _ | .float _ => true
  | _ => false

/-- `value.get(key)` of a value that may be absent. -/
def getIn (value : Option (Json F)) (key : String) : Option (Json F) :=
  (value.bind asObject).bind fun fields => fields.lookup key

end Json

namespace Tellegen.Preflight

open Json

variable {F : Type} [Binary64 F]

def reject (bad : Bool) (message : String) : Except String Unit :=
  if bad then .error message else .ok ()

/-- `if let Some(value) = option { check(value)? }` -/
def whenSome {α : Type} (option : Option α) (check : α → Except String Unit) : Except String Unit :=
  match option with
  | some value => check value
  | none => .ok ()

/-- `if condition { check? }` -/
def whenever (condition : Bool) (check : Except String Unit) : Except String Unit :=
  if condition then check else .ok ()

def whenPresent (fields : Fields F) (key : String) (check : Json F → Except String Unit) :
    Except String Unit := whenSome (fields.lookup key) check

def eqIgnoreAsciiCase (a b : String) : Bool := a.toLower == b.toLower

/-! ### Vectors, scalars and configurations -/

def validateNumericVector (value : Json F) (field : String) : Except String Unit :=
  match value.asArray with
  | none => .error (field ++ " must be a numeric array")
  | some values => do
      reject values.isEmpty (field ++ " must not be empty")
      reject (values.any fun value => value.asF64.all fun v => !isFinite v)
        (field ++ " must contain only finite numbers")

def validateVectorArity (value : Json F) (field : String) (branches : ℕ) : Except String Unit :=
  let length := value.asArray.elim 0 List.length
  reject (length != 1 && length != branches)
    (field ++ " has length " ++ toString length ++ "; expected 1 or " ++ toString branches)

def requireUniformScalar (value : Json F) (field : String) : Except String Unit :=
  match value.asArray with
  | none => reject (!value.isNumber) (field ++ " must be a scalar or a uniform numeric array")
  | some values => do
      let numbers ← values.mapM fun v =>
        match v.asF64 with
        | some number => Except.ok number
        | none => .error (field ++ " contains a nonnumeric tap")
      match numbers with
      | [] => .error (field ++ " contains no finite tap value")
      | first :: _ => do
          reject (numbers.any fun v => !isFinite v) (field ++ " contains no finite tap value")
          reject
            (numbers.any fun v => lt (lit (1 / 10 ^ 12) * (1 + abs first)) (abs (v - first)))
            (field ++ " has per-phase values that PowerIO would collapse to the first phase")

def validateConfiguration (value : Json F) (field : String) : Except String Unit :=
  match value.asStr with
  | none => .error (field ++ " must be WYE, DELTA, or SINGLE_PHASE")
  | some configuration =>
    reject (!(["WYE", "DELTA", "SINGLE_PHASE"].contains configuration.toUpper))
      (field ++ " `" ++ configuration ++ "` is unsupported; PowerIO would default it to WYE")

/-! ### Terminal maps -/

def terminalConventionNames (conventions : Option (Json F)) (role : String) : List String :=
  (((getIn conventions role).bind asArray).getD []).filterMap asStr

def nonPhaseNames (conventions : Option (Json F)) : List String :=
  terminalConventionNames conventions "neutral" ++ terminalConventionNames conventions "earth"

def fieldText (kind name field : String) : String := kind ++ " `" ++ name ++ "` field `" ++ field ++ "`"

/-- Whether a name is empty, or among those before it. -/
def repeats : List String → List String → Bool
  | _, [] => false
  | before, terminal :: rest =>
    terminal.isEmpty || before.contains terminal || repeats (before ++ [terminal]) rest

/-- The names of a map of distinct terminals. Entries that are not texts are passed over. -/
def validateDistinctTerminalMap (kind name field : String) (value : Option (Json F)) (expected : ℕ) :
    Except String (Option (List String)) :=
  match value with
  | none => .ok none
  | some value =>
    match value.asArray with
    | none =>
      .error (fieldText kind name field ++ " must be an array of " ++ toString expected ++
        " terminal names")
    | some map => do
        let names := map.filterMap asStr
        reject (names.length != expected)
          (fieldText kind name field ++ " must contain exactly " ++ toString expected ++
            " terminal names")
        reject (repeats [] names)
          (fieldText kind name field ++ " must contain " ++ toString expected ++
            " distinct, non-empty terminal names")
        .ok (some names)

def wyeReturnText (kind name field : String) : String :=
  fieldText kind name field ++
    " has an explicit WYE return that is not identified as the final neutral/earth terminal"

/-- Phases first, and a declared neutral last. A map with an entry that is not a text is let through. -/
def validateWyeTerminalOrder (kind name field : String) (value : Option (Json F))
    (nonPhase : List String) (expectedPhases : Option ℕ) : Except String Unit :=
  match value.bind asArray with
  | none => .ok ()
  | some map =>
    let names := map.filterMap asStr
    if names.length ≠ map.length then .ok ()
    else
      match names.findIdx? nonPhase.contains with
      | none =>
        reject (expectedPhases.any fun phases => names.length == phases + 1)
          (wyeReturnText kind name field)
      | some neutralPosition => do
          whenSome expectedPhases fun phases =>
            reject (names.length != phases + 1)
              (fieldText kind name field ++ " has an explicit WYE neutral but " ++
                toString names.length ++ " terminals; expected " ++ toString phases ++
                " phase terminals followed by one neutral")
          reject (neutralPosition != names.length - 1 ||
              (names.take (names.length - 1)).any nonPhase.contains)
            (fieldText kind name field ++ " places an explicit neutral/earth terminal among phase " ++
              "coils; PowerIO v0.11 requires WYE phase terminals first and the neutral last")

/-! ### Loads -/

def supportedModels : List String :=
  ["constant_power", "constant_current", "constant_impedance", "zip", "exponential"]

def zipFields : List String := ["alpha_z", "alpha_i", "alpha_p", "beta_z", "beta_i", "beta_p"]

def exponentialFields : List String := ["gamma_p", "gamma_q"]

/-- The branches of a load, where its powers are an array. -/
def branchCount (load : Fields F) : Option ℕ := ((load.lookup "p_nom").bind asArray).map List.length

def loadText (name key : String) : String := "load `" ++ name ++ "` " ++ key

/-- A vector of one number, or of one for each branch. -/
def validateLoadVector (load : Fields F) (name key : String) : Except String Unit :=
  whenPresent load key fun value => do
    validateNumericVector value (loadText name key)
    whenSome (branchCount load) fun branches => validateVectorArity value (loadText name key) branches

/-- `unwrap_or("WYE")` of the configuration. -/
def configurationOf (value : Option (Json F)) : String := (value.bind asStr).getD "WYE"

def validateLoad (nonPhase : List String) (name : String) (row : Json F) : Except String Unit :=
  match row.asObject with
  | none => .error ("load `" ++ name ++ "` must be an object")
  | some load => do
      let model := (((load.lookup "model").bind asStr).getD "constant_power").toLower
      let has := fun key => (load.lookup key).isSome
      reject (!supportedModels.contains model)
        ("load `" ++ name ++ "` requests model `" ++ model ++ "`, which is unsupported")
      ["p_nom", "q_nom"].forM fun key =>
        whenPresent load key fun value => validateNumericVector value (loadText name key)
      whenSome (branchCount load) fun p =>
        whenSome ((load.lookup "q_nom").bind asArray) fun q =>
          reject (p != q.length) ("load `" ++ name ++ "` has mismatched p_nom/q_nom lengths")
      reject (model == "zip" && zipFields.any fun key => !has key)
        ("load `" ++ name ++ "` requests ZIP without all six coefficient arrays; PowerIO would read" ++
          " it as constant power")
      reject (model == "exponential" && (!has "gamma_p" || !has "gamma_q"))
        ("load `" ++ name ++ "` requests exponential voltage dependence without gamma_p and gamma_q;" ++
          " PowerIO would read it as constant power")
      reject (model != "zip" && zipFields.any has)
        ("load `" ++ name ++ "` carries ZIP coefficients with model `" ++ model ++ "`")
      reject (model != "exponential" && exponentialFields.any has)
        ("load `" ++ name ++ "` carries exponential exponents with model `" ++ model ++ "`")
      (zipFields ++ exponentialFields).forM fun key => validateLoadVector load name key
      validateLoadVector load name "v_nom"
      whenPresent load "model" fun model =>
        match model.asStr with
        | none => .error ("load `" ++ name ++ "` model must be a string")
        | some model =>
          reject (isBlank model) ("load `" ++ name ++ "` model must not be empty")
      whenPresent load "configuration" fun configuration =>
        validateConfiguration configuration (loadText name "configuration")
      whenever (eqIgnoreAsciiCase (configurationOf (load.lookup "configuration")) "WYE" &&
          !nonPhase.isEmpty)
        (validateWyeTerminalOrder "load" name "terminal_map" (load.lookup "terminal_map") nonPhase
          (branchCount load))

/-! ### Transformers -/

def centreText (name : String) (text : String) : String :=
  fieldText "transformer" name "terminal_map_to" ++ text

/-- The three-phase shapes, and the coils of an autotransformer. -/
def threePhase (subtype : String) : Bool := subtype == "wye_delta" || subtype == "delta_wye"

def validateWindingOrder (name : String) (nonPhase : List String) (phaseCount : Option ℕ)
    (winding : ℕ × Json F) : Except String Unit :=
  match winding.2.asObject with
  | none => .ok ()
  | some fields =>
    let configuration := (fields.lookup "configuration").or (fields.lookup "connection")
    whenever (eqIgnoreAsciiCase (configurationOf configuration) "WYE")
      (validateWyeTerminalOrder "transformer" name
        ("windings[" ++ toString winding.1 ++ "].terminal_map") (fields.lookup "terminal_map")
        nonPhase phaseCount)

def validateTransformerTerminalOrder (subtype name : String) (raw : Json F)
    (conventions : Option (Json F)) : Except String Unit :=
  match raw.asObject with
  | none => .ok ()
  | some record =>
    let phases := (getIn conventions "phase").bind asArray
    let phaseCount := phases.map fun phases => Nat.max phases.length 1
    let nonPhase := nonPhaseNames conventions
    let distinct := fun field expected =>
      validateDistinctTerminalMap "transformer" name field (record.lookup field) expected
    if subtype = "single_phase" then do
      let _ ← distinct "terminal_map_from" 2
      let _ ← distinct "terminal_map_to" 2
      .ok ()
    else if subtype = "center_tap" then do
      let _ ← distinct "terminal_map_from" 2
      let secondary ← distinct "terminal_map_to" 3
      match secondary with
      | none => .ok ()
      | some terminals => do
          reject nonPhase.isEmpty
            (centreText name (" needs `terminal_conventions` to declare a neutral or earth terminal" ++
              " so the centre tap can be identified"))
          let isNonPhase := fun i => (terminals[i]?).any nonPhase.contains
          reject (!isNonPhase 1 || isNonPhase 0 || isNonPhase 2)
            (centreText name
              " must order the centre-tap neutral/earth between the two secondary legs")
    else if nonPhase.isEmpty then .ok ()
    else if subtype = "n_winding" then
      whenSome ((record.lookup "windings").bind asArray) fun windings =>
        ((List.range windings.length).zip windings).forM
          (validateWindingOrder name nonPhase phaseCount)
    else do
      let expected := some (if threePhase subtype then 3 else 1)
      whenever (subtype != "delta_wye")
        (validateWyeTerminalOrder "transformer" name "terminal_map_from"
          (record.lookup "terminal_map_from") nonPhase expected)
      whenever (subtype != "wye_delta")
        (validateWyeTerminalOrder "transformer" name "terminal_map_to"
          (record.lookup "terminal_map_to") nonPhase expected)

def transformerText (name text : String) : String := "transformer `" ++ name ++ "` " ++ text

/-- A finite number under a key, if the key is there. -/
def finiteNumber (name : String) (record : Fields F) (key : String) : Except String (Option F) :=
  match record.lookup key with
  | none => .ok none
  | some value =>
    match value.asF64.filter isFinite with
    | none => .error (transformerText name ("field `" ++ key ++ "` must be a finite number"))
    | some number => .ok (some number)

def retainedFields : List String :=
  ["bus", "terminal_map", "v_nom", "v_ref", "r_winding", "s_rating", "configuration", "connection",
    "delta_roll", "i_max", "tap_ratio_min", "tap_ratio_max"]

def windingText (name : String) (idx : ℕ) (text : String) : String :=
  transformerText name ("winding " ++ toString idx ++ " " ++ text)

def validateWinding (name : String) (winding : ℕ × Json F) : Except String Unit :=
  let idx := winding.1
  match winding.2.asObject with
  | none => .error (windingText name idx "must be an object")
  | some fields => do
      fields.forM fun entry =>
        reject (!retainedFields.contains entry.1)
          (windingText name idx
            ("field `" ++ entry.1 ++ "` is not losslessly represented by PowerIO v0.11"))
      whenPresent fields "delta_roll" fun roll =>
        match roll.asI64 with
        | none => .error (windingText name idx "delta_roll must be ±1")
        | some roll => reject (roll != -1 && roll != 1) (windingText name idx "delta_roll must be ±1")
      whenSome ((fields.lookup "configuration").or (fields.lookup "connection")) fun configuration =>
        validateConfiguration configuration (windingText name idx "configuration")

def validateAutotransformer (name : String) (record : Fields F) : Except String Unit := do
  ["r_series_from", "x_series_from", "r_series_to", "x_series_to"].forM fun key => do
    let value ← finiteNumber name record key
    reject (value.any fun value => lt value 0)
      (transformerText name ("field `" ++ key ++ "` must be nonnegative"))
  whenPresent record "regulator_type" fun regulatorType =>
    match regulatorType.asStr with
    | none => .error (transformerText name "regulator_type must be A or B")
    | some text =>
      let trimmed := ((text.toList.dropWhile isWhitespace).reverse.dropWhile isWhitespace).reverse
      reject (!(["A", "B"].contains (String.ofList trimmed).toUpper))
        (transformerText name ("regulator_type `" ++ text ++ "` must be A or B"))

def validateTransformerRecord (subtype name : String) (raw : Json F) : Except String Unit :=
  match raw.asObject with
  | none => .error (transformerText name "must be an object")
  | some record => do
      ["tap", "tap_ratio", "tap_min", "tap_max", "tap_ratio_min", "tap_ratio_max", "r_neutral_from",
          "x_neutral_from", "r_neutral_to", "x_neutral_to"].forM fun key =>
        whenPresent record key fun value =>
          requireUniformScalar value (transformerText name ("field `" ++ key ++ "`"))
      let g ← finiteNumber name record "g_no_load"
      reject (g.any fun g => lt g 0) (transformerText name "field `g_no_load` must be nonnegative")
      let b ← finiteNumber name record "b_no_load"
      let ambiguousLegacyNoLoad := g.any (fun g => !eq g 0) || b.any fun b => !eq b 0
      reject (ambiguousLegacyNoLoad && (record.lookup "no_load_shunt").isNone &&
          subtype != "single_phase_autotransformer")
        (transformerText name ("uses legacy g_no_load/b_no_load without an explicit no_load_shunt;" ++
          " normalize the producer profile before MC PF"))
      whenever (subtype == "single_phase_autotransformer") (validateAutotransformer name record)
      reject (subtype == "n_winding" &&
          ((record.lookup "tap").isSome || (record.lookup "tap_ratio").isSome))
        (transformerText name "n_winding tap is not represented by PowerIO v0.11")
      whenever (subtype == "n_winding") <|
        whenSome ((record.lookup "windings").bind asArray) fun windings => do
          reject (windings.length != 2)
            (transformerText name ("n_winding has " ++ toString windings.length ++
              " windings; the MC primitive supports exactly two"))
          ((List.range windings.length).zip windings).forM (validateWinding name)

def knownSubtypes : List String :=
  ["single_phase", "center_tap", "wye_delta", "delta_wye", "single_phase_autotransformer", "n_winding"]

/-- The groups of transformers of a document, or those its extras lay over them. -/
def validateTransformerGroups (unknown notObject : String → String) (conventions : Option (Json F))
    (groups : Fields F) : Except String Unit :=
  groups.forM fun (subtype, records) => do
    reject (!knownSubtypes.contains subtype) (unknown subtype)
    match records.asObject with
    | none => .error (notObject subtype)
    | some records =>
      records.forM fun (name, record) => do
        validateTransformerRecord subtype name record
        validateTransformerTerminalOrder subtype name record conventions

/-! ### Documents -/

def elementTables : List String :=
  ["bus", "linecode", "line", "switch", "shunt", "load", "generator", "ibr", "capacitor",
    "voltage_source", "transformer"]

def validateTable (object : Fields F) (table : String) : Except String Unit :=
  whenPresent object table fun value =>
    match value.asObject with
    | none => .error ("BMOPF table `" ++ table ++ "` must be an object keyed by element name")
    | some rows =>
      if table = "transformer" then .ok ()
      else rows.forM fun (name, row) =>
        reject row.asObject.isNone ("BMOPF " ++ table ++ " `" ++ name ++ "` must be an object")

def impedanceFields : List String :=
  ["r1", "x1", "r0", "x0", "r2", "x2", "isc1", "isc3", "mvasc", "mvasc1", "mvasc3", "z_source", "z1",
    "z0"]

def validateSource (tableName name : String) (row : Json F) : Except String Unit :=
  match row.asObject with
  | none => .error ("voltage source `" ++ name ++ "` must be an object")
  | some source =>
    impedanceFields.forM fun key =>
      reject (source.lookup key).isSome
        (tableName ++ " `" ++ name ++ "` declares finite impedance `" ++ key ++
          "`; normalize it to an explicit Norton source before MC PF")

/-- The rows of a table, or none where it is not an object. -/
def rowsOf (value : Option (Json F)) : Fields F := (value.bind asObject).getD []

def validateBmopf (root : Json F) : Except String Unit :=
  match root.asObject with
  | none => .error "BMOPF document must be a JSON object"
  | some object => do
      elementTables.forM fun table => validateTable object table
      let conventions := object.lookup "terminal_conventions"
      let extras := object.lookup "extras"
      (rowsOf (object.lookup "load")).forM fun (name, row) =>
        validateLoad (nonPhaseNames conventions) name row
      (rowsOf (object.lookup "voltage_source")).forM fun (name, row) =>
        validateSource "voltage_source" name row
      (rowsOf (getIn extras "voltage_source")).forM fun (name, row) =>
        validateSource "extras.voltage_source" name row
      validateTransformerGroups
        (fun subtype => "transformer subtype `" ++ subtype ++
          "` is unknown; PowerIO reads it as a single-phase pair")
        (fun subtype => "transformer group `" ++ subtype ++ "` must be an object")
        conventions (rowsOf (object.lookup "transformer"))
      validateTransformerGroups
        (fun subtype => "extras.transformer subtype `" ++ subtype ++
          "` is unknown and would be ignored by PowerIO")
        (fun subtype => "extras.transformer." ++ subtype ++ " must be an object")
        conventions (rowsOf (getIn extras "transformer"))

def validateBmopfJson (read : String → Except String (Json F)) (text : String) : Except String Unit := do
  let root ← describe "invalid BMOPF JSON: " (read text)
  validateBmopf root

end Tellegen.Preflight
