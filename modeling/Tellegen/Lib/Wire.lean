import Tellegen.Lib.Binary64
import Tellegen.Lib.Records

/-!
JSON values with a reader and a writer for each shape a derived wire format
uses. A struct is an object with one entry per field; an absent optional field
reads as `none`; a double that is not finite has no JSON number and is written
as `null`.

The lemmas say that a reader returns what its writer wrote. They compose: the
round trip of a record follows from those of its fields by evaluating the
record's reader on the record's entries.
-/

open Binary64 Std

inductive Json (F : Type) where
  | null
  | bool (value : Bool)
  | int (value : ℤ)
  | float (value : F)
  | str (value : String)
  | arr (items : List (Json F))
  | obj (fields : List (String × Json F))

abbrev Read (F α : Type) := Json F → Except String α

namespace Json

variable {F α β : Type}

/-! ### Writers -/

def ofFloat [Binary64 F] (value : F) : Json F :=
  if isFinite value then .float value else .null

def ofNat (value : ℕ) : Json F := .int value

def ofOption (write : α → Json F) : Option α → Json F
  | none => .null
  | some value => write value

def ofList (write : α → Json F) (values : List α) : Json F := .arr (values.map write)

def ofRecords (write : α → Json F) (records : Records α) : Json F :=
  .obj (records.toList.map fun entry => (entry.1, write entry.2))

/-- The entries of an object whose fields may be left out. -/
def present (fields : List (String × Option (Json F))) : List (String × Json F) :=
  fields.filterMap fun entry => entry.2.map (entry.1, ·)

/-! ### Readers -/

def readStr : Read F String
  | .str value => .ok value
  | _ => .error "expected a string"

def readBool : Read F Bool
  | .bool value => .ok value
  | _ => .error "expected a boolean"

def readNat : Read F ℕ
  | .int (.ofNat value) => .ok value
  | _ => .error "expected an unsigned integer"

def readFloat [Binary64 F] : Read F F
  | .float value => .ok value
  | .int value => .ok (lit value)
  | _ => .error "expected a number"

def readOption (read : Read F α) : Read F (Option α)
  | .null => .ok none
  | value => some <$> read value

def readList (read : Read F α) : Read F (List α)
  | .arr items => items.mapM read
  | _ => .error "expected an array"

/-- A unit variant is written as its name. -/
def readTag (variants : List (String × α)) : Read F α
  | .str name =>
    match variants.lookup name with
    | some value => .ok value
    | none => .error ("unknown variant " ++ name)
  | _ => .error "expected a string"

def readPair (read : Read F α) : Read F (α × α)
  | .arr [first, second] => do return (← read first, ← read second)
  | _ => .error "expected an array of length 2"

def readEntry (read : Read F α) (entry : String × Json F) : Except String (String × α) :=
  (entry.1, ·) <$> read entry.2

def readRecords (read : Read F α) : Read F (Records α)
  | .obj fields => (ExtTreeMap.ofList · byteOrder) <$> fields.mapM (readEntry read)
  | _ => .error "expected an object"

def entries : Json F → Except String (List (String × Json F))
  | .obj fields => .ok fields
  | _ => .error "expected an object"

/-- `#[serde(deny_unknown_fields)]`, with the refusal of repeated fields that
every derived struct reader makes. -/
def denyUnknown (names : List String) (fields : List (String × Json F)) :
    Except String Unit :=
  if (fields.map Prod.fst).all (· ∈ names) ∧ (fields.map Prod.fst).Nodup then .ok ()
  else .error "unknown or repeated field"

def field (fields : List (String × Json F)) (name : String) (read : Read F α) :
    Except String α :=
  match fields.lookup name with
  | some value => read value
  | none => .error ("missing field " ++ name)

/-- A field that reads as `fallback` when it is absent. -/
def fieldOr (fields : List (String × Json F)) (name : String) (fallback : α)
    (read : Read F α) : Except String α :=
  match fields.lookup name with
  | some value => read value
  | none => .ok fallback

def fieldOption (fields : List (String × Json F)) (name : String) (read : Read F α) :
    Except String (Option α) :=
  fieldOr fields name none (readOption read)

/-! ### Round trips -/

theorem mapM_eq_ok (read : β → Except String α) (write : α → β) (values : List α)
    (h : ∀ value ∈ values, read (write value) = .ok value) :
    (values.map write).mapM read = .ok values := by
  induction values with
  | nil => rfl
  | cons value rest ih =>
    have hvalue : read (write value) = .ok value := h value (by simp)
    have hrest := ih fun other hother => h other (by simp [hother])
    simp [List.mapM_cons, hvalue, hrest, bind, Except.bind, pure, Except.pure]

@[simp] theorem readStr_str (value : String) : readStr (.str value : Json F) = .ok value := rfl

@[simp] theorem readBool_bool (value : Bool) : readBool (.bool value : Json F) = .ok value := rfl

@[simp] theorem readNat_ofNat (value : ℕ) : readNat (ofNat value : Json F) = .ok value := rfl

theorem readFloat_ofFloat [Binary64 F] (value : F) (h : isFinite value) :
    readFloat (ofFloat value) = .ok value := by
  simp [ofFloat, h, readFloat]

theorem readOption_of_ne_null (read : Read F α) (value : Json F) (h : value ≠ .null) :
    readOption read value = some <$> read value := by
  cases value <;> first | rfl | exact absurd rfl h

theorem readOption_ofOption (read : Read F α) (write : α → Json F) (value : Option α)
    (h : ∀ inner ∈ value, write inner ≠ .null ∧ read (write inner) = .ok inner) :
    readOption read (ofOption write value) = .ok value := by
  cases value with
  | none => rfl
  | some inner =>
    obtain ⟨hne, hread⟩ := h inner rfl
    rw [ofOption, readOption_of_ne_null read _ hne, hread]
    rfl

theorem readList_ofList (read : Read F α) (write : α → Json F) (values : List α)
    (h : ∀ value ∈ values, read (write value) = .ok value) :
    readList read (ofList write values) = .ok values :=
  mapM_eq_ok read write values h

/-- The entries of an ordered map name each key once, so reading them back
restores the map. -/
theorem readRecords_ofRecords (read : Read F α) (write : α → Json F) (records : Records α)
    (h : ∀ (key : String) (value : α), records[key]? = some value →
      read (write value) = .ok value) :
    readRecords read (ofRecords write records) = .ok records := by
  have hentries : (records.toList.map fun entry => (entry.1, write entry.2)).mapM
      (readEntry read) = .ok records.toList := by
    apply mapM_eq_ok
    rintro ⟨key, value⟩ member
    rw [readEntry, h key value (ExtTreeMap.mem_toList_iff_getElem?_eq_some.mp member)]
    rfl
  have hmap : ExtTreeMap.ofList records.toList byteOrder = records := by
    apply ExtTreeMap.ext_getElem?
    intro key
    by_cases hkey : key ∈ records
    · obtain ⟨value, hvalue⟩ := (Records.mem_iff records key).mp hkey
      rw [hvalue]
      exact ExtTreeMap.getElem?_ofList_of_mem (by simp) ExtTreeMap.distinct_keys_toList
        (ExtTreeMap.mem_toList_iff_getElem?_eq_some.mpr hvalue)
    · rw [(Records.not_mem_iff records key).mp hkey]
      apply ExtTreeMap.getElem?_ofList_of_contains_eq_false
      rw [ExtTreeMap.map_fst_toList_eq_keys, List.contains_eq_mem, decide_eq_false_iff_not,
        ExtTreeMap.mem_keys]
      exact hkey
  rw [ofRecords, readRecords, hentries]
  exact congrArg Except.ok hmap

theorem fst_of_mem_present {fields : List (String × Option (Json F))} {entry : String × Json F}
    (h : entry ∈ present fields) : entry.1 ∈ fields.map Prod.fst := by
  obtain ⟨source, hsource, hentry⟩ := List.mem_filterMap.mp h
  obtain ⟨value, -, rfl⟩ := Option.map_eq_some_iff.mp hentry
  exact List.mem_map.mpr ⟨source, hsource, rfl⟩

theorem nodup_present {fields : List (String × Option (Json F))}
    (h : (fields.map Prod.fst).Nodup) : ((present fields).map Prod.fst).Nodup := by
  induction fields with
  | nil => simp [present]
  | cons head rest ih =>
    obtain ⟨name, value⟩ := head
    simp only [List.map_cons, List.nodup_cons] at h
    have hrest := ih h.2
    cases value with
    | none => simpa [present] using hrest
    | some value =>
      have hfresh : name ∉ (present rest).map Prod.fst := by
        intro hmem
        obtain ⟨entry, hentry, rfl⟩ := List.mem_map.mp hmem
        exact h.1 (fst_of_mem_present hentry)
      exact List.nodup_cons.mpr ⟨hfresh, hrest⟩

theorem lookup_present {fields : List (String × Option (Json F))}
    (h : (fields.map Prod.fst).Nodup) (name : String) :
    (present fields).lookup name = (fields.lookup name).join := by
  induction fields with
  | nil => rfl
  | cons head rest ih =>
    obtain ⟨other, value⟩ := head
    simp only [List.map_cons, List.nodup_cons] at h
    have hrest := ih h.2
    by_cases heq : name = other
    · subst heq
      cases value with
      | some value => simp [present]
      | none =>
        -- The name occurs nowhere else.
        have habsent : rest.lookup name = none := by
          rw [List.lookup_eq_none_iff]
          intro entry hentry
          have hne : name ≠ entry.1 := by
            rintro rfl
            exact h.1 (List.mem_map.mpr ⟨entry, hentry, rfl⟩)
          simpa using hne
        rw [habsent] at hrest
        simpa [present, List.lookup_cons] using hrest
    · have hne : (name == other) = false := by simpa using heq
      cases value <;> simpa [present, List.lookup_cons, hne] using hrest

/-- An optional field that is left out when it is `none`. -/
theorem fieldOption_left_out {fields : List (String × Option (Json F))}
    (hnodup : (fields.map Prod.fst).Nodup) (read : Read F α) (write : α → Json F)
    {name : String} {value : Option α} (hfield : fields.lookup name = some (value.map write))
    (h : ∀ inner ∈ value, write inner ≠ .null ∧ read (write inner) = .ok inner) :
    fieldOption (present fields) name read = .ok value := by
  rw [fieldOption, fieldOr, lookup_present hnodup, hfield]
  cases value with
  | none => rfl
  | some inner =>
    obtain ⟨hne, hread⟩ := h inner rfl
    change readOption read (write inner) = _
    rw [readOption_of_ne_null read _ hne, hread]
    rfl

/-- An optional field that is written as `null` when it is `none`. -/
theorem fieldOption_written {fields : List (String × Option (Json F))}
    (hnodup : (fields.map Prod.fst).Nodup) (read : Read F α) (write : α → Json F)
    {name : String} {value : Option α}
    (hfield : fields.lookup name = some (some (ofOption write value)))
    (h : ∀ inner ∈ value, write inner ≠ .null ∧ read (write inner) = .ok inner) :
    fieldOption (present fields) name read = .ok value := by
  rw [fieldOption, fieldOr, lookup_present hnodup, hfield]
  exact readOption_ofOption read write value h

theorem denyUnknown_present {fields : List (String × Option (Json F))} {names : List String}
    (hnames : fields.map Prod.fst = names) (hnodup : names.Nodup) :
    denyUnknown names (present fields) = .ok () := by
  subst hnames
  rw [denyUnknown, if_pos]
  refine ⟨?_, nodup_present hnodup⟩
  rw [List.all_eq_true]
  intro name hname
  obtain ⟨entry, hentry, rfl⟩ := List.mem_map.mp hname
  simpa using fst_of_mem_present hentry

@[simp] theorem ofFloat_eq_null [Binary64 F] (value : F) :
    ofFloat value = .null ↔ ¬ isFinite value := by
  unfold ofFloat
  split <;> simp_all

/-! ### Well-formed values -/

/-- The values that a JSON text holds: numbers are finite, and the fields of an
object are distinct and in key order. The index bounds the nesting. -/
inductive WellFormed [Binary64 F] : ℕ → Json F → Prop
  | null {n} : WellFormed n .null
  | bool {n} (value : Bool) : WellFormed n (.bool value)
  | int {n} (value : ℤ) : WellFormed n (.int value)
  | float {n} {value : F} (h : isFinite value) : WellFormed n (.float value)
  | str {n} (value : String) : WellFormed n (.str value)
  | arr {n} {items : List (Json F)} (h : ∀ item ∈ items, WellFormed n item) :
      WellFormed (n + 1) (.arr items)
  | obj {n} {fields : List (String × Json F)}
      (horder : (fields.map Prod.fst).Pairwise fun a b => byteOrder a b = .lt)
      (h : ∀ entry ∈ fields, WellFormed n entry.2) : WellFormed (n + 1) (.obj fields)

section WellFormed

variable [Binary64 F]

theorem WellFormed.mono {n m : ℕ} {value : Json F} (h : WellFormed n value) (hle : n ≤ m) :
    WellFormed m value := by
  induction h generalizing m with
  | null => exact .null
  | bool value => exact .bool value
  | int value => exact .int value
  | float hfinite => exact .float hfinite
  | str value => exact .str value
  | arr _ ih =>
    obtain ⟨k, rfl⟩ : ∃ k, m = k + 1 := ⟨m - 1, by omega⟩
    exact .arr fun item hitem => ih item hitem (by omega)
  | obj horder _ ih =>
    obtain ⟨k, rfl⟩ : ∃ k, m = k + 1 := ⟨m - 1, by omega⟩
    exact .obj horder fun entry hentry => ih entry hentry (by omega)

theorem wellFormed_ofFloat {n : ℕ} (value : F) : WellFormed n (ofFloat value) := by
  unfold ofFloat
  split
  · next h => exact .float h
  · exact .null

theorem wellFormed_ofNat {n : ℕ} (value : ℕ) : WellFormed n (ofNat value : Json F) := .int _

theorem wellFormed_ofOption {n : ℕ} {write : α → Json F} (h : ∀ value, WellFormed n (write value))
    (value : Option α) : WellFormed n (ofOption write value) := by
  cases value with
  | none => exact .null
  | some value => exact h value

theorem wellFormed_ofList {n : ℕ} {write : α → Json F} {values : List α}
    (h : ∀ value ∈ values, WellFormed n (write value)) :
    WellFormed (n + 1) (ofList write values) := by
  refine .arr fun item hitem => ?_
  obtain ⟨value, hvalue, rfl⟩ := List.mem_map.mp hitem
  exact h value hvalue

theorem wellFormed_ofRecords {n : ℕ} {write : α → Json F} {records : Records α}
    (h : ∀ (key : String) (value : α), records[key]? = some value → WellFormed n (write value)) :
    WellFormed (n + 1) (ofRecords write records) := by
  refine .obj ?_ fun entry hentry => ?_
  · rw [List.map_map]
    exact List.pairwise_map.mpr ExtTreeMap.ordered_keys_toList
  · obtain ⟨⟨key, value⟩, hmem, rfl⟩ := List.mem_map.mp hentry
    exact h key value (ExtTreeMap.mem_toList_iff_getElem?_eq_some.mp hmem)

theorem wellFormed_present {n : ℕ} {fields : List (String × Option (Json F))}
    (horder : (fields.map Prod.fst).Pairwise fun a b => byteOrder a b = .lt)
    (h : ∀ entry ∈ fields, ∀ value ∈ entry.2, WellFormed n value) :
    WellFormed (n + 1) (.obj (present fields)) := by
  refine .obj (List.pairwise_map.mpr ?_) fun entry hentry => ?_
  · refine (List.pairwise_map.mp horder).filterMap _ ?_
    rintro ⟨a, value⟩ ⟨b, other⟩ hlt _ hfirst _ hsecond
    obtain ⟨_, -, rfl⟩ := Option.map_eq_some_iff.mp hfirst
    obtain ⟨_, -, rfl⟩ := Option.map_eq_some_iff.mp hsecond
    exact hlt
  · obtain ⟨source, hsource, hvalue⟩ := List.mem_filterMap.mp hentry
    obtain ⟨inner, hinner, rfl⟩ := Option.map_eq_some_iff.mp hvalue
    exact h source hsource inner hinner

end WellFormed

end Json
