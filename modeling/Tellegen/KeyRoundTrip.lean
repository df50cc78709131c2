import Tellegen.Lib.Lookup
import Tellegen.NetworkEdit

/-!
Element keys on the wire and on the axes of a model. A key is written as a number
or a string and a digit string is read back as a number, so the elements that a
network's keys name survive only because its uids do not spell other numbers.
-/

open Binary64 Lookup

namespace Tellegen

variable {F T : Type}

/-! ### Reading a written key -/

namespace ElementKey

/-- The key of a JSON object is always a string. -/
def toMapKey : ElementKey → String
  | .id value => toString value
  | .uid value => value

/-- What is read back where a key is written, as a value and as an object key. -/
def ReadsBack (key back : ElementKey) : Prop :=
  read (toJson key : Json F) = .ok back ∧ read (.str key.toMapKey : Json F) = .ok back

def unsignedDigits (text : String) : List Char :=
  match text.toList with
  | '+' :: chars => chars
  | '-' :: chars => chars
  | chars => chars

/-- Digits alone, after a sign perhaps. -/
def SpellsNumber (text : String) : Prop :=
  unsignedDigits text ≠ [] ∧ (unsignedDigits text).all Char.isDigit

/-- The value of digits under a sign, when it fits. -/
def signedValue (sign : ℤ) (chars : List Char) : Option ℤ :=
  if chars ≠ [] ∧ chars.all Char.isDigit then
    let value := sign * (chars.foldl (fun n c => n * 10 + (c.toNat - '0'.toNat)) 0 : ℕ)
    if -2 ^ 63 ≤ value ∧ value < 2 ^ 63 then some value else none
  else none

theorem parseI64_eq (text : String) : parseI64 text =
    match text.toList with
    | '-' :: chars => signedValue (-1) chars
    | '+' :: chars => signedValue 1 chars
    | chars => signedValue 1 chars := rfl

theorem digits_of_signedValue {sign value : ℤ} {chars : List Char}
    (h : signedValue sign chars = some value) : chars ≠ [] ∧ chars.all Char.isDigit := by
  rw [signedValue] at h
  split at h
  case isTrue hdigits => exact hdigits
  case isFalse => cases h

theorem spellsNumber_of_parseI64 {text : String} {value : ℤ} (h : parseI64 text = some value) :
    SpellsNumber text := by
  rw [parseI64_eq] at h
  rw [SpellsNumber, unsignedDigits]
  split at h
  case h_1 chars htext =>
    rw [htext]
    exact digits_of_signedValue h
  case h_2 chars htext =>
    rw [htext]
    exact digits_of_signedValue h
  case h_3 hminus hplus =>
    split
    case h_1 chars htext => exact absurd htext (hplus chars)
    case h_2 chars htext => exact absurd htext (hminus chars)
    case h_3 => exact digits_of_signedValue h

theorem foldl_toDigits (n : ℕ) :
    (Nat.toDigits 10 n).foldl (fun n c => n * 10 + (c.toNat - '0'.toNat)) 0 = n := by
  have hstep : (fun (n : ℕ) (c : Char) => n * 10 + (c.toNat - '0'.toNat)) =
      fun n c => 10 * n + (c.toNat - '0'.toNat) := by
    funext n c
    rw [Nat.mul_comm]
  rw [hstep, ← Nat.ofDigitChars_eq_foldl, Nat.ofDigitChars_ten_toDigits]

theorem all_isDigit_toDigits (n : ℕ) : (Nat.toDigits 10 n).all Char.isDigit := by
  rw [List.all_eq_true]
  intro c hc
  exact Nat.isDigit_of_mem_toDigits (by decide) (by decide) hc

theorem toDigits_ne_cons {c : Char} (hc : ¬ c.isDigit) (n : ℕ) (rest : List Char) :
    Nat.toDigits 10 n ≠ c :: rest := by
  intro h
  have hmem : c ∈ Nat.toDigits 10 n := by
    rw [h]
    exact List.mem_cons_self
  exact hc (Nat.isDigit_of_mem_toDigits (by decide) (by decide) hmem)

theorem signedValue_toDigits (sign : ℤ) (n : ℕ) :
    signedValue sign (Nat.toDigits 10 n) =
      if -2 ^ 63 ≤ sign * n ∧ sign * n < 2 ^ 63 then some (sign * n) else none := by
  rw [signedValue, if_pos ⟨Nat.toDigits_ne_nil, all_isDigit_toDigits n⟩, foldl_toDigits]

theorem parseI64_toString_nat (n : ℕ) :
    parseI64 (toString n) = if n < 2 ^ 63 then some (n : ℤ) else none := by
  have htext : (toString n).toList = Nat.toDigits 10 n := by
    rw [Nat.toString_eq_ofList_toDigits, String.toList_ofList]
  have hvalue : signedValue 1 (Nat.toDigits 10 n) = if n < 2 ^ 63 then some (n : ℤ) else none := by
    rw [signedValue_toDigits, one_mul]
    apply if_congr _ rfl rfl
    omega
  rw [parseI64_eq]
  split
  case h_1 chars hchars =>
    rw [htext] at hchars
    exact absurd hchars (toDigits_ne_cons (by decide) n chars)
  case h_2 chars hchars =>
    rw [htext] at hchars
    exact absurd hchars (toDigits_ne_cons (by decide) n chars)
  case h_3 =>
    rw [htext]
    exact hvalue

theorem parseI64_toString {value : ℤ} (h : -2 ^ 63 ≤ value ∧ value < 2 ^ 63) :
    parseI64 (toString value) = some value := by
  cases value with
  | ofNat n =>
    rw [Int.ofNat_eq_natCast] at h ⊢
    exact (parseI64_toString_nat n).trans (if_pos (by omega))
  | negSucc n =>
    have htext : (toString (Int.negSucc n)).toList = '-' :: Nat.toDigits 10 (n + 1) := by
      have hprint : toString (Int.negSucc n) = "-" ++ Nat.repr (n + 1) := rfl
      rw [hprint, String.toList_append, Nat.toList_repr]
      rfl
    have hneg : (-1 : ℤ) * (n + 1 : ℕ) = Int.negSucc n := by
      rw [Int.negSucc_eq, Nat.cast_add, Nat.cast_one, neg_one_mul]
    rw [parseI64_eq, htext]
    change signedValue (-1) (Nat.toDigits 10 (n + 1)) = some (Int.negSucc n)
    rw [← hneg] at h ⊢
    rw [signedValue_toDigits, if_pos h]

theorem readsBack_of_portable {key : ElementKey} (hrange : key.InRange) (hportable : key.Portable) :
    ReadsBack (F := F) key key := by
  constructor
  · exact (read_toJson key).mpr hportable
  · cases key with
    | id value =>
      rw [toMapKey, read, parseI64_toString hrange]
    | uid text =>
      rw [toMapKey, read, hportable]

end ElementKey

/-! ### Identities of a network -/

theorem validateUniqueUids_some (family : String) (seen : List String) (uid : String)
    (own : Option ℕ) (rest : List (Option String × Option ℕ)) :
    validateUniqueUids family seen ((some uid, own) :: rest) =
      if (ElementKey.unsignedDigits uid ≠ [] ∧ (ElementKey.unsignedDigits uid).all Char.isDigit) ∧
          ¬ own.any fun id => uid = toString id then
        .error (family ++ " uid \"" ++ uid ++ "\" is ambiguous with a numeric element id")
      else if uid ∈ seen then .error ("duplicate " ++ family ++ " uid \"" ++ uid ++ "\"")
      else validateUniqueUids family (uid :: seen) rest := rfl

theorem own_number_of_validateUniqueUids {family : String} {seen : List String}
    {uids : List (Option String × Option ℕ)} (h : validateUniqueUids family seen uids = .ok ()) :
    ∀ entry ∈ uids, ∀ uid, entry.1 = some uid → ElementKey.SpellsNumber uid →
      ∃ id, entry.2 = some id ∧ uid = toString id := by
  induction uids generalizing seen with
  | nil => exact fun entry hentry => absurd hentry List.not_mem_nil
  | cons head rest ih =>
    obtain ⟨first, own⟩ := head
    intro entry hentry uid huid hnumber
    cases first with
    | none =>
      rw [validateUniqueUids] at h
      rcases List.mem_cons.mp hentry with rfl | hrest
      · cases huid
      · exact ih h entry hrest uid huid hnumber
    | some first =>
      rw [validateUniqueUids_some] at h
      split at h
      case isTrue => cases h
      case isFalse hclear =>
        split at h
        case isTrue => cases h
        case isFalse =>
          rcases List.mem_cons.mp hentry with rfl | hrest
          · cases huid
            have hown : (own.any fun id => uid = toString id) = true := by
              by_contra hnot
              exact hclear ⟨hnumber, hnot⟩
            obtain ⟨id, hid, hsame⟩ := (Option.any_eq_true _ _).mp hown
            exact ⟨id, hid, of_decide_eq_true hsame⟩
          · exact ih h entry hrest uid huid hnumber

section

variable {network : BalancedNetwork F T}

theorem bus_uid_of_validate (h : validateCanonicalIdentity network = .ok ()) {bus : Bus}
    (hbus : bus ∈ network.buses) {uid : String} (huid : bus.uid = some uid)
    (hnumber : ElementKey.SpellsNumber uid) : uid = toString bus.id := by
  rw [validateCanonicalIdentity, Outcome.bind_eq_ok] at h
  obtain ⟨_, hbuses, _⟩ := h
  obtain ⟨id, hid, hsame⟩ := own_number_of_validateUniqueUids hbuses _ (List.mem_map_of_mem hbus) uid
    huid hnumber
  cases hid
  exact hsame

theorem branch_uid_of_validate (h : validateCanonicalIdentity network = .ok ()) {branch : Branch F}
    (hbranch : branch ∈ network.branches) {uid : String} (huid : branch.uid = some uid) :
    ¬ ElementKey.SpellsNumber uid := by
  rw [validateCanonicalIdentity, Outcome.bind_eq_ok] at h
  obtain ⟨_, _, hbranches⟩ := h
  intro hnumber
  obtain ⟨id, hid, _⟩ := own_number_of_validateUniqueUids hbranches _ (List.mem_map_of_mem hbranch) uid
    huid hnumber
  cases hid

end

/-! ### The axes of a model -/

/-- `KeyIndex`: the ids and the uids of an axis, in dense order. -/
structure AxisKeys where
  ids : List ℕ
  uids : List (Option String)

def AxisKeys.get (axis : AxisKeys) : ElementKey → Option ℕ
  | .id value => (toUsize value).bind fun id => lastIndex (· = id) axis.ids
  | .uid uid => lastIndex (· = some uid) axis.uids

/-- The largest `usize`. -/
def usizeMax : ℕ := 2 ^ 64 - 1

def syntheticBase (network : BalancedNetwork F T) : ℕ := ((network.buses.map (·.id)).max?.getD 0) + 1

/-- The ids of the buses of a normalized view. `ordinal` gives the position of the transformer of the
`k`-th star bus among the active ones. -/
def busIdsForSourceRows (network : BalancedNetwork F T) (ordinal : ℕ → Except String ℕ) :
    ℕ → List (Option ℕ) → Except String (List ℕ)
  | _, [] => .ok []
  | stars, some row :: rest =>
    match network.buses[row]? with
    | none => .error s!"bus source row {row} outside source length {network.buses.length}"
    | some bus => do
        let ids ← busIdsForSourceRows network ordinal stars rest
        return bus.id :: ids
  | stars, none :: rest => do
      let position ← ordinal stars
      if syntheticBase network + position ≤ usizeMax then
        let ids ← busIdsForSourceRows network ordinal (stars + 1) rest
        return (syntheticBase network + position) :: ids
      else .error "bus synthetic id space exhausted"

def uidsForSourceRows (family : String) (uids : List (Option String)) :
    List (Option ℕ) → Except String (List (Option String))
  | [] => .ok []
  | some row :: rest =>
    match uids[row]? with
    | none => .error s!"{family} source row {row} outside source length {uids.length}"
    | some uid => do
        let others ← uidsForSourceRows family uids rest
        return uid :: others
  | none :: rest => do
      let others ← uidsForSourceRows family uids rest
      return none :: others

/-- `stable_source_ids`: one-based source positions, and numbers above them for the other rows. -/
def stableSourceIds (family : String) (sourceLen : ℕ) (rows : List (Option ℕ)) :
    Except String (List ℕ) :=
  if usizeMax < sourceLen + 1 then .error (family ++ " synthetic id space exhausted")
  else go (sourceLen + 1) rows
where
  go : ℕ → List (Option ℕ) → Except String (List ℕ)
    | _, [] => .ok []
    | next, some row :: rest =>
      if usizeMax < row + 1 then .error (family ++ " id space exhausted")
      else do
        let ids ← go next rest
        return (row + 1) :: ids
    | next, none :: rest =>
      if usizeMax < next + 1 then .error (family ++ " synthetic id space exhausted")
      else do
        let ids ← go (next + 1) rest
        return next :: ids

/-- The rows of a source table that keys name: their numbers and their uids. -/
structure SourceTable where
  numbers : List ℕ
  uids : List (Option String)

def busTable (network : BalancedNetwork F T) : SourceTable where
  numbers := network.buses.map (·.id)
  uids := network.buses.map (·.uid)

def branchTable (network : BalancedNetwork F T) : SourceTable where
  numbers := (List.range network.branches.length).map (· + 1)
  uids := network.branches.map (·.uid)

/-- The axis of a solution over a source table: its rows keep the number and the uid of their source
row, and a row that the lowering adds has no uid and a number of its own. -/
structure AxisOver (table : SourceTable) (keys : AxisKeys) (rows : List (Option ℕ)) : Prop where
  source : ∀ (i row : ℕ), rows[i]? = some (some row) → ∃ number uid,
    table.numbers[row]? = some number ∧ table.uids[row]? = some uid ∧
      keys.ids[i]? = some number ∧ keys.uids[i]? = some uid
  star : ∀ (i : ℕ), rows[i]? = some none → keys.uids[i]? = some none ∧
    ∃ number, keys.ids[i]? = some number ∧ number ∉ table.numbers
  length_ids : keys.ids.length = rows.length
  length_uids : keys.uids.length = rows.length

theorem AxisOver.nil (table : SourceTable) : AxisOver table { ids := [], uids := [] } [] where
  source := fun _ _ h => absurd h (Option.some_ne_none _).symm
  star := fun _ h => absurd h (Option.some_ne_none _).symm
  length_ids := rfl
  length_uids := rfl

/-- A row in front, of the source or with a fresh number. -/
theorem AxisOver.cons {table : SourceTable} {ids : List ℕ} {uids : List (Option String)}
    {rows : List (Option ℕ)} (h : AxisOver table { ids, uids } rows) {number : ℕ}
    {uid : Option String} {source : Option ℕ}
    (hsource : ∀ row, source = some row →
      table.numbers[row]? = some number ∧ table.uids[row]? = some uid)
    (hstar : source = none → uid = none ∧ number ∉ table.numbers) :
    AxisOver table { ids := number :: ids, uids := uid :: uids } (source :: rows) where
  source := by
    intro i row hi
    cases i with
    | zero =>
      obtain ⟨hnumber, huid⟩ := hsource row (Option.some.inj hi)
      exact ⟨number, uid, hnumber, huid, rfl, rfl⟩
    | succ i => exact h.source i row hi
  star := by
    intro i hi
    cases i with
    | zero =>
      obtain ⟨rfl, hfresh⟩ := hstar (Option.some.inj hi)
      exact ⟨rfl, number, rfl, hfresh⟩
    | succ i => exact h.star i hi
  length_ids := congrArg Nat.succ h.length_ids
  length_uids := congrArg Nat.succ h.length_uids

theorem uidsForSourceRows_cons {family : String} {table : List (Option String)} {source : Option ℕ}
    {rows : List (Option ℕ)} {uids : List (Option String)}
    (h : uidsForSourceRows family table (source :: rows) = .ok uids) :
    ∃ uid rest, uids = uid :: rest ∧ uidsForSourceRows family table rows = .ok rest ∧
      (∀ row, source = some row → table[row]? = some uid) ∧ (source = none → uid = none) := by
  cases source with
  | none =>
    rw [uidsForSourceRows, Outcome.bind_eq_ok] at h
    obtain ⟨rest, hrest, heq⟩ := h
    exact ⟨none, rest, (Except.ok.inj heq).symm, hrest, ⟨fun _ hrow => (nomatch hrow), fun _ => rfl⟩⟩
  | some row =>
    rw [uidsForSourceRows] at h
    split at h
    case h_1 => cases h
    case h_2 uid huid =>
      rw [Outcome.bind_eq_ok] at h
      obtain ⟨rest, hrest, heq⟩ := h
      refine ⟨uid, rest, (Except.ok.inj heq).symm, hrest, ?_, fun hnone => nomatch hnone⟩
      rintro other hother
      rwa [← Option.some.inj hother]

theorem lt_syntheticBase (network : BalancedNetwork F T) {id : ℕ}
    (hid : id ∈ network.buses.map (·.id)) : id < syntheticBase network := by
  rw [syntheticBase]
  cases hmax : (network.buses.map (·.id)).max? with
  | none =>
    rw [List.max?_eq_none_iff.mp hmax] at hid
    exact absurd hid List.not_mem_nil
  | some largest => exact Nat.lt_succ_of_le ((List.max?_eq_some_iff.mp hmax).2 id hid)

/-- The axis of the buses: source rows keep their numbers, and those of the stars lie above them all. -/
theorem axisOver_buses (network : BalancedNetwork F T) {ordinal : ℕ → Except String ℕ} {stars : ℕ}
    {rows : List (Option ℕ)} {keys : AxisKeys}
    (hids : busIdsForSourceRows network ordinal stars rows = .ok keys.ids)
    (huids : uidsForSourceRows "bus" (network.buses.map (·.uid)) rows = .ok keys.uids) :
    AxisOver (busTable network) keys rows := by
  obtain ⟨ids, uids⟩ := keys
  induction rows generalizing stars ids uids with
  | nil =>
    obtain rfl := Except.ok.inj hids
    obtain rfl := Except.ok.inj huids
    exact .nil _
  | cons source rows ih =>
    obtain ⟨uid, restUids, rfl, hrestUids, hsource, hstar⟩ := uidsForSourceRows_cons huids
    cases source with
    | some row =>
      rw [busIdsForSourceRows] at hids
      split at hids
      case h_1 => cases hids
      case h_2 bus hbus =>
        rw [Outcome.bind_eq_ok] at hids
        obtain ⟨restIds, hrestIds, heq⟩ := hids
        obtain rfl := Except.ok.inj heq
        refine (ih _ _ hrestIds hrestUids).cons ?_ (fun hnone => nomatch hnone)
        rintro other hother
        refine ⟨?_, hsource other hother⟩
        rw [← Option.some.inj hother, busTable, List.getElem?_map, hbus]
        rfl
    | none =>
      rw [busIdsForSourceRows, Outcome.bind_eq_ok] at hids
      obtain ⟨position, -, hids⟩ := hids
      split at hids
      case isFalse => cases hids
      case isTrue =>
        rw [Outcome.bind_eq_ok] at hids
        obtain ⟨restIds, hrestIds, heq⟩ := hids
        obtain rfl := Except.ok.inj heq
        refine (ih _ _ hrestIds hrestUids).cons (fun _ hrow => nomatch hrow) fun _ => ⟨hstar rfl, ?_⟩
        intro hmem
        have hlt := lt_syntheticBase network hmem
        omega

/-- The axis of the branches: source rows are numbered by their position, the others above them all. -/
theorem axisOver_branches (network : BalancedNetwork F T) {rows : List (Option ℕ)} {keys : AxisKeys}
    (hids : stableSourceIds "branch" network.branches.length rows = .ok keys.ids)
    (huids : uidsForSourceRows "branch" (network.branches.map (·.uid)) rows = .ok keys.uids) :
    AxisOver (branchTable network) keys rows := by
  obtain ⟨ids, uids⟩ := keys
  rw [stableSourceIds] at hids
  split at hids
  case isTrue => cases hids
  case isFalse =>
    have hgo : ∀ {next : ℕ} {rows : List (Option ℕ)} {ids : List ℕ} {uids : List (Option String)},
        network.branches.length < next → stableSourceIds.go "branch" next rows = .ok ids →
        uidsForSourceRows "branch" (network.branches.map (·.uid)) rows = .ok uids →
        AxisOver (branchTable network) { ids, uids } rows := by
      intro next rows
      induction rows generalizing next with
      | nil =>
        intro ids uids _ hids huids
        obtain rfl := Except.ok.inj hids
        obtain rfl := Except.ok.inj huids
        exact .nil _
      | cons source rows ih =>
        intro ids uids hnext hids huids
        obtain ⟨uid, restUids, rfl, hrestUids, hsource, hstar⟩ := uidsForSourceRows_cons huids
        cases source with
        | some row =>
          rw [stableSourceIds.go, Outcome.ite_error_eq_ok, Outcome.bind_eq_ok] at hids
          obtain ⟨-, restIds, hrestIds, heq⟩ := hids
          obtain rfl := Except.ok.inj heq
          refine (ih hnext hrestIds hrestUids).cons ?_ (fun hnone => nomatch hnone)
          rintro other hother
          have huid := hsource other hother
          obtain rfl := Option.some.inj hother
          have hlt := (List.getElem?_eq_some_iff.mp huid).1
          rw [List.length_map] at hlt
          refine ⟨?_, huid⟩
          rw [branchTable, List.getElem?_map, List.getElem?_range hlt]
          rfl
        | none =>
          rw [stableSourceIds.go, Outcome.ite_error_eq_ok, Outcome.bind_eq_ok] at hids
          obtain ⟨-, restIds, hrestIds, heq⟩ := hids
          obtain rfl := Except.ok.inj heq
          refine (ih (Nat.lt_succ_of_lt hnext) hrestIds hrestUids).cons (fun _ hrow => nomatch hrow)
            fun _ => ⟨hstar rfl, ?_⟩
          intro hmem
          obtain ⟨position, hposition, rfl⟩ := List.mem_map.mp hmem
          have hlt := List.mem_range.mp hposition
          omega
    exact hgo (Nat.lt_succ_self _) hids huids

/-- A bus axis of a model of the network, as it is built from the source rows of its positions. -/
structure BusAxis (network : BalancedNetwork F T) where
  rows : List (Option ℕ)
  ordinal : ℕ → Except String ℕ
  keys : AxisKeys
  ids : busIdsForSourceRows network ordinal 0 rows = .ok keys.ids
  uids : uidsForSourceRows "bus" (network.buses.map (·.uid)) rows = .ok keys.uids

/-- A branch axis. -/
structure BranchAxis (network : BalancedNetwork F T) where
  rows : List (Option ℕ)
  keys : AxisKeys
  ids : stableSourceIds "branch" network.branches.length rows = .ok keys.ids
  uids : uidsForSourceRows "branch" (network.branches.map (·.uid)) rows = .ok keys.uids

/-! ### The round trip -/

section

variable {network : BalancedNetwork F T}

theorem bus_of_parseI64 (hvalid : validateCanonicalIdentity network = .ok ()) {bus : Bus}
    (hbus : bus ∈ network.buses) {uid : String} (huid : bus.uid = some uid) {value : ℤ}
    (hparse : ElementKey.parseI64 uid = some value) : toUsize value = some bus.id := by
  have hown := bus_uid_of_validate hvalid hbus huid (ElementKey.spellsNumber_of_parseI64 hparse)
  rw [hown, ElementKey.parseI64_toString_nat] at hparse
  split at hparse
  case isFalse => cases hparse
  case isTrue =>
    cases hparse
    rw [toUsize, if_neg (by omega), Int.toNat_natCast]

/-- The element that a key names on each axis, and in the network itself. -/
structure SameElement (network : BalancedNetwork F T) (key back : ElementKey) : Prop where
  bus : ∀ (axis : BusAxis network) (i : ℕ), axis.keys.get key = some i → axis.keys.get back = some i
  branch : ∀ (axis : BranchAxis network) (i : ℕ), axis.keys.get key = some i →
    axis.keys.get back = some i
  canonicalBus : ∀ bus, canonicalBus network key = some bus → canonicalBus network back = some bus
  canonicalBranch : ∀ branch, canonicalBranch network key = some branch →
    canonicalBranch network back = some branch

theorem sameElement_refl (key : ElementKey) : SameElement network key key where
  bus := fun _ _ h => h
  branch := fun _ _ h => h
  canonicalBus := fun _ h => h
  canonicalBranch := fun _ h => h

theorem eq_of_bus_id (hids : (network.buses.map (·.id)).Nodup) {i j : ℕ} {a b : Bus}
    (ha : network.buses[i]? = some a) (hb : network.buses[j]? = some b) (hid : a.id = b.id) : a = b := by
  have hlt : i < (network.buses.map (·.id)).length := by
    rw [List.length_map]
    exact (List.getElem?_eq_some_iff.mp ha).1
  have hsame : (network.buses.map (·.id))[i]? = (network.buses.map (·.id))[j]? := by
    rw [List.getElem?_map, List.getElem?_map, ha, hb, Option.map_some, Option.map_some, hid]
  have hij : i = j := (List.getElem?_inj hlt hids).mp hsame
  subst hij
  exact Option.some.inj (ha.symm.trans hb)

theorem busAt_of_source {keys : AxisKeys} {rows : List (Option ℕ)}
    (hover : AxisOver (busTable network) keys rows) {i row : ℕ} (hrow : rows[i]? = some (some row)) :
    ∃ bus, network.buses[row]? = some bus ∧ keys.ids[i]? = some bus.id ∧ keys.uids[i]? = some bus.uid := by
  obtain ⟨number, uid, hnumber, huid, hid, huidAt⟩ := hover.source i row hrow
  rw [busTable, List.getElem?_map, Option.map_eq_some_iff] at hnumber huid
  obtain ⟨bus, hbus, rfl⟩ := hnumber
  obtain ⟨twin, htwin, rfl⟩ := huid
  obtain rfl := Option.some.inj (hbus.symm.trans htwin)
  exact ⟨bus, hbus, hid, huidAt⟩

/-- A row without a source has no uid. -/
theorem branch_of_uid {keys : AxisKeys} {rows : List (Option ℕ)}
    (hover : AxisOver (branchTable network) keys rows) {i : ℕ} {uid : String}
    (huid : keys.uids[i]? = some (some uid)) : ∃ branch ∈ network.branches, branch.uid = some uid := by
  have hlt := (List.getElem?_eq_some_iff.mp huid).1
  rw [hover.length_uids] at hlt
  cases hrow : rows[i] with
  | none =>
    rw [(hover.star i (List.getElem?_eq_some_iff.mpr ⟨hlt, hrow⟩)).1] at huid
    cases huid
  | some row =>
    obtain ⟨-, found, -, hfound, -, hat⟩ :=
      hover.source i row (List.getElem?_eq_some_iff.mpr ⟨hlt, hrow⟩)
    rw [branchTable, List.getElem?_map, Option.map_eq_some_iff] at hfound
    obtain ⟨branch, hbranch, rfl⟩ := hfound
    exact ⟨branch, List.mem_of_getElem? hbranch, Option.some.inj (hat.symm.trans huid)⟩

theorem sameElement_of_parseI64 (hvalid : validateCanonicalIdentity network = .ok ())
    (hids : (network.buses.map (·.id)).Nodup) {uid : String} {value : ℤ}
    (hparse : ElementKey.parseI64 uid = some value) :
    SameElement network (.uid uid) (.id value) := by
  have hnumber := ElementKey.spellsNumber_of_parseI64 hparse
  constructor
  case bus =>
    intro axis i hget
    obtain ⟨⟨found, hfound, hsame⟩, hlast⟩ := of_lastIndex_eq_some hget
    rw [of_decide_eq_true hsame] at hfound
    -- the row is a bus of the network, since a star has no uid
    have hover := axisOver_buses network axis.ids axis.uids
    have hlt : i < axis.rows.length := by
      rw [← hover.length_uids]
      exact (List.getElem?_eq_some_iff.mp hfound).1
    cases hrow : axis.rows[i]? with
    | none => exact absurd (List.getElem?_eq_none_iff.mp hrow) (by omega)
    | some source =>
      cases source with
      | none =>
        rw [(hover.star i hrow).1] at hfound
        cases hfound
      | some row =>
        obtain ⟨bus, hbus, hid, huid⟩ := busAt_of_source hover hrow
        rw [huid] at hfound
        have hown : bus.uid = some uid := Option.some.inj hfound
        have hto := bus_of_parseI64 hvalid (List.mem_of_getElem? hbus) hown hparse
        rw [AxisKeys.get, hto, Option.bind_some]
        obtain ⟨j, hj, hij⟩ := exists_lastIndex (p := (· = bus.id)) hid (decide_eq_true rfl)
        have hji : j ≤ i := by
          obtain ⟨⟨id, hidj, hsamej⟩, _⟩ := of_lastIndex_eq_some hj
          rw [of_decide_eq_true hsamej] at hidj
          cases hrowj : axis.rows[j]? with
          | none =>
            have hltj := (List.getElem?_eq_some_iff.mp hidj).1
            rw [hover.length_ids] at hltj
            exact absurd (List.getElem?_eq_none_iff.mp hrowj) (by omega)
          | some other =>
            cases other with
            | none =>
              obtain ⟨id, hstar, hfresh⟩ := (hover.star j hrowj).2
              rw [hidj] at hstar
              cases hstar
              exact absurd (List.mem_map_of_mem (List.mem_of_getElem? hbus)) hfresh
            | some other =>
              obtain ⟨twin, htwin, hidtwin, huidtwin⟩ := busAt_of_source hover hrowj
              rw [hidj] at hidtwin
              have heq := eq_of_bus_id hids hbus htwin (Option.some.inj hidtwin)
              rw [← heq, hown] at huidtwin
              exact hlast j _ huidtwin (decide_eq_true rfl)
        rw [hj]
        exact congrArg some (by omega)
  case branch =>
    intro axis i hget
    obtain ⟨⟨found, hfound, hsame⟩, _⟩ := of_lastIndex_eq_some hget
    rw [of_decide_eq_true hsame] at hfound
    obtain ⟨branch, hbranch, huid⟩ := branch_of_uid (axisOver_branches network axis.ids axis.uids) hfound
    exact absurd hnumber (branch_uid_of_validate hvalid hbranch huid)
  case canonicalBus =>
    intro bus hbus
    rw [canonicalBus] at hbus
    have hp := List.find?_some hbus
    have hown : bus.uid = some uid := of_decide_eq_true hp
    have hmem := List.mem_of_find?_eq_some hbus
    rw [canonicalBus, bus_of_parseI64 hvalid hmem hown hparse, Option.bind_some, busById]
    cases hfind : network.buses.find? (·.id = bus.id) with
    | none =>
      have hnone := List.find?_eq_none.mp hfind bus hmem
      exact absurd (decide_eq_true rfl) hnone
    | some twin =>
      obtain ⟨i, hi⟩ := List.getElem?_of_mem (List.mem_of_find?_eq_some hfind)
      obtain ⟨j, hj⟩ := List.getElem?_of_mem hmem
      have htwin := List.find?_some hfind
      rw [eq_of_bus_id hids hi hj (of_decide_eq_true htwin)]
  case canonicalBranch =>
    intro branch hbranch
    rw [canonicalBranch] at hbranch
    have hp := List.find?_some hbranch
    have hown : branch.uid = some uid := of_decide_eq_true hp
    exact absurd hnumber (branch_uid_of_validate hvalid (List.mem_of_find?_eq_some hbranch) hown)

/-- For every network with valid identities in which no two buses have one number, a key that is
written and read back, as a value or as the key of an object, names the element that it named. -/
theorem key_round_trip (hvalid : validateCanonicalIdentity network = .ok ())
    (hids : (network.buses.map (·.id)).Nodup) {key : ElementKey} (hrange : key.InRange) :
    ∃ back, ElementKey.ReadsBack (F := F) key back ∧ SameElement network key back := by
  cases key with
  | id value =>
    exact ⟨.id value, ElementKey.readsBack_of_portable hrange hrange.2, sameElement_refl _⟩
  | uid uid =>
    cases hparse : ElementKey.parseI64 uid with
    | none => exact ⟨.uid uid, ElementKey.readsBack_of_portable hrange hparse, sameElement_refl _⟩
    | some value =>
      refine ⟨.id value, ⟨?_, ?_⟩, sameElement_of_parseI64 hvalid hids hparse⟩
      · rw [ElementKey.toJson, ElementKey.read, hparse]
      · rw [ElementKey.toMapKey, ElementKey.read, hparse]

end

/-! ### Small networks -/

namespace Sample

/-- Buses of the given numbers and uids, and one branch. -/
def keyedNetwork (buses : List (ℕ × String)) : BalancedNetwork ℕ Unit where
  buses := buses.map fun (id, uid) => { id, uid := some uid, kind := .connected }
  loads := []
  branches := [{ uid := some "line", source := 5, target := 6, r := 0, x := 1, rateA := 0
                 inService := true }]
  generators := []
  baseMva := 100
  isNormalized := false
  tables := ()

/-- The buses and the star of one transformer. -/
def keyedAxis : BusAxis (keyedNetwork [(5, "5"), (6, "end")]) where
  rows := [some 0, none, some 1]
  ordinal := fun _ => .ok 0
  keys := { ids := [5, 7, 6], uids := [some "5", none, some "end"] }
  ids := by rfl
  uids := by rfl

/-- Bus 5 has its number as its uid. -/
theorem key_round_trip_ownNumber :
    ∃ back, ElementKey.ReadsBack (F := ℕ) (.uid "5") back ∧ keyedAxis.keys.get back = some 0 ∧
      (canonicalBus (keyedNetwork [(5, "5"), (6, "end")]) back).map (·.id) = some 5 := by
  have hvalid : validateCanonicalIdentity (keyedNetwork [(5, "5"), (6, "end")]) = .ok () := by rfl
  have hrange : (ElementKey.uid "5").InRange := trivial
  obtain ⟨back, hreads, hsame⟩ := key_round_trip hvalid (by decide) hrange
  refine ⟨back, hreads, hsame.bus keyedAxis 0 (by rfl), ?_⟩
  rw [hsame.canonicalBus _ rfl]
  rfl

/-- Two buses of number 5 pass the identity check. The uid of the first is read back as the number,
which names the second. -/
theorem key_round_trip_moves_to_a_twin :
    validateCanonicalIdentity (keyedNetwork [(5, "5"), (5, "twin")]) = .ok () ∧
      ∃ ids uids, busIdsForSourceRows (keyedNetwork [(5, "5"), (5, "twin")])
          (fun _ => .error "no transformer") 0 [some 0, some 1] = .ok ids ∧
        uidsForSourceRows "bus" ((keyedNetwork [(5, "5"), (5, "twin")]).buses.map (·.uid))
          [some 0, some 1] = .ok uids ∧
        AxisKeys.get { ids, uids } (.uid "5") = some 0 ∧
        ∀ back, ElementKey.ReadsBack (F := ℕ) (.uid "5") back →
          AxisKeys.get { ids, uids } back = some 1 := by
  refine ⟨by rfl, [5, 5], [some "5", some "twin"], by rfl, by rfl, by rfl, ?_⟩
  intro back hback
  have hread : ElementKey.read (.str "5" : Json ℕ) = .ok (.id 5) := by rfl
  have hsame := hback.1.symm.trans hread
  cases hsame
  rfl

end Sample

end Tellegen
