import Tellegen.Lib.Outcome

/-!
Ordered maps of records keyed by name, and the bounded walk along a chain of
parent references.

`index` is the indexing expression `map[key]`, which crashes on an absent key.
`Extends` is the append-only order on maps: every record kept, under its key
and with its value. `walk` follows references with a visited set; a chain in a
finite map either ends or repeats a key, so the walk never outlives a bound of
one step per record and one to spare.
-/

open Outcome Std

/-! ### The order of keys -/

def bytes (s : String) : List ℕ := s.toByteArray.data.toList.map UInt8.toNat

theorem bytes_injective : Function.Injective bytes := by
  intro a b h
  have hbytes : a.toByteArray.data.toList = b.toByteArray.data.toList :=
    List.map_injective_iff.mpr (fun _ _ => UInt8.toNat_inj.mp) h
  exact String.toByteArray_inj.mp (ByteArray.ext (Array.toList_inj.mp hbytes))

/-- Keys are compared byte by byte. -/
def byteOrder (a b : String) : Ordering := compare (bytes a) (bytes b)

instance : TransCmp byteOrder where
  eq_swap {a b} := @OrientedCmp.eq_swap (List ℕ) compare _ (bytes a) (bytes b)
  isLE_trans {a b c} := @TransCmp.isLE_trans (List ℕ) compare _ (bytes a) (bytes b) (bytes c)

instance : LawfulEqCmp byteOrder where
  eq_of_compare h := bytes_injective (LawfulEqCmp.eq_of_compare h)
  compare_self {a} := @ReflCmp.compare_self (List ℕ) compare _ (bytes a)

abbrev Records (V : Type) := ExtTreeMap String V byteOrder

namespace Records

variable {V : Type}

def index (records : Records V) (key : String) : Result V :=
  match records[key]? with
  | some value => .ok value
  | none => .error .missed

/-- Append-only: everything the old map held is still there. -/
def Extends (old new : Records V) : Prop :=
  ∀ (key : String) (value : V), old[key]? = some value → new[key]? = some value

@[simp] theorem index_eq_ok (records : Records V) (key : String) (value : V) :
    records.index key = .ok value ↔ records[key]? = some value := by
  unfold index
  split <;> simp_all

theorem safe_index (records : Records V) (key : String) :
    Safe (records.index key) ↔ key ∈ records := by
  rw [ExtTreeMap.mem_iff_isSome_getElem?]
  unfold index
  cases records[key]? <;> simp [Safe, Failure.Returned]

@[simp] theorem get?_insert (records : Records V) (key other : String) (value : V) :
    (records.insert key value)[other]? =
      if key = other then some value else records[other]? := by
  simp [ExtTreeMap.getElem?_insert]

@[simp] theorem get?_insertIfNew (records : Records V) (key other : String) (value : V) :
    (records.insertIfNew key value)[other]? =
      if key = other ∧ key ∉ records then some value else records[other]? := by
  simp [ExtTreeMap.getElem?_insertIfNew]

theorem mem_iff (records : Records V) (key : String) :
    key ∈ records ↔ ∃ value, records[key]? = some value := by
  rw [ExtTreeMap.mem_iff_isSome_getElem?, Option.isSome_iff_exists]

theorem not_mem_iff (records : Records V) (key : String) :
    key ∉ records ↔ records[key]? = none := by
  rw [ExtTreeMap.mem_iff_isSome_getElem?, Bool.not_eq_true, Option.isSome_eq_false_iff,
    Option.isNone_iff_eq_none]

theorem nodup_keys (records : Records V) : records.keys.Nodup := by
  have h := records.distinct_keys
  exact h.imp fun hne => by simpa using hne

namespace Extends

@[refl] theorem refl (records : Records V) : Extends records records :=
  fun _ _ h => h

theorem trans {a b c : Records V} (hab : Extends a b) (hbc : Extends b c) : Extends a c :=
  fun key value h => hbc key value (hab key value h)

theorem mem {a b : Records V} (h : Extends a b) {key : String} (hkey : key ∈ a) : key ∈ b := by
  obtain ⟨value, hvalue⟩ := (mem_iff a key).mp hkey
  exact (mem_iff b key).mpr ⟨value, h key value hvalue⟩

theorem size_le {a b : Records V} (h : Extends a b) : a.size ≤ b.size := by
  rw [← ExtTreeMap.length_keys, ← ExtTreeMap.length_keys]
  refine ((nodup_keys a).subperm fun key hkey => ?_).length_le
  rw [ExtTreeMap.mem_keys] at hkey ⊢
  exact h.mem hkey

theorem insertIfNew (records : Records V) (key : String) (value : V) :
    Extends records (records.insertIfNew key value) := by
  intro other old hold
  rw [get?_insertIfNew, if_neg]
  · exact hold
  · rintro ⟨rfl, habsent⟩
    rw [not_mem_iff, hold] at habsent
    cases habsent

/-- Overwriting extends the map when it writes what was there. -/
theorem insert {records : Records V} {key : String} {value : V}
    (h : ∀ old, records[key]? = some old → old = value) :
    Extends records (records.insert key value) := by
  intro other old hold
  rw [get?_insert]
  split
  · next heq =>
      subst heq
      rw [h old hold]
  · exact hold

end Extends

theorem mem_insertIfNew_self (records : Records V) (key : String) (value : V) :
    ∃ kept, (records.insertIfNew key value)[key]? = some kept ∧
      (kept = value ∨ records[key]? = some kept) := by
  by_cases habsent : key ∈ records
  · obtain ⟨kept, hkept⟩ := (mem_iff records key).mp habsent
    exact ⟨kept, Extends.insertIfNew records key value key kept hkept, .inr hkept⟩
  · exact ⟨value, by rw [get?_insertIfNew, if_pos ⟨rfl, habsent⟩], .inl rfl⟩

end Records

/-! ### Walks along references -/

section Walk

variable {α : Type} [DecidableEq α]

/-- Follow `next` until it ends, refusing a repeated key with `cycle`. The
first argument bounds the number of steps. -/
def walk (next : α → Result (Option α)) (cycle : String) :
    ℕ → List α → Option α → Result Unit
  | _, _, none => .ok ()
  | 0, _, some _ => .error .unbounded
  | fuel + 1, visited, some key =>
    if key ∈ visited then .error (.error cycle)
    else do
      let parent ← next key
      walk next cycle fuel (key :: visited) parent

/-- A walk among finitely many keys ends before its bound does: the visited
keys are distinct, so there are never more of them than there are keys. -/
theorem safe_walk (next : α → Result (Option α)) (cycle : String) (keys : List α)
    (hnext : ∀ key ∈ keys, Safe (next key) ∧
      ∀ parent, next key = .ok (some parent) → parent ∈ keys)
    (fuel : ℕ) (visited : List α) (current : Option α)
    (hnodup : visited.Nodup) (hvisited : visited ⊆ keys)
    (hcurrent : ∀ key, current = some key → key ∈ keys)
    (hfuel : keys.length < fuel + visited.length) :
    Safe (walk next cycle fuel visited current) := by
  induction fuel generalizing visited current with
  | zero =>
    cases current with
    | none => exact safe_ok ()
    | some key =>
      have hcard : visited.length ≤ keys.length := (hnodup.subperm hvisited).length_le
      omega
  | succ fuel ih =>
    cases current with
    | none => exact safe_ok ()
    | some key =>
      have hkey : key ∈ keys := hcurrent key rfl
      rw [walk, safe_ite]
      refine ⟨fun _ => safe_error cycle, fun hfresh => ?_⟩
      rw [safe_bind]
      refine ⟨(hnext key hkey).1, fun parent hparent => ih _ _ ?_ ?_ ?_ ?_⟩
      · exact List.nodup_cons.mpr ⟨hfresh, hnodup⟩
      · exact List.cons_subset.mpr ⟨hkey, hvisited⟩
      · rintro target rfl
        exact (hnext key hkey).2 target hparent
      · simp only [List.length_cons]
        omega

end Walk
