import Tellegen.Osm.Draft

/-!
The nearest bus to a point. The plain search scans all buses; the index bins them on a grid and scans
the buses of the cells around the point, in bus order. Where every bus in reach lies in the window of
cells, both scans keep the same buses in the same order, and so give the same one.
-/

open Binary64

namespace Tellegen.Osm

variable {F : Type} [Drafting F]

/-! ### The plain scan -/

structure SnapQuery (F : Type) where
  lon : F
  lat : F
  voltage : Option F
  tolKm : F

/-- The nearest bus so far, and the nearest at the voltage of the query. -/
structure Nearest (F : Type) where
  best : Option (F × ℕ)
  bestAtVoltage : Option (F × ℕ)

def Nearest.none : Nearest F := { best := Option.none, bestAtVoltage := Option.none }

def Nearest.bus (found : Nearest F) : Option ℕ := (found.bestAtVoltage.or found.best).map (·.2)

def closer (d : F) : Option (F × ℕ) → Bool
  | some (bd, _) => lt d bd
  | none => true

def SnapQuery.dlat (query : SnapQuery F) : F := query.tolKm / lit 111

def consider (query : SnapQuery F) (found : Nearest F) (i : ℕ) (b : DraftBus F) : Nearest F :=
  if lt query.dlat (Binary64.abs (b.lat - query.lat)) then found
  else
    let d := haversineKm query.lon query.lat b.lon b.lat
    if lt query.tolKm d then found
    else
      { best := if closer d found.best then some (d, i) else found.best
        bestAtVoltage :=
          if query.voltage.any (fun v => lt (Binary64.abs (b.baseKv - v)) (lit (1 / 10 ^ 6))) &&
              closer d found.bestAtVoltage then some (d, i)
          else found.bestAtVoltage }

def snap (buses : List (DraftBus F)) (query : SnapQuery F) : Option ℕ :=
  (buses.zipIdx.foldl (fun found (b, i) => consider query found i b) Nearest.none).bus

/-! ### The index -/

/-- Buses by grid cell; `indexed` of them are binned. -/
structure SnapIndex (F : Type) where
  cell : F
  tolKm : F
  bins : ℤ × ℤ → List ℕ
  indexed : ℕ

namespace SnapIndex

def new (tolKm : F) : SnapIndex F :=
  { cell := Binary64.max (tolKm / lit 111) (lit (1 / 10 ^ 6)), tolKm, bins := fun _ => [], indexed := 0 }

def key (index : SnapIndex F) (lon lat : F) : ℤ × ℤ :=
  (Drafting.asI64 (floor (lon / index.cell)), Drafting.asI64 (floor (lat / index.cell)))

/-- `bins.entry(key).or_default().push(i)`. -/
def push (index : SnapIndex F) (b : DraftBus F) (i : ℕ) : SnapIndex F :=
  let k := index.key b.lon b.lat
  { index with bins := Function.update index.bins k (index.bins k ++ [i]) }

/-- Bins the buses appended since the last query. -/
def catchUp (index : SnapIndex F) (buses : List (DraftBus F)) : SnapIndex F :=
  { (buses.zipIdx.drop index.indexed).foldl (fun index (b, i) => index.push b i) index with
    indexed := buses.length }

/-- `first..=last`. -/
def cells (first last : ℤ) : List ℤ :=
  (List.range (last + 1 - first).toNat).map fun k : ℕ => first + (k : ℤ)

def reachLat (query : SnapQuery F) : F :=
  Binary64.min (Binary64.abs query.lat + query.dlat) (lit 89)

def dlon (query : SnapQuery F) : F :=
  lit (105 / 100) * query.dlat / Libm.cos (toRadians (reachLat query))

def shifts : List F := [0, -lit 360, lit 360]

def candidates (index : SnapIndex F) (query : SnapQuery F) : List ℕ :=
  shifts.flatMap fun shift =>
    let (x0, y0) := index.key (query.lon + shift - dlon query) (query.lat - query.dlat)
    let (x1, y1) := index.key (query.lon + shift + dlon query) (query.lat + query.dlat)
    (cells x0 x1).flatMap fun x => (cells y0 y1).flatMap fun y => index.bins (x, y)

def snap (index : SnapIndex F) (buses : List (DraftBus F)) (query : SnapQuery F) :
    Option ℕ × SnapIndex F :=
  let index := index.catchUp buses
  if lt index.tolKm query.tolKm || le (lit 89) (reachLat query) then (Osm.snap buses query, index)
  else
    let candidates := ((index.candidates query).mergeSort fun i j => i ≤ j).dedup
    let found := candidates.foldl (fun found i =>
      match buses[i]? with
      | some b => consider query found i b
      | none => found) Nearest.none
    (found.bus, index)

end SnapIndex

/-! ### Scans over part of the buses -/

def Reached (query : SnapQuery F) (b : DraftBus F) : Bool :=
  !lt query.dlat (Binary64.abs (b.lat - query.lat)) &&
    !lt query.tolKm (haversineKm query.lon query.lat b.lon b.lat)

theorem consider_of_not_reached {query : SnapQuery F} {b : DraftBus F} (h : Reached query b = false)
    (found : Nearest F) (i : ℕ) : consider query found i b = found := by
  rw [Reached, Bool.and_eq_false_iff, Bool.not_eq_false', Bool.not_eq_false'] at h
  rw [consider]
  split
  case isTrue => rfl
  case isFalse hnear =>
    dsimp only
    rw [if_pos (h.resolve_left hnear)]

def visit (buses : List (DraftBus F)) (query : SnapQuery F) (found : Nearest F) (i : ℕ) : Nearest F :=
  match buses[i]? with
  | some b => consider query found i b
  | none => found

/-- The positions that a scan does not pass over. -/
def reachedAt (buses : List (DraftBus F)) (query : SnapQuery F) (i : ℕ) : Bool :=
  buses[i]?.any (Reached query)

theorem foldl_visit_filter (buses : List (DraftBus F)) (query : SnapQuery F) (indices : List ℕ)
    (found : Nearest F) :
    (indices.filter (reachedAt buses query)).foldl (visit buses query) found =
      indices.foldl (visit buses query) found := by
  rw [List.foldl_filter]
  congr 1
  funext found i
  split
  case isTrue => rfl
  case isFalse hnot =>
    rw [visit]
    rw [reachedAt] at hnot
    cases hb : buses[i]? with
    | none => rfl
    | some b =>
      rw [hb, Option.any_some, Bool.not_eq_true] at hnot
      exact (consider_of_not_reached hnot found i).symm

theorem foldl_zipIdx (query : SnapQuery F) (before after : List (DraftBus F)) (found : Nearest F) :
    (after.zipIdx before.length).foldl (fun found (b, i) => consider query found i b) found =
      (List.range' before.length after.length).foldl (visit (before ++ after) query) found := by
  induction after generalizing before found with
  | nil => rfl
  | cons b rest ih =>
    have hrest := ih (before ++ [b]) (consider query found before.length b)
    rw [List.length_append, List.length_singleton, List.append_assoc, List.singleton_append] at hrest
    have hat : visit (before ++ b :: rest) query found before.length =
        consider query found before.length b := by
      rw [visit, List.getElem?_append_right (Nat.le_refl _), Nat.sub_self]
      rfl
    rw [List.zipIdx_cons, List.foldl_cons, hrest, List.length_cons, List.range'_succ, List.foldl_cons,
      hat]

theorem snap_eq (buses : List (DraftBus F)) (query : SnapQuery F) :
    snap buses query =
      (((List.range buses.length).filter (reachedAt buses query)).foldl (visit buses query)
        Nearest.none).bus := by
  have hscan := foldl_zipIdx query [] buses Nearest.none
  rw [List.length_nil, List.nil_append, ← List.range_eq_range'] at hscan
  rw [snap, hscan, foldl_visit_filter]

/-! ### Bins -/

/-- Cells do not fall back as coordinates grow. This holds of doubles: division by a positive number,
rounding down and the cast are monotone. -/
class LawfulCells (F : Type) [Drafting F] : Prop where
  cell_mono {a b cell : F} : lt 0 cell → le a b →
    Drafting.asI64 (floor (a / cell)) ≤ Drafting.asI64 (floor (b / cell))
  max_pos (a : F) : lt 0 (Binary64.max a (lit (1 / 10 ^ 6)))

namespace SnapIndex

/-- The bins hold exactly the indexed buses, each under its own cell. -/
structure Binned (index : SnapIndex F) (buses : List (DraftBus F)) : Prop where
  indexed_le : index.indexed ≤ buses.length
  mem_bins : ∀ cell i, i ∈ index.bins cell ↔
    i < index.indexed ∧ ∃ b, buses[i]? = some b ∧ index.key b.lon b.lat = cell
  cell_pos : lt 0 index.cell = true

theorem binned_new [LawfulCells F] (tolKm : F) (buses : List (DraftBus F)) :
    (new tolKm).Binned buses where
  indexed_le := Nat.zero_le _
  mem_bins := by
    intro cell i
    constructor
    · intro h
      cases h
    · rintro ⟨h, _⟩
      cases h
  cell_pos := LawfulCells.max_pos _

theorem Binned.append {index : SnapIndex F} {buses : List (DraftBus F)} (h : index.Binned buses)
    (more : List (DraftBus F)) : index.Binned (buses ++ more) where
  indexed_le := by
    rw [List.length_append]
    exact Nat.le_add_right_of_le h.indexed_le
  mem_bins := by
    intro cell i
    rw [h.mem_bins]
    apply and_congr_right
    intro hi
    rw [List.getElem?_append_left (Nat.lt_of_lt_of_le hi h.indexed_le)]
  cell_pos := h.cell_pos

theorem foldl_push (index : SnapIndex F) (entries : List (DraftBus F × ℕ)) :
    let pushed := entries.foldl (fun index (b, i) => index.push b i) index
    pushed.cell = index.cell ∧ pushed.tolKm = index.tolKm ∧
      ∀ cell i, i ∈ pushed.bins cell ↔
        i ∈ index.bins cell ∨ ∃ b, (b, i) ∈ entries ∧ index.key b.lon b.lat = cell := by
  induction entries generalizing index with
  | nil =>
    refine ⟨rfl, rfl, ?_⟩
    intro cell i
    constructor
    · exact .inl
    · rintro (h | ⟨b, hb, _⟩)
      · exact h
      · cases hb
  | cons entry rest ih =>
    obtain ⟨b, i⟩ := entry
    obtain ⟨hcell, htol, hbins⟩ := ih (index.push b i)
    refine ⟨hcell, htol, ?_⟩
    intro cell j
    have hpush : j ∈ (index.push b i).bins cell ↔
        j ∈ index.bins cell ∨ j = i ∧ index.key b.lon b.lat = cell := by
      change j ∈ Function.update index.bins (index.key b.lon b.lat) _ cell ↔ _
      by_cases hk : cell = index.key b.lon b.lat
      · subst hk
        rw [Function.update_self, List.mem_append, List.mem_singleton]
        simp only [and_true]
      · rw [Function.update_of_ne hk]
        constructor
        · exact .inl
        · rintro (h | ⟨_, h⟩)
          · exact h
          · exact absurd h.symm hk
    rw [List.foldl_cons, hbins, hpush, or_assoc]
    apply or_congr_right
    constructor
    · rintro (⟨rfl, hk⟩ | ⟨c, hc, hk⟩)
      · exact ⟨b, List.mem_cons_self, hk⟩
      · exact ⟨c, List.mem_cons_of_mem _ hc, hk⟩
    · rintro ⟨c, hc, hk⟩
      rcases List.mem_cons.mp hc with heq | hc
      · cases heq
        exact .inl ⟨rfl, hk⟩
      · exact .inr ⟨c, hc, hk⟩

theorem mem_drop_zipIdx {α : Type} {l : List α} {k i : ℕ} {a : α} :
    (a, i) ∈ l.zipIdx.drop k ↔ k ≤ i ∧ l[i]? = some a := by
  rw [List.mem_iff_getElem?]
  constructor
  · rintro ⟨j, hj⟩
    rw [List.getElem?_drop, List.getElem?_zipIdx, Option.map_eq_some_iff] at hj
    obtain ⟨b, hb, heq⟩ := hj
    cases heq
    rw [Nat.zero_add]
    exact ⟨Nat.le_add_right _ _, hb⟩
  · rintro ⟨hk, ha⟩
    refine ⟨i - k, ?_⟩
    rw [List.getElem?_drop, List.getElem?_zipIdx, Nat.add_sub_cancel' hk, ha, Option.map_some,
      Nat.zero_add]

theorem Binned.catchUp {index : SnapIndex F} {buses : List (DraftBus F)} (h : index.Binned buses) :
    (index.catchUp buses).Binned buses ∧ (index.catchUp buses).indexed = buses.length ∧
      (index.catchUp buses).tolKm = index.tolKm := by
  obtain ⟨hcell, htol, hbins⟩ := foldl_push index (buses.zipIdx.drop index.indexed)
  refine ⟨⟨Nat.le_refl _, ?_, ?_⟩, rfl, htol⟩
  · intro cell i
    have hkey : ∀ lon lat, (index.catchUp buses).key lon lat = index.key lon lat := by
      intro lon lat
      rw [key, key, SnapIndex.catchUp, hcell]
    change i ∈ ((buses.zipIdx.drop index.indexed).foldl (fun index (b, i) => index.push b i)
      index).bins cell ↔ i < buses.length ∧ _
    rw [hbins, h.mem_bins]
    simp only [hkey, mem_drop_zipIdx]
    constructor
    · rintro (⟨hi, b, hb, hk⟩ | ⟨b, ⟨_, hb⟩, hk⟩)
      · exact ⟨Nat.lt_of_lt_of_le hi h.indexed_le, b, hb, hk⟩
      · exact ⟨(List.getElem?_eq_some_iff.mp hb).1, b, hb, hk⟩
    · rintro ⟨_, b, hb, hk⟩
      by_cases hi : i < index.indexed
      · exact .inl ⟨hi, b, hb, hk⟩
      · exact .inr ⟨b, ⟨Nat.le_of_not_lt hi, hb⟩, hk⟩
  · change lt 0 ((buses.zipIdx.drop index.indexed).foldl (fun index (b, i) => index.push b i)
      index).cell = true
    rw [hcell]
    exact h.cell_pos

/-! ### The window -/

theorem mem_cells {first last k : ℤ} : k ∈ cells first last ↔ first ≤ k ∧ k ≤ last := by
  rw [cells, List.mem_map]
  constructor
  · rintro ⟨j, hj, rfl⟩
    rw [List.mem_range] at hj
    omega
  · rintro ⟨hfirst, hlast⟩
    refine ⟨(k - first).toNat, ?_, ?_⟩
    · rw [List.mem_range]
      omega
    · omega

/-- The coordinates of a bus lie in the window that the index searches, with the longitude as it is or a
full turn away. -/
def Window (query : SnapQuery F) (b : DraftBus F) : Prop :=
  le (query.lat - query.dlat) b.lat ∧ le b.lat (query.lat + query.dlat) ∧
    ∃ shift ∈ (shifts : List F),
      le (query.lon + shift - dlon query) b.lon ∧ le b.lon (query.lon + shift + dlon query)

theorem mem_candidates [LawfulCells F] {index : SnapIndex F} {buses : List (DraftBus F)}
    (h : index.Binned buses) {query : SnapQuery F} {i : ℕ} {b : DraftBus F}
    (hi : i < index.indexed) (hb : buses[i]? = some b) (hwindow : Window query b) :
    i ∈ index.candidates query := by
  obtain ⟨hsouth, hnorth, shift, hshift, hwest, heast⟩ := hwindow
  rw [candidates, List.mem_flatMap]
  refine ⟨shift, hshift, ?_⟩
  dsimp only [key]
  rw [List.mem_flatMap]
  refine ⟨Drafting.asI64 (floor (b.lon / index.cell)), ?_, ?_⟩
  · rw [mem_cells]
    exact ⟨LawfulCells.cell_mono h.cell_pos hwest, LawfulCells.cell_mono h.cell_pos heast⟩
  · rw [List.mem_flatMap]
    refine ⟨Drafting.asI64 (floor (b.lat / index.cell)), ?_, ?_⟩
    · rw [mem_cells]
      exact ⟨LawfulCells.cell_mono h.cell_pos hsouth, LawfulCells.cell_mono h.cell_pos hnorth⟩
    · exact (h.mem_bins _ i).mpr ⟨hi, b, hb, rfl⟩

theorem lt_of_mem_candidates {index : SnapIndex F} {buses : List (DraftBus F)}
    (h : index.Binned buses) {query : SnapQuery F} {i : ℕ} (hi : i ∈ index.candidates query) :
    i < index.indexed := by
  rw [candidates, List.mem_flatMap] at hi
  obtain ⟨_, _, hi⟩ := hi
  obtain ⟨_, _, hi⟩ := List.mem_flatMap.mp hi
  obtain ⟨_, _, hi⟩ := List.mem_flatMap.mp hi
  exact ((h.mem_bins _ i).mp hi).1

/-- What the search assumes of a query and a bus: one in reach of the query lies in its window. -/
def Bounded (query : SnapQuery F) (b : DraftBus F) : Prop :=
  Reached query b = true → le (lit 89) (reachLat query) = false → Window query b

theorem filter_candidates [LawfulCells F] {index : SnapIndex F} {buses : List (DraftBus F)}
    (h : index.Binned buses) (hindexed : index.indexed = buses.length) {query : SnapQuery F}
    (hbounded : ∀ b ∈ buses, Bounded query b) (hreach : le (lit 89) (reachLat query) = false) :
    (((index.candidates query).mergeSort fun i j => i ≤ j).dedup).filter (reachedAt buses query) =
      (List.range buses.length).filter (reachedAt buses query) := by
  have hsorted : (((index.candidates query).mergeSort fun i j => i ≤ j).dedup).Pairwise (· < ·) :=
    pairwise_ascending (index.candidates query)
  apply List.SortedLT.eq_of_mem_iff
  · exact (hsorted.filter _).sortedLT
  · exact (List.pairwise_lt_range.filter _).sortedLT
  · intro i
    rw [List.mem_filter, List.mem_filter, List.mem_dedup, List.mem_mergeSort, List.mem_range]
    apply and_congr_left
    intro hat
    constructor
    · intro hi
      rw [← hindexed]
      exact lt_of_mem_candidates h hi
    · intro hi
      obtain ⟨b, hb, hreached⟩ := (Option.any_eq_true ..).mp hat
      rw [← hindexed] at hi
      exact mem_candidates h hi hb (hbounded b (List.mem_of_getElem? hb) hreached hreach)

theorem snap_spec [LawfulCells F] {index : SnapIndex F} {buses : List (DraftBus F)}
    (h : index.Binned buses) {query : SnapQuery F} (hbounded : ∀ b ∈ buses, Bounded query b) :
    (index.snap buses query).1 = Osm.snap buses query ∧ (index.snap buses query).2.Binned buses := by
  obtain ⟨hbinned, hindexed, _⟩ := h.catchUp
  rw [SnapIndex.snap]
  dsimp only
  split
  case isTrue => exact ⟨rfl, hbinned⟩
  case isFalse hnear =>
    refine ⟨?_, hbinned⟩
    rw [Bool.or_eq_true, not_or, Bool.not_eq_true, Bool.not_eq_true] at hnear
    have hscan := foldl_visit_filter buses query
      (((index.catchUp buses).candidates query).mergeSort fun i j => i ≤ j).dedup Nearest.none
    rw [filter_candidates hbinned hindexed hbounded hnear.2] at hscan
    rw [snap_eq, hscan]
    rfl

end SnapIndex

/-! ### Runs -/

inductive SnapEvent (F : Type) where
  | append (bus : DraftBus F)
  | query (query : SnapQuery F)

/-- The answers of the index, which catches up as the list grows. -/
def runIndex (index : SnapIndex F) (buses : List (DraftBus F)) : List (SnapEvent F) → List (Option ℕ)
  | [] => []
  | .append bus :: rest => runIndex index (buses ++ [bus]) rest
  | .query query :: rest =>
    let (answer, index) := index.snap buses query
    answer :: runIndex index buses rest

def runScan (buses : List (DraftBus F)) : List (SnapEvent F) → List (Option ℕ)
  | [] => []
  | .append bus :: rest => runScan (buses ++ [bus]) rest
  | .query query :: rest => snap buses query :: runScan buses rest

theorem runIndex_eq [LawfulCells F] {index : SnapIndex F} {buses : List (DraftBus F)}
    (h : index.Binned buses) (events : List (SnapEvent F))
    (hbounded : ∀ query, .query query ∈ events → ∀ b, b ∈ buses ∨ .append b ∈ events →
      SnapIndex.Bounded query b) :
    runIndex index buses events = runScan buses events := by
  induction events generalizing index buses with
  | nil => rfl
  | cons event rest ih =>
    cases event with
    | append bus =>
      rw [runIndex, runScan]
      apply ih (h.append [bus])
      intro query hquery b hb
      apply hbounded query (List.mem_cons_of_mem _ hquery)
      rcases hb with hb | hb
      · rcases List.mem_append.mp hb with hb | hb
        · exact .inl hb
        · rw [List.mem_singleton.mp hb]
          exact .inr List.mem_cons_self
      · exact .inr (List.mem_cons_of_mem _ hb)
    | query query =>
      obtain ⟨hanswer, hbinned⟩ := SnapIndex.snap_spec h
        fun b hb => hbounded query List.mem_cons_self b (.inl hb)
      rw [runIndex, runScan]
      dsimp only
      rw [hanswer]
      congr 1
      apply ih hbinned
      intro other hother b hb
      apply hbounded other (List.mem_cons_of_mem _ hother)
      rcases hb with hb | hb
      · exact .inl hb
      · exact .inr (List.mem_cons_of_mem _ hb)

/-- The index answers as the plain search does, ties included, whatever is appended in between. That a bus in
reach of a query lies in its window of cells is assumed. -/
theorem index_equals_scan [LawfulCells F] (tolKm : F) (buses : List (DraftBus F))
    (events : List (SnapEvent F))
    (hbounded : ∀ query, .query query ∈ events → ∀ b, b ∈ buses ∨ .append b ∈ events →
      SnapIndex.Bounded query b) :
    runIndex (SnapIndex.new tolKm) buses events = runScan buses events :=
  runIndex_eq (SnapIndex.binned_new tolKm buses) events hbounded

section Sample

variable [DecimalText ℝ]

theorem lawfulCells_exact : LawfulCells ℝ where
  cell_mono := by
    intro a b cell hcell hab
    have hfloor : (⌊a / cell⌋ : ℤ) ≤ ⌊b / cell⌋ :=
      Int.floor_le_floor ((div_le_div_iff_of_pos_right (of_decide_eq_true hcell)).mpr
        (of_decide_eq_true hab))
    have hcast : ∀ z : ℤ, Drafting.asI64 (z : ℝ) = Max.max (-2 ^ 63) (Min.min (2 ^ 63 - 1) z) := by
      intro z
      change Max.max _ (Min.min _ (if (z : ℝ) < 0 then ⌈(z : ℝ)⌉ else ⌊(z : ℝ)⌋)) = _
      rw [Int.ceil_intCast, Int.floor_intCast, ite_self]
    change Drafting.asI64 ((⌊a / cell⌋ : ℤ) : ℝ) ≤ Drafting.asI64 ((⌊b / cell⌋ : ℤ) : ℝ)
    rw [hcast, hcast]
    exact max_le_max_left _ (min_le_min_left _ hfloor)
  max_pos := by
    intro a
    apply decide_eq_true
    change (0 : ℝ) < if a < ((1 / 10 ^ 6 : ℚ) : ℝ) then ((1 / 10 ^ 6 : ℚ) : ℝ) else a
    have hpos : (0 : ℝ) < ((1 / 10 ^ 6 : ℚ) : ℝ) := by norm_num
    split
    case isTrue => exact hpos
    case isFalse hle => exact hpos.trans_le (not_lt.mp hle)

def town : DraftBus ℝ where
  lon := 0
  lat := 0
  name := "town"
  baseKv := 110
  kind := .substation
  island := 0
  source := .osm
  loadMw := 0
  annotation := ""
  site := 0

def busAt (lon lat : ℝ) : DraftBus ℝ := { town with lon, lat }

/-- A degree around the origin. -/
def atTown : SnapQuery ℝ := { lon := 0, lat := 0, voltage := some 110, tolKm := 111 }

theorem dlat_atTown : atTown.dlat = 1 := by
  change (111 : ℝ) / ((111 : ℚ) : ℝ) = 1
  norm_num

theorem dlon_atTown : 1 ≤ SnapIndex.dlon atTown := by
  have hreach : SnapIndex.reachLat atTown = 1 := by
    rw [SnapIndex.reachLat, dlat_atTown]
    have habs : Binary64.abs atTown.lat = 0 := if_neg (lt_irrefl 0)
    change (if Binary64.abs atTown.lat + 1 < ((89 : ℚ) : ℝ) then _ else _) = _
    rw [habs]
    norm_num
  have hradians : toRadians (1 : ℝ) = Real.pi / 180 := by
    change (1 : ℝ) * (Real.pi / ((180 : ℚ) : ℝ)) = Real.pi / 180
    norm_num
  have hpi := Real.pi_pos
  have hcos : 0 < Real.cos (Real.pi / 180) :=
    Real.cos_pos_of_mem_Ioo ⟨by linarith, by linarith⟩
  rw [SnapIndex.dlon, dlat_atTown, hreach, hradians]
  change 1 ≤ ((105 / 100 : ℚ) : ℝ) * 1 / Real.cos (Real.pi / 180)
  rw [one_le_div hcos]
  exact (Real.cos_le_one _).trans (by norm_num)

/-- Whatever the search reaches within a degree of longitude is in the window. -/
theorem bounded_atTown {lon : ℝ} (lat : ℝ) (hlon : |lon| ≤ 1) :
    SnapIndex.Bounded atTown (busAt lon lat) := by
  intro hreached _
  rw [Reached, Bool.and_eq_true] at hreached
  have hlat : (if lat - 0 < 0 then -(lat - 0) else lat - 0) ≤ 1 := by
    rw [← dlat_atTown]
    exact not_lt.mp (of_decide_eq_false (Bool.not_eq_true' _ |>.mp hreached.1))
  rw [abs_le] at hlon
  have hdlon := dlon_atTown
  have hhere : atTown.lat = 0 ∧ atTown.lon = 0 := ⟨rfl, rfl⟩
  have hle : ∀ {x y : ℝ}, x ≤ y → Binary64.le x y = true := fun h => decide_eq_true h
  rw [SnapIndex.Window, dlat_atTown]
  refine ⟨hle ?_, hle ?_, 0, List.mem_cons_self, hle ?_, hle ?_⟩
  all_goals
    simp only [hhere, busAt]
    split at hlat <;> linarith

end Sample

@[reducible] local instance townText : DecimalText ℝ := ⟨fun _ => ""⟩

/-- Two towns in neighbouring cells are as far as each other, and a third is out of reach. -/
noncomputable def towns : List (SnapEvent ℝ) :=
  [.append (busAt (1 / 2) 0), .append (busAt 0 5), .query atTown, .append (busAt (-1 / 2) 0),
    .query atTown]

theorem index_equals_scan_towns : runIndex (SnapIndex.new 111) [] towns = runScan [] towns := by
  have _ := lawfulCells_exact
  apply index_equals_scan
  intro query hquery b hb
  simp only [towns, List.mem_cons, SnapEvent.query.injEq, SnapEvent.append.injEq, reduceCtorEq,
    List.not_mem_nil, false_or, or_false, or_self] at hquery hb
  subst hquery
  rcases hb with rfl | rfl | rfl
  all_goals exact bounded_atTown _ (by norm_num [abs_le])

end Tellegen.Osm
