import Mathlib.Analysis.Real.Pi.Bounds
import Tellegen.Lib.Buckets
import Tellegen.Lib.RingSearch
import Tellegen.Synth.Loads

/-!
Demand lookups in exact arithmetic against a plain scan of all places and points. A cell is wider in
longitude towards the poles, so the nine cells around a place need not hold every point within the radius.
-/

set_option linter.unusedSectionVars false

open Binary64 hiding max min
open Tellegen.Osm (Drafting haversineKm toRadians minBy)

namespace Tellegen.Synth

section

variable [DecimalText ℝ]

/-! ### Distances -/

theorem toRadians_real (x : ℝ) : toRadians x = x * (Real.pi / 180) := by
  have hdegrees : (lit 180 : ℝ) = 180 := Rat.cast_ofNat 180
  change x * (Real.pi / lit 180) = _
  rw [hdegrees]

noncomputable def distKm (p : ℝ × ℝ) (c : DemandPlace ℝ) : ℝ := haversineKm c.lon c.lat p.1 p.2

theorem haversineKm_eq (lon1 lat1 lon2 lat2 : ℝ) :
    haversineKm lon1 lat1 lon2 lat2 = 2 * 6371 * Real.arcsin (Min.min (Real.sqrt
      (Real.sin ((toRadians lat2 - toRadians lat1) / 2) * Real.sin ((toRadians lat2 - toRadians lat1) / 2) +
        Real.cos (toRadians lat1) * Real.cos (toRadians lat2) *
          (Real.sin (toRadians (lon2 - lon1) / 2) * Real.sin (toRadians (lon2 - lon1) / 2)))) 1) := by
  have htwo : (lit 2 : ℝ) = 2 := Rat.cast_ofNat 2
  have hearth : (Osm.earthRadiusKm : ℝ) = 6371 := Rat.cast_ofNat 6371
  rw [haversineKm, htwo, hearth, min_real]
  rfl

theorem haversineKm_comm (lon1 lat1 lon2 lat2 : ℝ) :
    haversineKm lon1 lat1 lon2 lat2 = haversineKm lon2 lat2 lon1 lat1 := by
  have hlat : (toRadians lat1 - toRadians lat2) / 2 = -((toRadians lat2 - toRadians lat1) / 2) := by ring
  have hlon : toRadians (lon1 - lon2) / 2 = -(toRadians (lon2 - lon1) / 2) := by
    change (lon1 - lon2) * _ / 2 = -((lon2 - lon1) * _ / 2)
    ring
  rw [haversineKm_eq, haversineKm_eq, hlat, hlon, Real.sin_neg, Real.sin_neg, neg_mul_neg, neg_mul_neg,
    mul_comm (Real.cos (toRadians lat1))]

theorem distKm_nonneg (p : ℝ × ℝ) (c : DemandPlace ℝ) : 0 ≤ distKm p c := by
  rw [distKm, haversineKm_eq]
  apply mul_nonneg (by norm_num)
  exact Real.arcsin_nonneg.mpr (le_min (Real.sqrt_nonneg _) zero_le_one)

theorem one_add_distKm_pos (p : ℝ × ℝ) (c : DemandPlace ℝ) : 0 < 1 + distKm p c :=
  add_pos_of_pos_of_nonneg one_pos (distKm_nonneg p c)

/-! ### The plain scan -/

section Scan

variable (points : List (ℝ × ℝ)) (radius : ℝ)

noncomputable def inRange (c : DemandPlace ℝ) : Finset ℕ :=
  (Finset.range points.length).filter fun k => distKm (pointAt points k) c ≤ radius

/-- No point is nearer than point `k`, and none before it as near. -/
def FirstNearest (c : DemandPlace ℝ) (k : ℕ) : Prop :=
  k < points.length ∧ ∀ j < points.length, distKm (pointAt points k) c ≤ distKm (pointAt points j) c ∧
    (j < k → distKm (pointAt points k) c < distKm (pointAt points j) c)

open Classical in
/-- What point `k` gets of a place: a share by inverse distance among some near points, or all of it. -/
noncomputable def shareAmong (near : Finset ℕ) (c : DemandPlace ℝ) (k : ℕ) : ℝ :=
  if near = ∅ then if FirstNearest points c k then c.demandWeight else 0
  else if k ∈ near then
    c.demandWeight * (1 / (1 + distKm (pointAt points k) c)) /
      ∑ j ∈ near, 1 / (1 + distKm (pointAt points j) c)
  else 0

noncomputable def scanPartition (cities : List (DemandPlace ℝ)) : List ℝ :=
  (List.range points.length).map fun k =>
    (cities.map fun c => shareAmong points (inRange points radius c) c k).sum

noncomputable def scanIdw (cities : List (DemandPlace ℝ)) : List ℝ :=
  points.map fun p =>
    (cities.map fun c => if distKm p c ≤ radius then c.demandWeight / (1 + distKm p c) else 0).sum

/-- The lookups give what the plain scans give, and the points together get the demand of the places. -/
structure LookupsScan (cities : List (DemandPlace ℝ)) : Prop where
  partition : demandPartition points cities radius = scanPartition points radius cities
  conserved : (demandPartition points cities radius).sum = (cities.map fun c => c.demandWeight).sum
  idw : demandIdw points cities radius = scanIdw points radius cities

/-! ### Cells -/

/-- The key of a position on the grid for a radius. -/
noncomputable def cellOf (lon lat : ℝ) : ℤ × ℤ := demandKey (radius / lit 111) lon lat

def Neighbouring (a b : ℤ × ℤ) : Prop := |a.1 - b.1| ≤ 1 ∧ |a.2 - b.2| ≤ 1

instance (a b : ℤ × ℤ) : Decidable (Neighbouring a b) := inferInstanceAs (Decidable (_ ∧ _))

/-- There is a point for the demand, and wherever a place with demand and a point are within the radius of
each other, their cells are neighbours. -/
structure WithinCells (cities : List (DemandPlace ℝ)) : Prop where
  supplied : points = [] → ∀ c ∈ cities, c.demandWeight = 0
  cells : ∀ p ∈ points, ∀ c ∈ cities, c.demandWeight ≠ 0 → distKm p c ≤ radius →
    Neighbouring (cellOf radius p.1 p.2) (cellOf radius c.lon c.lat)

end Scan

theorem mem_cellsAround {key cell : ℤ × ℤ} : cell ∈ cellsAround key ↔ Neighbouring cell key := by
  obtain ⟨x, y⟩ := key
  obtain ⟨a, b⟩ := cell
  simp only [cellsAround, List.mem_flatMap, List.mem_map, List.mem_cons, List.not_mem_nil, or_false,
    Prod.mk.injEq, Neighbouring, abs_le]
  constructor
  · rintro ⟨dx, hdx, dy, hdy, hx, hy⟩
    omega
  · rintro ⟨⟨hx, hx'⟩, hy, hy'⟩
    refine ⟨a - x, by omega, b - y, by omega, by omega, by omega⟩

theorem nodup_cellsAround (key : ℤ × ℤ) : (cellsAround key).Nodup := by
  obtain ⟨x, y⟩ := key
  simp [cellsAround, Prod.ext_iff]

theorem Neighbouring.symm {a b : ℤ × ℤ} (h : Neighbouring a b) : Neighbouring b a := by
  rw [Neighbouring, abs_sub_comm, abs_sub_comm b.2]
  exact h

/-! ### The window -/

section Window

variable {points : List (ℝ × ℝ)} {radius : ℝ}

/-- The points within the radius of a place that the window finds. -/
noncomputable def foundNear (points : List (ℝ × ℝ)) (radius : ℝ) (c : DemandPlace ℝ) : Finset ℕ :=
  (inRange points radius c).filter fun k =>
    Neighbouring (cellOf radius (pointAt points k).1 (pointAt points k).2) (cellOf radius c.lon c.lat)

theorem cellLat_eq (hradius : 1 ≤ radius) :
    Binary64.max radius (lit (1 / 1000)) / lit 111 = radius / lit 111 := by
  have hlit : (lit (1 / 1000) : ℝ) ≤ radius := by
    change ((1 / 1000 : ℚ) : ℝ) ≤ radius
    have hsmall : ((1 / 1000 : ℚ) : ℝ) ≤ 1 := by norm_num
    exact hsmall.trans hradius
  rw [max_real, max_eq_left hlit]

theorem mem_foundNear {c : DemandPlace ℝ} {k : ℕ} :
    k ∈ foundNear points radius c ↔ k < points.length ∧ distKm (pointAt points k) c ≤ radius ∧
      Neighbouring (cellOf radius (pointAt points k).1 (pointAt points k).2) (cellOf radius c.lon c.lat) := by
  rw [foundNear, Finset.mem_filter, inRange, Finset.mem_filter, Finset.mem_range, and_assoc]

theorem pointsNear_perm (hradius : 1 ≤ radius) (c : DemandPlace ℝ) :
    (pointsNear points radius c).Perm
      (((List.range points.length).filter fun k => k ∈ foundNear points radius c).map fun k =>
        (k, 1 / (1 + distKm (pointAt points k) c))) := by
  set key := fun k => cellOf radius (pointAt points k).1 (pointAt points k).2
  set share := fun k => if distKm (pointAt points k) c ≤ radius then
    some (k, 1 / (1 + distKm (pointAt points k) c)) else none
  have hnear : pointsNear points radius c = (cellsAround (cellOf radius c.lon c.lat)).flatMap fun cell =>
      (List.range points.length).filterMap fun k => if key k = cell then share k else none := by
    unfold pointsNear
    dsimp only
    rw [cellLat_eq hradius]
    congr 1
    funext cell
    congr 1
    funext k
    change (if (decide (key k = cell) && le (distKm (pointAt points k) c) radius) = true then
      some (k, 1 / (1 + distKm (pointAt points k) c)) else none) = _
    simp only [Bool.and_eq_true, decide_eq_true_eq, real_le_iff, ite_and]
    rfl
  rw [hnear]
  apply (Buckets.flatMap_filterMap_perm (nodup_cellsAround _) key share _).trans
  apply List.Perm.of_eq
  rw [← List.filterMap_eq_map, List.filterMap_filter]
  apply List.filterMap_congr
  intro k hk
  have hiff : k ∈ foundNear points radius c ↔
      key k ∈ cellsAround (cellOf radius c.lon c.lat) ∧ distKm (pointAt points k) c ≤ radius := by
    rw [mem_foundNear, mem_cellsAround]
    exact ⟨fun h => ⟨h.2.2, h.2.1⟩, fun h => ⟨List.mem_range.mp hk, h.2, h.1⟩⟩
  simp only [hiff, decide_eq_true_eq, ite_and, Function.comp_apply]
  congr 1

theorem nodup_found (c : DemandPlace ℝ) :
    ((List.range points.length).filter fun k => k ∈ foundNear points radius c).Nodup :=
  List.nodup_range.filter _

theorem toFinset_found (c : DemandPlace ℝ) :
    ((List.range points.length).filter fun k => k ∈ foundNear points radius c).toFinset =
      foundNear points radius c := by
  ext k
  rw [List.mem_toFinset, List.mem_filter, List.mem_range, decide_eq_true_eq]
  exact ⟨fun h => h.2, fun h => ⟨(mem_foundNear.mp h).1, h⟩⟩

theorem sum_pointsNear (hradius : 1 ≤ radius) (c : DemandPlace ℝ) (g : ℕ × ℝ → ℝ) :
    ((pointsNear points radius c).map g).sum =
      ∑ k ∈ foundNear points radius c, g (k, 1 / (1 + distKm (pointAt points k) c)) := by
  rw [((pointsNear_perm hradius c).map g).sum_eq, List.map_map, ← List.sum_toFinset _ (nodup_found c),
    toFinset_found]
  rfl

theorem pointsNear_eq_nil (hradius : 1 ≤ radius) (c : DemandPlace ℝ) :
    pointsNear points radius c = [] ↔ foundNear points radius c = ∅ := by
  rw [← List.length_eq_zero_iff, (pointsNear_perm hradius c).length_eq, List.length_map,
    ← List.toFinset_card_of_nodup (nodup_found c), toFinset_found, Finset.card_eq_zero]

/-! ### The nearest point -/

theorem lexLess_iff (a b : ℝ × ℕ) :
    decide (((totalCmp a.1 b.1).then (compare a.2 b.2)) = .lt) = true ↔ toLex a < toLex b := by
  rw [decide_eq_true_eq, Prod.Lex.toLex_lt_toLex, Ordering.then_eq_lt]
  change compare a.1 b.1 = .lt ∨ compare a.1 b.1 = .eq ∧ compare a.2 b.2 = .lt ↔ _
  rw [compare_lt_iff_lt, compare_lt_iff_lt, compare_eq_iff_eq]

theorem minBy_eq {α : Type} (smaller : α → α → Bool) (list : List α) :
    minBy smaller list = RingSearch.leastOf smaller list := by
  cases list with
  | nil => rfl
  | cons a rest =>
    have hfold : ∀ best : α, some (rest.foldl (fun best b => if smaller b best then b else best) best) =
        rest.foldl (RingSearch.keep smaller) (some best) := by
      induction rest with
      | nil => exact fun _ => rfl
      | cons b rest ih =>
        intro best
        have hkeep : RingSearch.keep smaller (some best) b =
            some (if smaller b best then b else best) := by
          rw [RingSearch.keep, Option.all_some]
          split <;> rfl
        rw [List.foldl_cons, List.foldl_cons, ih, hkeep]
    exact hfold a

theorem nearestPoint_eq_some (c : DemandPlace ℝ) {k : ℕ} :
    nearestPoint points c = some k ↔ FirstNearest points c k := by
  set keyed := (List.range points.length).map fun k => (distKm (pointAt points k) c, k)
  set smaller := fun a b : ℝ × ℕ => decide (((totalCmp a.1 b.1).then (compare a.2 b.2)) = .lt)
  have hmem : ∀ d j, (d, j) ∈ keyed ↔ d = distKm (pointAt points j) c ∧ j < points.length := by
    intro d j
    rw [List.mem_map]
    constructor
    · rintro ⟨j', hj', heq⟩
      obtain ⟨rfl, rfl⟩ := Prod.mk.inj heq
      exact ⟨rfl, List.mem_range.mp hj'⟩
    · rintro ⟨rfl, hj⟩
      exact ⟨j, List.mem_range.mpr hj, rfl⟩
  have hsmaller : ∀ a b : ℝ × ℕ, smaller a b = true ↔ toLex a < toLex b := lexLess_iff
  have hleast := RingSearch.least_leastOf hsmaller keyed
  rw [← minBy_eq] at hleast
  have hnearest : nearestPoint points c = (minBy smaller keyed).map (·.2) := rfl
  rw [hnearest, Option.map_eq_some_iff]
  constructor
  · rintro ⟨⟨d, k'⟩, hheld, rfl⟩
    obtain ⟨rfl, hk⟩ := (hmem d k').mp (hleast.found _ hheld)
    refine ⟨hk, fun j hj => ?_⟩
    obtain ⟨held, hsame, hle⟩ := hleast.least _ ((hmem _ j).mpr ⟨rfl, hj⟩)
    obtain rfl := Option.some.inj (hheld.symm.trans hsame)
    rw [Prod.Lex.toLex_le_toLex] at hle
    rcases hle with hlt | ⟨heq, hkj⟩
    · exact ⟨hlt.le, fun _ => hlt⟩
    · exact ⟨heq.le, fun hj => absurd hkj (not_le.mpr hj)⟩
  · rintro ⟨hk, hnear⟩
    obtain ⟨⟨d, k'⟩, hheld, hle⟩ := hleast.least _ ((hmem _ k).mpr ⟨rfl, hk⟩)
    obtain ⟨rfl, hk'⟩ := (hmem d k').mp (hleast.found _ hheld)
    obtain ⟨hd, hfirst⟩ := hnear k' hk'
    rw [Prod.Lex.toLex_le_toLex] at hle
    refine ⟨_, hheld, ?_⟩
    rcases hle with hlt | ⟨heq, hkk⟩
    · exact absurd hd (not_le.mpr hlt)
    · rcases Nat.lt_or_eq_of_le hkk with hlt | rfl
      · exact absurd heq.symm (hfirst hlt).ne
      · rfl

theorem exists_firstNearest (hpoints : points ≠ []) (c : DemandPlace ℝ) : ∃ k, FirstNearest points c k := by
  cases hnearest : nearestPoint points c with
  | some k => exact ⟨k, (nearestPoint_eq_some c).mp hnearest⟩
  | none =>
    have hnil := Osm.minBy_eq_none.mp (Option.map_eq_none_iff.mp hnearest)
    rw [List.map_eq_nil_iff, List.range_eq_nil, List.length_eq_zero_iff] at hnil
    exact absurd hnil hpoints

theorem FirstNearest.unique {c : DemandPlace ℝ} {k j : ℕ} (hk : FirstNearest points c k)
    (hj : FirstNearest points c j) : k = j := by
  rw [← nearestPoint_eq_some] at hk hj
  exact Option.some.inj (hk.symm.trans hj)

/-! ### Shares -/

theorem sharePlace_apply (hradius : 1 ≤ radius) (out : ℕ → ℝ) (c : DemandPlace ℝ) (k : ℕ) :
    sharePlace points radius out c k = out k + shareAmong points (foundNear points radius c) c k := by
  rw [shareAmong]
  split
  case isTrue hempty =>
    rw [sharePlace, (pointsNear_eq_nil hradius c).mpr hempty]
    dsimp only
    cases hnearest : nearestPoint points c with
    | none =>
      have hnone : ¬ FirstNearest points c k := by
        rw [← nearestPoint_eq_some, hnearest]
        exact Option.some_ne_none k ∘ Eq.symm
      rw [if_neg hnone, add_zero]
    | some j =>
      have hj := (nearestPoint_eq_some c).mp hnearest
      dsimp only
      by_cases hk : k = j
      · subst hk
        rw [if_pos hj, Function.update_self]
      · rw [if_neg fun h => hk (h.unique hj), Function.update_of_ne hk, add_zero]
  case isFalse hfound =>
    have hnear : pointsNear points radius c ≠ [] := fun h => hfound ((pointsNear_eq_nil hradius c).mp h)
    have hshare : sharePlace points radius out c = (pointsNear points radius c).foldl (fun out kw =>
        Function.update out kw.1 (out kw.1 + c.demandWeight * kw.2 /
          ((pointsNear points radius c).map (·.2)).sum)) out := by
      rw [sharePlace]
      split
      case h_1 hnil => exact absurd hnil hnear
      case h_2 =>
        rw [sum_real]
    rw [hshare, Buckets.foldl_update_apply, sum_pointsNear hradius, sum_pointsNear hradius]
    dsimp only
    rw [Finset.sum_ite_eq']

theorem demandPartition_eq (hradius : 1 ≤ radius) (cities : List (DemandPlace ℝ)) :
    demandPartition points cities radius = (List.range points.length).map fun k =>
      (cities.map fun c => shareAmong points (foundNear points radius c) c k).sum := by
  rw [demandPartition]
  congr 1
  funext k
  have hfold : ∀ out : ℕ → ℝ, cities.foldl (sharePlace points radius) out k =
      out k + (cities.map fun c => shareAmong points (foundNear points radius c) c k).sum := by
    induction cities with
    | nil => exact fun out => (add_zero _).symm
    | cons c rest ih =>
      intro out
      rw [List.foldl_cons, ih, sharePlace_apply hradius, List.map_cons, List.sum_cons, add_assoc]
  rw [hfold, zero_add]

theorem sum_shareAmong (hpoints : points ≠ []) {c : DemandPlace ℝ} {near : Finset ℕ}
    (hnear : near ⊆ Finset.range points.length) :
    ∑ k ∈ Finset.range points.length, shareAmong points near c k = c.demandWeight := by
  unfold shareAmong
  by_cases hempty : near = ∅
  · obtain ⟨j, hj⟩ := exists_firstNearest hpoints c
    simp only [if_pos hempty]
    rw [Finset.sum_eq_single_of_mem j (Finset.mem_range.mpr hj.1), if_pos hj]
    intro k _ hk
    exact if_neg fun h => hk (h.unique hj)
  · simp only [if_neg hempty]
    rw [← Finset.sum_filter, Finset.filter_mem_eq_inter, Finset.inter_eq_right.mpr hnear]
    set total := ∑ j ∈ near, 1 / (1 + distKm (pointAt points j) c)
    have htotal : 0 < total := by
      apply Finset.sum_pos
      · intro j _
        exact one_div_pos.mpr (one_add_distKm_pos _ c)
      · exact Finset.nonempty_iff_ne_empty.mpr hempty
    rw [← Finset.sum_div, ← Finset.mul_sum, mul_div_assoc, div_self htotal.ne', mul_one]

theorem sum_demandPartition (hradius : 1 ≤ radius) (hpoints : points ≠ [])
    (cities : List (DemandPlace ℝ)) :
    (demandPartition points cities radius).sum = (cities.map fun c => c.demandWeight).sum := by
  rw [demandPartition_eq hradius, ← List.sum_toFinset _ List.nodup_range, List.toFinset_range]
  induction cities with
  | nil => exact Finset.sum_const_zero
  | cons c rest ih =>
    have hrange : foundNear points radius c ⊆ Finset.range points.length :=
      (Finset.filter_subset _ _).trans (Finset.filter_subset _ _)
    simp only [List.map_cons, List.sum_cons]
    rw [Finset.sum_add_distrib, ih, sum_shareAmong hpoints hrange]

/-! ### Demand around a point -/

/-- What one place gives a point. -/
noncomputable def lent (p : ℝ × ℝ) (c : DemandPlace ℝ) : ℝ := c.demandWeight / (1 + distKm p c)

/-- A place that the window around a point finds. -/
def Found (radius : ℝ) (p : ℝ × ℝ) (c : DemandPlace ℝ) : Prop :=
  distKm p c ≤ radius ∧ Neighbouring (cellOf radius p.1 p.2) (cellOf radius c.lon c.lat)

noncomputable instance (p : ℝ × ℝ) (c : DemandPlace ℝ) : Decidable (Found radius p c) :=
  inferInstanceAs (Decidable (_ ∧ _))

theorem demandIdw_eq (cities : List (DemandPlace ℝ)) :
    demandIdw points cities radius = points.map fun p =>
      (cities.map fun c => if Found radius p c then lent p c else 0).sum := by
  rw [demandIdw]
  dsimp only
  congr 1
  funext p
  set key := fun c : DemandPlace ℝ => cellOf radius c.lon c.lat
  set given := fun c => if distKm p c ≤ radius then some (lent p c) else none
  have hnear : ((cellsAround (cellOf radius p.1 p.2)).flatMap fun cell => cities.filterMap fun c =>
      let d := haversineKm p.1 p.2 c.lon c.lat
      if demandKey (radius / lit 111) c.lon c.lat = cell && le d radius then
        some (c.demandWeight / (1 + d)) else none) =
      (cellsAround (cellOf radius p.1 p.2)).flatMap fun cell =>
        cities.filterMap fun c => if key c = cell then given c else none := by
    congr 1
    funext cell
    congr 1
    funext c
    rw [haversineKm_comm]
    change (if (decide (key c = cell) && le (distKm p c) radius) = true then some (lent p c) else none) = _
    simp only [Bool.and_eq_true, decide_eq_true_eq, real_le_iff, ite_and]
    rfl
  have hperm := Buckets.flatMap_filterMap_perm (nodup_cellsAround (cellOf radius p.1 p.2)) key given cities
  have hfound := hperm.trans (List.Perm.of_eq (List.filterMap_congr
    (g := fun c => if Found radius p c then some (lent p c) else none) fun c _ => by
    have hiff : key c ∈ cellsAround (cellOf radius p.1 p.2) ↔
        Neighbouring (cellOf radius p.1 p.2) (cellOf radius c.lon c.lat) := by
      rw [mem_cellsAround]
      exact ⟨Neighbouring.symm, Neighbouring.symm⟩
    by_cases hcell : Neighbouring (cellOf radius p.1 p.2) (cellOf radius c.lon c.lat)
    · simp only [if_pos (hiff.mpr hcell), Found, hcell, and_true]
      rfl
    · rw [if_neg fun h => hcell (hiff.mp h), if_neg fun h => hcell h.2]))
  rw [sum_real]
  exact (congrArg List.sum hnear).trans (hfound.sum_eq.trans (Buckets.sum_filterMap _ _ cities))

/-! ### Agreement -/

theorem foundNear_eq {cities : List (DemandPlace ℝ)} (h : WithinCells points radius cities)
    {c : DemandPlace ℝ} (hc : c ∈ cities) (hweight : c.demandWeight ≠ 0) :
    foundNear points radius c = inRange points radius c := by
  apply Finset.filter_true_of_mem
  intro k hk
  obtain ⟨hk, hnear⟩ := Finset.mem_filter.mp hk
  have hlt := Finset.mem_range.mp hk
  have hpoint : pointAt points k ∈ points := by
    rw [pointAt, List.getElem?_eq_getElem hlt, Option.getD_some]
    exact List.getElem_mem hlt
  exact h.cells _ hpoint c hc hweight hnear

theorem shareAmong_of_weight_eq_zero {near : Finset ℕ} {c : DemandPlace ℝ}
    (hweight : c.demandWeight = 0) (k : ℕ) :
    shareAmong points near c k = 0 := by
  rw [shareAmong, hweight, zero_mul, zero_div, ite_self, ite_self, ite_self]

theorem WithinCells.lookupsScan (hradius : 1 ≤ radius) {cities : List (DemandPlace ℝ)}
    (h : WithinCells points radius cities) : LookupsScan points radius cities := by
  constructor
  case partition =>
    rw [demandPartition_eq hradius, scanPartition]
    congr 1
    funext k
    congr 1
    apply List.map_congr_left
    intro c hc
    by_cases hweight : c.demandWeight = 0
    · rw [shareAmong_of_weight_eq_zero hweight, shareAmong_of_weight_eq_zero hweight]
    · rw [foundNear_eq h hc hweight]
  case conserved =>
    by_cases hpoints : points = []
    · have hnone : (demandPartition points cities radius).sum = 0 := by
        subst hpoints
        rfl
      rw [hnone]
      apply Eq.symm
      apply List.sum_eq_zero
      intro w hw
      obtain ⟨c, hc, rfl⟩ := List.mem_map.mp hw
      exact h.supplied hpoints c hc
    · exact sum_demandPartition hradius hpoints cities
  case idw =>
    rw [demandIdw_eq, scanIdw]
    apply List.map_congr_left
    intro p hp
    congr 1
    apply List.map_congr_left
    intro c hc
    change _ = if distKm p c ≤ radius then lent p c else 0
    by_cases hnear : distKm p c ≤ radius
    · by_cases hcell : Neighbouring (cellOf radius p.1 p.2) (cellOf radius c.lon c.lat)
      · rw [if_pos hnear, if_pos ⟨hnear, hcell⟩]
      · have hweight : c.demandWeight = 0 := by
          by_contra hne
          exact hcell (h.cells p hp c hc hne hnear)
        rw [if_pos hnear, if_neg fun h => hcell h.2, lent, hweight, zero_div]
    · rw [if_neg hnear, if_neg fun h => hnear h.1]

theorem eq_zero_of_sum_eq_zero {α : Type} {f : α → ℝ} {list : List α} (hf : ∀ a ∈ list, 0 ≤ f a)
    (hsum : (list.map f).sum = 0) {a : α} (ha : a ∈ list) : f a = 0 := by
  have hle := List.single_le_sum (l := list.map f)
    (fun x hx => by
      obtain ⟨b, hb, rfl⟩ := List.mem_map.mp hx
      exact hf b hb) (f a) (List.mem_map_of_mem ha)
  rw [hsum] at hle
  exact le_antisymm hle (hf a ha)

theorem LookupsScan.withinCells {cities : List (DemandPlace ℝ)}
    (hweights : ∀ c ∈ cities, 0 ≤ c.demandWeight) (h : LookupsScan points radius cities) :
    WithinCells points radius cities := by
  constructor
  case supplied =>
    intro hpoints c hc
    have hsum := h.conserved
    subst hpoints
    exact eq_zero_of_sum_eq_zero hweights hsum.symm hc
  case cells =>
    intro p hp c hc hweight hnear
    have hidw := h.idw
    rw [demandIdw_eq, scanIdw, List.map_inj_left] at hidw
    have hsame : (cities.map fun c => if Found radius p c then lent p c else 0).sum =
        (cities.map fun c => if distKm p c ≤ radius then lent p c else 0).sum := hidw p hp
    by_contra hcell
    have hlent : ∀ c ∈ cities, 0 ≤ lent p c := fun c hc =>
      div_nonneg (hweights c hc) (one_add_distKm_pos p c).le
    have hsplit : (cities.map fun c => if distKm p c ≤ radius then lent p c else 0).sum =
        (cities.map fun c => if Found radius p c then lent p c else 0).sum +
          (cities.map fun c =>
            if distKm p c ≤ radius ∧ ¬ Found radius p c then lent p c else 0).sum := by
      rw [← List.sum_map_add]
      congr 1
      apply List.map_congr_left
      intro c _
      by_cases hfound : Found radius p c
      · rw [if_pos hfound, if_pos hfound.1, if_neg fun h => h.2 hfound, add_zero]
      · simp only [hfound, if_false, not_false_eq_true, and_true, zero_add]
    have hmissed : (cities.map fun c =>
        if distKm p c ≤ radius ∧ ¬ Found radius p c then lent p c else 0).sum = 0 :=
      left_eq_add.mp (hsame.trans hsplit)
    have hnonneg : ∀ c ∈ cities, 0 ≤
        if distKm p c ≤ radius ∧ ¬ Found radius p c then lent p c else 0 := by
      intro c hc
      split
      · exact hlent c hc
      · exact le_refl 0
    have hzero := eq_zero_of_sum_eq_zero hnonneg hmissed hc
    rw [if_pos ⟨hnear, fun h => hcell h.2⟩, lent] at hzero
    rcases div_eq_zero_iff.mp hzero with hweight' | hdist
    · exact hweight hweight'
    · exact (one_add_distKm_pos p c).ne' hdist

end Window

/-- The lookups give what scans over all pairs give, and hand out the demand of the places, exactly where no
place with demand and point within the radius of each other lie in cells that are not neighbours. -/
theorem demandLookups_scan_iff (points : List (ℝ × ℝ)) (cities : List (DemandPlace ℝ)) {radius : ℝ}
    (hradius : 1 ≤ radius) (hweights : ∀ c ∈ cities, 0 ≤ c.demandWeight) :
    LookupsScan points radius cities ↔ WithinCells points radius cities :=
  ⟨fun h => h.withinCells hweights, fun h => h.lookupsScan hradius⟩

/-! ### A place and a point on one meridian -/

theorem haversineKm_meridian (lon : ℝ) {lat1 lat2 : ℝ} (hle : lat1 ≤ lat2) (hnear : lat2 - lat1 ≤ 180) :
    haversineKm lon lat1 lon lat2 = 6371 * ((lat2 - lat1) * (Real.pi / 180)) := by
  set dp := (lat2 - lat1) * (Real.pi / 180) with hdp
  have hdp0 : 0 ≤ dp := mul_nonneg (sub_nonneg.mpr hle) (by positivity)
  have hdpPi : dp ≤ Real.pi := by
    calc dp ≤ 180 * (Real.pi / 180) := mul_le_mul_of_nonneg_right hnear (by positivity)
      _ = Real.pi := by ring
  have hsin : 0 ≤ Real.sin (dp / 2) :=
    Real.sin_nonneg_of_nonneg_of_le_pi (by positivity) (by linarith)
  have hsub : (toRadians lat2 - toRadians lat1) / 2 = dp / 2 := by
    rw [toRadians_real, toRadians_real, hdp]
    ring
  rw [haversineKm_eq, hsub, sub_self, toRadians_real 0, zero_mul, zero_div, Real.sin_zero, mul_zero, mul_zero, add_zero,
    Real.sqrt_mul_self hsin, min_eq_left (Real.sin_le_one _),
    Real.arcsin_sin (by linarith [Real.pi_pos]) (by linarith)]
  ring

theorem asI64_floor {x : ℝ} (hx : 0 ≤ x) (hbound : x < 2 ^ 62) :
    Drafting.asI64 (Binary64.floor x) = ⌊x⌋ := by
  have hfloor : 0 ≤ ⌊x⌋ := Int.floor_nonneg.mpr hx
  have hcast : ¬ ((⌊x⌋ : ℤ) : ℝ) < 0 := not_lt.mpr (Int.cast_nonneg hfloor)
  have hlt : ⌊x⌋ < 2 ^ 62 := by
    rw [Int.floor_lt]
    exact_mod_cast hbound
  change Max.max (-2 ^ 63) (Min.min (2 ^ 63 - 1)
    (if ((⌊x⌋ : ℤ) : ℝ) < 0 then _ else ⌊((⌊x⌋ : ℤ) : ℝ)⌋)) = _
  rw [if_neg hcast, Int.floor_intCast]
  omega

theorem cellOf_fst (radius lon lat : ℝ) (hcos : 1 / 20 ≤ Real.cos (lat * (Real.pi / 180)))
    (hx : 0 ≤ lon * Real.cos (lat * (Real.pi / 180)) * (111 / radius))
    (hbound : lon * Real.cos (lat * (Real.pi / 180)) * (111 / radius) < 2 ^ 62) :
    (cellOf radius lon lat).1 = ⌊lon * Real.cos (lat * (Real.pi / 180)) * (111 / radius)⌋ := by
  have hdegrees : (lit 180 : ℝ) = 180 := Rat.cast_ofNat 180
  have hper : (lit 111 : ℝ) = 111 := Rat.cast_ofNat 111
  have hmin : (lit (5 / 100) : ℝ) ≤ Real.cos (lat * (Real.pi / 180)) := by
    change ((5 / 100 : ℚ) : ℝ) ≤ _
    have hcast : ((5 / 100 : ℚ) : ℝ) = 1 / 20 := by norm_num
    rw [hcast]
    exact hcos
  have hpos : 0 < Real.cos (lat * (Real.pi / 180)) := lt_of_lt_of_le (by norm_num) hcos
  have hdivide : lon / (radius / 111 / Real.cos (lat * (Real.pi / 180))) =
      lon * Real.cos (lat * (Real.pi / 180)) * (111 / radius) := by
    rw [div_div_eq_mul_div, div_div_eq_mul_div, mul_div_assoc]
  change Drafting.asI64 (Binary64.floor (lon / (radius / lit 111 /
    Binary64.max (Binary64.abs (Real.cos (lat * (Real.pi / lit 180)))) (lit (5 / 100))))) = _
  have habs : Binary64.abs (Real.cos (lat * (Real.pi / 180))) = Real.cos (lat * (Real.pi / 180)) :=
    (exact_abs DecimalText.text _).trans (abs_of_pos hpos)
  rw [hdegrees, hper, habs, max_real, max_eq_left hmin, hdivide]
  exact asI64_floor hx hbound

/-- The cell of a position on the first meridian. -/
theorem cellOf_meridian {lat : ℝ} {row : ℤ} (hlat : 0 ≤ lat) (hpole : lat ≤ 90) (hlow : row ≤ lat * (111 / 25))
    (hhigh : lat * (111 / 25) < row + 1) : cellOf 25 0 lat = (0, row) := by
  have hper : (lit 111 : ℝ) = 111 := Rat.cast_ofNat 111
  have hrow : ⌊lat * (111 / 25)⌋ = row := Int.floor_eq_iff.mpr ⟨hlow, hhigh⟩
  change (Drafting.asI64 (Binary64.floor (0 / _)), Drafting.asI64 (Binary64.floor (lat / (25 / lit 111)))) = _
  rw [zero_div, hper, div_div_eq_mul_div, mul_div_assoc, asI64_floor le_rfl (by norm_num), Int.floor_zero,
    asI64_floor (by positivity) (by linarith), hrow]

end

section Sample

@[reducible] local instance lookupText : DecimalText ℝ := ⟨fun _ => ""⟩

/-- A place at 170 degrees east and 60 degrees north. -/
def farTown : DemandPlace ℝ := ⟨170, 60, 1⟩

theorem distKm_farTown : distKm (170, 60 + 1 / 5) farTown ≤ 25 := by
  have hpi := Real.pi_lt_d4
  have hle : (60 : ℝ) ≤ 60 + 1 / 5 := by norm_num
  have hnear : (60 + 1 / 5 : ℝ) - 60 ≤ 180 := by norm_num
  have hdist : distKm (170, 60 + 1 / 5) farTown = 6371 * ((60 + 1 / 5 - 60) * (Real.pi / 180)) :=
    haversineKm_meridian 170 hle hnear
  rw [hdist]
  linarith

theorem cos_sixty : Real.cos (60 * (Real.pi / 180)) = 1 / 2 := by
  have hthird : (60 : ℝ) * (Real.pi / 180) = Real.pi / 3 := by ring
  rw [hthird, Real.cos_pi_div_three]

theorem cellOf_farTown : (cellOf 25 170 60).1 = 377 := by
  have hcolumn := cellOf_fst 25 170 60 (by rw [cos_sixty]; norm_num)
    (by rw [cos_sixty]; norm_num) (by rw [cos_sixty]; norm_num)
  rw [hcolumn, cos_sixty, Int.floor_eq_iff]
  norm_num

/-- The cells a fifth of a degree further north are wide enough to begin two columns before. -/
theorem cellOf_north : (cellOf 25 170 (60 + 1 / 5)).1 ≤ 375 := by
  have hpi := Real.pi_gt_d4
  have hpi' := Real.pi_lt_d4
  set x := (1 / 5 : ℝ) * (Real.pi / 180) with hx
  have hcos : Real.cos ((60 + 1 / 5) * (Real.pi / 180)) =
      1 / 2 * Real.cos x - Real.sqrt 3 / 2 * Real.sin x := by
    have hthird : (60 : ℝ) * (Real.pi / 180) = Real.pi / 3 := by ring
    rw [add_mul, ← hx, Real.cos_add, hthird, Real.cos_pi_div_three, Real.sin_pi_div_three]
  have hsin : x - x ^ 3 / 6 < Real.sin x := Real.sin_gt_sub_cube (by positivity)
  have hx0 : 348 / 100000 < x := by linarith
  have hx1 : x < 35 / 10000 := by linarith
  have hcube : x ^ 3 / 6 < 1 / 10 ^ 7 := by
    have hpow : x ^ 3 < (35 / 10000 : ℝ) ^ 3 := pow_lt_pow_left₀ hx1 (by linarith) (by norm_num)
    linarith [hpow, (by norm_num : ((35 / 10000 : ℝ)) ^ 3 / 6 < 1 / 10 ^ 7)]
  have hsqrt : 17 / 10 < Real.sqrt 3 := Real.lt_sqrt_of_sq_lt (by norm_num)
  have hsqrt' : Real.sqrt 3 < 2 := by
    rw [Real.sqrt_lt' (by norm_num)]
    norm_num
  have hone : Real.cos x ≤ 1 := Real.cos_le_one x
  have hsmall : Real.sin x ≤ x := Real.sin_le (by linarith)
  have hlow : 9 / 10 ≤ Real.cos x := by
    have := Real.one_sub_sq_div_two_le_cos (x := x)
    nlinarith
  have hproduct : 17 / 10 * Real.sin x ≤ Real.sqrt 3 * Real.sin x :=
    mul_le_mul_of_nonneg_right hsqrt.le (by linarith)
  have hproduct' : Real.sqrt 3 * Real.sin x ≤ 2 * Real.sin x :=
    mul_le_mul_of_nonneg_right hsqrt'.le (by linarith)
  set y := Real.cos ((60 + 1 / 5) * (Real.pi / 180)) with hy
  have hupper : y < 4975 / 10000 := by linarith
  have hlower : 4 / 10 < y := by linarith
  have hcolumn := cellOf_fst 25 170 (60 + 1 / 5) (by linarith) (by linarith)
    (by linarith)
  have hfloor : ⌊170 * y * (111 / 25)⌋ < 376 := by
    rw [Int.floor_lt]
    push_cast
    linarith
  rw [hcolumn, ← hy]
  omega

/-- The point 22 km north of the place is not found. -/
theorem lookupsScan_fails_farTown : ¬ LookupsScan [(170, 60 + 1 / 5)] 25 [farTown] := by
  intro h
  have hcells := h.withinCells (by simp [farTown])
  have hnear := (hcells.cells _ List.mem_cons_self _ List.mem_cons_self one_ne_zero distKm_farTown).1
  have hplace : (cellOf 25 farTown.lon farTown.lat).1 = 377 := cellOf_farTown
  have hpoint : (cellOf 25 ((170, 60 + 1 / 5) : ℝ × ℝ).1 ((170, 60 + 1 / 5) : ℝ × ℝ).2).1 ≤ 375 :=
    cellOf_north
  rw [hplace, abs_le] at hnear
  omega

/-- A place in the cell south of a point, and one far to the north of it. -/
theorem demandLookups_scan_meridian :
    (cellOf 25 0 (3 / 10)).2 ≠ (cellOf 25 0 (2 / 10)).2 ∧ distKm (0, 3 / 10) ⟨0, 2 / 10, 1⟩ ≤ 25 ∧
      LookupsScan [(0, 3 / 10)] 25 [⟨0, 2 / 10, 1⟩, ⟨0, 2, 3⟩] := by
  have hpi := Real.pi_gt_d4
  have hpi' := Real.pi_lt_d4
  have hnear : distKm (0, 3 / 10) ⟨0, 2 / 10, 1⟩ = 6371 * ((3 / 10 - 2 / 10) * (Real.pi / 180)) :=
    haversineKm_meridian 0 (by norm_num) (by norm_num)
  have hfar : distKm (0, 3 / 10) ⟨0, 2, 3⟩ = 6371 * ((2 - 3 / 10) * (Real.pi / 180)) :=
    (haversineKm_comm 0 2 0 (3 / 10)).trans (haversineKm_meridian 0 (by norm_num) (by norm_num))
  have hpoint : cellOf 25 0 (3 / 10) = (0, 1) := cellOf_meridian (by norm_num) (by norm_num) (by norm_num) (by norm_num)
  have hplace : cellOf 25 0 (2 / 10) = (0, 0) := cellOf_meridian (by norm_num) (by norm_num) (by norm_num) (by norm_num)
  refine ⟨?_, ?_, ?_⟩
  · rw [hpoint, hplace]
    exact one_ne_zero
  · rw [hnear]
    linarith
  apply (demandLookups_scan_iff [(0, 3 / 10)] [⟨0, 2 / 10, 1⟩, ⟨0, 2, 3⟩] (by norm_num) (by simp)).mpr
  constructor
  case supplied =>
    intro h
    exact nomatch h
  case cells =>
    intro p hp c hc _ hdist
    rw [List.mem_singleton] at hp
    rw [List.mem_pair] at hc
    subst hp
    obtain rfl | rfl := hc
    · rw [hpoint, hplace]
      decide
    · -- the place out of range
      rw [hfar] at hdist
      linarith

end Sample

end Tellegen.Synth
