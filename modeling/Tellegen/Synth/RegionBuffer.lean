import Tellegen.Synth.BlueNoise
import Tellegen.Synth.Landmass

/-!
The buffer around a region. A ring need not repeat its first vertex: the ray cast closes it, while the buffer
reads the edges between consecutive vertices only.
-/

open Binary64 hiding max min

namespace Tellegen.Synth.RegionBuffer

open Tellegen.Osm (Drafting toRadians)
open Landmass (BBox ringBbox)

section Model

variable {F : Type} [Planning F]

/-! ### Rings -/

structure RingBands (F : Type) where
  south : F
  step : F
  bands : List (List ℕ)

def bandAt (south step : F) (count : ℕ) (lat : F) : ℕ :=
  let b := Binary64.floor ((lat - south) / step)
  if le b 0 then 0 else Nat.min (Planning.asUsize b) (count - 1)

/-- The vertex before vertex `i`, the last one for the first. -/
def before (ring : List (F × F)) (i : ℕ) : F × F := ring.getD (if i = 0 then ring.length - 1 else i - 1) (0, 0)

def RingBands.new (ring : List (F × F)) (bb : BBox F) : RingBands F :=
  let count := clampCells (ring.length / 4) 4096
  let step := Binary64.max ((bb.north - bb.south) / Binary64.ofNat count) (lit (1 / 1000000000000))
  { south := bb.south
    step := step
    bands := (List.range count).map fun b => (List.range ring.length).filter fun i =>
      let yi := (ring.getD i (0, 0)).2
      let yj := (before ring i).2
      !eq yi yj && bandAt bb.south step count (Binary64.min yi yj) ≤ b &&
        b ≤ bandAt bb.south step count (Binary64.max yi yj) }

/-- Counts the crossings of the edges in the band of a point. -/
def ringContains (ring : List (F × F)) (lon lat : F) : Bool :=
  let bb := ringBbox ring
  if ring.length < 3 || lt lon bb.west || lt bb.east lon || lt lat bb.south || lt bb.north lat then false
  else
    let bands := RingBands.new ring bb
    (bands.bands.getD (bandAt bands.south bands.step bands.bands.length lat) []).foldl (fun inside i =>
      let p := ring.getD i (0, 0)
      let q := before ring i
      if (lt lat p.2 != lt lat q.2) && lt lon ((q.1 - p.1) * (lat - p.2) / (q.2 - p.2) + p.1) then !inside
      else inside) false

/-! ### Regions -/

structure Polygon (F : Type) where
  outer : List (F × F)
  holes : List (List (F × F))
  long : 3 ≤ outer.length

def Polygon.contains (polygon : Polygon F) (lon lat : F) : Bool :=
  ringContains polygon.outer lon lat && !polygon.holes.any fun hole => ringContains hole lon lat

def contains (polygons : List (Polygon F)) (lon lat : F) : Bool := polygons.any fun p => p.contains lon lat

/-- The nearest point of a segment, and its distance in km in the plane of the point's latitude. -/
def nearestOnSegment (plon plat : F) (a b : F × F) : F × (F × F) :=
  let k := Binary64.max (Binary64.abs (Libm.cos (toRadians plat))) (lit (1 / 1000000))
  let px := plon * k
  let ax := a.1 * k
  let dx := b.1 * k - ax
  let dy := b.2 - a.2
  let t := if eq dx 0 && eq dy 0 then 0 else clamp (((px - ax) * dx + (plat - a.2) * dy) / (dx * dx + dy * dy)) 0 1
  let cx := ax + t * dx
  let cy := a.2 + t * dy
  (Libm.sqrt ((px - cx) * (px - cx) + (plat - cy) * (plat - cy)) * lit 111, (cx / k, cy))

def pointSegmentKm (plon plat : F) (a b : F × F) : F := (nearestOnSegment plon plat a b).1

def windows (ring : List (F × F)) : List ((F × F) × (F × F)) := ring.zip ring.tail

def outside (bb : BBox F) (lon lat marginLon marginLat : F) : Bool :=
  lt lon (bb.west - marginLon) || lt (bb.east + marginLon) lon || lt lat (bb.south - marginLat) ||
    lt (bb.north + marginLat) lat

def cosine (lat : F) : F := Binary64.max (Binary64.abs (Libm.cos (toRadians lat))) (lit (5 / 100))

def containsOrNear (polygons : List (Polygon F)) (lon lat bufferKm : F) : Bool :=
  if contains polygons lon lat then true
  else if le bufferKm 0 then false
  else polygons.any fun poly =>
    let margin := bufferKm / lit 111 * lit (3 / 2)
    !outside (ringBbox poly.outer) lon lat (margin / cosine lat) margin &&
      (windows poly.outer).any fun w => le (pointSegmentKm lon lat w.1 w.2) bufferKm

/-- The nearest point of the outer rings, stepped inward. -/
def insideNear (polygons : List (Polygon F)) (lon lat maxKm : F) : Option (F × F) :=
  let marginLat := maxKm / lit 111
  let near := (polygons.filter fun poly =>
    !outside (ringBbox poly.outer) lon lat (marginLat / cosine lat) marginLat).flatMap fun poly => windows poly.outer
  let best := near.foldl (fun (best : Option (F × (F × F) × (F × F) × (F × F))) w =>
    let (d, q) := nearestOnSegment lon lat w.1 w.2
    if le d maxKm && best.all (fun b => lt d b.1) then some (d, q, w) else best) none
  best.bind fun (_, q, a, b) =>
    let k := cosine q.2
    let dx := (b.1 - a.1) * k
    let dy := b.2 - a.2
    let len := Binary64.max (Libm.sqrt (dx * dx + dy * dy)) (lit (1 / 1000000000000))
    let candidates := [lit (1 / 10000), lit (5 / 10000), lit (2 / 1000), lit (1 / 100)].flatMap fun step =>
      [1, -1].map fun side => (q.1 + side * (-dy / len / k) * step, q.2 + side * (dx / len) * step)
    candidates.find? fun p => contains polygons p.1 p.2

theorem contains_insideNear {polygons : List (Polygon F)} {lon lat maxKm : F} {p : F × F}
    (h : insideNear polygons lon lat maxKm = some p) : contains polygons p.1 p.2 := by
  obtain ⟨⟨_, q, a, b⟩, _, hfound⟩ := Option.bind_eq_some_iff.mp h
  exact List.find?_some (p := fun p : F × F => contains polygons p.1 p.2) hfound

end Model

/-! ### The reject -/

/-- A point between two points is no lower than both. -/
theorem le_along {low a b t : ℝ} (ha : low ≤ a) (hb : low ≤ b) (ht0 : 0 ≤ t) (ht1 : t ≤ 1) :
    low ≤ a + t * (b - a) := by
  have hfirst := mul_nonneg (sub_nonneg.mpr ht1) (sub_nonneg.mpr ha)
  have hsecond := mul_nonneg ht0 (sub_nonneg.mpr hb)
  linarith

theorem along_le {high a b t : ℝ} (ha : a ≤ high) (hb : b ≤ high) (ht0 : 0 ≤ t) (ht1 : t ≤ 1) :
    a + t * (b - a) ≤ high := by
  have hfirst := mul_nonneg (sub_nonneg.mpr ht1) (sub_nonneg.mpr ha)
  have hsecond := mul_nonneg ht0 (sub_nonneg.mpr hb)
  linarith

section

variable [DecimalText ℝ]

theorem cos_bound {lat : ℝ} (hlat : -87 < lat ∧ lat < 87) : 1 / 20 ≤ Real.cos (toRadians lat) := by
  have hlow := Real.pi_gt_d4
  have hhigh := Real.pi_lt_d4
  have hsin := Real.sin_gt_sub_cube (x := Real.pi / 60) (by positivity)
  have hcos : Real.cos (87 * (Real.pi / 180)) = Real.sin (Real.pi / 60) := by
    rw [← Real.cos_pi_div_two_sub]
    ring_nf
  have habs : |toRadians lat| ≤ 87 * (Real.pi / 180) := by
    rw [toRadians_real, abs_mul, abs_of_pos (by positivity : 0 < Real.pi / 180)]
    exact mul_le_mul_of_nonneg_right (abs_le.mpr ⟨hlat.1.le, hlat.2.le⟩) (by positivity)
  have hle := Real.cos_le_cos_of_nonneg_of_le_pi (abs_nonneg _) (by linarith) habs
  rw [Real.cos_abs, hcos] at hle
  nlinarith [pow_le_pow_left₀ (by positivity) (by linarith : Real.pi / 60 ≤ 1 / 19) 3]

theorem cosine_eq {lat : ℝ} (hlat : -87 < lat ∧ lat < 87) : cosine lat = Real.cos (toRadians lat) ∧
    Binary64.max (Binary64.abs (Libm.cos (toRadians lat))) (lit (1 / 1000000)) = Real.cos (toRadians lat) := by
  have hbound := cos_bound hlat
  have habs : Binary64.abs (Libm.cos (toRadians lat)) = Real.cos (toRadians lat) :=
    (exact_abs DecimalText.text _).trans (abs_of_nonneg (le_trans (by norm_num) hbound))
  have hfloor : (lit (5 / 100) : ℝ) = 1 / 20 := by
    change ((5 / 100 : ℚ) : ℝ) = _
    norm_num
  have hleast : (lit (1 / 1000000) : ℝ) ≤ 1 / 20 := by
    change ((1 / 1000000 : ℚ) : ℝ) ≤ _
    norm_num
  rw [cosine, habs, max_real, max_real, hfloor]
  exact ⟨max_eq_left hbound, max_eq_left (hleast.trans hbound)⟩

theorem clamp_unit (x : ℝ) : 0 ≤ clamp x 0 1 ∧ clamp x 0 1 ≤ 1 := by
  rw [clamp]
  split
  · exact ⟨le_rfl, zero_le_one⟩
  · split
    · exact ⟨zero_le_one, le_rfl⟩
    · rw [real_lt_iff, not_lt] at *
      exact ⟨by assumption, by assumption⟩

theorem clamp_mul_le (n : ℝ) {d : ℝ} (hd : 0 ≤ d) :
    clamp (n / d) 0 1 * (clamp (n / d) 0 1 * d) ≤ clamp (n / d) 0 1 * n := by
  rw [clamp]
  split
  case isTrue => rw [zero_mul, zero_mul]
  case isFalse =>
    split
    case isTrue hone =>
      rw [real_lt_iff] at hone
      have hpos : 0 < d := by
        apply hd.lt_of_ne'
        intro h
        rw [h, div_zero] at hone
        exact absurd hone (not_lt.mpr zero_le_one)
      rw [one_lt_div hpos] at hone
      linarith
    case isFalse =>
      by_cases h : d = 0
      · rw [h, div_zero, zero_mul, zero_mul]
      · rw [div_mul_cancel₀ n h]

/-- The distance is that of a point between the ends of the segment, and no farther than the first end. -/
theorem pointSegmentKm_eq {lat : ℝ} (hlat : -87 < lat ∧ lat < 87) (lon : ℝ) (a b : ℝ × ℝ) :
    ∃ t, 0 ≤ t ∧ t ≤ 1 ∧ pointSegmentKm lon lat a b =
      Real.sqrt (((lon - (a.1 + t * (b.1 - a.1))) * Real.cos (toRadians lat)) ^ 2 +
        (lat - (a.2 + t * (b.2 - a.2))) ^ 2) * 111 ∧
      pointSegmentKm lon lat a b ≤
        Real.sqrt (((lon - a.1) * Real.cos (toRadians lat)) ^ 2 + (lat - a.2) ^ 2) * 111 := by
  have hdegree : (lit 111 : ℝ) = 111 := Rat.cast_ofNat 111
  rw [pointSegmentKm, nearestOnSegment, (cosine_eq hlat).2, hdegree]
  dsimp only
  set k := Real.cos (toRadians lat)
  have hform : ∀ t : ℝ, Libm.sqrt ((lon * k - (a.1 * k + t * (b.1 * k - a.1 * k))) *
      (lon * k - (a.1 * k + t * (b.1 * k - a.1 * k))) +
      (lat - (a.2 + t * (b.2 - a.2))) * (lat - (a.2 + t * (b.2 - a.2)))) * 111 =
      Real.sqrt (((lon - (a.1 + t * (b.1 - a.1))) * k) ^ 2 + (lat - (a.2 + t * (b.2 - a.2))) ^ 2) * 111 := by
    intro t
    change Real.sqrt _ * 111 = _
    congr 2
    ring
  split
  · refine ⟨0, le_rfl, zero_le_one, hform 0, ?_⟩
    rw [hform 0, zero_mul, zero_mul, add_zero, add_zero]
  · refine ⟨_, (clamp_unit _).1, (clamp_unit _).2, hform _, ?_⟩
    rw [hform]
    set t : ℝ := clamp _ _ _
    have hclamped : t * (t * ((b.1 * k - a.1 * k) * (b.1 * k - a.1 * k) + (b.2 - a.2) * (b.2 - a.2))) ≤
        t * ((lon * k - a.1 * k) * (b.1 * k - a.1 * k) + (lat - a.2) * (b.2 - a.2)) :=
      clamp_mul_le _ (add_nonneg (mul_self_nonneg _) (mul_self_nonneg _))
    have hpart : 0 ≤ t * (t * ((b.1 * k - a.1 * k) * (b.1 * k - a.1 * k) + (b.2 - a.2) * (b.2 - a.2))) := by
      rw [← mul_assoc]
      exact mul_nonneg (mul_self_nonneg t) (add_nonneg (mul_self_nonneg _) (mul_self_nonneg _))
    apply mul_le_mul_of_nonneg_right (Real.sqrt_le_sqrt _) (by norm_num)
    linarith

theorem pointSegmentKm_le_start {lat : ℝ} (hlat : -87 < lat ∧ lat < 87) (lon : ℝ) (a b : ℝ × ℝ) :
    pointSegmentKm lon lat a b ≤ pointSegmentKm lon lat a a := by
  obtain ⟨t, -, -, hstart, -⟩ := pointSegmentKm_eq hlat lon a a
  obtain ⟨-, -, -, -, hle⟩ := pointSegmentKm_eq hlat lon a b
  rw [hstart, sub_self, sub_self, mul_zero, add_zero, add_zero]
  exact hle

/-- A point within the buffer of an edge is not rejected by the box of its ring. -/
theorem not_outside {lon lat bufferKm : ℝ} (hlat : -87 < lat ∧ lat < 87) (hbuffer : 0 < bufferKm)
    {ring : List (ℝ × ℝ)} {w : (ℝ × ℝ) × (ℝ × ℝ)} (hw : w ∈ windows ring)
    (hnear : pointSegmentKm lon lat w.1 w.2 ≤ bufferKm) :
    outside (ringBbox ring) lon lat (bufferKm / lit 111 * lit (3 / 2) / cosine lat)
      (bufferKm / lit 111 * lit (3 / 2)) = false := by
  have hdegree : (lit 111 : ℝ) = 111 := Rat.cast_ofNat 111
  have hslack : (lit (3 / 2) : ℝ) = 3 / 2 := by
    change ((3 / 2 : ℚ) : ℝ) = _
    norm_num
  obtain ⟨a, b⟩ := w
  obtain ⟨ha, hb⟩ := List.of_mem_zip hw
  obtain ⟨⟨hwest, heast⟩, hsouth, hnorth⟩ := Landmass.mem_ringBbox ha
  obtain ⟨⟨hwest', heast'⟩, hsouth', hnorth'⟩ := Landmass.mem_ringBbox (List.mem_of_mem_tail hb)
  obtain ⟨t, ht0, ht1, heq, -⟩ := pointSegmentKm_eq hlat lon a b
  have hcos := cos_bound hlat
  rw [(cosine_eq hlat).1, hdegree, hslack]
  rw [heq] at hnear
  set k := Real.cos (toRadians lat)
  have hk : 0 < k := lt_of_lt_of_le (by norm_num) hcos
  set x := a.1 + t * (b.1 - a.1) with hx
  set y := a.2 + t * (b.2 - a.2) with hy
  have hroot : Real.sqrt (((lon - x) * k) ^ 2 + (lat - y) ^ 2) ≤ bufferKm / 111 := by linarith
  have hlon : |(lon - x) * k| ≤ bufferKm / 111 :=
    (Real.abs_le_sqrt (le_add_of_nonneg_right (sq_nonneg _))).trans hroot
  have hlatgap : |lat - y| ≤ bufferKm / 111 :=
    (Real.abs_le_sqrt (le_add_of_nonneg_left (sq_nonneg _))).trans hroot
  rw [abs_mul, abs_of_pos hk, ← le_div_iff₀ hk] at hlon
  have hmargin : bufferKm / 111 / k ≤ bufferKm / 111 * (3 / 2) / k :=
    div_le_div_of_nonneg_right (by linarith) hk.le
  obtain ⟨hlon1, hlon2⟩ := abs_le.mp (hlon.trans hmargin)
  obtain ⟨hlat1, hlat2⟩ := abs_le.mp hlatgap
  have hx1 : (ringBbox ring).west ≤ x := le_along hwest hwest' ht0 ht1
  have hx2 : x ≤ (ringBbox ring).east := along_le heast heast' ht0 ht1
  have hy1 : (ringBbox ring).south ≤ y := le_along hsouth hsouth' ht0 ht1
  have hy2 : y ≤ (ringBbox ring).north := along_le hnorth hnorth' ht0 ht1
  rw [Bool.eq_false_iff, outside]
  simp only [ne_eq, Bool.or_eq_true, real_lt_iff, not_or, not_lt]
  exact ⟨⟨⟨by linarith, by linarith⟩, by linarith⟩, by linarith⟩

theorem containsOrNear_iff (polygons : List (Polygon ℝ)) {lon lat bufferKm : ℝ} (hlat : -87 < lat ∧ lat < 87)
    (hbuffer : 0 < bufferKm) : containsOrNear polygons lon lat bufferKm ↔ contains polygons lon lat ∨
      ∃ poly ∈ polygons, ∃ w ∈ windows poly.outer, pointSegmentKm lon lat w.1 w.2 ≤ bufferKm := by
  rw [containsOrNear]
  split
  case isTrue hin => exact ⟨fun _ => .inl hin, fun _ => rfl⟩
  case isFalse hout =>
    rw [if_neg ((real_le_iff _ _).not.mpr (not_le.mpr hbuffer)), List.any_eq_true, or_iff_right hout]
    apply exists_congr
    intro poly
    rw [and_congr_right_iff]
    intro _
    rw [Bool.and_eq_true, List.any_eq_true]
    constructor
    · rintro ⟨-, w, hw, hnear⟩
      exact ⟨w, hw, (real_le_iff _ _).mp hnear⟩
    · rintro ⟨w, hw, hnear⟩
      refine ⟨?_, w, hw, (real_le_iff _ _).mpr hnear⟩
      rw [not_outside hlat hbuffer hw hnear]
      rfl

noncomputable def closing (poly : Polygon ℝ) : (ℝ × ℝ) × (ℝ × ℝ) := (before poly.outer 0, poly.outer.headD (0, 0))

def Within (lon lat bufferKm : ℝ) (w : (ℝ × ℝ) × (ℝ × ℝ)) : Prop := pointSegmentKm lon lat w.1 w.2 ≤ bufferKm

/-- Inside, or near an edge of an outer ring, its closing edge included. -/
def NearBorder (polygons : List (Polygon ℝ)) (lon lat bufferKm : ℝ) : Prop :=
  contains polygons lon lat ∨
    ∃ poly ∈ polygons, ∃ w, (w ∈ windows poly.outer ∨ w = closing poly) ∧ Within lon lat bufferKm w

/-- A ring that repeats its first vertex is closed by that vertex alone. -/
theorem within_of_closing {lat : ℝ} (hlat : -87 < lat ∧ lat < 87) {lon bufferKm : ℝ} {poly : Polygon ℝ}
    (hrepeats : poly.outer.getLast? = poly.outer.head?) (h : Within lon lat bufferKm (closing poly)) :
    ∃ w ∈ windows poly.outer, Within lon lat bufferKm w := by
  have hlong := poly.long
  rw [closing, before, if_pos rfl] at h
  generalize poly.outer = ring at h hlong hrepeats ⊢
  match ring with
  | a :: b :: rest =>
    rw [List.getLast?_eq_getElem?] at hrepeats
    rw [List.getD_eq_getElem?_getD, hrepeats] at h
    exact ⟨(a, b), List.mem_cons_self, (pointSegmentKm_le_start hlat lon a b).trans h⟩

/-- Rings that repeat their first vertices meet the condition under which the buffer is that of the border. -/
theorem border_of_repeats {lat : ℝ} (hlat : -87 < lat ∧ lat < 87) (lon bufferKm : ℝ) {polygons : List (Polygon ℝ)}
    (hrepeats : ∀ poly ∈ polygons, poly.outer.getLast? = poly.outer.head?) :
    contains polygons lon lat ∨ (∃ poly ∈ polygons, ∃ w ∈ windows poly.outer, Within lon lat bufferKm w) ∨
      ∀ poly ∈ polygons, ¬ Within lon lat bufferKm (closing poly) := by
  by_cases hclose : ∃ poly ∈ polygons, Within lon lat bufferKm (closing poly)
  · obtain ⟨poly, hpoly, hwithin⟩ := hclose
    exact .inr (.inl ⟨poly, hpoly, within_of_closing hlat (hrepeats poly hpoly) hwithin⟩)
  · exact .inr (.inr fun poly hpoly hwithin => hclose ⟨poly, hpoly, hwithin⟩)

/-- The buffer is that of the whole border exactly when the point is inside, near an edge between consecutive
vertices, or near no closing edge; and a point stepped inward is inside. -/
theorem containsOrNear_border_iff (polygons : List (Polygon ℝ)) {lon lat bufferKm : ℝ}
    (hlat : -87 < lat ∧ lat < 87) (hbuffer : 0 < bufferKm) :
    ((containsOrNear polygons lon lat bufferKm ↔ NearBorder polygons lon lat bufferKm) ↔
      contains polygons lon lat ∨ (∃ poly ∈ polygons, ∃ w ∈ windows poly.outer, Within lon lat bufferKm w) ∨
        ∀ poly ∈ polygons, ¬ Within lon lat bufferKm (closing poly)) ∧
      ∀ maxKm p, insideNear polygons lon lat maxKm = some p → contains polygons p.1 p.2 := by
  refine ⟨?_, fun _ _ h => contains_insideNear h⟩
  rw [containsOrNear_iff polygons hlat hbuffer]
  constructor
  · intro h
    by_cases hclose : ∃ poly ∈ polygons, Within lon lat bufferKm (closing poly)
    · obtain ⟨poly, hpoly, hwithin⟩ := hclose
      exact (h.mpr (.inr ⟨poly, hpoly, _, .inr rfl, hwithin⟩)).imp_right .inl
    · exact .inr (.inr fun poly hpoly hwithin => hclose ⟨poly, hpoly, hwithin⟩)
  · intro h
    constructor
    · exact Or.imp_right fun ⟨poly, hpoly, w, hw, hwithin⟩ => ⟨poly, hpoly, w, .inl hw, hwithin⟩
    · rintro (hin | ⟨poly, hpoly, w, hw | rfl, hwithin⟩)
      · exact .inl hin
      · exact .inr ⟨poly, hpoly, w, hw, hwithin⟩
      · rcases h with hin | hopen | hnone
        · exact .inl hin
        · exact .inr hopen
        · exact absurd hwithin (hnone poly hpoly)

end

/-! ### An unclosed triangle -/

section Sample

attribute [local instance] lookupText

def openTriangle : Polygon ℝ where
  outer := [(0, -1), (1, 0), (0, 1)]
  holes := []
  long := Landmass.three_le_three

theorem cos_equator : Real.cos (toRadians 0) = 1 := by
  rw [toRadians_real, zero_mul, Real.cos_zero]

theorem closing_within : Within (-1 / 10) 0 20 (closing openTriangle) := by
  have hequator : -87 < (0 : ℝ) ∧ (0 : ℝ) < 87 := by norm_num
  have hdegree : (lit 111 : ℝ) = 111 := Rat.cast_ofNat 111
  have hclosing : closing openTriangle = ((0, 1), (0, -1)) := rfl
  have hflat : (eq ((0 : ℝ) * 1 - 0 * 1) 0 && eq ((-1 : ℝ) - 1) 0) = false := by
    rw [Bool.and_eq_false_iff]
    exact .inr (decide_eq_false (by norm_num))
  have hhalf : clamp (((-1 / 10 * 1 - 0 * 1) * (0 * 1 - 0 * 1) + (0 - 1) * (-1 - 1)) /
      ((0 * 1 - 0 * 1) * (0 * 1 - 0 * 1) + (-1 - 1) * (-1 - 1))) 0 1 = (1 / 2 : ℝ) := by
    have hvalue : ((-1 / 10 * 1 - 0 * 1) * (0 * 1 - 0 * 1) + (0 - 1) * (-1 - 1)) /
        ((0 * 1 - 0 * 1) * (0 * 1 - 0 * 1) + (-1 - 1) * (-1 - 1)) = (1 / 2 : ℝ) := by norm_num
    rw [hvalue, clamp, if_neg, if_neg] <;> rw [real_lt_iff] <;> norm_num
  rw [Within, hclosing, pointSegmentKm, nearestOnSegment, (cosine_eq hequator).2, cos_equator, hdegree]
  dsimp only
  rw [hflat, if_neg Bool.false_ne_true, hhalf]
  change Real.sqrt _ * 111 ≤ 20
  have hroot : Real.sqrt ((1 / 10 : ℝ) ^ 2) = 1 / 10 := Real.sqrt_sq (by norm_num)
  norm_num at hroot ⊢

theorem openTriangle_missed : ¬ (containsOrNear [openTriangle] (-1 / 10) 0 20 ↔
    NearBorder [openTriangle] (-1 / 10) 0 20) := by
  have hequator : -87 < (0 : ℝ) ∧ (0 : ℝ) < 87 := by norm_num
  intro h
  have hnear := h.mpr (.inr ⟨openTriangle, List.mem_singleton_self _, _, .inr rfl, closing_within⟩)
  rw [containsOrNear_iff _ hequator (by norm_num)] at hnear
  rcases hnear with hin | ⟨poly, hpoly, w, hw, hwithin⟩
  · have hwest : (ringBbox openTriangle.outer).west = 0 := by
      simp [ringBbox, openTriangle, min_real]
    have hleft : lt (-1 / 10 : ℝ) 0 := (real_lt_iff _ _).mpr (by norm_num)
    have hout : ringContains openTriangle.outer (-1 / 10) 0 = false := if_pos (by simp [hwest, hleft])
    simp [contains, Polygon.contains, hout] at hin
  · rw [List.mem_singleton.mp hpoly] at hw
    obtain ⟨t, -, -, heq, -⟩ := pointSegmentKm_eq hequator (-1 / 10) w.1 w.2
    rw [heq, cos_equator] at hwithin
    have hfar : (1 / 2 : ℝ) < Real.sqrt (((-1 / 10 - (w.1.1 + t * (w.2.1 - w.1.1))) * 1) ^ 2 +
        (0 - (w.1.2 + t * (w.2.2 - w.1.2))) ^ 2) := by
      rw [Real.lt_sqrt (by norm_num)]
      have hedges : w = ((0, -1), (1, 0)) ∨ w = ((1, 0), (0, 1)) := by
        simpa [windows, openTriangle] using hw
      rcases hedges with rfl | rfl
      · nlinarith [sq_nonneg (t - 9 / 20)]
      · nlinarith [sq_nonneg (t - 11 / 20)]
    linarith

def closedTriangle : Polygon ℝ where
  outer := [(0, -1), (1, 0), (0, 1), (0, -1)]
  holes := []
  long := Landmass.three_le_three.trans (Nat.le_succ 3)

/-- The point missed by the ring that is not closed is near the closed one. -/
theorem containsOrNear_border_closed : NearBorder [closedTriangle] (-1 / 10) 0 20 ∧
    containsOrNear [closedTriangle] (-1 / 10) 0 20 ∧
    ∀ maxKm p, insideNear [closedTriangle] (-1 / 10) 0 maxKm = some p → contains [closedTriangle] p.1 p.2 := by
  have hequator : -87 < (0 : ℝ) ∧ (0 : ℝ) < 87 := by norm_num
  obtain ⟨hborder, hinside⟩ := @containsOrNear_border_iff _ [closedTriangle] (-1 / 10) 0 20 hequator (by norm_num)
  have hrepeats : ∀ poly ∈ [closedTriangle], poly.outer.getLast? = poly.outer.head? := by
    intro poly hpoly
    rw [List.mem_singleton.mp hpoly]
    rfl
  have hnear : NearBorder [closedTriangle] (-1 / 10) 0 20 :=
    .inr ⟨closedTriangle, List.mem_singleton_self _, ((0, 1), (0, -1)), .inl (by simp [windows, closedTriangle]),
      closing_within⟩
  exact ⟨hnear, (hborder.mpr (border_of_repeats hequator _ _ hrepeats)).mpr hnear, hinside⟩

end Sample

end Tellegen.Synth.RegionBuffer
