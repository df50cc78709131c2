import Tellegen.Lib.UnionFind
import Tellegen.Synth.DemandLookups

/-!
Landmass groups: polygons are one system where some of their sampled border vertices are near. A pair whose
boxes are far apart is not looked at, but the longitude test measures the gap at a mean latitude.
-/

open Binary64 hiding max min

namespace Tellegen.Synth.Landmass

open Tellegen.Osm (Drafting haversineKm toRadians)

structure BBox (F : Type) where
  west : F
  south : F
  east : F
  north : F

/-- A polygon of a region: only its outer ring, whose positions were checked when it was read. -/
structure Polygon (F : Type) [Drafting F] where
  outer : List (F × F)
  long : 3 ≤ outer.length
  latitudes : ∀ p ∈ outer, le (-(lit 90)) p.2 ∧ le p.2 (lit 90)

section

variable {F : Type} [Drafting F]

/-- The folds of the source start from infinity. -/
def ringBbox (ring : List (F × F)) : BBox F :=
  let first := ring.headD (0, 0)
  { west := (ring.map Prod.fst).foldl Binary64.min first.1
    south := (ring.map Prod.snd).foldl Binary64.min first.2
    east := (ring.map Prod.fst).foldl Binary64.max first.1
    north := (ring.map Prod.snd).foldl Binary64.max first.2 }

def Polygon.bbox (polygon : Polygon F) : BBox F := ringBbox polygon.outer

/-- Every `step`-th vertex of the outer ring, fewer than 400 of them. -/
def samples (polygon : Polygon F) : List (F × F) :=
  let step := max (polygon.outer.length / 200) 1
  (polygon.outer.zipIdx.filter fun (_, i) => i % step = 0).map Prod.fst

def latRejects (ba bb : BBox F) (maxKm : F) : Bool :=
  let latGap := Binary64.max (Binary64.max ba.south bb.south - Binary64.min ba.north bb.north) 0 * lit 111
  lt maxKm latGap

def lonRejects (ba bb : BBox F) (maxKm : F) : Bool :=
  let lonGap := Binary64.max (Binary64.max ba.west bb.west - Binary64.min ba.east bb.east) 0
  let latMid := (ba.south + ba.north + bb.south + bb.north) / lit 4
  lt (maxKm * lit (6 / 5)) (lonGap * lit 111 * Binary64.abs (Libm.cos (toRadians latMid)))

def near (a b : Polygon F) (maxKm : F) : Bool :=
  (samples a).any fun p => (samples b).any fun q => le (haversineKm p.1 p.2 q.1 q.2) maxKm

/-- The kept polygons of a region, each once. -/
structure Kept (polygons : List (Polygon F)) where
  rows : List (Fin polygons.length)
  distinct : rows.Nodup

variable {polygons : List (Polygon F)} (kept : Kept polygons) (maxKm : F)

abbrev Kept.polygon (a : Fin kept.rows.length) : Polygon F := polygons.get (kept.rows.get a)

def joined (a b : Fin kept.rows.length) : Bool :=
  let ba := (kept.polygon a).bbox
  let bb := (kept.polygon b).bbox
  !latRejects ba bb maxKm && !lonRejects ba bb maxKm && near (kept.polygon a) (kept.polygon b) maxKm

def pairs (n : ℕ) : List (Fin n × Fin n) :=
  (List.finRange n).flatMap fun a => ((List.finRange n).filter fun b => a < b).map fun b => (a, b)

def landmassSets : UnionFind (Fin kept.rows.length) :=
  (pairs kept.rows.length).foldl (fun uf (a, b) => if joined kept maxKm a b then uf.join a b else uf)
    (UnionFind.new _)

def landmassGroups : List (List (Fin polygons.length)) :=
  let root := fun k => ((landmassSets kept maxKm).find k).2
  ((List.finRange kept.rows.length).filter fun r => root r = r).map fun r =>
    ((List.finRange kept.rows.length).filter fun k => root k = r).map kept.rows.get

end

/-! ### Groups -/

section Groups

variable {F : Type} [Drafting F] {polygons : List (Polygon F)} (kept : Kept polygons) (maxKm : F)

def InOneGroup (groups : List (List (Fin polygons.length))) (i j : Fin polygons.length) : Prop :=
  ∃ group ∈ groups, i ∈ group ∧ j ∈ group

theorem mem_pairs {n : ℕ} {a b : Fin n} : (a, b) ∈ pairs n ↔ a < b := by
  simp [pairs]

theorem landmassSets_represents :
    (landmassSets kept maxKm).Represents fun a b => a < b ∧ joined kept maxKm a b := by
  have hfold : ∀ (list : List (Fin kept.rows.length × Fin kept.rows.length))
      {uf : UnionFind (Fin kept.rows.length)} {R : _ → _ → Prop}, uf.Represents R →
      (list.foldl (fun uf (a, b) => if joined kept maxKm a b then uf.join a b else uf) uf).Represents
        fun a b => R a b ∨ ((a, b) ∈ list ∧ joined kept maxKm a b) := by
    intro list
    induction list with
    | nil =>
      intro uf R h
      simpa using h
    | cons pair rest ih =>
      obtain ⟨a, b⟩ := pair
      intro uf R h
      rw [List.foldl_cons]
      dsimp only
      split
      case isTrue hjoined =>
        convert ih (h.join a b) using 3 with x y
        simp only [List.mem_cons, Prod.mk.injEq]
        grind
      case isFalse hnot =>
        convert ih h using 3 with x y
        simp only [List.mem_cons, Prod.mk.injEq]
        grind
  have h := hfold (pairs kept.rows.length) UnionFind.represents_new
  simp only [mem_pairs, false_or] at h
  exact h

/-- Two kept polygons are in one group exactly when pairs that are joined lead from one to the other. -/
theorem inOneGroup_iff (a b : Fin kept.rows.length) :
    InOneGroup (landmassGroups kept maxKm) (kept.rows.get a) (kept.rows.get b) ↔
      Relation.EqvGen (fun a b => a < b ∧ joined kept maxKm a b) a b := by
  rw [← landmassSets_represents kept maxKm a b, UnionFind.Same]
  have hmem : ∀ c r, kept.rows.get c ∈ ((List.finRange kept.rows.length).filter fun k =>
      (landmassSets kept maxKm).root k = r).map kept.rows.get ↔ (landmassSets kept maxKm).root c = r := by
    intro c r
    rw [List.mem_map_of_injective (List.nodup_iff_injective_get.mp kept.distinct)]
    simp
  simp only [InOneGroup, landmassGroups, UnionFind.find_snd, List.mem_map, List.mem_filter]
  constructor
  · rintro ⟨_, ⟨r, -, rfl⟩, ha, hb⟩
    exact ((hmem a r).mp (List.mem_map.mpr (by simpa using ha))).trans
      ((hmem b r).mp (List.mem_map.mpr (by simpa using hb))).symm
  · intro hsame
    refine ⟨_, ⟨(landmassSets kept maxKm).root a, ⟨List.mem_finRange _, by simp⟩, rfl⟩, ?_, ?_⟩
    · simpa using (hmem a _).mpr rfl
    · simpa using (hmem b _).mpr hsame.symm

end Groups

/-! ### The box tests -/

section Boxes

variable [DecimalText ℝ]

/-- The great circle between two points is at least as long as their latitudes are apart. -/
theorem le_haversineKm (lon1 lon2 : ℝ) {lat1 lat2 : ℝ} (h1 : -90 ≤ lat1 ∧ lat1 ≤ 90) (h2 : -90 ≤ lat2 ∧ lat2 ≤ 90) :
    |lat2 - lat1| * 111 ≤ haversineKm lon1 lat1 lon2 lat2 := by
  have hpi := Real.pi_gt_d2
  have hcos : ∀ x : ℝ, -90 ≤ x ∧ x ≤ 90 → 0 ≤ Real.cos (toRadians x) := by
    rintro x ⟨hlow, hhigh⟩
    rw [toRadians_real]
    apply Real.cos_nonneg_of_neg_pi_div_two_le_of_le <;> nlinarith
  set x := (toRadians lat2 - toRadians lat1) / 2 with hx
  have habs : |x| = |lat2 - lat1| * (Real.pi / 360) := by
    rw [hx, toRadians_real, toRadians_real, ← abs_of_pos (by positivity : 0 < Real.pi / 360), ← abs_mul]
    congr 1
    ring
  have hle : |lat2 - lat1| ≤ 180 := abs_le.mpr (by constructor <;> linarith [h1.1, h1.2, h2.1, h2.2])
  have hhalf : |x| ≤ Real.pi / 2 := by
    rw [habs]
    nlinarith [abs_nonneg (lat2 - lat1)]
  have harc : Real.arcsin |Real.sin x| = |x| := by
    rw [Real.abs_sin_eq_sin_abs_of_abs_le_pi (by linarith),
      Real.arcsin_sin (by linarith [abs_nonneg x]) hhalf]
  have hroot : |Real.sin x| ≤ Min.min (Real.sqrt (Real.sin x * Real.sin x +
      Real.cos (toRadians lat1) * Real.cos (toRadians lat2) *
        (Real.sin (toRadians (lon2 - lon1) / 2) * Real.sin (toRadians (lon2 - lon1) / 2)))) 1 := by
    apply le_min _ (Real.abs_sin_le_one x)
    rw [← Real.sqrt_mul_self_eq_abs]
    apply Real.sqrt_le_sqrt
    have := mul_nonneg (mul_nonneg (hcos lat1 h1) (hcos lat2 h2))
      (mul_self_nonneg (Real.sin (toRadians (lon2 - lon1) / 2)))
    linarith
  rw [haversineKm_eq]
  calc |lat2 - lat1| * 111 ≤ 2 * 6371 * |x| := by rw [habs]; nlinarith [abs_nonneg (lat2 - lat1)]
    _ ≤ _ := by
      rw [← harc]
      exact mul_le_mul_of_nonneg_left (Real.monotone_arcsin hroot) (by norm_num)

theorem foldl_min_le (list : List ℝ) (a : ℝ) :
    list.foldl Binary64.min a ≤ a ∧ ∀ b ∈ list, list.foldl Binary64.min a ≤ b := by
  induction list generalizing a with
  | nil => exact ⟨le_refl a, fun b hb => absurd hb List.not_mem_nil⟩
  | cons c rest ih =>
    obtain ⟨hstart, hall⟩ := ih (Binary64.min a c)
    have hleft : Binary64.min a c ≤ a := min_real a c ▸ min_le_left a c
    have hright : Binary64.min a c ≤ c := min_real a c ▸ min_le_right a c
    rw [List.foldl_cons, List.forall_mem_cons]
    exact ⟨hstart.trans hleft, hstart.trans hright, hall⟩

theorem mem_ringBbox {ring : List (ℝ × ℝ)} {p : ℝ × ℝ} (hp : p ∈ ring) :
    ((ringBbox ring).west ≤ p.1 ∧ p.1 ≤ (ringBbox ring).east) ∧
      (ringBbox ring).south ≤ p.2 ∧ p.2 ≤ (ringBbox ring).north :=
  ⟨⟨(foldl_min_le _ _).2 _ (List.mem_map_of_mem hp), (le_foldl_max _ _).2 _ (List.mem_map_of_mem hp)⟩,
    (foldl_min_le _ _).2 _ (List.mem_map_of_mem hp), (le_foldl_max _ _).2 _ (List.mem_map_of_mem hp)⟩

theorem mem_bbox {polygon : Polygon ℝ} {p : ℝ × ℝ} (hp : p ∈ samples polygon) :
    (polygon.bbox.south ≤ p.2 ∧ p.2 ≤ polygon.bbox.north) ∧ -90 ≤ p.2 ∧ p.2 ≤ 90 := by
  have hdegrees : (lit 90 : ℝ) = 90 := Rat.cast_ofNat 90
  obtain ⟨⟨p', i⟩, hmem, rfl⟩ := List.mem_map.mp hp
  have houter : p' ∈ polygon.outer := List.fst_mem_of_mem_zipIdx (List.mem_filter.mp hmem).1
  obtain ⟨hlow, hhigh⟩ := polygon.latitudes p' houter
  rw [real_le_iff, hdegrees] at hlow hhigh
  exact ⟨(mem_ringBbox houter).2, hlow, hhigh⟩

theorem not_latRejects {a b : Polygon ℝ} {maxKm : ℝ} (h : near a b maxKm) :
    ¬ latRejects a.bbox b.bbox maxKm := by
  have hdegree : (lit 111 : ℝ) = 111 := Rat.cast_ofNat 111
  rw [near, List.any_eq_true] at h
  obtain ⟨p, hp, h⟩ := h
  rw [List.any_eq_true] at h
  obtain ⟨q, hq, h⟩ := h
  rw [real_le_iff] at h
  obtain ⟨⟨hsouth, hnorth⟩, hp90⟩ := mem_bbox hp
  obtain ⟨⟨hsouth', hnorth'⟩, hq90⟩ := mem_bbox hq
  have hdist := (le_haversineKm p.1 q.1 hp90 hq90).trans h
  have hgap : Max.max (Max.max a.bbox.south b.bbox.south - Min.min a.bbox.north b.bbox.north) 0 ≤ |q.2 - p.2| := by
    have hneg := neg_abs_le (q.2 - p.2)
    have hself := le_abs_self (q.2 - p.2)
    apply max_le _ (abs_nonneg _)
    rcases min_choice a.bbox.north b.bbox.north with hmin | hmin <;>
      rcases max_choice a.bbox.south b.bbox.south with hmax | hmax <;> rw [hmin, hmax] <;> linarith
  rw [latRejects, real_lt_iff, max_real, max_real, min_real, hdegree, not_lt]
  exact (mul_le_mul_of_nonneg_right hgap (by norm_num)).trans hdist

variable {polygons : List (Polygon ℝ)} (kept : Kept polygons) (maxKm : ℝ)

def Near (a b : Fin kept.rows.length) : Prop := near (kept.polygon a) (kept.polygon b) maxKm

def Apart (a b : Fin kept.rows.length) : Prop :=
  lonRejects (kept.polygon a).bbox (kept.polygon b).bbox maxKm

theorem Near.symm {a b : Fin kept.rows.length} (h : Near kept maxKm a b) : Near kept maxKm b a := by
  rw [Near, near, List.any_eq_true] at h ⊢
  obtain ⟨p, hp, h⟩ := h
  obtain ⟨q, hq, h⟩ := List.any_eq_true.mp h
  rw [haversineKm_comm] at h
  exact ⟨q, hq, List.any_eq_true.mpr ⟨p, hp, h⟩⟩

theorem Apart.symm {a b : Fin kept.rows.length} (h : Apart kept maxKm a b) : Apart kept maxKm b a := by
  have hmid : ∀ x y : BBox ℝ, x.south + x.north + y.south + y.north = y.south + y.north + x.south + x.north :=
    fun x y => by ring
  rw [Apart, lonRejects] at h ⊢
  rw [max_real, max_real, min_real] at h ⊢
  rwa [hmid, max_comm (BBox.west _), min_comm (BBox.east _)]

theorem eqvGen_joined {a b : Fin kept.rows.length} :
    Relation.EqvGen (fun a b => a < b ∧ joined kept maxKm a b) a b ↔
      Relation.EqvGen (fun a b => Near kept maxKm a b ∧ ¬ Apart kept maxKm a b) a b := by
  have hjoined : ∀ {a b}, joined kept maxKm a b ↔ Near kept maxKm a b ∧ ¬ Apart kept maxKm a b := by
    intro a b
    have hlat : near (kept.polygon a) (kept.polygon b) maxKm → _ := not_latRejects
    rw [joined, Near, Apart]
    grind
  constructor
  · exact fun h => h.mono fun a b hab => hjoined.mp hab.2
  · intro h
    apply h.image (f := id)
    intro a b hab
    rcases lt_trichotomy a b with hlt | rfl | hgt
    · exact .rel _ _ ⟨hlt, hjoined.mpr hab⟩
    · exact .refl _
    · exact .symm _ _ (.rel _ _ ⟨hgt, hjoined.mpr ⟨hab.1.symm, fun hapart => hab.2 hapart.symm⟩⟩)

/-- The latitude test rejects no near pair. The groups are the chains of near pairs exactly when each near pair that
the longitude test rejects is also linked by near pairs that it does not reject. -/
theorem landmassGroups_chains_iff :
    (∀ a b, Near kept maxKm a b → ¬ latRejects (kept.polygon a).bbox (kept.polygon b).bbox maxKm) ∧
    ((∀ a b, InOneGroup (landmassGroups kept maxKm) (kept.rows.get a) (kept.rows.get b) ↔
        Relation.EqvGen (Near kept maxKm) a b) ↔
      ∀ a b, Near kept maxKm a b → Apart kept maxKm a b →
        Relation.EqvGen (fun a b => Near kept maxKm a b ∧ ¬ Apart kept maxKm a b) a b) := by
  refine ⟨fun _ _ => not_latRejects, ?_⟩
  simp only [inOneGroup_iff, eqvGen_joined]
  constructor
  · intro h a b hnear _
    exact (h a b).mpr (.rel _ _ hnear)
  · intro h a b
    constructor
    · exact fun hab => hab.mono fun _ _ => And.left
    · intro hab
      apply hab.image (f := id)
      intro a b hnear
      by_cases hapart : Apart kept maxKm a b
      · exact h a b hnear hapart
      · exact .rel _ _ ⟨hnear, hapart⟩

end Boxes

/-! ### Two coasts that meet at the pole -/

section Sample

attribute [local instance] lookupText

theorem three_le_three : 3 ≤ 3 := Nat.le_refl 3

/-- A triangle on the equator with its last vertex at the pole. -/
noncomputable def wedge (west : ℝ) : Polygon ℝ where
  outer := [(west, 0), (west + 10, 0), (west + 5, 90)]
  long := three_le_three
  latitudes := by
    have hdegrees : (lit 90 : ℝ) = 90 := Rat.cast_ofNat 90
    simp [real_le_iff, hdegrees]

noncomputable def wedges : Kept [wedge 0, wedge 50] := ⟨[0, 1], by decide⟩

noncomputable def western : Fin wedges.rows.length := ⟨0, Nat.zero_lt_two⟩

noncomputable def eastern : Fin wedges.rows.length := ⟨1, Nat.one_lt_two⟩

theorem wedges_near : Near wedges 1 western eastern := by
  have hpole : toRadians (90 : ℝ) = Real.pi / 2 := by
    rw [toRadians_real]
    ring
  have hdist : haversineKm (0 + 5 : ℝ) 90 (50 + 5) 90 = 0 := by
    rw [haversineKm_eq, hpole, Real.cos_pi_div_two]
    simp
  have hsample : ∀ west : ℝ, (west + 5, 90) ∈ samples (wedge west) := by
    intro west
    simp [samples, wedge, List.zipIdx]
  have hnear := (real_le_iff _ _).mpr (hdist.trans_le zero_le_one)
  exact List.any_eq_true.mpr ⟨_, hsample 0, List.any_eq_true.mpr ⟨_, hsample 50, hnear⟩⟩

theorem bbox_wedge (west : ℝ) : (wedge west).bbox = ⟨west, 0, west + 10, 90⟩ := by
  have hfive : (5 : ℝ) ≤ 10 := by norm_num
  simp [Polygon.bbox, ringBbox, wedge, min_real, max_real, hfive]

theorem wedges_apart : Apart wedges 1 western eastern := by
  have hdegree : (lit 111 : ℝ) = 111 := Rat.cast_ofNat 111
  have hfour : (lit 4 : ℝ) = 4 := Rat.cast_ofNat 4
  have hslack : (lit (6 / 5) : ℝ) = 6 / 5 := by
    change (((6 / 5 : ℚ)) : ℝ) = _
    norm_num
  have hcos : Libm.cos (toRadians ((0 + 90 + 0 + 90) / 4 : ℝ)) = Real.sqrt 2 / 2 := by
    rw [toRadians_real, ← Real.cos_pi_div_four]
    change Real.cos _ = _
    ring_nf
  have hsqrt : 1 ≤ Real.sqrt 2 := Real.one_le_sqrt.mpr one_le_two
  change lonRejects (wedge 0).bbox (wedge 50).bbox 1
  rw [bbox_wedge, bbox_wedge, lonRejects, real_lt_iff]
  dsimp only
  rw [max_real, max_real, min_real, hfour, hcos, hdegree, hslack, exact_abs DecimalText.text]
  rw [abs_of_nonneg (by positivity)]
  norm_num
  linarith

theorem wedges_split : ¬ ∀ a b, InOneGroup (landmassGroups wedges 1) (wedges.rows.get a) (wedges.rows.get b) ↔
    Relation.EqvGen (Near wedges 1) a b := by
  intro h
  have hgroup := (h western eastern).mpr (.rel _ _ wedges_near)
  rw [inOneGroup_iff, eqvGen_joined] at hgroup
  have hnone : ∀ a b, Near wedges 1 a b ∧ ¬ Apart wedges 1 a b → a = b := by
    intro a b hab
    match a, b with
    | ⟨0, _⟩, ⟨0, _⟩ => rfl
    | ⟨0, _⟩, ⟨1, _⟩ => exact absurd wedges_apart hab.2
    | ⟨1, _⟩, ⟨0, _⟩ => exact absurd wedges_apart.symm hab.2
    | ⟨1, _⟩, ⟨1, _⟩ => rfl
  exact absurd (congrArg Fin.val (hgroup.apply_eq (f := id) hnone)) Nat.zero_ne_one

end Sample

end Tellegen.Synth.Landmass
