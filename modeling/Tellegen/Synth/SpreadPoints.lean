import Tellegen.Synth.BlueNoise
import Tellegen.Synth.ServedCatchments

/-!
The distances that the fill keeps, in exact arithmetic. A cell is at least the separation divided by the root
of two, so two points within the separation are at most two cells apart, also where the cells are clamped.
-/

open Binary64 hiding max min
open Tellegen.Osm (Drafting)

namespace Tellegen.Synth

variable [DecimalText ℝ]

/-! ### The grid -/

noncomputable def noiseCell (sep : ℝ) : ℝ := Binary64.max (sep / Libm.sqrt (lit 2)) (lit (1 / 1000))

/-- No point of a list is within the separation. -/
noncomputable def scanFar (inserted : List (ℝ × ℝ)) (p : ℝ × ℝ) (sep2 : ℝ) : Bool :=
  inserted.all fun q => !le ((q.1 - p.1) * (q.1 - p.1) + (q.2 - p.2) * (q.2 - p.2)) sep2

theorem foldl_insert (inserted : List (ℝ × ℝ)) (grid : NoiseGrid ℝ) :
    inserted.foldl NoiseGrid.insert grid =
      { grid with cells := fun cell => grid.cells cell ++ inserted.filter fun q => grid.index q = cell } := by
  induction inserted generalizing grid with
  | nil => simp
  | cons p rest ih =>
    have hindex : (grid.insert p).index = grid.index := rfl
    rw [List.foldl_cons, ih, hindex]
    congr 1
    funext cell
    by_cases hcell : cell = grid.index p
    · subst hcell
      simp [NoiseGrid.insert]
    · simp [NoiseGrid.insert, hcell, Ne.symm hcell]

theorem noiseCell_spec (sep : ℝ) : 0 < noiseCell sep ∧ sep < 2 * noiseCell sep := by
  have hleast : (lit (1 / 1000) : ℝ) = 1 / 1000 := by
    change ((1 / 1000 : ℚ) : ℝ) = _
    norm_num
  have htwo : (lit 2 : ℝ) = 2 := Rat.cast_ofNat 2
  have hcell : noiseCell sep = Max.max (sep / Real.sqrt 2) (1 / 1000) := by
    rw [noiseCell, max_real, hleast, htwo]
    rfl
  have hroot : 0 < Real.sqrt 2 := Real.sqrt_pos.mpr two_pos
  have hpos : 0 < noiseCell sep := by
    rw [hcell]
    exact lt_max_of_lt_right (by norm_num)
  have hle : sep / Real.sqrt 2 ≤ noiseCell sep := hcell ▸ le_max_left _ _
  rw [div_le_iff₀ hroot] at hle
  have hlt : Real.sqrt 2 < 2 := Real.sqrt_two_lt_three_halves.trans (by norm_num)
  exact ⟨hpos, by nlinarith⟩

theorem cellAlong_mem_window {sep : ℝ} (origin : ℝ) (count : ℕ) {x y : ℝ} (h : |x - y| ≤ sep) :
    cellAlong origin (noiseCell sep) count x ∈
      window (cellAlong origin (noiseCell sep) count y) 2 (count - 1) := by
  obtain ⟨hpos, hsep⟩ := noiseCell_spec sep
  have hnear : ∀ u v : ℝ, u - v ≤ sep →
      cellAlong origin (noiseCell sep) count u ≤ cellAlong origin (noiseCell sep) count v + 2 := by
    intro u v huv
    by_contra hfar
    have hgap := lt_sub_of_cellAlong hpos origin count 2 v u (not_le.mp hfar)
    push_cast at hgap
    linarith
  rw [mem_window]
  have hleft := hnear x y (le_of_abs_le h)
  have hright := hnear y x (by linarith [neg_le_of_abs_le h])
  exact ⟨by omega, hleft, Nat.min_le_right _ _⟩

theorem far_eq_scan {sep : ℝ} (hsep : 0 ≤ sep) (extent : Extent ℝ) (inserted : List (ℝ × ℝ)) (p : ℝ × ℝ) :
    (inserted.foldl NoiseGrid.insert (NoiseGrid.new (noiseCell sep) extent)).far p (sep * sep) =
      scanFar inserted p (sep * sep) := by
  set grid := NoiseGrid.new (noiseCell sep) extent with hgrid
  have hnew : ∀ cell, grid.cells cell = [] := fun _ => rfl
  rw [foldl_insert, Bool.eq_iff_iff, scanFar]
  simp only [NoiseGrid.far, List.all_eq_true, hnew, List.nil_append, List.mem_filter, decide_eq_true_eq]
  constructor
  · intro hfar q hq
    by_contra hwithin
    rw [Bool.not_eq_true', Bool.not_eq_false, real_le_iff] at hwithin
    have hx : |q.1 - p.1| ≤ sep := abs_le_of_sq_le_sq (by nlinarith [mul_self_nonneg (q.2 - p.2)]) hsep
    have hy : |q.2 - p.2| ≤ sep := abs_le_of_sq_le_sq (by nlinarith [mul_self_nonneg (q.1 - p.1)]) hsep
    have hfound := hfar _ (cellAlong_mem_window grid.minY grid.rows hy) _
      (cellAlong_mem_window grid.minX grid.cols hx) q ⟨hq, rfl⟩
    rw [Bool.not_eq_true', ← Bool.not_eq_true, real_le_iff] at hfound
    exact hfound hwithin
  · intro hscan _ _ _ _ q hq
    exact hscan q hq.1

/-! ### The fill -/

section Fill

variable {S : Type} (region : Region ℝ S) (sep : ℝ)

/-- Two points are farther apart in the projected plane than the separation. -/
def Farther (q p : ℝ × ℝ) : Prop :=
  let u := region.project q
  let v := region.project p
  sep < Real.sqrt ((u.1 - v.1) ^ 2 + (u.2 - v.2) ^ 2)

structure Keeps (existing accepted : List (ℝ × ℝ)) : Prop where
  apart : accepted.Pairwise (Farther region sep)
  clear : ∀ p ∈ accepted, ∀ q ∈ existing, Farther region sep q p

variable {region sep}

theorem scanFar_iff (hsep : 0 ≤ sep) {points : List (ℝ × ℝ)} {p : ℝ × ℝ} :
    scanFar (points.map region.project) (region.project p) (sep * sep) ↔ ∀ q ∈ points, Farther region sep q p := by
  rw [scanFar, List.all_map, List.all_eq_true]
  apply forall₂_congr
  intro q _
  rw [Function.comp_apply, Bool.not_eq_true', ← Bool.not_eq_true, real_le_iff, not_le, Farther, Real.lt_sqrt hsep]
  simp only [pow_two]

variable (weights : List ℝ) (keep : ℝ × ℝ → S → Bool × S) (extent : Extent ℝ) (count : ℕ)
  (existing : List (ℝ × ℝ))

theorem scatter_keeps (hsep : 0 ≤ sep) (tries : ℕ) {st : Scatter ℝ S}
    (hgrid : st.grid = ((existing ++ st.points).map region.project).foldl NoiseGrid.insert
      (NoiseGrid.new (noiseCell sep) extent)) (h : Keeps region sep existing st.points) :
    Keeps region sep existing (scatter region weights keep (sep * sep) count tries st).points := by
  induction tries generalizing st with
  | zero => exact h
  | succ tries ih =>
    unfold scatter
    split
    · exact h
    · dsimp only
      split
      case isTrue haccept =>
        rw [Bool.and_eq_true, hgrid, far_eq_scan hsep] at haccept
        have hnew := (scanFar_iff hsep).mp haccept.2
        apply ih
        · simp only [hgrid, List.map_append, List.foldl_append]
          rfl
        · constructor
          · rw [List.pairwise_append]
            refine ⟨h.apart, List.pairwise_singleton _ _, fun q hq p hp => ?_⟩
            rw [List.mem_singleton.mp hp]
            exact hnew q (List.mem_append_right _ hq)
          · intro p hp q hq
            rcases List.mem_append.mp hp with hold | hlast
            · exact h.clear p hold q hq
            · rw [List.mem_singleton.mp hlast]
              exact hnew q (List.mem_append_left _ hq)
      case isFalse => exact ih hgrid h

theorem prefix_scatter (sep2 : ℝ) (tries : ℕ) (st : Scatter ℝ S) :
    st.points <+: (scatter region weights keep sep2 count tries st).points := by
  induction tries generalizing st with
  | zero => exact List.prefix_refl _
  | succ tries ih =>
    unfold scatter
    split
    · exact List.prefix_refl _
    · dsimp only
      split
      case isTrue => exact (List.prefix_append _ _).trans (ih ⟨_, _, _⟩)
      case isFalse =>
        have hnext := ih { st with rng := (keep (region.samplePoint weights st.rng).1
          (region.samplePoint weights st.rng).2).2 }
        exact hnext

/-- A candidate that is wanted and farther than the separation from every point so far is accepted, while points
are missing and tries are left. -/
theorem scatter_accepts (hsep : 0 ≤ sep) (tries : ℕ) (st : Scatter ℝ S)
    (hgrid : st.grid = ((existing ++ st.points).map region.project).foldl NoiseGrid.insert
      (NoiseGrid.new (noiseCell sep) extent)) (hmissing : st.points.length < count)
    (hwanted : (keep (region.samplePoint weights st.rng).1 (region.samplePoint weights st.rng).2).1 = true)
    (hfar : ∀ q ∈ existing ++ st.points, Farther region sep q (region.samplePoint weights st.rng).1) :
    st.points ++ [(region.samplePoint weights st.rng).1] <+:
      (scatter region weights keep (sep * sep) count (tries + 1) st).points := by
  have haccept : st.grid.far (region.project (region.samplePoint weights st.rng).1) (sep * sep) = true := by
    rw [hgrid, far_eq_scan hsep]
    exact (scanFar_iff hsep).mpr hfar
  unfold scatter
  rw [if_neg (not_le.mpr hmissing)]
  dsimp only
  rw [if_pos (Bool.and_eq_true_iff.mpr ⟨hwanted, haccept⟩)]
  exact prefix_scatter weights keep count _ tries ⟨_, _, _⟩

structure FillRun (S : Type) where
  keep : ℝ × ℝ → S → Bool × S
  sep : ℝ
  extent : Extent ℝ
  tries : ℕ
  rng : S

variable (region)

noncomputable def FillRun.points (run : FillRun S) : List (ℝ × ℝ) :=
  (scatterPoints region weights run.keep run.sep run.extent run.tries count existing run.rng).1

/-- The points that the loop accepts before its tries end. -/
noncomputable def FillRun.accepted (run : FillRun S) : List (ℝ × ℝ) :=
  let grid := existing.foldl (fun grid p => grid.insert (region.project p))
    (NoiseGrid.new (noiseCell run.sep) (run.extent.widened run.sep))
  (scatter region weights run.keep (run.sep * run.sep) count run.tries
    { points := [], grid := grid, rng := run.rng }).points

/-- There are as many points as asked for, and the accepted ones stand first and keep their distance. -/
structure Spreads (run : FillRun S) (points : List (ℝ × ℝ)) : Prop where
  length : points.length = count
  first : run.accepted region weights count existing <+: points
  keeps : Keeps region run.sep existing (run.accepted region weights count existing)

omit [DecimalText ℝ] in
theorem prefix_topUp (points : List (ℝ × ℝ)) (rng : S) : points <+: (topUp region weights count points rng).1 := by
  have hfold : ∀ (draws : List ℕ) (st : List (ℝ × ℝ) × S), points <+: st.1 →
      points <+: (draws.foldl (fun st _ =>
        let (p, next) := region.samplePoint weights st.2
        (st.1 ++ [p], next)) st).1 := by
    intro draws
    induction draws with
    | nil => exact fun _ h => h
    | cons _ rest ih => exact fun st h => ih _ (h.trans (List.prefix_append _ _))
  exact hfold _ _ (List.prefix_refl points)

theorem spreads_points {run : FillRun S} (hsep : 0 ≤ run.sep) :
    Spreads region weights count existing run (run.points region weights count existing) := by
  constructor
  case length => exact length_scatterPoints ..
  case first => exact prefix_topUp ..
  case keeps =>
    apply scatter_keeps weights run.keep (run.extent.widened run.sep) count existing hsep
    · rw [List.append_nil, List.foldl_map]
    · exact ⟨List.Pairwise.nil, fun p hp => absurd hp List.not_mem_nil⟩

noncomputable def blueNoiseRun (rng : S) : FillRun S where
  keep := fun _ rng => (true, rng)
  sep := lit (62 / 100) *
    Libm.sqrt (Binary64.max region.areaKm2 1 / Binary64.ofNat (Nat.max (count + existing.length) 1))
  extent := region.extent
  tries := 80 * count
  rng := rng

noncomputable def weightedRun (t : Tuning ℝ) (rng : Osm.Stream ℝ S) (cities : List (PlacedCity ℝ)) (state : S) :
    FillRun S :=
  let density := Density.new region cities (Binary64.max t.fillBandwidthKm 1)
    (clamp t.fillFloor (lit (1 / 1000)) 1) (clamp t.fillGamma (lit (5 / 100)) (lit 2))
  let probe := probeDensity region weights density state
  { keep := fun p state =>
      let (u, next) := rng.uniform state
      (!le (density.at region p) u, next)
    sep := lit (5 / 10) * Libm.sqrt (Binary64.max region.areaKm2 1 * probe.1 / Binary64.ofNat 2000 /
      Binary64.ofNat (Nat.max (count + existing.length) 1))
    extent :=
      { minX := density.minX
        minY := density.minY
        maxX := density.minX + density.cell * Binary64.ofNat density.cols
        maxY := density.minY + density.cell * Binary64.ofNat density.rows }
    tries := 400 * count
    rng := probe.2 }

theorem sep_nonneg {q : ℚ} (hq : 0 ≤ q) (x : ℝ) : 0 ≤ lit q * Libm.sqrt x :=
  mul_nonneg (Rat.cast_nonneg.mpr hq) (Real.sqrt_nonneg x)

theorem blueNoisePoints_spreads (rng : S) : Spreads region weights count existing
    (blueNoiseRun region count existing rng) (blueNoisePoints region weights count existing rng).1 := by
  by_cases hcount : count = 0
  · subst hcount
    exact
      { length := length_blueNoisePoints ..
        first := List.prefix_refl []
        keeps := ⟨List.Pairwise.nil, fun p hp => absurd hp List.not_mem_nil⟩ }
  · rw [blueNoisePoints, if_neg hcount]
    exact spreads_points region weights count existing (sep_nonneg (by norm_num) _)

/-- Without existing points, the unweighted fill begins with its first candidate. -/
theorem blueNoiseRun_accepts (hcount : 0 < count) (rng : S) : [(region.samplePoint weights rng).1] <+:
    (blueNoiseRun region count [] rng).accepted region weights count [] := by
  obtain ⟨tries, htries⟩ := Nat.exists_eq_add_of_lt (Nat.mul_pos (by norm_num : 0 < 80) hcount)
  have hrun : (blueNoiseRun region count [] rng).tries = tries + 1 := htries.trans (by omega)
  have hsep : 0 ≤ (blueNoiseRun region count [] rng).sep := sep_nonneg (by norm_num) _
  rw [FillRun.accepted, hrun]
  exact scatter_accepts weights _ _ count [] hsep tries ⟨[], _, rng⟩ rfl hcount rfl
    fun _ hq => absurd hq List.not_mem_nil

end Fill

/-- The fill keeps its distance, and the grid test of its loop is a scan of all points. How many points are placed
is bounded from above only. -/
theorem noise_points_keep_distance {S : Type} (t : Tuning ℝ) (rng : Osm.Stream ℝ S) (region : Region ℝ S)
    (weights : List ℝ) (count : ℕ) (existing : List (ℝ × ℝ)) (cities : List (PlacedCity ℝ)) (state : S) :
    (∀ sep, 0 ≤ sep → ∀ (extent : Extent ℝ) (inserted : List (ℝ × ℝ)) (p : ℝ × ℝ),
      (inserted.foldl NoiseGrid.insert (NoiseGrid.new (noiseCell sep) extent)).far p (sep * sep) =
        scanFar inserted p (sep * sep)) ∧
      Spreads region weights count existing (blueNoiseRun region count existing state)
        (blueNoisePoints region weights count existing state).1 ∧
      Spreads region weights count existing
        (if cities = [] ∨ count = 0 then blueNoiseRun region count existing state
          else weightedRun region weights count existing t rng cities state)
        (weightedBlueNoisePoints t rng region weights count existing cities state).1 := by
  refine ⟨fun sep hsep => far_eq_scan hsep, blueNoisePoints_spreads .., ?_⟩
  unfold weightedBlueNoisePoints
  split
  · exact blueNoisePoints_spreads ..
  · have hsep : 0 ≤ (weightedRun region weights count existing t rng cities state).sep :=
      sep_nonneg (q := 5 / 10) (by norm_num) _
    have hspreads := spreads_points region weights count existing hsep
    simp only [weightedRun, FillRun.points] at hspreads ⊢
    exact hspreads

end Tellegen.Synth
