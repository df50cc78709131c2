import Tellegen.Synth.Catchments
import Tellegen.Synth.Taps

/-!
Points spread over a region: random ones at least a separation apart, kept where people live, and as many
as asked for whatever the separation.
-/

open Binary64
open Tellegen.Osm (Drafting toRadians earthRadiusKm)

namespace Tellegen.Synth

/-- A region to place points in; drawing a point from it is a parameter. -/
structure Region (F S : Type) extends RegionShape F where
  west : F
  south : F
  east : F
  north : F
  areaKm2 : F
  contains : F → F → Bool
  samplePoint : List F → S → (F × F) × S

structure PlacedCity (F : Type) where
  lon : F
  lat : F
  name : String
  population : F

/-! ### Grids of points -/

structure NoiseGrid (F : Type) where
  cell : F
  minX : F
  minY : F
  cols : ℕ
  rows : ℕ
  cells : ℕ × ℕ → List (F × F)

structure Extent (F : Type) where
  minX : F
  minY : F
  maxX : F
  maxY : F

section Model

variable {F S : Type} [Planning F]

def clampCells (n : ℕ) (most : ℕ) : ℕ := Nat.min (Nat.max n 1) most

namespace NoiseGrid

def new (cell : F) (extent : Extent F) : NoiseGrid F where
  cell := cell
  minX := extent.minX
  minY := extent.minY
  cols := clampCells (Planning.asUsize (ceil ((extent.maxX - extent.minX) / cell))) 4096
  rows := clampCells (Planning.asUsize (ceil ((extent.maxY - extent.minY) / cell))) 4096
  cells := fun _ => []

def index (grid : NoiseGrid F) (p : F × F) : ℕ × ℕ :=
  (cellAlong grid.minX grid.cell grid.cols p.1, cellAlong grid.minY grid.cell grid.rows p.2)

def insert (grid : NoiseGrid F) (p : F × F) : NoiseGrid F :=
  { grid with cells := Function.update grid.cells (grid.index p) (grid.cells (grid.index p) ++ [p]) }

/-- No point of the cells around is within the separation. -/
def far (grid : NoiseGrid F) (p : F × F) (sep2 : F) : Bool :=
  let at' := grid.index p
  (window at'.2 2 (grid.rows - 1)).all fun rr =>
    (window at'.1 2 (grid.cols - 1)).all fun cc =>
      (grid.cells (cc, rr)).all fun q =>
        !le ((q.1 - p.1) * (q.1 - p.1) + (q.2 - p.2) * (q.2 - p.2)) sep2

end NoiseGrid

namespace Region

variable (region : Region F S)

def project (p : F × F) : F × F :=
  let lon0 := (region.west + region.east) / lit 2
  let k := toRadians (earthRadiusKm : F)
  ((p.1 - lon0) * Libm.cos (toRadians p.2) * k, p.2 * k)

/-- The frame of the region in projected coordinates: its corners, and the middles of two sides. -/
def extent : Extent F :=
  let middle := (region.west + region.east) / lit 2
  let corners := [(region.west, region.south), (region.east, region.south), (region.west, region.north),
    (region.east, region.north), (middle, region.south), (middle, region.north)].map region.project
  { minX := smallest (corners.map (·.1))
    minY := smallest (corners.map (·.2))
    maxX := largest (corners.map (·.1))
    maxY := largest (corners.map (·.2)) }

end Region

def Extent.widened (extent : Extent F) (sep : F) : Extent F where
  minX := extent.minX - sep
  minY := extent.minY - sep
  maxX := extent.maxX + sep
  maxY := extent.maxY + sep

/-! ### Scattering -/

structure Scatter (F S : Type) where
  points : List (F × F)
  grid : NoiseGrid F
  rng : S

section Scatter

variable (region : Region F S) (weights : List F)

/-- Draws a point at a time while there are tries, and keeps those that are wanted and far enough. -/
def scatter (keep : F × F → S → Bool × S) (sep2 : F) (count : ℕ) : ℕ → Scatter F S → Scatter F S
  | 0, st => st
  | tries + 1, st =>
    if count ≤ st.points.length then st
    else
      let (p, next) := region.samplePoint weights st.rng
      let (kept, next) := keep p next
      let q := region.project p
      if kept && st.grid.far q sep2 then
        scatter keep sep2 count tries
          { points := st.points ++ [p], grid := st.grid.insert q, rng := next }
      else scatter keep sep2 count tries { st with rng := next }

/-- The points still missing, without the separation. -/
def topUp (count : ℕ) (points : List (F × F)) (rng : S) : List (F × F) × S :=
  (List.range (count - points.length)).foldl (fun st _ =>
    let (p, next) := region.samplePoint weights st.2
    (st.1 ++ [p], next)) (points, rng)

/-- Points on a grid that already holds the existing ones. -/
def scatterPoints (keep : F × F → S → Bool × S) (sep : F) (extent : Extent F) (tries count : ℕ)
    (existing : List (F × F)) (rng : S) : List (F × F) × S :=
  let cell := Binary64.max (sep / Libm.sqrt (lit 2)) (lit (1 / 1000))
  let grid := existing.foldl (fun grid p => grid.insert (region.project p))
    (NoiseGrid.new cell (extent.widened sep))
  let st := scatter region weights keep (sep * sep) count tries { points := [], grid := grid, rng := rng }
  topUp region weights count st.points st.rng

def blueNoisePoints (count : ℕ) (existing : List (F × F)) (rng : S) : List (F × F) × S :=
  if count = 0 then ([], rng)
  else
    let area := Binary64.max region.areaKm2 1
    let sep := lit (62 / 100) *
      Libm.sqrt (area / Binary64.ofNat (Nat.max (count + existing.length) 1))
    scatterPoints region weights (fun _ rng => (true, rng)) sep region.extent (80 * count) count existing rng

end Scatter

/-! ### Population density -/

structure Density (F : Type) where
  cell : F
  minX : F
  minY : F
  cols : ℕ
  rows : ℕ
  value : ℕ × ℕ → F

/-- The cells from `lo` to `hi` that exist. -/
def cellRange (lo hi : ℤ) (count : ℕ) : List ℕ :=
  List.range' (Max.max lo 0).toNat (Min.min hi (count - 1) + 1 - Max.max lo 0).toNat

/-- Adds the population of a place through a Gaussian kernel that is cut at its reach. -/
def addPlace (region : Region F S) (h : F) (reach : ℤ) (density : Density F) (c : PlacedCity F) : Density F :=
  let p := region.project (c.lon, c.lat)
  let ci := Drafting.asI64 (Binary64.round ((p.1 - density.minX) / density.cell))
  let ri := Drafting.asI64 (Binary64.round ((p.2 - density.minY) / density.cell))
  let near := (cellRange (ri - reach) (ri + reach) density.rows).flatMap fun r =>
    (cellRange (ci - reach) (ci + reach) density.cols).map fun q => (r, q)
  { density with
    value := near.foldl (fun value at' =>
      let dx := density.minX + Binary64.ofNat at'.2 * density.cell - p.1
      let dy := density.minY + Binary64.ofNat at'.1 * density.cell - p.2
      let w := Planning.exp (-(dx * dx + dy * dy) / (lit 2 * h * h))
      Function.update value at' (value at' + Binary64.max c.population 0 * w)) density.value }

/-- The density of a region, relative to its densest cell, compressed and not below a floor. -/
def Density.new (region : Region F S) (cities : List (PlacedCity F)) (h floor gamma : F) : Density F :=
  let extent := region.extent
  let width := extent.maxX - extent.minX
  let height := extent.maxY - extent.minY
  let cell := Binary64.max (h / lit 2) 1
  let cols := clampCells (Planning.asUsize (ceil (width / cell)) + 1) 2048
  let rows := clampCells (Planning.asUsize (ceil (height / cell)) + 1) 2048
  let cell := Binary64.max (Binary64.max (width / Binary64.ofNat (Nat.max (cols - 1) 1))
    (height / Binary64.ofNat (Nat.max (rows - 1) 1))) cell
  let reach := Drafting.asI64 (ceil (lit 3 * h / cell))
  let start : Density F :=
    { cell := cell, minX := extent.minX, minY := extent.minY, cols := cols, rows := rows, value := fun _ => 0 }
  let placed := cities.foldl (addPlace region h reach) start
  let peak := ((List.range rows).flatMap fun r => (List.range cols).map fun q => placed.value (r, q)).foldl
    Binary64.max 0
  { placed with
    value := fun at' =>
      let rel := if lt 0 peak then Libm.powf (placed.value at' / peak) gamma else 0
      floor + (1 - floor) * rel }

def Density.at (density : Density F) (region : Region F S) (p : F × F) : F :=
  let q := region.project p
  let along := fun (x origin : F) (count : ℕ) =>
    Nat.min (Planning.asUsize (Binary64.max (Binary64.round ((x - origin) / density.cell)) 0)) (count - 1)
  density.value (along q.2 density.minY density.rows, along q.1 density.minX density.cols)

/-- The densities at 2000 points of the region, added up. -/
def probeDensity (region : Region F S) (weights : List F) (density : Density F) (state : S) : F × S :=
  (List.range 2000).foldl (fun (st : F × S) _ =>
    let (p, next) := region.samplePoint weights st.2
    (st.1 + density.at region p, next)) (0, state)

def clamp (a lo hi : F) : F := if lt a lo then lo else if lt hi a then hi else a

/-- Points distributed like the population; without places they are evenly spread. -/
def weightedBlueNoisePoints (t : Tuning F) (rng : Osm.Stream F S) (region : Region F S) (weights : List F)
    (count : ℕ) (existing : List (F × F)) (cities : List (PlacedCity F)) (state : S) : List (F × F) × S :=
  if cities = [] ∨ count = 0 then blueNoisePoints region weights count existing state
  else
    let density := Density.new region cities (Binary64.max t.fillBandwidthKm 1)
      (clamp t.fillFloor (lit (1 / 1000)) 1) (clamp t.fillGamma (lit (5 / 100)) (lit 2))
    let probe := probeDensity region weights density state
    let effective := Binary64.max region.areaKm2 1 * probe.1 / Binary64.ofNat 2000
    let sep := lit (5 / 10) *
      Libm.sqrt (effective / Binary64.ofNat (Nat.max (count + existing.length) 1))
    let extent : Extent F :=
      { minX := density.minX
        minY := density.minY
        maxX := density.minX + density.cell * Binary64.ofNat density.cols
        maxY := density.minY + density.cell * Binary64.ofNat density.rows }
    let keep := fun p state =>
      let (u, next) := rng.uniform state
      (!le (density.at region p) u, next)
    scatterPoints region weights keep sep extent (400 * count) count existing probe.2

/-! ### Counts -/

section Count

variable (region : Region F S) (weights : List F)

theorem length_scatter_le (keep : F × F → S → Bool × S) (sep2 : F) (count tries : ℕ) {st : Scatter F S}
    (h : st.points.length ≤ count) :
    (scatter region weights keep sep2 count tries st).points.length ≤ count := by
  induction tries generalizing st with
  | zero => exact h
  | succ tries ih =>
    unfold scatter
    split
    case isTrue => exact h
    case isFalse hfew =>
      dsimp only
      split
      · apply ih
        rw [List.length_append, List.length_singleton]
        omega
      · exact ih h

omit [Planning F] in
theorem length_topUp {count : ℕ} {points : List (F × F)} (rng : S) (h : points.length ≤ count) :
    (topUp region weights count points rng).1.length = count := by
  have hfold : ∀ (n : ℕ) (st : List (F × F) × S),
      ((List.range n).foldl (fun st _ =>
        let (p, next) := region.samplePoint weights st.2
        (st.1 ++ [p], next)) st).1.length = st.1.length + n := by
    intro n
    induction n with
    | zero => exact fun _ => rfl
    | succ n ih =>
      intro st
      rw [List.range_succ, List.foldl_append, List.foldl_cons, List.foldl_nil]
      dsimp only
      rw [List.length_append, List.length_singleton, ih]
      omega
  rw [topUp, hfold]
  dsimp only
  omega

theorem length_scatterPoints (keep : F × F → S → Bool × S) (sep : F) (extent : Extent F) (tries count : ℕ)
    (existing : List (F × F)) (rng : S) :
    (scatterPoints region weights keep sep extent tries count existing rng).1.length = count := by
  apply length_topUp
  exact length_scatter_le region weights keep _ count tries (Nat.zero_le count)

theorem length_blueNoisePoints (count : ℕ) (existing : List (F × F)) (rng : S) :
    (blueNoisePoints region weights count existing rng).1.length = count := by
  unfold blueNoisePoints
  split
  case isTrue hzero => exact hzero.symm
  case isFalse => exact length_scatterPoints ..

theorem length_weightedBlueNoisePoints (t : Tuning F) (rng : Osm.Stream F S) (count : ℕ)
    (existing : List (F × F)) (cities : List (PlacedCity F)) (state : S) :
    (weightedBlueNoisePoints t rng region weights count existing cities state).1.length = count := by
  unfold weightedBlueNoisePoints
  split
  · exact length_blueNoisePoints ..
  · exact length_scatterPoints ..

end Count

end Model

end Tellegen.Synth
