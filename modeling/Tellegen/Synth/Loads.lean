import Tellegen.Synth.BlueNoise

/-!
The demand of places over points: each place to the points around it, on a grid of cells.
-/

open Binary64
open Tellegen.Osm (Drafting haversineKm toRadians minBy)

namespace Tellegen.Synth

section Model

variable {F : Type} [Planning F]

/-! ### Demand of places -/

structure DemandPlace (F : Type) where
  lon : F
  lat : F
  demandWeight : F

def demandKey (cellLat : F) (lon lat : F) : ℤ × ℤ :=
  let cellLon := cellLat / Binary64.max (Binary64.abs (Libm.cos (toRadians lat))) (lit (5 / 100))
  (Drafting.asI64 (Binary64.floor (lon / cellLon)), Drafting.asI64 (Binary64.floor (lat / cellLat)))

def cellsAround (key : ℤ × ℤ) : List (ℤ × ℤ) :=
  [-1, 0, 1].flatMap fun dx => [-1, 0, 1].map fun dy => (key.1 + dx, key.2 + dy)

/-- The points within the radius of a place, with their weights. -/
def pointsNear (points : List (F × F)) (radius : F) (c : DemandPlace F) : List (ℕ × F) :=
  let cellLat := Binary64.max radius (lit (1 / 1000)) / lit 111
  (cellsAround (demandKey cellLat c.lon c.lat)).flatMap fun cell =>
    (List.range points.length).filterMap fun k =>
      let p := pointAt points k
      let d := haversineKm c.lon c.lat p.1 p.2
      if demandKey cellLat p.1 p.2 = cell && le d radius then some (k, 1 / (1 + d)) else none

def nearestPoint (points : List (F × F)) (c : DemandPlace F) : Option ℕ :=
  let keyed := (List.range points.length).map fun k =>
    (haversineKm c.lon c.lat (pointAt points k).1 (pointAt points k).2, k)
  (minBy (fun a b => (totalCmp a.1 b.1).then (compare a.2 b.2) = .lt) keyed).map (·.2)

def sharePlace (points : List (F × F)) (radius : F) (out : ℕ → F) (c : DemandPlace F) : ℕ → F :=
  let near := pointsNear points radius c
  match near with
  | [] =>
    match nearestPoint points c with
    | some k => Function.update out k (out k + c.demandWeight)
    | none => out
  | _ =>
    let total := Binary64.sum (near.map (·.2))
    near.foldl (fun out kw => Function.update out kw.1 (out kw.1 + c.demandWeight * kw.2 / total)) out

/-- The demand of each place split among the points around it. -/
def demandPartition (points : List (F × F)) (cities : List (DemandPlace F)) (radius : F) : List F :=
  (List.range points.length).map (cities.foldl (sharePlace points radius) fun _ => 0)

/-- The demand of the places around each point by inverse distance. -/
def demandIdw (points : List (F × F)) (cities : List (DemandPlace F)) (radius : F) : List F :=
  let cellLat := radius / lit 111
  points.map fun p =>
    Binary64.sum ((cellsAround (demandKey cellLat p.1 p.2)).flatMap fun cell =>
      cities.filterMap fun c =>
        let d := haversineKm p.1 p.2 c.lon c.lat
        if demandKey cellLat c.lon c.lat = cell && le d radius then some (c.demandWeight / (1 + d)) else none)

end Model

end Tellegen.Synth
