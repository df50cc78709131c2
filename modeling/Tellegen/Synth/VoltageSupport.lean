import Tellegen.Lib.ShortestPaths
import Tellegen.Synth.Draft

/-!
Voltage support of remote load pockets: while a loaded bus lies too far along the corridors from every
generator and condenser, the farthest one gets a condenser.
-/

open Binary64
open Tellegen.Osm (Drafting Corridor DraftGenerator)
open ShortestPaths (Visit)

namespace Tellegen.Synth

variable {F : Type} [Drafting F] (t : Tuning F)

/-! ### Distances -/

def pushArc (adj : ℕ → List (ℕ × F)) (u w : ℕ) (km : F) : ℕ → List (ℕ × F) :=
  Function.update adj u (adj u ++ [(w, km)])

def arcsOf (corridors : List (Corridor F)) : ℕ → List (ℕ × F) :=
  corridors.foldl (fun adj c => pushArc (pushArc adj c.a c.b c.lengthKm) c.b c.a c.lengthKm) fun _ => []

/-- The nearest entry first, the lower bus among equals. -/
def visitBefore (x y : Visit ℕ F) : Bool :=
  match totalCmp x.distance y.distance with
  | .lt => true
  | .eq => x.vertex < y.vertex
  | .gt => false

/-- Corridor distances from the nearest source, and that source. -/
structure Distances (F : Type) where
  dist : ℕ → Option F
  nearest : ℕ → Option ℕ

def distanceToSources (corridors : List (Corridor F)) (sources : List ℕ) : Distances F :=
  let search := ShortestPaths.run lt visitBefore (arcsOf corridors)
    (sources.length + 2 * corridors.length) (ShortestPaths.init lt sources)
  { dist := search.dist, nearest := search.nearest }

/-! ### Condensers -/

/-- `max_by`: the last of the largest. -/
def maxBy {α : Type} (cmp : α → α → Ordering) : List α → Option α
  | [] => none
  | a :: rest => some (rest.foldl (fun x y => if cmp x y = .gt then x else y) a)

/-- The loaded buses that a source reaches, and their distances. -/
def loadedAt (buses : List (DraftBus F)) (dist : ℕ → Option F) : List (ℕ × F) :=
  buses.zipIdx.filterMap fun (b, i) => if lt 0 b.loadMw then (dist i).map fun d => (i, d) else none

def farthestLoad (buses : List (DraftBus F)) (dist : ℕ → Option F) : Option (ℕ × F) :=
  maxBy (fun a b => (totalCmp a.2 b.2).then (compare b.1 a.1)) (loadedAt buses dist)

end Tellegen.Synth
