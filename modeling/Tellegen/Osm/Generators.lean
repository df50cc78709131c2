import Tellegen.Osm.Levels
import Tellegen.Osm.SnapIndex

/-!
Generation of a mapped grid: a unit for each bus and fuel with mapped plants, and makeup units on the
best connected other buses while the mapped capacity falls short of the reserve margin.
-/

open Binary64
open Std (ExtTreeMap)

namespace Tellegen.Osm

/-! ### Random draws -/

/-- What a random stream offers; `S` is its state. -/
structure Stream (F S : Type) where
  uniform : S → F × S
  index : (n : ℕ) → 0 < n → S → Fin n × S

section Draws

variable {F S : Type} [Binary64 F] (rng : Stream F S)

def Stream.range (lo hi : F) (state : S) : F × S :=
  if lt lo hi then
    let (u, state) := rng.uniform state
    (lo + (hi - lo) * u, state)
  else (lo, state)

/-- The first position at which the running sum of the usable weights exceeds the target. -/
def pickWeight (target : F) : ℕ → F → List F → Option ℕ
  | _, _, [] => none
  | i, running, w :: rest =>
    if isFinite w && lt 0 w then
      if lt target (running + w) then some i else pickWeight target (i + 1) (running + w) rest
    else pickWeight target (i + 1) running rest

def Stream.weightedIndex (weights : List F) (state : S) : Option ℕ × S :=
  if h : 0 < weights.length then
    let total := Binary64.sum (weights.filter fun w => isFinite w && lt 0 w)
    if le total 0 then
      let (i, state) := rng.index weights.length h state
      (some i, state)
    else
      let (u, state) := rng.uniform state
      (some ((pickWeight (u * total) 0 0 weights).getD (weights.length - 1)), state)
  else (none, state)

end Draws

/-! ### Units -/

inductive Fuel where
  | gas | coal | nuclear | hydro | wind | solar | storage | other
  deriving DecidableEq

def Fuel.rank : Fuel → ℕ
  | .gas => 0
  | .coal => 1
  | .nuclear => 2
  | .hydro => 3
  | .wind => 4
  | .solar => 5
  | .storage => 6
  | .other => 7

structure DraftGenerator (F : Type) where
  bus : ℕ
  fuel : Fuel
  pmaxMw : F
  pminMw : F
  qmaxMvar : F
  qminMvar : F
  c2 : F
  c1 : F
  c0 : F
  makeup : Bool
  slack : Bool
  condenser : Bool

section Model

variable {F S : Type} [Drafting F] (rng : Stream F S)

structure FuelParams (F : Type) where
  c1Range : F × F
  c2 : F

def fuelParams : Fuel → FuelParams F
  | .gas => { c1Range := (lit 28, lit 42), c2 := lit (4 / 1000) }
  | .coal => { c1Range := (lit 24, lit 36), c2 := lit (3 / 1000) }
  | .nuclear => { c1Range := (lit 8, lit 12), c2 := lit (1 / 1000) }
  | .hydro => { c1Range := (lit 2, lit 5), c2 := lit (2 / 1000) }
  | .wind => { c1Range := (lit 1, lit 3), c2 := lit (2 / 1000) }
  | .solar => { c1Range := (lit (5 / 10), lit 2), c2 := lit (2 / 1000) }
  | .storage => { c1Range := (lit 20, lit 30), c2 := lit (4 / 1000) }
  | .other => { c1Range := (lit 30, lit 50), c2 := lit (4 / 1000) }

def qmaxFraction : F := lit (55 / 100)

def qminFraction : F := -lit (45 / 100)

def unit (bus : ℕ) (fuel : Fuel) (mw : F) (makeup : Bool) (state : S) : DraftGenerator F × S :=
  let p : FuelParams F := fuelParams fuel
  let (u, state) := rng.uniform state
  let (c1, state) := rng.range p.c1Range.1 p.c1Range.2 state
  ({ bus, fuel, pmaxMw := mw, pminMw := 0, qmaxMvar := qmaxFraction * mw, qminMvar := qminFraction * mw
     c2 := p.c2 * (lit (8 / 10) + lit (4 / 10) * u), c1, c0 := 0, makeup, slack := false
     condenser := false }, state)

/-! ### Generation caps -/

/-- The voltages of the line classes. -/
def lineClasses : List F := [lit 69, lit 115, lit 138, lit 230, lit 345, lit 500, lit 765]

/-- `Iterator::min_by` on finite values: the first of the smallest. -/
def minBy {α : Type} (smaller : α → α → Bool) : List α → Option α
  | [] => none
  | a :: rest => some (rest.foldl (fun best b => if smaller b best then b else best) a)

theorem minBy_eq_none {α : Type} {smaller : α → α → Bool} {list : List α} :
    minBy smaller list = none ↔ list = [] := by
  cases list with
  | nil => exact iff_of_true rfl rfl
  | cons b rest => exact iff_of_false (fun h => nomatch h) (List.cons_ne_nil _ _)

/-- The class whose voltage is nearest, by the distance of logarithms. -/
def lineClassFor (kv : F) : F :=
  let target := Drafting.ln (Binary64.max kv 1)
  (minBy (fun a b => lt (Binary64.abs (Drafting.ln a - target)) (Binary64.abs (Drafting.ln b - target)))
    lineClasses).getD (lit 69)

def classGenerationCapMw (classKv : F) : F :=
  if le classKv (lit 69) then lit 60
  else if le classKv (lit 138) then lit 400
  else if le classKv (lit 230) then lit 1200
  else if le classKv (lit 345) then lit 2700
  else if le classKv (lit 500) then lit 4000
  else lit 6000

def busGenerationCapMw (kv : F) : F :=
  let classKv := lineClassFor kv
  classGenerationCapMw classKv * (kv / classKv)

def minUnitMw : F := lit 5

/-! ### Mapped plants -/

structure OsmPlant (F : Type) where
  id : ℤ
  lon : F
  lat : F
  fuel : Fuel
  capacityMw : Option F
  isGenerator : Bool

structure PlantSite (F : Type) where
  lon : F
  lat : F
  fuel : Fuel
  mw : Option F

def plantUnitKm : F := lit 3

/-- The plant that a generator is a unit of: the nearest of its fuel. The plants are in order of latitude,
so those in reach of it follow each other. -/
def ownerOf (plants : List (OsmPlant F)) (u : OsmPlant F) : Option ℕ :=
  let dlat := plantUnitKm / lit 111
  let start := (plants.takeWhile fun p => lt p.lat (u.lat - dlat)).length
  let near := ((plants.drop start).takeWhile fun p => le p.lat (u.lat + dlat)).zipIdx.filter
    fun (p, _) => p.fuel = u.fuel
  let distances := (near.map fun (p, k) => (haversineKm u.lon u.lat p.lon p.lat, start + k)).filter
    fun (d, _) => le d plantUnitKm
  (minBy (fun a b => totalCmp a.1 b.1 = .lt) distances).map (·.2)

def plantSites (plants : List (OsmPlant F)) : List (PlantSite F) :=
  let owners := (plants.filter fun p => !p.isGenerator).mergeSort fun a b => totalCmp a.lat b.lat ≠ .gt
  let units := (plants.filter (·.isGenerator)).filterMap fun u => u.capacityMw.map fun mw => (u, mw)
  let (unitMw, alone) := units.foldl (fun (unitMw, alone) (u, mw) =>
    match ownerOf owners u with
    | some i => (unitMw.modify i (· + mw), alone)
    | none => (unitMw, alone ++ [{ lon := u.lon, lat := u.lat, fuel := u.fuel, mw := some mw }]))
    (List.replicate owners.length (0 : F), ([] : List (PlantSite F)))
  alone ++ (owners.zip unitMw).map fun (p, units) =>
    { lon := p.lon, lat := p.lat, fuel := p.fuel
      mw := match p.capacityMw with
        | some mw => some (Binary64.max mw units)
        | none => if lt 0 units then some units else none }

def medianMinPlants : ℕ := 5

/-- The median tagged capacity of a fuel, when enough plants state one. -/
def medianMw (sites : List (PlantSite F)) (fuel : Fuel) : Option F :=
  let tagged := sites.filterMap fun site =>
    if site.fuel = fuel then site.mw.filter fun mw => lt 0 mw else none
  if medianMinPlants ≤ tagged.length then
    (tagged.mergeSort fun a b => totalCmp a b ≠ .gt)[tagged.length / 2]?
  else none

def estimatedPlantMw (totalLoadMw : F) : F :=
  let mw := lit (4 / 100) * Binary64.max totalLoadMw 1
  if lt mw (lit 20) then lit 20 else if lt (lit 200) mw then lit 200 else mw

instance : Std.TransCmp (compareLex (compareOn Prod.fst) (compareOn fun key : ℕ × Fuel => key.2.rank)) :=
  inferInstance

abbrev Capacity (F : Type) :=
  ExtTreeMap (ℕ × Fuel) F (compareLex (compareOn Prod.fst) (compareOn fun key => key.2.rank))

structure Snapped (F : Type) where
  capacity : Capacity F
  snapped : ℕ
  estimated : ℕ

def snapSite (buses : List (DraftBus F)) (plantSnapKm totalLoad : F) (sites : List (PlantSite F))
    (out : Snapped F) (site : PlantSite F) : Snapped F :=
  match snap buses { lon := site.lon, lat := site.lat, voltage := none, tolKm := plantSnapKm } with
  | none => out
  | some bus =>
    let (mw, estimated) := match site.mw with
      | some mw => (mw, out.estimated)
      | none => ((medianMw sites site.fuel).getD (estimatedPlantMw totalLoad), out.estimated + 1)
    if le mw 0 then { out with estimated }
    else
      { capacity := out.capacity.insert (bus, site.fuel) (out.capacity.getD (bus, site.fuel) 0 + mw)
        snapped := out.snapped + 1
        estimated }

/-! ### Placement -/

structure MakeupRequest (F : Type) where
  reserveMargin : F
  plantSnapKm : F
  /-- The weights of the fuels, in their order. -/
  fuelMix : List (Fuel × F)

structure Placement (F S : Type) where
  buses : List (DraftBus F)
  gens : List (DraftGenerator F)
  state : S

def placeMapped (placed : Placement F S) (entry : (ℕ × Fuel) × F) : Placement F S :=
  let ((bus, fuel), mw) := entry
  let (gen, state) := unit rng bus fuel mw false placed.state
  { buses := placed.buses.modify bus fun b =>
      { b with kind := .generator, annotation := "OpenStreetMap power plant (power=plant or generator)" }
    gens := placed.gens ++ [gen]
    state }

/-- `corridor_degrees`. -/
def corridorDegrees (n : ℕ) (corridors : List (Corridor F)) : List ℕ :=
  corridors.foldl (fun deg c => (deg.modify c.a (· + 1)).modify c.b (· + 1)) (List.replicate n 0)

/-- The buses that may get a makeup unit, the best connected first. -/
def makeupCandidates (buses : List (DraftBus F)) (corridors : List (Corridor F)) : List ℕ :=
  let degree := corridorDegrees buses.length corridors
  ((List.range buses.length).filter fun i => buses[i]?.any fun b =>
    b.kind ≠ .generator ∧ b.kind ≠ .converter).mergeSort fun a b =>
      degree.getD b 0 < degree.getD a 0 ∨ degree.getD a 0 = degree.getD b 0 ∧ a ≤ b

def makeupMinBuses : ℕ := 5

/-- The capacity of a makeup unit: its share, at most the cap of the bus and what remains, at least the
smallest unit. -/
def makeupMw (share cap remaining : F) : F :=
  Binary64.max (Binary64.min (Binary64.min share cap) remaining) minUnitMw

/-- Makeup units on one candidate after another, while something remains. -/
def placeMakeup (fuelMix : List (Fuel × F)) (share : F) :
    List ℕ → F → Placement F S → Placement F S × F
  | [], remaining, placed => (placed, remaining)
  | bus :: rest, remaining, placed =>
    if le remaining 0 then (placed, remaining)
    else
      let cap := busGenerationCapMw ((placed.buses[bus]?.map (·.baseKv)).getD 0)
      let mw := makeupMw share cap remaining
      let (k, state) := rng.weightedIndex (fuelMix.map (·.2)) placed.state
      let fuel := (k.bind fun k => (fuelMix.map (·.1))[k]?).getD .gas
      let (gen, state) := unit rng bus fuel mw true state
      placeMakeup fuelMix share rest (remaining - mw)
        { buses := placed.buses.modify bus fun b =>
            { b with kind := .generator, source := .makeup
                     annotation :=
                      "Makeup generation (mapped plants fall short of the reserve margin)" }
          gens := placed.gens ++ [gen]
          state }

/-- The shortfall on the makeup units, in proportion. -/
def topUp (remaining placedMw : F) (g : DraftGenerator F) : DraftGenerator F :=
  let mw := g.pmaxMw * (1 + remaining / placedMw)
  { g with pmaxMw := mw, qmaxMvar := qmaxFraction * mw, qminMvar := qminFraction * mw }

/-- The largest unit of each island so far; the first of equal ones stays. -/
def largestOf (buses : List (DraftBus F)) (gens : List (DraftGenerator F)) :
    ExtTreeMap ℕ ℕ compare :=
  gens.zipIdx.foldl (fun best (g, k) =>
    let island := (buses[g.bus]?.map (·.island)).getD 0
    match best[island]? with
    | some j =>
      if le g.pmaxMw ((gens[j]?.map (·.pmaxMw)).getD 0) then best else best.insert island k
    | none => best.insert island k) ∅

def markSlack (buses : List (DraftBus F)) (gens : List (DraftGenerator F)) : List (DraftGenerator F) :=
  ((largestOf buses gens).toList.map (·.2)).foldl
    (fun gens k => gens.modify k fun g => { g with slack := true }) gens

structure Generation (F S : Type) where
  buses : List (DraftBus F)
  gens : List (DraftGenerator F)
  plantsSnapped : ℕ
  plantsEstimated : ℕ
  makeupUnits : ℕ
  /-- Codes and messages. -/
  warnings : List (String × String)
  state : S

/-- The top-up stage: makeup units for what the mapped ones leave of the target. -/
def coverReserve (request : MakeupRequest F) (corridors : List (Corridor F)) (target mappedMw : F)
    (placed : Placement F S) : Placement F S × ℕ × List (String × String) :=
  let candidates := makeupCandidates placed.buses corridors
  let remaining := target - mappedMw
  let share := remaining / Binary64.ofNat (clamp 1 candidates.length makeupMinBuses)
  let first := placed.gens.length
  let (placed, remaining) := placeMakeup rng request.fuelMix share candidates remaining placed
  let makeup := placed.gens.length - first
  let text := "mapped plants hold " ++ Drafting.displayWhole mappedMw ++ " MW against a " ++
    Drafting.displayWhole target ++ " MW reserve-margin target; " ++ toString makeup ++
    " makeup unit(s) cover the shortfall"
  let report := if 0 < makeup then [("osm_makeup_generation", text)] else []
  if lt (lit (1 / 10 ^ 6)) remaining ∧ 0 < makeup then
    -- every candidate is at its cap
    let placedMw := Binary64.sum ((placed.gens.drop first).map (·.pmaxMw))
    ({ placed with
        gens := placed.gens.take first ++ (placed.gens.drop first).map (topUp remaining placedMw) },
      makeup, ("generator_cap_exceeded", "makeup units exceed the generation cap of their buses because the mapped network has too few buses to hold the reserve-margin target otherwise") :: report)
  else (placed, makeup, report)

/-- `OsmBuild::generators`; `none` leaves all generation to the synthetic rule. -/
def generators (plants : List (OsmPlant F)) (request : MakeupRequest F) (buses : List (DraftBus F))
    (corridors : List (Corridor F)) (state : S) : Option (Generation F S) :=
  let totalLoad := Binary64.sum (buses.map (·.loadMw))
  let sites := plantSites plants
  let snapped := sites.foldl (snapSite buses request.plantSnapKm totalLoad sites)
    { capacity := ∅, snapped := 0, estimated := 0 }
  if snapped.capacity.isEmpty then none
  else
    let mapped := snapped.capacity.toList.foldl (placeMapped rng) { buses, gens := [], state }
    let mappedMw := Binary64.sum (snapped.capacity.toList.map (·.2))
    let target := (1 + request.reserveMargin) * totalLoad
    let (placed, makeupUnits, warnings) :=
      if lt 0 totalLoad ∧ lt mappedMw target then
        coverReserve rng request corridors target mappedMw mapped
      else (mapped, 0, [])
    some { buses := placed.buses
           gens := markSlack placed.buses placed.gens
           plantsSnapped := snapped.snapped
           plantsEstimated := snapped.estimated
           makeupUnits
           warnings
           state := placed.state }

end Model

end Tellegen.Osm
