import Tellegen.Synth.BlueNoise
import Tellegen.Synth.LevelCounts

/-!
The buses of a ladder that reaches subtransmission: sites at places and between them, the top levels spread
out, the others at random, and buses of the levels below at the sites that step down.
-/

open Binary64
open Tellegen.Osm (toRadians)

namespace Tellegen.Synth

/-! ### Random orders -/

section Orders

variable {F S : Type} [Planning F] (rng : Osm.Stream F S)

def swapAt {α : Type} (v : List α) (i j : ℕ) : List α :=
  match v[i]?, v[j]? with
  | some a, some b => (v.set i b).set j a
  | _, _ => v

def shuffle {α : Type} (v : List α) (state : S) : List α × S :=
  (List.range' 1 (v.length - 1)).reverse.foldl (fun st i =>
    let (j, next) := rng.index (i + 1) (Nat.succ_pos i) st.2
    (swapAt st.1 i j.val, next)) (v, state)

/-- Ranks stretched by a random factor between one and three. -/
def rankJitter (v : List ℕ) (state : S) : List ℕ × S :=
  let keyed := v.zipIdx.foldl (fun (st : List (F × ℕ) × S) (i, r) =>
    let (u, next) := rng.uniform st.2
    (st.1 ++ [((Binary64.ofNat r + 1) * (1 + lit 2 * u), i)], next)) ([], state)
  ((keyed.1.mergeSort fun a b => ((totalCmp a.1 b.1).then (compare a.2 b.2)).isLE).map (·.2), keyed.2)

end Orders

/-! ### Steps down -/

/-- The buses that each level gets at sites of the levels above, and gives to those below. -/
structure StepPlan where
  colocated : ℕ → ℕ
  stepDown : ℕ → ℕ
  stepSkip : ℕ → ℕ

section Plan

variable {F : Type} [Planning F] (t : Tuning F) (want : List ℕ) (depth : ℕ)

def stepsWanted (list : List F) (k : ℕ) : ℕ :=
  Planning.asUsize (Binary64.round (perLevel list k * Binary64.ofNat (want.getD k 0)))

def planDown (plan : StepPlan) (k : ℕ) : StepPlan :=
  if k + 1 < depth then
    let room := want.getD (k + 1) 0 - plan.colocated (k + 1)
    let down := Nat.min (Nat.min (stepsWanted want t.stepDown k) (want.getD k 0)) room
    { plan with
      stepDown := Function.update plan.stepDown k down
      colocated := Function.update plan.colocated (k + 1) (plan.colocated (k + 1) + down) }
  else plan

def planSkip (plan : StepPlan) (k : ℕ) : Option StepPlan :=
  if k + 2 < depth then
    (checkedSub (want.getD k 0) (plan.stepDown k)).map fun spare =>
      let room := want.getD (k + 2) 0 - plan.colocated (k + 2)
      let skip := Nat.min (Nat.min (stepsWanted want t.stepSkip k) spare) room
      { plan with
        stepSkip := Function.update plan.stepSkip k skip
        colocated := Function.update plan.colocated (k + 2) (plan.colocated (k + 2) + skip) }
  else some plan

def planSteps : Option StepPlan :=
  (List.range depth).foldlM (fun plan k => planSkip t want depth (planDown t want depth plan k) k)
    { colocated := fun _ => 0, stepDown := fun _ => 0, stepSkip := fun _ => 0 }

/-- The buses of each level that stand at a site of their own. -/
def standaloneOf (plan : StepPlan) : Option (List ℕ) :=
  (List.range depth).mapM fun k => checkedSub (want.getD k 0) (plan.colocated k)

end Plan

/-! ### Levels of the sites -/

structure Placing (F : Type) where
  levelOf : List (Option ℕ)
  chosen : List (F × F)
  taken : ℕ

section Levels

variable {F S : Type} [Planning F] (xy : List (F × F))

/-- Gives a site to a level; in the first pass only far from the level's other sites. -/
def placeAt (k count : ℕ) (spacing : F) (pass : ℕ) (st : Placing F) (i : ℕ) : Placing F :=
  if st.taken = count then st
  else
    match st.levelOf[i]? with
    | some none =>
      let p := pointAt xy i
      if pass = 1 || st.chosen.all fun q => le spacing (Libm.hypot (q.1 - p.1) (q.2 - p.2)) then
        { levelOf := st.levelOf.set i (some k), chosen := st.chosen ++ [p], taken := st.taken + 1 }
      else st
    | _ => st

def placeLevel (t : Tuning F) (area : F) (levelOf : List (Option ℕ)) (level : ℕ × ℕ) : List (Option ℕ) :=
  if level.1 = 0 then levelOf
  else
    let spacing := t.levelSpacing.getD level.2 0 * Libm.sqrt (area / Binary64.ofNat level.1)
    ((List.range 2).foldl (fun st pass =>
      (List.range levelOf.length).foldl (placeAt xy level.2 level.1 spacing pass) st)
      { levelOf := levelOf, chosen := [], taken := 0 }).levelOf

/-- The remaining sites take their level from a shuffled pool. -/
def fillLevels (depth : ℕ) : List (Option ℕ) → List ℕ → Option (List ℕ)
  | [], _ => some []
  | some k :: rest, pool => (fillLevels depth rest pool).map (k :: ·)
  | none :: rest, pool =>
    (checkedSub depth 1).bind fun last =>
      (fillLevels depth rest pool.tail).map ((pool.head?).getD last :: ·)

def poolOf (t : Tuning F) (depth : ℕ) (standalone : List ℕ) : List ℕ :=
  (standalone.zipIdx.drop (Nat.min t.levelSpacing.length depth)).flatMap fun level =>
    List.replicate level.1 level.2

def levelsOf (t : Tuning F) (rng : Osm.Stream F S) (depth : ℕ) (standalone : List ℕ) (area : F)
    (state : S) : Option (List ℕ × S) :=
  let spaced := (standalone.zipIdx.take t.levelSpacing.length).foldl (placeLevel xy t area)
    (List.replicate xy.length none)
  let pool := shuffle rng (poolOf t depth standalone) state
  (fillLevels depth spaced pool.1).map fun levels => (levels, pool.2)

end Levels

/-! ### Slots -/

structure Slot (F : Type) where
  lon : F
  lat : F
  place : Option String
  tier : ℕ
  site : ℕ

section Slots

variable {F S : Type} [Planning F]

/-- A bus of a lower level at the site of a slot, a little apart. -/
def pushStep (offsetDeg : F) (slots : List (Slot F)) (step : ℕ × ℕ) : List (Slot F) :=
  match slots[step.1]? with
  | some slot =>
    let nth : F := Binary64.ofNat (slots.countP fun s => s.site = slot.site)
    slots ++ [{ slot with
      lon := slot.lon + offsetDeg * nth /
        Binary64.max (Binary64.abs (Libm.cos (toRadians slot.lat))) (lit (5 / 100))
      tier := step.2 }]
  | none => slots

/-- The first ones step down by one level, and the next ones by two. -/
def stepsAt (plan : StepPlan) (k : ℕ) (atLevel : List ℕ) : List (ℕ × ℕ) :=
  atLevel.zipIdx.filterMap fun (i, j) =>
    if j < plan.stepDown k then some (i, k + 1)
    else if j < plan.stepDown k + plan.stepSkip k then some (i, k + 2)
    else none

def stepLevel (rng : Osm.Stream F S) (plan : StepPlan) (offsetDeg : F) (st : List (Slot F) × S) (k : ℕ) :
    List (Slot F) × S :=
  let atLevel := (List.range st.1.length).filter fun i => (st.1[i]?).any fun s => s.tier = k
  let jittered := rankJitter rng atLevel st.2
  ((stepsAt plan k jittered.1).foldl (pushStep offsetDeg) st.1, jittered.2)

end Slots

/-! ### Buses -/

structure SitingData (F S : Type) where
  region : Region F S
  cities : List (PlacedCity F)
  polygonWeights : List F
  polygonGroup : List (Option ℕ)

section Buses

variable {F S : Type} [Planning F] (rng : Osm.Stream F S) (data : SitingData F S) (levels : List F)

/-- The bus of a slot; there is none where its level is not on the ladder. -/
def slotBus (siteSize : ℕ → ℕ) (slot : Slot F) (state : S) : Option (DraftBus F × S) :=
  let (p, state) :=
    if data.region.contains slot.lon slot.lat then ((slot.lon, slot.lat), state)
    else data.region.samplePoint data.polygonWeights state
  let polygon := (data.region.polygonIndex p.1 p.2).getD 0
  (levels[slot.tier]?).map fun kv =>
    let many := 1 < siteSize slot.site
    let (u, state) := rng.uniform state
    let described := match slot.place with
      | some place => (lit (8 / 10) + lit (12 / 100) * u, display kv ++ " kV bus anchored on " ++ place)
      | none =>
        (lit (55 / 100) + lit (18 / 100) * u,
          "Synthetic " ++ display kv ++ " kV substation placed by population-weighted siting")
    let name := match slot.place with
      | some place => if many then place ++ " " ++ display kv ++ " kV" else place
      | none => "Substation " ++ padded 4 (slot.site + 1) ++ " " ++ display kv ++ " kV"
    ({ lon := p.1
       lat := p.2
       name := name
       place := slot.place
       tier := slot.tier
       baseKv := kv
       kind := if many || slot.tier = 0 then .substation else .load
       confidence := described.1
       polygon := polygon
       island := (data.polygonGroup.getD polygon none).getD 0
       source := .synthetic
       populationWeight := 0
       loadMw := 0
       loadMvar := 0
       annotation := described.2
       site := slot.site }, state)

def slotBuses (slots : List (Slot F)) (state : S) : Option (List (DraftBus F)) :=
  (slots.foldlM (fun (st : List (DraftBus F) × S) slot =>
    (slotBus rng data levels (fun site => slots.countP fun s => s.site = site) slot st.2).map
      fun (bus, next) => (st.1 ++ [bus], next)) ([], state)).map (·.1)

/-- The places that take a site, and points between them. -/
def candidatesOf (t : Tuning F) (sites : ℕ) (state : S) : Option (List (F × F × Option String) × S) :=
  let cities := data.cities.take sites
  (checkedSub sites cities.length).map fun missing =>
    let anchors := cities.map fun c => (c.lon, c.lat)
    let fill := weightedBlueNoisePoints t rng data.region data.polygonWeights missing anchors data.cities state
    (cities.map (fun c => (c.lon, c.lat, some c.name)) ++ fill.1.map (fun p => (p.1, p.2, none)), fill.2)

/-- Sites as many buses as asked for over the levels of a ladder; there are none where a subtraction would
go below zero. -/
def siteHierarchical (t : Tuning F) (targetBusCount : UInt32) (state : S) : Option (List (DraftBus F)) := do
  let depth := levels.length
  let want ← levelCounts t targetBusCount.toNat depth
  let plan ← planSteps t want depth
  let standalone ← standaloneOf want depth plan
  let (candidates, state) ← candidatesOf rng data t standalone.sum state
  let xy := candidates.map fun c => data.region.project (c.1, c.2.1)
  let (levelOf, state) ←
    levelsOf xy t rng depth standalone (Binary64.max data.region.areaKm2 1) state
  let slots := (candidates.zip levelOf).zipIdx.map fun ((c, level), i) =>
    ({ lon := c.1, lat := c.2.1, place := c.2.2, tier := level, site := i } : Slot F)
  let offsetDeg := t.siteOffsetKm / lit 111
  let stepped := (List.range depth).foldl (stepLevel rng plan offsetDeg) (slots, state)
  slotBuses rng data levels stepped.1 stepped.2

end Buses

end Tellegen.Synth
