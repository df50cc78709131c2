import Tellegen.Synth.Draft

/-!
Tap junctions of a pocket tree: where the tree bends sharply, and off the lines that pass straight through
a bus. A tap is a new point, and becomes a bus at once.
-/

open Binary64
open Tellegen.Osm (Drafting)

namespace Tellegen.Synth

/-! ### Edges at a tap -/

section Edges

def cutEdges (edges : Finset Edge) (v : ℕ) (ends : List ℕ) : Finset Edge :=
  ends.foldl (fun edges w => edges.erase (Edge.new v w)) edges

def joinEdges (edges : Finset Edge) (tap : ℕ) (ends : List ℕ) : Finset Edge :=
  ends.foldl (fun edges w => insert (Edge.new tap w) edges) edges

end Edges

/-- What both passes hold: `A` is how a pass keeps the neighbours. -/
structure Tapping (F S A : Type) where
  points : List (F × F)
  edges : Finset Edge
  adj : A
  rng : S
  /-- The bus that each tap was made for. -/
  taps : List ℕ

variable {F S : Type} [Drafting F] (t : Tuning F) (rng : Osm.Stream F S)

/-! ### Bends -/

/-- Weiszfeld's iteration for the Fermat point of three points, from their centroid. -/
def fermatPoint (p : List (F × F)) : F × F :=
  let start := (sum (p.map (·.1)) / lit 3, sum (p.map (·.2)) / lit 3)
  (List.range 40).foldl (fun x _ =>
    let (nx, ny, w) := p.foldl (fun (nx, ny, w) q =>
      let d := Binary64.max (dist q x) (lit (1 / 10 ^ 9))
      (nx + q.1 / d, ny + q.2 / d, w + 1 / d)) (0, 0, 0)
    (nx / w, ny / w)) start

structure Bend (F : Type) where
  saving : F
  a : ℕ
  b : ℕ
  fermat : F × F

/-- A bend at `v` of less than 120 degrees whose junction saves enough length. -/
def bendAt (points : List (F × F)) (v a b : ℕ) : Option (Bend F) :=
  let pv := pointAt points v
  let pa := pointAt points a
  let pb := pointAt points b
  let ax := pa.1 - pv.1
  let ay := pa.2 - pv.2
  let bx := pb.1 - pv.1
  let by' := pb.2 - pv.2
  let la := Libm.hypot ax ay
  let lb := Libm.hypot bx by'
  if le la 0 || le lb 0 then none
  else
    let cos := (ax * bx + ay * by') / (la * lb)
    if le cos (lit (-1 / 2)) then none
    else
      let s := fermatPoint [pv, pa, pb]
      let saving := la + lb - (dist s pv + dist s pa + dist s pb)
      if lt t.tapMinSavingKm saving then some { saving := saving, a := a, b := b, fermat := s }
      else none

def pairsOf : List ℕ → List (ℕ × ℕ)
  | [] => []
  | a :: rest => rest.map (fun b => (a, b)) ++ pairsOf rest

def keepBend (best : Option (Bend F)) (bend : Bend F) : Option (Bend F) :=
  if best.all fun held => lt held.saving bend.saving then some bend else best

def bestBend (points : List (F × F)) (v : ℕ) (nb : List ℕ) : Option (Bend F) :=
  (pairsOf nb).foldl (fun best pair =>
    match bendAt t points v pair.1 pair.2 with
    | some bend => keepBend best bend
    | none => best) none

/-- Where the junction of a bend stands: at the fence of the substation, or where the sections meet. -/
def junction (pv fermat : F × F) (u : F) : F × F :=
  if lt u t.tapAtSiteShare then
    let d := Binary64.max (dist fermat pv) (lit (1 / 10 ^ 9))
    let k := Binary64.min (t.tapSpurKm / d) 1
    (pv.1 + k * (fermat.1 - pv.1), pv.2 + k * (fermat.2 - pv.2))
  else fermat

def linkBoth (adj : ℕ → Finset ℕ) (a b : ℕ) : ℕ → Finset ℕ :=
  let adj := Function.update adj a (insert b (adj a))
  Function.update adj b (insert a (adj b))

def unlinkBoth (adj : ℕ → Finset ℕ) (a b : ℕ) : ℕ → Finset ℕ :=
  let adj := Function.update adj a ((adj a).erase b)
  Function.update adj b ((adj b).erase a)

def tapBend (st : Tapping F S (ℕ → Finset ℕ)) (v : ℕ) : Tapping F S (ℕ → Finset ℕ) :=
  let nb := (st.adj v).sort
  if nb.length < 2 then st
  else
    match bestBend t st.points v nb with
    | none => st
    | some bend =>
      let (u, next) := rng.uniform st.rng
      if le t.tapShare u then { st with rng := next }
      else
        let (u, next) := rng.uniform next
        let tap := st.points.length
        let cut := [bend.a, bend.b].foldl (fun adj w => unlinkBoth adj v w) st.adj
        { points := st.points ++ [junction t (pointAt st.points v) bend.fermat u]
          edges := joinEdges (cutEdges st.edges v [bend.a, bend.b]) tap [v, bend.a, bend.b]
          adj := [v, bend.a, bend.b].foldl (fun adj w => linkBoth adj tap w) cut
          rng := next
          taps := st.taps ++ [v] }

/-- Replaces sharp bends of a forest by tap junctions. -/
def steinerize (points : List (F × F)) (edges : Finset Edge) (nodes : List ℕ) (state : S) :
    Tapping F S (ℕ → Finset ℕ) :=
  let adj := edges.sort.foldl (fun adj e => linkBoth adj (ofLex e).1 (ofLex e).2) fun _ => ∅
  let start := { points := points, edges := edges, adj := adj, rng := state, taps := [] }
  (List.range 2).foldl (fun st _ => nodes.foldl (tapBend t rng) st) start

/-! ### Straight lines -/

def pushNeighbour (adj : ℕ → Option (List ℕ)) (a b : ℕ) : ℕ → Option (List ℕ) :=
  Function.update adj a (some ((adj a).getD [] ++ [b]))

/-- The line at `w` ends at the tap instead of at `v`. -/
def retarget (v tap : ℕ) (adj : ℕ → Option (List ℕ)) (w : ℕ) : ℕ → Option (List ℕ) :=
  match adj w with
  | some l => Function.update adj w (some (l.filter (fun x => x ≠ v) ++ [tap]))
  | none => adj

/-- A point at the fence of `v`, to one side of the line. -/
def fencePoint (pa pb pv : F × F) (u : F) : F × F :=
  let dx := pb.1 - pa.1
  let dy := pb.2 - pa.2
  let len := Binary64.max (Libm.hypot dx dy) (lit (1 / 10 ^ 9))
  let side := if lt u (lit (1 / 2)) then 1 else -1
  (pv.1 - dy / len * t.tapSpurKm * side, pv.2 + dx / len * t.tapSpurKm * side)

def tapStraight (isProtected : ℕ → Bool) (st : Tapping F S (ℕ → Option (List ℕ))) (v : ℕ) :
    Tapping F S (ℕ → Option (List ℕ)) :=
  if isProtected v then st
  else
    match st.adj v with
    | some [a, b] =>
      let (u, next) := rng.uniform st.rng
      if le t.tapStraightShare u then { st with rng := next }
      else
        let (u, next) := rng.uniform next
        let tap := st.points.length
        let s := fencePoint t (pointAt st.points a) (pointAt st.points b) (pointAt st.points v) u
        let adj := [a, b].foldl (retarget v tap) st.adj
        { points := st.points ++ [s]
          edges := joinEdges (cutEdges st.edges v [a, b]) tap [a, b, v]
          adj := Function.update (Function.update adj v (some [tap])) tap (some [a, b, v])
          rng := next
          taps := st.taps ++ [v] }
    | _ => st

/-- Taps off the substations that a line passes straight through. -/
def straightTaps (points : List (F × F)) (edges : Finset Edge) (nodes : List ℕ)
    (isProtected : ℕ → Bool) (state : S) : Tapping F S (ℕ → Option (List ℕ)) :=
  let adj := edges.sort.foldl (fun adj e =>
    pushNeighbour (pushNeighbour adj (ofLex e).1 (ofLex e).2) (ofLex e).2 (ofLex e).1) fun _ => none
  let start := { points := points, edges := edges, adj := adj, rng := state, taps := [] }
  nodes.foldl (tapStraight t rng isProtected) start

/-! ### Tap buses -/

structure RegionShape (F : Type) where
  unproject : F × F → F × F
  polygonIndex : F → F → Option ℕ

def padded (width n : ℕ) : String :=
  let digits := toString n
  String.ofList (List.replicate (width - digits.length) '0') ++ digits

def usizeMax : ℕ := 2 ^ 64 - 1

/-- `tap_bus`, at the level of the bus `src`. -/
def tapBus (shape : RegionShape F) (buses : List (DraftBus F)) (src : DraftBus F) (position : F × F) :
    DraftBus F :=
  let n := buses.countP fun b => b.kind = .tap
  { lon := position.1
    lat := position.2
    name := "Tap " ++ padded 4 (n + 1) ++ " " ++ display src.baseKv ++ " kV"
    place := none
    tier := src.tier
    baseKv := src.baseKv
    kind := .tap
    confidence := lit (1 / 2)
    polygon := (shape.polygonIndex position.1 position.2).getD src.polygon
    island := src.island
    source := .synthetic
    populationWeight := 0
    loadMw := 0
    loadMvar := 0
    annotation := "Tap junction where a line branches to a substation"
    site := usizeMax - buses.length }

/-- Tap `k` becomes a bus; there is none where it was made for no bus. -/
def pushTap (shape : RegionShape F) (points : List (F × F)) (buses : List (DraftBus F)) (k v : ℕ) :
    Option (List (DraftBus F)) :=
  (buses[v]?).map fun src =>
    buses ++ [tapBus shape buses src (shape.unproject (pointAt points k))]

structure Pocket (F S : Type) where
  points : List (F × F)
  tree : Finset Edge
  buses : List (DraftBus F)
  fed : List Bool
  rng : S

/-- Both passes over a pocket; its taps become buses at once. -/
def tapPocket (shape : RegionShape F) (members : List ℕ) (isProtected : ℕ → Bool)
    (pocket : Pocket F S) : Option (Pocket F S) :=
  let before := pocket.points.length
  let bends := steinerize t rng pocket.points pocket.tree members pocket.rng
  let straight := straightTaps t rng bends.points bends.edges members isProtected bends.rng
  let made := bends.taps ++ straight.taps
  (made.zipIdx.foldlM (fun buses tap => pushTap shape straight.points buses (before + tap.2) tap.1)
    pocket.buses).map fun buses =>
      { points := straight.points
        tree := straight.edges
        buses := buses
        fed := pocket.fed ++ List.replicate made.length false
        rng := straight.rng }

end Tellegen.Synth
