import Tellegen.Synth.Catchments
import Tellegen.Synth.Delaunay

/-!
The corridors of one island: a spanning tree over all buses, a second one over the highest voltage, a
Gabriel mesh, a few loops, and joins for whatever is still apart. Points are numbered within the island
until the end.
-/

open Binary64
open Tellegen.Osm (haversineKm)

namespace Tellegen.Synth

structure Mesh where
  corridors : Finset Edge
  degree : ℕ → ℕ

namespace Mesh

def empty : Mesh := { corridors := ∅, degree := fun _ => 0 }

def add (m : Mesh) (e : Edge) : Mesh :=
  if (ofLex e).1 = (ofLex e).2 ∨ e ∈ m.corridors then m
  else
    let degree := Function.update m.degree (ofLex e).1 (m.degree (ofLex e).1 + 1)
    { corridors := insert e m.corridors
      degree := Function.update degree (ofLex e).2 (degree (ofLex e).2 + 1) }

end Mesh

/-- Maximum degree the mesh and the loops may create; the trees are exempt. -/
def maxDegree : ℕ := 8

/-- An end of the edge has no room for another corridor. -/
def crowded (m : Mesh) (e : Edge) : Bool :=
  maxDegree ≤ m.degree (ofLex e).1 || maxDegree ≤ m.degree (ofLex e).2

section Phases

variable (target : ℕ)

def addTree (m : Mesh) : List Edge → Mesh
  | [] => m
  | e :: rest => if target ≤ m.corridors.card then m else addTree (m.add e) rest

def addMesh (m : Mesh) : List Edge → Mesh
  | [] => m
  | e :: rest =>
    if target ≤ m.corridors.card then m
    else if crowded m e then addMesh m rest
    else addMesh (m.add e) rest

/-- One loop at each point in turn, the candidates of a point in order of preference. -/
def addLoops (cap : ℕ) (m : Mesh) (added : ℕ) : List (List Edge) → Mesh
  | [] => m
  | candidates :: rest =>
    if cap ≤ added ∨ target ≤ m.corridors.card then m
    else
      match candidates.find? fun e => !(decide (e ∈ m.corridors) || crowded m e) with
      | some e => addLoops cap (m.add e) (added + 1) rest
      | none => addLoops cap m added rest

end Phases

/-! ### Joining what is apart -/

structure Joining where
  mesh : Mesh
  uf : UnionFind ℕ

section Join

variable {F : Type} [Libm F] (points : List (F × F))

def nearerOfRoot (uf : UnionFind ℕ) (root k : ℕ) (best : Option (F × ℕ)) (m : ℕ) : Option (F × ℕ) :=
  if (uf.find m).2 = root then
    let d := dist2 (pointAt points k) (pointAt points m)
    match best with
    | none => if isFinite d then some (d, m) else none
    | some held => if lt d held.1 then some (d, m) else best
  else best

/-- The nearest point to `k` among those of one root; without a distance it is the first point. -/
def nearestOfRoot (uf : UnionFind ℕ) (root k : ℕ) : ℕ :=
  match (List.range points.length).foldl (nearerOfRoot points uf root k) none with
  | some held => held.2
  | none => 0

def joinPoint (root : ℕ) (state : Joining) (k : ℕ) : Joining :=
  if (state.uf.find k).2 = root then state
  else
    let best := nearestOfRoot points state.uf root k
    { mesh := state.mesh.add (Edge.new k best), uf := state.uf.join k best }

def components (uf : UnionFind ℕ) (n : ℕ) : ℕ := ((List.range n).filter fun i => (uf.find i).2 = i).length

/-- Joins every point outside the first one's component to its nearest bus inside. -/
def joinComponents (m : Mesh) : Mesh :=
  let uf := m.corridors.sort.foldl (fun uf e => uf.join (ofLex e).1 (ofLex e).2) (UnionFind.new ℕ)
  if 1 < components uf points.length then
    ((List.range' 1 (points.length - 1)).foldl (joinPoint points (uf.find 0).2) { mesh := m, uf := uf }).mesh
  else m

end Join

/-! ### The phases of an island -/

section Island

variable {F : Type} [Planning F] (triangulate : List (F × F) → Triangles) (own : List (DraftBus F))
  (points : List (F × F)) (uniqueRatio : F)

def greatCircle (e : Edge) : F :=
  match own[(ofLex e).1]?, own[(ofLex e).2]? with
  | some a, some b => haversineKm a.lon a.lat b.lon b.lat
  | _, _ => 0

def lengthOf (edges : List Edge) (k : ℕ) : F := greatCircle own (edgeAt edges k)

def meshTarget : ℕ := Planning.asUsize (Binary64.round (uniqueRatio * Binary64.ofNat own.length))

def islandTriangulation : Triangulation := delaunay points triangulate

def backbone : Mesh :=
  let tri := islandTriangulation triangulate points
  ((minimumSpanningForest tri.edges (lengthOf own tri.edges) own.length).map (edgeAt tri.edges)).foldl
    Mesh.add .empty

def highVoltage : List ℕ :=
  let maxKv := largest (own.map (·.baseKv))
  (List.range own.length).filter fun k => (own[k]?).any fun b => le (maxKv - lit (1 / 10 ^ 6)) b.baseKv

def highOwn : List (DraftBus F) := (highVoltage own).filterMap fun k => own[k]?

def highTriangulation : Triangulation :=
  delaunay ((highVoltage own).map (pointAt points)) triangulate

/-- An edge between points of the highest voltage, in the numbers of the island. -/
def highEdge (e : Edge) : Edge :=
  Edge.new ((highVoltage own).getD (ofLex e).1 0) ((highVoltage own).getD (ofLex e).2 0)

def highTree (m : Mesh) : Mesh :=
  if 2 ≤ (highVoltage own).length then
    let tri := highTriangulation triangulate own points
    addTree (meshTarget own uniqueRatio) m
      ((minimumSpanningForest tri.edges (lengthOf (highOwn own) tri.edges) (highVoltage own).length).map
        fun k => highEdge own (edgeAt tri.edges k))
  else m

def gabrielMesh (m : Mesh) : Mesh :=
  let tri := islandTriangulation triangulate points
  addMesh (meshTarget own uniqueRatio) m
    ((((List.range tri.edges.length).filter (isGabriel points tri)).mergeSort
      (shorterFirst tri.edges (lengthOf own tri.edges))).map (edgeAt tri.edges))

/-- The nearest three neighbours of a point of the highest voltage. -/
def loopCandidates (h : ℕ) : List Edge :=
  let tri := highTriangulation triangulate own points
  let length := fun j => lengthOf (highOwn own) tri.edges (tri.edges.idxOf (Edge.new h j))
  let sorted := (adjacency tri.edges h).mergeSort fun a b =>
    (((partialCmp (length a) (length b)).getD .eq).then (compare a b)).isLE
  (sorted.take 3).map fun j => highEdge own (toLex (h, j))

def loopCap : ℕ :=
  let share : F := lit (5 / 100) * Binary64.ofNat own.length
  Nat.min (Nat.max (Planning.asUsize (Binary64.round share)) 2) 6

def highLoops (m : Mesh) : Mesh :=
  if 3 ≤ (highVoltage own).length then
    addLoops (meshTarget own uniqueRatio) (loopCap own) m 0
      ((List.range (highVoltage own).length).map (loopCandidates triangulate own points))
  else m

def treesOf : Mesh := highTree triangulate own points uniqueRatio (backbone triangulate own points)

def meshOf : Mesh :=
  highLoops triangulate own points uniqueRatio
    (gabrielMesh triangulate own points uniqueRatio (treesOf triangulate own points uniqueRatio))

end Island

/-! ### All together -/

section Whole

variable {F : Type} [Planning F] (triangulate : List (F × F) → Triangles)

def toBuses (idxs : List ℕ) (e : Edge) : Edge :=
  Edge.new (idxs.getD (ofLex e).1 0) (idxs.getD (ofLex e).2 0)

/-- Adds the corridors of one island, and the edges of its triangulation; there is none where an index is
no bus. -/
def islandTopology (buses : List (DraftBus F)) (points : List (F × F)) (idxs : List ℕ) (uniqueRatio : F)
    (edges delaunayEdges : Finset Edge) : Option (Finset Edge × Finset Edge) :=
  if idxs.length < 2 then some (edges, delaunayEdges)
  else
    (idxs.mapM fun i => buses[i]?).map fun own =>
      let ownPoints := idxs.map (pointAt points)
      let tri := islandTriangulation triangulate ownPoints
      let mesh := joinComponents ownPoints (meshOf triangulate own ownPoints uniqueRatio)
      (edges ∪ mesh.corridors.image (toBuses idxs),
        delaunayEdges ∪ (tri.edges.map (toBuses idxs)).toFinset)

end Whole

end Tellegen.Synth
