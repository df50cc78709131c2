import Tellegen.Lib.UnionFind
import Tellegen.Osm.Generators

/-!
Ties that connect the fragments of a mapped grid: the shortest tie from the joined part to another
fragment, one fragment after another, and then a tie at each other voltage that a fragment shares with
its surroundings.
-/

open Binary64

namespace Tellegen.Osm

variable {F : Type} [Drafting F] (buses : List (DraftBus F))

/-! ### Fragments -/

def corridorForest (corridors : List (Corridor F)) : UnionFind ℕ :=
  corridors.foldl (fun uf c => uf.join c.a c.b) (UnionFind.new ℕ)

/-- The roots among the first `n` elements. -/
def components (uf : UnionFind ℕ) (n : ℕ) : ℕ := (List.range n).countP fun i => (uf.find i).2 = i

/-- The root of a bus; searches change no root. -/
def fragmentOf (corridors : List (Corridor F)) (i : ℕ) : ℕ := ((corridorForest corridors).find i).2

/-! ### Ties -/

def distanceKm (i j : Fin buses.length) : F :=
  haversineKm buses[i].lon buses[i].lat buses[j].lon buses[j].lat

/-- The distance, doubled between different voltages. -/
def tieWeight (i j : Fin buses.length) : F :=
  distanceKm buses i j *
    if lt (Binary64.abs (buses[i].baseKv - buses[j].baseKv)) (lit (1 / 10 ^ 6)) then 1 else lit 2

def interconnect (i j : Fin buses.length) (km : F) : Corridor F :=
  let a := Min.min i j
  let b := Max.max i j
  { a, b
    kv := Binary64.max buses[a].baseKv buses[b].baseKv
    lengthKm := Binary64.max km 1
    role := .interconnect
    circuits := 1
    route := [(buses[a].lon, buses[a].lat), (buses[b].lon, buses[b].lat)]
    isDelaunay := false }

/-! ### Growth -/

/-- The best tie of each bus outside the tree. The table starts at an infinite weight and no bus; no
weight is a NaN, as a distance takes the minimum of its root and one. -/
abbrev BestTies (F : Type) (n : ℕ) := Fin n → Option (F × Fin n)

def relax (inTree : Fin buses.length → Bool) (best : BestTies F buses.length) (t : Fin buses.length) :
    BestTies F buses.length := fun i =>
  if inTree i then best i
  else
    match best i with
    | none => some (tieWeight buses i t, t)
    | some (w, j) =>
      let w' := tieWeight buses i t
      if lt w' w || (Binary64.eq w' w && t < j) then some (w', t) else some (w, j)

structure Tree (F : Type) (n : ℕ) where
  inTree : Fin n → Bool
  best : BestTies F n
  /-- Each tie by its bus outside the tree and its bus inside. -/
  ties : List (Fin n × Fin n)

/-- The fragment of bus 0. -/
def startTree (fragment : ℕ → ℕ) : Tree F buses.length :=
  let inTree := fun i : Fin buses.length => decide (fragment i = fragment 0)
  { inTree
    best := ((List.finRange buses.length).filter inTree).foldl (relax buses inTree) fun _ => none
    ties := [] }

def Tree.frontier {n : ℕ} (tree : Tree F n) : List (Fin n × F × Fin n) :=
  (List.finRange n).filterMap fun i =>
    if tree.inTree i then none else (tree.best i).map fun (w, j) => (i, w, j)

def Tree.pick {n : ℕ} (tree : Tree F n) : Option (Fin n × F × Fin n) :=
  minBy (fun x y => lt x.2.1 y.2.1 || (Binary64.eq x.2.1 y.2.1 && x.1 < y.1)) tree.frontier

/-- The whole fragment of `i` joins the tree. -/
def Tree.join (fragment : ℕ → ℕ) (tree : Tree F buses.length) (i j : Fin buses.length) :
    Tree F buses.length :=
  let newly := (List.finRange buses.length).filter fun k => !tree.inTree k && fragment k = fragment i
  let inTree := fun k => tree.inTree k || decide (k ∈ newly)
  { inTree
    best := newly.foldl (relax buses inTree) tree.best
    ties := tree.ties ++ [(i, j)] }

/-- The loop; `fuel` rounds at most. -/
def growTree (fragment : ℕ → ℕ) : ℕ → Tree F buses.length → Tree F buses.length
  | 0, tree => tree
  | fuel + 1, tree =>
    match tree.pick with
    | none => tree
    | some (i, _, j) => growTree fragment fuel (tree.join buses fragment i j)

def treeCorridors (ties : List (Fin buses.length × Fin buses.length)) : List (Corridor F) :=
  ties.map fun (i, j) => interconnect buses i j (distanceKm buses (Min.min i j) (Max.max i j))

/-! ### Parallel ties -/

def parallelTieKm : F := lit 50

def levelOf (i : Fin buses.length) : ℤ := Drafting.asI64 (Binary64.round (buses[i].baseKv * lit 1000))

def fragmentMembers (fragment : ℕ → ℕ) (root : ℕ) : List (Fin buses.length) :=
  (List.finRange buses.length).filter fun i => fragment i = root

def fragmentRoots (fragment : ℕ → ℕ) : List ℕ :=
  ascending ((List.finRange buses.length).map fun i => fragment i)

/-- `max_by_key`: the last of the largest. -/
def maxByKey {α : Type} (size : α → ℕ) (values : List α) : Option α :=
  values.foldl (fun best a =>
    match best with
    | none => some a
    | some b => if size b ≤ size a then some a else some b) none

/-- The fragments but the largest, each with its voltage levels. -/
def tieRequests (fragment : ℕ → ℕ) : List (ℕ × ℤ) :=
  let largest := maxByKey (fun root => (fragmentMembers buses fragment root).length)
    (fragmentRoots buses fragment)
  ((fragmentRoots buses fragment).filter fun root => some root ≠ largest).flatMap fun root =>
    (ascending ((fragmentMembers buses fragment root).map (levelOf buses))).map fun level => (root, level)

/-- The pairs of buses of a level that a tie out of the fragment may join. -/
def tiePairs (fragment : ℕ → ℕ) (request : ℕ × ℤ) : List (Fin buses.length × Fin buses.length) :=
  ((fragmentMembers buses fragment request.1).filter fun i => levelOf buses i = request.2).flatMap fun i =>
    ((List.finRange buses.length).filter fun j =>
      levelOf buses j = request.2 ∧ fragment j ≠ request.1).map fun j => (i, j)

/-- The first of the shortest, within reach. -/
def closestTie (pairs : List (Fin buses.length × Fin buses.length)) :
    Option (F × Fin buses.length × Fin buses.length) :=
  pairs.foldl (fun best (i, j) =>
    let d := distanceKm buses i j
    if le d parallelTieKm && best.all (fun (bd, _) => lt d bd) then some (d, i, j) else best) none

def cornersOf (c : Corridor F) : ℕ × ℕ := (Min.min c.a c.b, Max.max c.a c.b)

/-- One request; `pairs` are the pairs of buses that a corridor joins. -/
def addParallel (fragment : ℕ → ℕ) (state : List (ℕ × ℕ) × List (Corridor F)) (request : ℕ × ℤ) :
    List (ℕ × ℕ) × List (Corridor F) :=
  match closestTie buses (tiePairs buses fragment request) with
  | none => state
  | some (d, i, j) =>
    let c := interconnect buses i j d
    if (c.a, c.b) ∈ state.1 then state else ((c.a, c.b) :: state.1, state.2 ++ [c])

def parallelTies (fragment : ℕ → ℕ) (corridors : List (Corridor F)) : List (Corridor F) :=
  ((tieRequests buses fragment).foldl (addParallel buses fragment) (corridors.map cornersOf, [])).2

/-- `connect_components`: the corridors, and how many were added. -/
def connectComponents (corridors : List (Corridor F)) : List (Corridor F) × ℕ :=
  if buses.length < 2 then (corridors, 0)
  else if components (corridorForest corridors) buses.length ≤ 1 then (corridors, 0)
  else
    let fragment := fragmentOf corridors
    let ties := treeCorridors buses (growTree buses fragment buses.length (startTree buses fragment)).ties
    let extra := parallelTies buses fragment (corridors ++ ties)
    (corridors ++ ties ++ extra, ties.length + extra.length)

end Tellegen.Osm
