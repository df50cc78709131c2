import Tellegen.Lib.BreadthFirst
import Tellegen.Lib.Lookup

/-!
The forest in which a distribution graph is drawn, as the browser and the engine
build it, and the reach of its sources. Ids are compared after lower-casing, and of
buses with one id the last is meant.
-/

open BreadthFirst

namespace Tellegen

inductive DistEdgeKind where
  | line | switch | transformer
  deriving DecidableEq

structure DistBus (I : Type) where
  id : I
  hasSource : Bool

structure DistEdge (I : Type) where
  kind : DistEdgeKind
  fromBus : I
  toBus : I
  closed : Bool

structure DistGraph (I : Type) where
  buses : List (DistBus I)
  edges : List (DistEdge I)

/-! ### Ends of a branch -/

section

variable {I K : Type} [DecidableEq K] (lower : I → K)

/-- The map from lower-cased ids to buses, in which the last bus of an id stays. -/
def busIndex (graph : DistGraph I) (id : I) : Option ℕ :=
  Lookup.lastIndex (fun bus => lower bus.id = lower id) graph.buses

def branchEnds (graph : DistGraph I) (edge : DistEdge I) : Option (ℕ × ℕ) :=
  match busIndex lower graph edge.fromBus, busIndex lower graph edge.toBus with
  | some a, some b => some (a, b)
  | _, _ => none

/-- The entries of a bus in the adjacency of the closed branches, in branch order. A branch between a
bus and itself has none. -/
def adjacency (graph : DistGraph I) (u : ℕ) : List (ℕ × ℕ) :=
  graph.edges.zipIdx.flatMap fun (edge, k) =>
    match branchEnds lower graph edge with
    | some (a, b) =>
      if edge.closed ∧ a ≠ b then
        (if u = a then [(b, k)] else []) ++ (if u = b then [(a, k)] else [])
      else []
    | none => []

end

def hasSource {I : Type} (graph : DistGraph I) (i : ℕ) : Bool := (graph.buses[i]?).any (·.hasSource)

/-! ### The browser's tree -/

/-- Entries that were not filled in are `none`. -/
structure DisplayTree where
  parent : ℕ → Option ℕ
  parentEdge : ℕ → Option ℕ
  depth : ℕ → Option ℕ
  component : ℕ → Option ℕ
  roots : List ℕ

theorem isSome_update {β : Type} (f : ℕ → Option β) (v : ℕ) (b : β) (x : ℕ) :
    (Function.update f v (some b) x).isSome = (decide (x = v) || (f x).isSome) := by
  by_cases hx : x = v
  · rw [hx, Function.update_self, decide_eq_true rfl, Bool.true_or, Option.isSome_some]
  · rw [Function.update_of_ne hx, decide_eq_false hx, Bool.false_or]

/-- One more than a depth, where a missing depth is -1. -/
def nextDepth (depth : Option ℕ) : ℕ := depth.elim 0 (· + 1)

namespace DisplayTree

def empty : DisplayTree where
  parent _ := none
  parentEdge _ := none
  depth _ := none
  component _ := none
  roots := []

/-- `c` is the component that is growing. -/
def recorder (c : ℕ) : Recorder ℕ ℕ DisplayTree where
  seen tree v := (tree.depth v).isSome
  record tree u v k :=
    { tree with
      parent := Function.update tree.parent v (some u)
      parentEdge := Function.update tree.parentEdge v (some k)
      depth := Function.update tree.depth v (some (nextDepth (tree.depth u)))
      component := Function.update tree.component v (some c) }
  seen_record tree _ v _ x := isSome_update tree.depth v _ x

def grow (adjacent : ℕ → List (ℕ × ℕ)) (n root : ℕ) (tree : DisplayTree) : DisplayTree :=
  let c := tree.roots.length
  let opened : DisplayTree :=
    { parent := Function.update tree.parent root (some root)
      parentEdge := tree.parentEdge
      depth := Function.update tree.depth root (some 0)
      component := Function.update tree.component root (some c)
      roots := tree.roots ++ [root] }
  (run (recorder c) adjacent n { state := opened, done := [], queue := [root] }).state

end DisplayTree

def displayTree {I K : Type} [DecidableEq K] (lower : I → K) (graph : DistGraph I) : DisplayTree :=
  let n := graph.buses.length
  let grown := (List.range n).foldl (fun tree i =>
    if hasSource graph i ∧ (tree.depth i).isNone then
      DisplayTree.grow (adjacency lower graph) n i tree
    else tree) DisplayTree.empty
  (List.range n).foldl (fun tree i =>
    if (tree.depth i).isNone then DisplayTree.grow (adjacency lower graph) n i tree else tree) grown

/-! ### The engine's forest -/

structure Forest where
  parent : ℕ → Option ℕ
  parentEdge : ℕ → Option ℕ
  depth : ℕ → Option ℕ
  roots : List ℕ
  children : ℕ → List ℕ

namespace Forest

def empty : Forest where
  parent _ := none
  parentEdge _ := none
  depth _ := none
  roots := []
  children _ := []

def recorder : Recorder ℕ ℕ Forest where
  seen forest v := (forest.depth v).isSome
  record forest u v k :=
    { forest with
      parent := Function.update forest.parent v (some u)
      parentEdge := Function.update forest.parentEdge v (some k)
      depth := Function.update forest.depth v (some (nextDepth (forest.depth u)))
      children := Function.update forest.children u (forest.children u ++ [v]) }
  seen_record forest _ v _ x := isSome_update forest.depth v _ x

def grow (adjacent : ℕ → List (ℕ × ℕ)) (n root : ℕ) (forest : Forest) : Forest :=
  let opened : Forest :=
    { forest with
      parent := Function.update forest.parent root (some root)
      depth := Function.update forest.depth root (some 0)
      roots := forest.roots ++ [root] }
  (run recorder adjacent n { state := opened, done := [], queue := [root] }).state

end Forest

def forest {I K : Type} [DecidableEq K] (lower : I → K) (graph : DistGraph I) : Forest :=
  let n := graph.buses.length
  let grown := (List.range n).foldl (fun forest i =>
    if hasSource graph i ∧ (forest.depth i).isNone then
      Forest.grow (adjacency lower graph) n i forest
    else forest) Forest.empty
  (List.range n).foldl (fun forest i =>
    if (forest.depth i).isNone then Forest.grow (adjacency lower graph) n i forest else forest) grown

/-! ### Energisation -/

/-- The entries of a bus among the closed branches. A branch between a bus and itself has two. -/
def energisedAdjacency {I K : Type} [DecidableEq K] (lower : I → K) (graph : DistGraph I) (u : ℕ) :
    List (ℕ × Unit) :=
  graph.edges.flatMap fun edge =>
    match branchEnds lower graph edge with
    | some (a, b) =>
      if edge.closed then (if u = a then [(b, ())] else []) ++ (if u = b then [(a, ())] else [])
      else []
    | none => []

def liveRecorder : Recorder ℕ Unit (ℕ → Bool) where
  seen buses v := buses v
  record buses _ v _ := Function.update buses v true
  seen_record buses _ v _ x := by
    by_cases hx : x = v
    · rw [hx, Function.update_self, decide_eq_true rfl, Bool.true_or]
    · rw [Function.update_of_ne hx, decide_eq_false hx, Bool.false_or]

structure Energisation where
  buses : ℕ → Bool
  edges : List Bool
  deadBuses : ℕ

def energisation {I K : Type} [DecidableEq K] (lower : I → K) (graph : DistGraph I) : Energisation :=
  let n := graph.buses.length
  let sources := (List.range n).filter (hasSource graph)
  let search := run liveRecorder (energisedAdjacency lower graph) n
    { state := fun i => i < n ∧ hasSource graph i, done := [], queue := sources }
  { buses := search.state
    edges := graph.edges.map fun edge =>
      ((busIndex lower graph edge.fromBus).any search.state) ||
        ((busIndex lower graph edge.toBus).any search.state)
    deadBuses := n - (search.done ++ search.queue).length }

end Tellegen
