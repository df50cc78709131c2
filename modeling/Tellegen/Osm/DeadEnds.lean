import Tellegen.Osm.Draft

/-!
Dead ends of a mapped grid: tap and line-end buses without load that at most one corridor reaches. They
are removed with their corridor, again and again, and everything that names a bus by its index is
renumbered.
-/

open Binary64

namespace Tellegen.Osm

variable {F : Type} [Drafting F]

def removable (b : DraftBus F) : Bool :=
  le b.loadMw 0 && (b.kind = .tap || b.name.startsWith "OSM line end")

/-- What names buses: corridors with the ways they come from, sites, and HVDC links. -/
structure MappedGrid (F : Type) where
  buses : List (DraftBus F)
  corridors : List (Corridor F)
  ids : List (List ℤ)
  sites : List (List ℕ)
  hvdc : List (DraftHvdc F)

/-! ### The worklist -/

structure Pruning where
  alive : ℕ → Bool
  live : ℕ → Bool
  degree : ℕ → ℕ
  /-- The top first. -/
  stack : List ℕ

section Worklist

variable (grid : MappedGrid F)

def removableAt (i : ℕ) : Bool := grid.buses[i]?.any removable

/-- The corridors at a bus; one from the bus to itself is there twice. -/
def incident (i : ℕ) : List ℕ :=
  grid.corridors.zipIdx.flatMap fun (c, k) =>
    (if c.a = i then [k] else []) ++ if c.b = i then [k] else []

/-- The corridors count once for each end, an HVDC link twice. -/
def startDegree : ℕ → ℕ :=
  let byCorridors := grid.corridors.foldl (fun degree c =>
    let degree := Function.update degree c.a (degree c.a + 1)
    Function.update degree c.b (degree c.b + 1)) fun _ => 0
  grid.hvdc.foldl (fun degree h =>
    let degree := Function.update degree h.source (degree h.source + 2)
    Function.update degree h.target (degree h.target + 2)) byCorridors

def startPruning : Pruning :=
  let degree := startDegree grid
  { alive := fun _ => true
    live := fun _ => true
    degree
    stack := ((List.range grid.buses.length).filter fun i =>
      degree i ≤ 1 && removableAt grid i).reverse }

/-- A corridor of a bus that is gone goes too; its other end may have become a dead end. -/
def dropCorridor (i : ℕ) (state : Pruning) (k : ℕ) : Pruning :=
  if !state.live k then state
  else
    match grid.corridors[k]? with
    | none => state
    | some c =>
      let other := if c.a = i then c.b else c.a
      let degree := Function.update state.degree other (state.degree other - 1)
      let degree := Function.update degree i (degree i - 1)
      { alive := state.alive
        live := Function.update state.live k false
        degree
        stack :=
          if state.alive other && degree other ≤ 1 && removableAt grid other then other :: state.stack
          else state.stack }

def removeBus (state : Pruning) (i : ℕ) : Pruning :=
  (incident grid i).foldl (dropCorridor grid i) { state with alive := Function.update state.alive i false }

/-- The loop over the stack; `fuel` rounds at most. -/
def prune : ℕ → Pruning → Pruning
  | 0, state => state
  | fuel + 1, state =>
    match state.stack with
    | [] => state
    | i :: rest =>
      let state := { state with stack := rest }
      if !state.alive i || 1 < state.degree i then prune fuel state
      else prune fuel (removeBus grid state i)

/-- As many rounds as the stack can get entries. -/
def pruned : Pruning :=
  prune grid ((startPruning grid).stack.length + grid.corridors.length) (startPruning grid)

end Worklist

/-! ### Renumbering -/

/-- `usize::MAX` -/
def noSite : ℕ := 2 ^ 64 - 1

/-- The new index of each bus; `usize::MAX` for one that is gone. -/
def newIndex (alive : ℕ → Bool) (i : ℕ) : ℕ :=
  if alive i then ((List.range i).filter alive).length else noSite

def renumberSite (n : ℕ) (alive : ℕ → Bool) (b : DraftBus F) : DraftBus F :=
  if b.site ≠ noSite ∧ b.site < n then { b with site := newIndex alive b.site } else b

def renumberCorridor (alive : ℕ → Bool) (c : Corridor F) : Corridor F :=
  { c with a := newIndex alive c.a, b := newIndex alive c.b }

def renumberHvdc (alive : ℕ → Bool) (h : DraftHvdc F) : DraftHvdc F :=
  { h with source := newIndex alive h.source, target := newIndex alive h.target }

/-- `prune_dead_ends`: the grid without its dead ends, and how many buses went. -/
def pruneDeadEnds (grid : MappedGrid F) : MappedGrid F × ℕ :=
  let n := grid.buses.length
  let { alive, live, .. } := pruned grid
  let removed := (List.range n).countP fun i => !alive i
  if removed = 0 then (grid, 0)
  else
    let kept := (grid.corridors.zip grid.ids).zipIdx.filter fun ((c, _), k) =>
      live k && alive c.a && alive c.b
    ({ buses := (grid.buses.zipIdx.filter fun (_, i) => alive i).map fun (b, _) => renumberSite n alive b
       corridors := kept.map fun ((c, _), _) => renumberCorridor alive c
       ids := kept.map fun ((_, id), _) => id
       sites := grid.sites.map fun site => (site.filter alive).map (newIndex alive)
       hvdc := grid.hvdc.map (renumberHvdc alive) },
      removed)

end Tellegen.Osm
