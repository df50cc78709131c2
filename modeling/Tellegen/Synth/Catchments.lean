import Tellegen.Lib.RingSearch
import Tellegen.Synth.Draft

/-!
The load that each member of a level serves, by the nearest member to every bus below it, and the loads of
a site on its lowest bus. The nearest member is searched for on a grid of cells, ring by ring.
-/

open Binary64

namespace Tellegen.Synth

variable {F : Type} [Planning F]

/-! ### Cells -/

def largest (values : List F) : F :=
  match values with
  | [] => 0
  | a :: rest => rest.foldl Binary64.max a

def smallest (values : List F) : F :=
  match values with
  | [] => 0
  | a :: rest => rest.foldl Binary64.min a

def ceil (a : F) : F := -Binary64.floor (-a)

structure CellGrid (F : Type) where
  x0 : F
  y0 : F
  cell : F
  cols : ℕ
  rows : ℕ

def cellGrid (members : List ℕ) (points : List (F × F)) : CellGrid F :=
  let xs := members.map fun i => (pointAt points i).1
  let ys := members.map fun i => (pointAt points i).2
  let width := largest xs - smallest xs
  let height := largest ys - smallest ys
  let cell := Binary64.max
    (Libm.sqrt (Binary64.max (width * height) 1 / Binary64.ofNat members.length)) 1 * lit 2
  { x0 := smallest xs
    y0 := smallest ys
    cell := cell
    cols := Nat.min (Planning.asUsize (ceil (width / cell)) + 1) 4096
    rows := Nat.min (Planning.asUsize (ceil (height / cell)) + 1) 4096 }

/-- The cell of a coordinate; beyond the grid it is the last one. -/
def cellAlong (origin cell : F) (count : ℕ) (x : F) : ℕ :=
  Nat.min (Planning.asUsize (Binary64.max (Binary64.floor ((x - origin) / cell)) 0)) (count - 1)

def CellGrid.key (grid : CellGrid F) (p : F × F) : ℕ × ℕ :=
  (cellAlong grid.x0 grid.cell grid.cols p.1, cellAlong grid.y0 grid.cell grid.rows p.2)

/-! ### The nearest member -/

section Nearest

variable (members : List ℕ) (points : List (F × F)) (grid : CellGrid F)

/-- A member's slot and its distance from a point. -/
def atSlot (p : F × F) (slot : ℕ) : F × ℕ :=
  (dist (pointAt points (members.getD slot 0)) p, slot)

/-- The nearer one, and of two at one distance the lower slot. -/
def nearer (a b : F × ℕ) : Bool := lt a.1 b.1 || (Binary64.eq a.1 b.1 && a.2 < b.2)

def slotsIn (cell : ℕ × ℕ) : List ℕ :=
  (List.range members.length).filter fun slot =>
    grid.key (pointAt points (members.getD slot 0)) = cell

/-- The cells along one side of a window that the grid has. -/
def window (centre ring last : ℕ) : List ℕ :=
  List.range' (centre - ring) (Nat.min (centre + ring) last + 1 - (centre - ring))

def absDiff (a b : ℕ) : ℕ := if a < b then b - a else a - b

/-- The slots in the cells on a ring around a cell. -/
def ringSlots (centre : ℕ × ℕ) (ring : ℕ) : List ℕ :=
  (window centre.2 ring (grid.rows - 1)).flatMap fun rr =>
    (window centre.1 ring (grid.cols - 1)).flatMap fun cc =>
      if absDiff rr centre.2 ≠ ring ∧ absDiff cc centre.1 ≠ ring then []
      else slotsIn members points grid (cc, rr)

/-- Anything beyond the next ring is farther than a hit in this one. -/
def closeEnough (ring : ℕ) (best : F × ℕ) : Bool := le best.1 (Binary64.ofNat ring * grid.cell)

def nearestMember (p : F × F) : Option (F × ℕ) :=
  RingSearch.scan nearer
    (fun ring => (ringSlots members points grid (grid.key p) ring).map (atSlot members points p))
    (closeEnough grid) (Nat.max grid.cols grid.rows + 1) 0 none

end Nearest

/-! ### Catchments -/

/-- A bus that hangs off the level: on its island, at the level or below, with load. -/
def hangsOff (island tier : ℕ) (b : DraftBus F) : Bool :=
  !(b.island ≠ island || b.tier < tier || le b.loadMw 0)

def addLoad (host : ℕ → F) (nearest : Option (F × ℕ)) (mw : F) : ℕ → F :=
  match nearest with
  | some (_, slot) => Function.update host slot (host slot + mw)
  | none => host

/-- The load that each member of a level serves; there is none where a member is no bus. -/
def catchmentLoads (buses : List (DraftBus F)) (members : List ℕ) (points : List (F × F)) (tier : ℕ) :
    Option (List F) :=
  match members with
  | [] => some []
  | first :: _ =>
    (buses[first]?).map fun bus =>
      let grid := cellGrid members points
      let host := buses.zipIdx.foldl (fun host (b, i) =>
        if hangsOff bus.island tier b then
          addLoad host (nearestMember members points grid (pointAt points i)) b.loadMw
        else host) fun _ => 0
      (List.range members.length).map host

/-! ### Sites -/

/-- The lowest bus of each site: the first of its deepest level. -/
def lowestOf (buses : List (DraftBus F)) : ℕ → Option ℕ :=
  buses.zipIdx.foldl (fun lowest (b, i) =>
    match lowest b.site with
    | none => Function.update lowest b.site (some i)
    | some e =>
      if (buses[e]?).any fun held => held.tier < b.tier then Function.update lowest b.site (some i)
      else lowest) fun _ => none

def handLoad (src low : ℕ) (b : DraftBus F) (buses : List (DraftBus F)) : List (DraftBus F) :=
  (buses.modify low fun held =>
    { held with
      loadMw := held.loadMw + b.loadMw
      loadMvar := held.loadMvar + b.loadMvar
      populationWeight := held.populationWeight + b.populationWeight }).modify src fun held =>
    { held with loadMw := 0, loadMvar := 0, populationWeight := 0 }

def settleBus (lowest : ℕ → Option ℕ) (buses : List (DraftBus F)) (i : ℕ) : List (DraftBus F) :=
  match buses[i]? with
  | none => buses
  | some b =>
    match lowest b.site with
    | some low => if low ≠ i then handLoad i low b buses else buses
    | none => buses

/-- A substation serves its load from its lowest voltage. -/
def settleSiteLoads (buses : List (DraftBus F)) : List (DraftBus F) :=
  (List.range buses.length).foldl (settleBus (lowestOf buses)) buses

end Tellegen.Synth
