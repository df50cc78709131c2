import Mathlib.Data.List.Destutter
import Tellegen.Lib.SpanningForest
import Tellegen.Synth.Draft

/-!
The edges of a Delaunay triangulation, with the chain that stands in where no triangle exists, the minimum
spanning forest over them and the Gabriel test. The triangulation itself is a parameter.
-/

open Binary64

namespace Tellegen.Synth

/-- What the triangulation of points returns: the corners of its triangles, and its hull. -/
structure Triangles where
  triangles : List ℕ
  hull : List ℕ

/-- Edges, and for each one the third corner of the triangles at it. -/
structure Triangulation where
  edges : List Edge
  opposite : List (Option ℕ × Option ℕ)

namespace Triangulation

def empty : Triangulation := { edges := [], opposite := [] }

def push (tri : Triangulation) (e : Edge) (opposite : Option ℕ × Option ℕ) : Triangulation :=
  { edges := tri.edges ++ [e], opposite := tri.opposite ++ [opposite] }

/-- The edge from a corner of a triangle to the next one. -/
def addCorner (tri : Triangulation) (a b c : ℕ) : Triangulation :=
  match tri.edges.idxOf? (Edge.new a b) with
  | some k =>
    { tri with opposite := tri.opposite.modify k fun o => if o.1 ≠ some c then (o.1, some c) else o }
  | none => tri.push (Edge.new a b) (some c, none)

end Triangulation

def nextHalfedge (e : ℕ) : ℕ := if e % 3 = 2 then e - 2 else e + 1

def prevHalfedge (e : ℕ) : ℕ := if e % 3 = 0 then e + 2 else e - 1

section Geometry

variable {F : Type} [Libm F]

def dist2 (a b : F × F) : F := (a.1 - b.1) * (a.1 - b.1) + (a.2 - b.2) * (a.2 - b.2)

section Points

variable (points : List (F × F))

def keepNearer (i : ℕ) (best : Option (F × ℕ)) (j : ℕ) : Option (F × ℕ) :=
  if j = i then best
  else
    let d := dist2 (pointAt points i) (pointAt points j)
    match best with
    | none => if eq d d then some (d, j) else none
    | some (held, b) => if lt d held || (eq d held && j < b) then some (d, j) else best

/-- Connects a point that is in no edge to its nearest neighbour. -/
def attachPoint (state : Triangulation × (ℕ → Bool)) (i : ℕ) : Triangulation × (ℕ → Bool) :=
  if state.2 i then state
  else
    match (List.range points.length).foldl (keepNearer points i) none with
    | some (_, j) => (state.1.push (Edge.new i j) (none, none), Function.update state.2 i true)
    | none => state

def attachIsolated (tri : Triangulation) : Triangulation :=
  let present := tri.edges.foldl (fun present e =>
    Function.update (Function.update present (ofLex e).1 true) (ofLex e).2 true) fun _ => false
  ((List.range points.length).foldl (attachPoint points) (tri, present)).1

/-- Whether the first point is not after the second one, by longitude and then latitude. -/
def pointBefore (a b : F × F) : Bool :=
  match (partialCmp a.1 b.1).bind fun ord => if ord = .eq then partialCmp a.2 b.2 else some ord with
  | some ord => ord.isLE
  | none => true

def chainOrder (hull : List ℕ) : List ℕ :=
  (if hull.length = points.length then hull
  else (List.range points.length).mergeSort fun a b =>
    pointBefore (pointAt points a) (pointAt points b)).destutter (· ≠ ·)

def delaunay (triangulate : List (F × F) → Triangles) : Triangulation :=
  match points with
  | [] => .empty
  | [_] => .empty
  | [_, _] => Triangulation.empty.push (Edge.new 0 1) (none, none)
  | _ =>
    let found := triangulate points
    if found.triangles = [] then
      let order := chainOrder points found.hull
      attachIsolated points
        ((order.zip order.tail).foldl (fun tri w => tri.push (Edge.new w.1 w.2) (none, none)) .empty)
    else
      attachIsolated points
        ((List.range found.triangles.length).foldl (fun tri e =>
          tri.addCorner (found.triangles.getD e 0) (found.triangles.getD (nextHalfedge e) 0)
            (found.triangles.getD (prevHalfedge e) 0)) .empty)

/-- No corner opposite to the edge lies inside the circle that has the edge as its diameter. -/
def isGabriel (tri : Triangulation) (k : ℕ) : Bool :=
  let e := tri.edges.getD k (Edge.new 0 0)
  let i := pointAt points (ofLex e).1
  let j := pointAt points (ofLex e).2
  let d2 := dist2 i j
  let opposite := tri.opposite.getD k (none, none)
  [opposite.1, opposite.2].reduceOption.all fun c =>
    let p := pointAt points c
    le (d2 - lit (1 / 10 ^ 9) * d2) (dist2 i p + dist2 j p)

end Points

/-! ### Spanning forests -/

section Forest

variable (edges : List Edge) (weight : ℕ → F)

def edgeAt (k : ℕ) : Edge := edges.getD k (Edge.new 0 0)

/-- Shorter edges first, and of two of one length the lower one. -/
def shorterFirst (a b : ℕ) : Bool :=
  (((partialCmp (weight a) (weight b)).getD .eq).then (compare (edgeAt edges a) (edgeAt edges b))).isLE

/-- Kruskal's algorithm: the indices of the edges it chooses. -/
def minimumSpanningForest (n : ℕ) : List ℕ :=
  SpanningForest.grow (fun k => ofLex (edgeAt edges k)) n
    ((List.range edges.length).mergeSort (shorterFirst edges weight)) (UnionFind.new ℕ) 0

/-- The neighbours of each of `n` points. -/
def adjacency (h : ℕ) : List ℕ :=
  edges.flatMap fun e =>
    (if (ofLex e).1 = h then [(ofLex e).2] else []) ++ if (ofLex e).2 = h then [(ofLex e).1] else []

end Forest

end Geometry

/-! ### Edges between points -/

/-- Edges between points below `n`, the smaller end first. -/
def EdgesBelow (n : ℕ) (edges : List Edge) : Prop :=
  ∀ e ∈ edges, (ofLex e).1 ≤ (ofLex e).2 ∧ (ofLex e).2 < n

structure NamesPoints {F : Type} (triangulate : List (F × F) → Triangles) : Prop where
  corner : ∀ points, ∀ c ∈ (triangulate points).triangles, c < points.length
  hull : ∀ points, ∀ c ∈ (triangulate points).hull, c < points.length

section Below

variable {F : Type} [Libm F] {n : ℕ} {tri : Triangulation}

theorem EdgesBelow.push (h : EdgesBelow n tri.edges) {a b : ℕ} (ha : a < n) (hb : b < n)
    (opposite : Option ℕ × Option ℕ) : EdgesBelow n (tri.push (Edge.new a b) opposite).edges := by
  intro e he
  rcases List.mem_append.mp he with he | he
  · exact h e he
  · rw [List.mem_singleton.mp he, Edge.new_snd]
    refine ⟨?_, max_lt ha hb⟩
    unfold Edge.new
    split
    case isTrue hlt => exact (Nat.le_max_left _ _)
    case isFalse => exact (Nat.le_max_right _ _)

theorem EdgesBelow.addCorner (h : EdgesBelow n tri.edges) {a b : ℕ} (ha : a < n) (hb : b < n) (c : ℕ) :
    EdgesBelow n (tri.addCorner a b c).edges := by
  unfold Triangulation.addCorner
  split
  · exact h
  · exact h.push ha hb _

theorem EdgesBelow.foldl {α : Type} {f : Triangulation → α → Triangulation} {list : List α}
    (hstep : ∀ tri, ∀ a ∈ list, EdgesBelow n tri.edges → EdgesBelow n (f tri a).edges)
    (h : EdgesBelow n tri.edges) : EdgesBelow n (list.foldl f tri).edges := by
  induction list generalizing tri with
  | nil => exact h
  | cons a rest ih =>
    apply ih
    · exact fun tri b hb => hstep tri b (List.mem_cons_of_mem _ hb)
    · exact hstep tri a List.mem_cons_self h

theorem keepNearer_below (points : List (F × F)) (i : ℕ) (list : List ℕ) (best : Option (F × ℕ))
    (hlist : ∀ j ∈ list, j < n) (hbest : ∀ a ∈ best, a.2 < n) :
    ∀ a ∈ list.foldl (keepNearer points i) best, a.2 < n := by
  induction list generalizing best with
  | nil => exact hbest
  | cons j rest ih =>
    apply ih
    · exact fun k hk => hlist k (List.mem_cons_of_mem _ hk)
    · have hj := hlist j List.mem_cons_self
      simp only [keepNearer]
      split
      · exact hbest
      · cases best with
        | none =>
          dsimp only
          split
          · rintro a ⟨⟩
            exact hj
          · exact fun a ha => nomatch ha
        | some held =>
          dsimp only
          split
          · rintro a ⟨⟩
            exact hj
          · exact hbest

theorem EdgesBelow.attachIsolated {points : List (F × F)} (h : EdgesBelow points.length tri.edges) :
    EdgesBelow points.length (attachIsolated points tri).edges := by
  have hfold : ∀ (list : List ℕ) (state : Triangulation × (ℕ → Bool)), (∀ i ∈ list, i < points.length) →
      EdgesBelow points.length state.1.edges →
      EdgesBelow points.length (list.foldl (attachPoint points) state).1.edges := by
    intro list
    induction list with
    | nil => exact fun _ _ h => h
    | cons i rest ih =>
      intro state hlist hstate
      apply ih
      · exact fun k hk => hlist k (List.mem_cons_of_mem _ hk)
      · unfold attachPoint
        split
        · exact hstate
        · split
          case h_1 d j hj =>
            apply hstate.push (hlist i List.mem_cons_self)
            exact keepNearer_below points i _ none (fun _ hk => List.mem_range.mp hk)
              (fun _ ha => nomatch ha) _ hj
          case h_2 => exact hstate
  exact hfold _ _ (fun _ hi => List.mem_range.mp hi) h

theorem chainOrder_below {points : List (F × F)} {hull : List ℕ} (hhull : ∀ c ∈ hull, c < points.length) :
    ∀ c ∈ chainOrder points hull, c < points.length := by
  intro c hc
  have hmem := (List.destutter_sublist _ _).subset hc
  split at hmem
  · exact hhull c hmem
  · exact List.mem_range.mp (List.mem_mergeSort.mp hmem)

theorem edgesBelow_delaunay {triangulate : List (F × F) → Triangles} (htri : NamesPoints triangulate)
    (points : List (F × F)) : EdgesBelow points.length (delaunay points triangulate).edges := by
  have hempty : ∀ n, EdgesBelow n Triangulation.empty.edges := fun n e he => absurd he List.not_mem_nil
  unfold delaunay
  split
  case h_1 => exact hempty _
  case h_2 => exact hempty _
  case h_3 => exact (hempty 2).push (by omega) (by omega) _
  case h_4 hnone hone _ =>
    have hpos : 0 < points.length := List.length_pos_iff.mpr hnone
    dsimp only
    split
    · apply EdgesBelow.attachIsolated
      apply EdgesBelow.foldl _ (hempty _)
      intro tri w hw h
      have hbelow := chainOrder_below (htri.hull points)
      have hmem := List.of_mem_zip (a := w.1) (b := w.2) hw
      exact h.push (hbelow _ hmem.1) (hbelow _ (List.mem_of_mem_tail hmem.2)) _
    · apply EdgesBelow.attachIsolated
      apply EdgesBelow.foldl _ (hempty _)
      intro tri e _ h
      have hbelow : ∀ k, (triangulate points).triangles.getD k 0 < points.length := by
        intro k
        rw [List.getD_eq_getElem?_getD]
        cases hk : (triangulate points).triangles[k]? with
        | none => exact hpos
        | some c => exact htri.corner points c (List.mem_of_getElem? hk)
      exact h.addCorner (hbelow _) (hbelow _) _

end Below

end Tellegen.Synth
