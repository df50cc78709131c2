import Mathlib.Data.List.Nodup
import Mathlib.Data.List.Perm.Subperm
import Tellegen.Lib.Classes

/-!
Depth-first labelling of components with an explicit stack. A node is labelled
when it is pushed, so it is pushed once, and the search from a node takes as
many steps as the component of that node has nodes.
-/

set_option linter.unusedSectionVars false

namespace DepthFirst

variable {α ι : Type} [DecidableEq α]

/-- The top of the stack is its head; `nodes` are those taken from it, in order. -/
structure Search (α ι : Type) where
  component : α → Option ι
  stack : List α
  nodes : List α

def visit (id : ι) (search : Search α ι) (next : α) : Search α ι :=
  if (search.component next).isNone then
    { search with
      component := Function.update search.component next (some id)
      stack := next :: search.stack }
  else search

def run (adjacent : α → List α) (id : ι) : ℕ → Search α ι → Search α ι
  | 0, search => search
  | fuel + 1, search =>
    match search.stack with
    | [] => search
    | node :: rest =>
      run adjacent id fuel
        ((adjacent node).foldl (visit id)
          { search with stack := rest, nodes := search.nodes ++ [node] })

/-- The search from a node, which gets the label `id`. -/
def explore (adjacent : α → List α) (fuel : ℕ) (component : α → Option ι) (id : ι) (start : α) :
    Search α ι :=
  run adjacent id fuel
    { component := Function.update component start (some id), stack := [start], nodes := [] }

/-- Nodes that a path of neighbours joins. -/
def Connected (adjacent : α → List α) : α → α → Prop :=
  Relation.EqvGen fun a b => b ∈ adjacent a

/-! ### One search -/

section Exploring

variable {adjacent : α → List α} {component : α → Option ι} {id : ι} {start : α}

/-- The search has labelled the nodes it took and those on its stack. The neighbours of `done`
are labelled too. -/
structure Exploring (adjacent : α → List α) (component : α → Option ι) (id : ι) (start : α)
    (done : List α) (search : Search α ι) : Prop where
  marked : ∀ x, search.component x =
    if x ∈ search.nodes ∨ x ∈ search.stack then some id else component x
  fresh : ∀ x, x ∈ search.nodes ∨ x ∈ search.stack → component x = none
  nodup : (search.nodes ++ search.stack).Nodup
  reached : ∀ x, x ∈ search.nodes ∨ x ∈ search.stack → Connected adjacent start x
  begun : start ∈ search.nodes ∨ start ∈ search.stack
  expanded : ∀ x ∈ done, ∀ y ∈ adjacent x, (search.component y).isSome

theorem exploring_start (hfresh : component start = none) :
    Exploring adjacent component id start []
      { component := Function.update component start (some id), stack := [start], nodes := [] } := by
  constructor
  case marked =>
    intro x
    by_cases hx : x = start
    · subst hx
      simp
    · simp [hx]
  case fresh =>
    rintro x (hx | hx)
    · simp at hx
    · rw [List.mem_singleton.mp hx, hfresh]
  case nodup => simp
  case reached =>
    rintro x (hx | hx)
    · simp at hx
    · rw [List.mem_singleton.mp hx]
      exact .refl start
  case begun => exact .inr (List.mem_singleton.mpr rfl)
  case expanded => simp

theorem nodes_visit (search : Search α ι) (next : α) :
    (visit id search next).nodes = search.nodes := by
  unfold visit
  split <;> rfl

theorem visit_isSome (search : Search α ι) (next : α) {x : α}
    (hx : (search.component x).isSome ∨ x = next) :
    ((visit id search next).component x).isSome := by
  unfold visit
  split
  case isTrue =>
    by_cases heq : x = next
    · simp [heq]
    · rcases hx with hx | hx
      · simpa [Function.update_of_ne heq] using hx
      · exact absurd hx heq
  case isFalse hsome =>
    rcases hx with hx | rfl
    · exact hx
    · simpa [Option.isSome_iff_ne_none] using hsome

theorem Exploring.visit {done : List α} {search : Search α ι}
    (h : Exploring adjacent component id start done search) {next : α}
    (hreach : Connected adjacent start next) :
    Exploring adjacent component id start done (visit id search next) := by
  unfold DepthFirst.visit
  split
  case isFalse => exact h
  case isTrue hnone =>
    have hunmarked : search.component next = none := by simpa using hnone
    have hout : next ∉ search.nodes ∧ next ∉ search.stack := by
      constructor <;> intro hmem
      · rw [h.marked, if_pos (.inl hmem)] at hunmarked
        simp at hunmarked
      · rw [h.marked, if_pos (.inr hmem)] at hunmarked
        simp at hunmarked
    have hfresh : component next = none := by
      rw [h.marked, if_neg (by simp [hout])] at hunmarked
      exact hunmarked
    constructor
    case marked =>
      intro x
      by_cases hx : x = next
      · subst hx
        simp
      · simp [hx, h.marked]
    case fresh =>
      intro x hx
      simp only [List.mem_cons] at hx
      rcases hx with hx | rfl | hx
      · exact h.fresh x (.inl hx)
      · exact hfresh
      · exact h.fresh x (.inr hx)
    case nodup =>
      rw [List.nodup_middle, List.nodup_cons]
      exact ⟨by simp [hout], h.nodup⟩
    case reached =>
      intro x hx
      simp only [List.mem_cons] at hx
      rcases hx with hx | rfl | hx
      · exact h.reached x (.inl hx)
      · exact hreach
      · exact h.reached x (.inr hx)
    case begun =>
      rcases h.begun with hmem | hmem
      · exact .inl hmem
      · exact .inr (List.mem_cons_of_mem _ hmem)
    case expanded =>
      intro x hx y hy
      by_cases heq : y = next
      · simp [heq]
      · simpa [Function.update_of_ne heq] using h.expanded x hx y hy

theorem Exploring.visits {done : List α} (neighbours : List α) {search : Search α ι}
    (h : Exploring adjacent component id start done search)
    (hreach : ∀ y ∈ neighbours, Connected adjacent start y) :
    Exploring adjacent component id start done (neighbours.foldl (DepthFirst.visit id) search) ∧
      (neighbours.foldl (DepthFirst.visit id) search).nodes = search.nodes ∧
      ∀ x, (search.component x).isSome ∨ x ∈ neighbours →
        ((neighbours.foldl (DepthFirst.visit id) search).component x).isSome := by
  induction neighbours generalizing search with
  | nil => exact ⟨h, rfl, by simp⟩
  | cons next rest ih =>
    have hnext := h.visit (hreach next (List.mem_cons_self ..))
    obtain ⟨hrest, hnodes, hsome⟩ := ih hnext fun y hy => hreach y (List.mem_cons_of_mem _ hy)
    refine ⟨hrest, hnodes.trans (nodes_visit search next), fun x hx => hsome x ?_⟩
    rw [List.mem_cons] at hx
    rcases hx with hx | rfl | hx
    · exact .inl (visit_isSome search next (.inl hx))
    · exact .inl (visit_isSome search x (.inr rfl))
    · exact .inr hx

/-- Taking a node from the stack and labelling its neighbours. -/
theorem Exploring.step {search : Search α ι} {node : α} {rest : List α}
    (h : Exploring adjacent component id start search.nodes search)
    (hstack : search.stack = node :: rest) :
    let next := (adjacent node).foldl (DepthFirst.visit id)
      { search with stack := rest, nodes := search.nodes ++ [node] }
    Exploring adjacent component id start next.nodes next ∧
      next.nodes.length = search.nodes.length + 1 := by
  have hmem : ∀ x, (x ∈ search.nodes ++ [node] ∨ x ∈ rest) ↔
      x ∈ search.nodes ∨ x ∈ search.stack := by
    intro x
    simp only [hstack, List.mem_append, List.mem_cons]
    tauto
  have hpop : Exploring adjacent component id start search.nodes
      { search with stack := rest, nodes := search.nodes ++ [node] } := by
    constructor
    case marked =>
      intro x
      simp only [hmem]
      exact h.marked x
    case fresh => exact fun x hx => h.fresh x ((hmem x).mp hx)
    case nodup =>
      have hnodup := h.nodup
      rw [hstack] at hnodup
      simpa using hnodup
    case reached => exact fun x hx => h.reached x ((hmem x).mp hx)
    case begun => exact (hmem start).mpr h.begun
    case expanded => exact h.expanded
  have hnode : Connected adjacent start node := h.reached node (.inr (by simp [hstack]))
  obtain ⟨hnext, hnodes, hsome⟩ := hpop.visits (adjacent node) fun y hy =>
    .trans _ _ _ hnode (.rel _ _ hy)
  intro next
  refine ⟨⟨hnext.marked, hnext.fresh, hnext.nodup, hnext.reached, hnext.begun, ?_⟩, ?_⟩
  · intro x hx y hy
    rw [hnodes] at hx
    rcases List.mem_append.mp hx with hx | hx
    · exact hnext.expanded x hx y hy
    · rw [List.mem_singleton.mp hx] at hy
      exact hsome y (.inr hy)
  · rw [hnodes]
    simp

/-- With a step for every node there is, the search ends with an empty stack. -/
theorem Exploring.run {everything : List α} (hall : ∀ x, x ∈ everything) (fuel : ℕ)
    {search : Search α ι} (h : Exploring adjacent component id start search.nodes search)
    (hfuel : everything.length ≤ search.nodes.length + fuel) :
    let final := DepthFirst.run adjacent id fuel search
    Exploring adjacent component id start final.nodes final ∧ final.stack = [] := by
  induction fuel generalizing search with
  | zero =>
    have hlength := (List.subperm_of_subset h.nodup fun x _ => hall x).length_le
    rw [List.length_append] at hlength
    have hstack : search.stack.length = 0 := by omega
    exact ⟨h, List.length_eq_zero_iff.mp hstack⟩
  | succ fuel ih =>
    unfold DepthFirst.run
    split
    case h_1 hempty => exact ⟨h, hempty⟩
    case h_2 node rest hstack =>
      obtain ⟨hnext, hlength⟩ := h.step hstack
      exact ih hnext (by omega)

end Exploring

/-! ### Labelling -/

/-- Labels follow neighbours, and a label is a node of the component it names. -/
structure Labelled (adjacent : α → List α) (component : α → Option α) : Prop where
  closed : ∀ x y, y ∈ adjacent x → (component x).isSome → component y = component x
  own : ∀ x i, component x = some i → Connected adjacent i x

theorem labelled_none (adjacent : α → List α) : Labelled adjacent fun _ => none := by
  constructor <;> simp

section Labelled

variable {adjacent : α → List α} (hsymm : ∀ x y, y ∈ adjacent x → x ∈ adjacent y)
include hsymm

theorem Labelled.eq_of_connected {component : α → Option α} (h : Labelled adjacent component)
    {x y : α} (hconnected : Connected adjacent x y) :
    component x = component y := by
  apply hconnected.apply_eq
  intro x y hxy
  cases hx : component x with
  | some i => rw [h.closed x y hxy (by simp [hx]), hx]
  | none =>
    cases hy : component y with
    | none => rfl
    | some i =>
      have heq := h.closed y x (hsymm x y hxy) (by simp [hy])
      rw [hx, hy] at heq
      exact absurd heq (by simp)

/-- A search from an unlabelled node finds the component of that node and labels it. -/
theorem Labelled.explore {component : α → Option α} (h : Labelled adjacent component)
    {everything : List α} (hall : ∀ x, x ∈ everything) {fuel : ℕ}
    (hfuel : everything.length ≤ fuel) {start : α} (hfresh : component start = none) :
    let found := explore adjacent fuel component start start
    Labelled adjacent found.component ∧
      (∀ x, x ∈ found.nodes ↔ Connected adjacent start x) ∧
      found.nodes.Nodup ∧
      ∀ x, found.component x = if x ∈ found.nodes then some start else component x := by
  intro found
  let opening : Search α α :=
    { component := Function.update component start (some start), stack := [start], nodes := [] }
  have hopening : Exploring adjacent component start start opening.nodes opening :=
    exploring_start hfresh
  have hfinal : Exploring adjacent component start start found.nodes found ∧ found.stack = [] :=
    hopening.run hall fuel (by simpa [opening] using hfuel)
  obtain ⟨hfound, hstack⟩ := hfinal
  have hmarked : ∀ x, found.component x =
      if x ∈ found.nodes then some start else component x := by
    intro x
    have hx := hfound.marked x
    rw [hstack] at hx
    simpa using hx
  have hclosed : ∀ x ∈ found.nodes, ∀ y ∈ adjacent x, y ∈ found.nodes := by
    intro x hx y hy
    by_contra hout
    have hsome := hfound.expanded x hx y hy
    rw [hmarked y, if_neg hout] at hsome
    have heq := h.closed y x (hsymm x y hy) hsome
    rw [hfound.fresh x (.inl hx)] at heq
    rw [← heq] at hsome
    exact absurd hsome (by simp)
  have hiff : ∀ x y, Connected adjacent x y → (x ∈ found.nodes ↔ y ∈ found.nodes) := by
    intro x y hconnected
    apply hconnected.iff_of_step
    intro x y hxy
    exact ⟨fun hx => hclosed x hx y hxy, fun hy => hclosed y hy x (hsymm x y hxy)⟩
  have hbegun : start ∈ found.nodes := by
    rcases hfound.begun with hmem | hmem
    · exact hmem
    · rw [hstack] at hmem
      simp at hmem
  have hnodes : ∀ x, x ∈ found.nodes ↔ Connected adjacent start x :=
    fun x => ⟨fun hx => hfound.reached x (.inl hx), fun hx => (hiff start x hx).mp hbegun⟩
  refine ⟨⟨?_, ?_⟩, hnodes, ?_, hmarked⟩
  · intro x y hxy hsome
    have hboth := hiff x y (.rel _ _ hxy)
    rw [hmarked, hmarked]
    rw [hmarked] at hsome
    by_cases hx : x ∈ found.nodes
    · rw [if_pos hx, if_pos (hboth.mp hx)]
    · rw [if_neg hx] at hsome ⊢
      rw [if_neg fun hy => hx (hboth.mpr hy)]
      exact h.closed x y hxy hsome
  · intro x i hx
    rw [hmarked] at hx
    split at hx
    case isTrue hmem =>
      rw [← Option.some.inj hx]
      exact (hnodes x).mp hmem
    case isFalse => exact h.own x i hx
  · have hnodup := hfound.nodup
    rw [hstack] at hnodup
    simpa using hnodup

end Labelled

end DepthFirst
