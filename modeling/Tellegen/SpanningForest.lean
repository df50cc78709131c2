import Mathlib.Data.List.Pairwise
import Tellegen.DisplayTree

/-!
The two forests are one, and it spans. A root is opened where no found bus reaches, so
the trees are the connected components; sources are opened first, so the root of a
component with a source is a source.
-/

open BreadthFirst

namespace Tellegen

/-! ### What the two forests share -/

structure Spanning where
  parent : ℕ → Option ℕ
  parentEdge : ℕ → Option ℕ
  depth : ℕ → Option ℕ
  roots : List ℕ

def DisplayTree.spanning (tree : DisplayTree) : Spanning where
  parent := tree.parent
  parentEdge := tree.parentEdge
  depth := tree.depth
  roots := tree.roots

def Forest.spanning (forest : Forest) : Spanning where
  parent := forest.parent
  parentEdge := forest.parentEdge
  depth := forest.depth
  roots := forest.roots

namespace Spanning

def empty : Spanning where
  parent _ := none
  parentEdge _ := none
  depth _ := none
  roots := []

def seen (tree : Spanning) (v : ℕ) : Bool := (tree.depth v).isSome

def record (tree : Spanning) (u v k : ℕ) : Spanning :=
  { tree with
    parent := Function.update tree.parent v (some u)
    parentEdge := Function.update tree.parentEdge v (some k)
    depth := Function.update tree.depth v (some (nextDepth (tree.depth u))) }

def recorder : Recorder ℕ ℕ Spanning where
  seen := seen
  record := record
  seen_record tree _ v _ x := isSome_update tree.depth v _ x

def opened (root : ℕ) (tree : Spanning) : Spanning :=
  { tree with
    parent := Function.update tree.parent root (some root)
    depth := Function.update tree.depth root (some 0)
    roots := tree.roots ++ [root] }

def grow (adjacent : ℕ → List (ℕ × ℕ)) (n root : ℕ) (tree : Spanning) : Spanning :=
  (run recorder adjacent n { state := opened root tree, done := [], queue := [root] }).state

/-- Opens the buses of a list that satisfy `first` and were not found. -/
def growAll (adjacent : ℕ → List (ℕ × ℕ)) (n : ℕ) (first : ℕ → Bool) (buses : List ℕ)
    (tree : Spanning) : Spanning :=
  buses.foldl (fun tree i =>
    if first i ∧ (tree.depth i).isNone then grow adjacent n i tree else tree) tree

def build (adjacent : ℕ → List (ℕ × ℕ)) (n : ℕ) (source : ℕ → Bool) : Spanning :=
  growAll adjacent n (fun _ => true) (List.range n) (growAll adjacent n source (List.range n) empty)

end Spanning

theorem spanning_grow_displayTree (adjacent : ℕ → List (ℕ × ℕ)) (n root : ℕ)
    (tree : DisplayTree) :
    (DisplayTree.grow adjacent n root tree).spanning =
      Spanning.grow adjacent n root tree.spanning := by
  rw [DisplayTree.grow, Spanning.grow]
  exact (congrArg Search.state (run_map (DisplayTree.recorder tree.roots.length) Spanning.recorder
    DisplayTree.spanning (fun _ _ => rfl) (fun _ _ _ _ => rfl) adjacent n _)).symm

theorem spanning_grow_forest (adjacent : ℕ → List (ℕ × ℕ)) (n root : ℕ) (tree : Forest) :
    (Forest.grow adjacent n root tree).spanning = Spanning.grow adjacent n root tree.spanning := by
  rw [Forest.grow, Spanning.grow]
  exact (congrArg Search.state (run_map Forest.recorder Spanning.recorder Forest.spanning
    (fun _ _ => rfl) (fun _ _ _ _ => rfl) adjacent n _)).symm

theorem foldl_view {S : Type} (view : S → Spanning) {grow : ℕ → S → S}
    {adjacent : ℕ → List (ℕ × ℕ)} {n : ℕ} (depth : S → ℕ → Option ℕ)
    (hdepth : ∀ state, (view state).depth = depth state)
    (hgrow : ∀ i state, view (grow i state) = Spanning.grow adjacent n i (view state))
    (first : ℕ → Bool) (buses : List ℕ) (state : S) :
    view (buses.foldl (fun state i => if first i ∧ (depth state i).isNone then grow i state
      else state) state) = Spanning.growAll adjacent n first buses (view state) := by
  rw [Spanning.growAll]
  induction buses generalizing state with
  | nil => rfl
  | cons i rest ih =>
    rw [List.foldl_cons, List.foldl_cons, ih, hdepth]
    congr 1
    split
    · exact hgrow i state
    · rfl

/-! ### Trees -/

/-- The edges go both ways and stay among the first `n` nodes. -/
structure Undirected (adjacent : ℕ → List (ℕ × ℕ)) (n : ℕ) : Prop where
  symm : ∀ {u v k : ℕ}, (v, k) ∈ adjacent u → (u, k) ∈ adjacent v
  bound : ∀ {u v k : ℕ}, (v, k) ∈ adjacent u → v < n

theorem Undirected.reaches_symm {adjacent : ℕ → List (ℕ × ℕ)} {n : ℕ} (h : Undirected adjacent n)
    {u v : ℕ} (hreach : Reaches adjacent u v) : Reaches adjacent v u := by
  induction hreach with
  | refl => exact .refl
  | tail _ hnext ih =>
    obtain ⟨k, hk⟩ := hnext
    exact .head ⟨k, h.symm hk⟩ ih

theorem Undirected.reaches_lt {adjacent : ℕ → List (ℕ × ℕ)} {n : ℕ} (h : Undirected adjacent n)
    {u v : ℕ} (hreach : Reaches adjacent u v) (hu : u < n) : v < n := by
  cases hreach with
  | refl => exact hu
  | tail _ hnext =>
    obtain ⟨k, hk⟩ := hnext
    exact h.bound hk

namespace Spanning

section Growing

variable {adjacent : ℕ → List (ℕ × ℕ)} {n : ℕ} {source : ℕ → Bool}

/-- Every found node is a root or hangs below its parent by an edge. -/
structure Trees (adjacent : ℕ → List (ℕ × ℕ)) (tree : Spanning) : Prop where
  root : ∀ r ∈ tree.roots,
    tree.parent r = some r ∧ tree.parentEdge r = none ∧ tree.depth r = some 0
  step : ∀ v, tree.seen v → v ∈ tree.roots ∨ ∃ u k d, tree.parent v = some u ∧
    tree.parentEdge v = some k ∧ (v, k) ∈ adjacent u ∧ tree.depth u = some d ∧
    tree.depth v = some (d + 1)
  unseen : ∀ v, ¬ tree.seen v → tree.parentEdge v = none

theorem seen_record (tree : Spanning) (u v k x : ℕ) :
    (tree.record u v k).seen x ↔ x = v ∨ tree.seen x := by
  rw [seen, record, isSome_update, Bool.or_eq_true, decide_eq_true_eq]
  rfl

theorem seen_opened (root : ℕ) (tree : Spanning) (x : ℕ) :
    (tree.opened root).seen x ↔ x = root ∨ tree.seen x := by
  rw [seen, opened, isSome_update, Bool.or_eq_true, decide_eq_true_eq]
  rfl

theorem seen_of_depth {tree : Spanning} {v d : ℕ} (h : tree.depth v = some d) : tree.seen v := by
  rw [seen, h, Option.isSome_some]

theorem Trees.seen_root {tree : Spanning} (h : Trees adjacent tree) {r : ℕ} (hr : r ∈ tree.roots) :
    tree.seen r := seen_of_depth (h.root r hr).2.2

theorem Trees.record {tree : Spanning} (h : Trees adjacent tree) {u v k : ℕ} (hu : tree.seen u)
    (hnext : (v, k) ∈ adjacent u) (hv : ¬ tree.seen v) : Trees adjacent (tree.record u v k) := by
  have hne : ∀ {x}, tree.seen x → x ≠ v := fun hx heq => hv (heq ▸ hx)
  obtain ⟨d, hd⟩ := Option.isSome_iff_exists.mp hu
  constructor
  case root =>
    intro r hr
    have hrv := hne (h.seen_root hr)
    simp only [Spanning.record, Function.update_of_ne hrv]
    exact h.root r hr
  case step =>
    intro x hx
    by_cases hxv : x = v
    · right
      refine ⟨u, k, d, ?_⟩
      rw [hxv]
      simp only [Spanning.record, Function.update_self, Function.update_of_ne (hne hu), hd]
      exact ⟨trivial, trivial, hnext, trivial, rfl⟩
    · have hold : tree.seen x := ((seen_record tree u v k x).mp hx).resolve_left hxv
      rcases h.step x hold with hroot | ⟨u', k', d', hparent, hedge, hmem, hdepth, hdepth'⟩
      · exact .inl hroot
      · right
        have hu' := hne (seen_of_depth hdepth)
        refine ⟨u', k', d', ?_⟩
        simp only [Spanning.record, Function.update_of_ne hxv, Function.update_of_ne hu']
        exact ⟨hparent, hedge, hmem, hdepth, hdepth'⟩
  case unseen =>
    intro x hx
    rw [seen_record, not_or] at hx
    simp only [Spanning.record, Function.update_of_ne hx.1]
    exact h.unseen x hx.2

theorem Trees.opened {tree : Spanning} (h : Trees adjacent tree) {root : ℕ}
    (hroot : ¬ tree.seen root) : Trees adjacent (tree.opened root) := by
  have hne : ∀ {x}, tree.seen x → x ≠ root := fun hx heq => hroot (heq ▸ hx)
  constructor
  case root =>
    intro r hr
    rcases List.mem_append.mp hr with hr | hr
    · have hrv := hne (h.seen_root hr)
      simp only [Spanning.opened, Function.update_of_ne hrv]
      exact h.root r hr
    · rw [List.mem_singleton.mp hr]
      simp only [Spanning.opened, Function.update_self]
      exact ⟨trivial, h.unseen root hroot, trivial⟩
  case step =>
    intro x hx
    by_cases hxv : x = root
    · left
      rw [hxv]
      exact List.mem_append_right _ List.mem_cons_self
    · have hold : tree.seen x := ((seen_opened root tree x).mp hx).resolve_left hxv
      rcases h.step x hold with hr | ⟨u', k', d', hparent, hedge, hmem, hdepth, hdepth'⟩
      · exact .inl (List.mem_append_left _ hr)
      · right
        have hu' := hne (seen_of_depth hdepth)
        refine ⟨u', k', d', ?_⟩
        simp only [Spanning.opened, Function.update_of_ne hxv, Function.update_of_ne hu']
        exact ⟨hparent, hedge, hmem, hdepth, hdepth'⟩
  case unseen =>
    intro x hx
    rw [seen_opened, not_or] at hx
    exact h.unseen x hx.2

/-- Whole trees: what hangs together has been found together, under one root, and a tree with a source
has one for its root. -/
structure Grown (adjacent : ℕ → List (ℕ × ℕ)) (n : ℕ) (source : ℕ → Bool) (tree : Spanning) :
    Prop where
  trees : Trees adjacent tree
  closed : ∀ {u v k : ℕ}, tree.seen u → (v, k) ∈ adjacent u → tree.seen v
  bound : ∀ {v : ℕ}, tree.seen v → v < n
  apart : tree.roots.Pairwise fun r s => ¬ Reaches adjacent r s
  sourced : ∀ r ∈ tree.roots, source r ∨ ∀ v, Reaches adjacent r v → ¬ source v

theorem Grown.seen_of_reaches {tree : Spanning} (h : Grown adjacent n source tree) {u v : ℕ}
    (hreach : Reaches adjacent u v) (hu : tree.seen u) : tree.seen v := by
  induction hreach with
  | refl => exact hu
  | tail _ hnext ih =>
    obtain ⟨k, hk⟩ := hnext
    exact h.closed ih hk

theorem grown_empty : Grown adjacent n source empty := by
  constructor
  case trees =>
    constructor
    case root => exact fun r hr => absurd hr List.not_mem_nil
    case step => exact fun v hv => Bool.noConfusion hv
    case unseen => exact fun _ _ => rfl
  case closed => exact fun hu _ => Bool.noConfusion hu
  case bound => exact fun hv => Bool.noConfusion hv
  case apart => exact List.Pairwise.nil
  case sourced => exact fun r hr => absurd hr List.not_mem_nil

theorem seen_grow (hadj : Undirected adjacent n) {tree : Spanning} (h : Grown adjacent n source tree)
    {root : ℕ} (hroot : ¬ tree.seen root) (hbound : root < n) :
    Trees adjacent (grow adjacent n root tree) ∧
      (grow adjacent n root tree).roots = tree.roots ++ [root] ∧
      ∀ x, (grow adjacent n root tree).seen x ↔ tree.seen x ∨ Reaches adjacent root x := by
  let holds (state : Spanning) : Prop := Trees adjacent state ∧ state.roots = tree.roots ++ [root]
  have hkeep : ∀ (state : Spanning) (u : ℕ) (next : ℕ × ℕ), holds state → recorder.seen state u →
      next ∈ adjacent u → ¬ recorder.seen state next.1 →
      holds (recorder.record state u next.1 next.2) :=
    fun state u next hstate hu hnext hv => ⟨hstate.1.record hu hnext hv, hstate.2⟩
  have hseen : ∀ a ∈ [root], recorder.seen (tree.opened root) a := by
    intro a ha
    exact (seen_opened root tree a).mpr (.inl (List.mem_singleton.mp ha))
  have hall : ∀ a ∈ [root], ∀ x, Reaches adjacent a x → x ∈ List.range n := by
    intro a ha x hx
    rw [List.mem_singleton.mp ha] at hx
    exact List.mem_range.mpr (hadj.reaches_lt hx hbound)
  have hopened : holds (tree.opened root) := ⟨h.trees.opened hroot, rfl⟩
  have hrun := run_spec hkeep hseen (List.nodup_singleton root) hopened hall
  rw [List.length_range] at hrun
  obtain ⟨hfound, _, htrees, hroots⟩ := hrun
  let search : Search ℕ Spanning :=
    run recorder adjacent n { state := tree.opened root, done := [], queue := [root] }
  change Found recorder adjacent [root] (tree.opened root) search.state search.done at hfound
  have hdone : ∀ {x}, Reaches adjacent root x → x ∈ search.done := by
    intro x hx
    induction hx with
    | refl => exact hfound.begun root List.mem_cons_self
    | @tail y z hreach hnext ih =>
      obtain ⟨k, hk⟩ := hnext
      rcases (hfound.seen z).mp (hfound.closed y ih (z, k) hk) with hold | hdone
      · rcases (seen_opened root tree z).mp hold with rfl | hold
        · exact hfound.begun z List.mem_cons_self
        · -- an old tree would have held the root
          have hback := hadj.reaches_symm (hreach.tail ⟨k, hk⟩)
          exact absurd (h.seen_of_reaches hback hold) hroot
      · exact hdone
  refine ⟨htrees, hroots, ?_⟩
  intro x
  have hfinal : (grow adjacent n root tree).seen x ↔ _ := hfound.seen x
  rw [hfinal]
  constructor
  · rintro (hx | hx)
    · rcases (seen_opened root tree x).mp hx with rfl | hold
      · exact .inr .refl
      · exact .inl hold
    · obtain ⟨a, ha, hreach⟩ := hfound.reached x hx
      rw [List.mem_singleton.mp ha] at hreach
      exact .inr hreach
  · rintro (hx | hx)
    · exact .inl ((seen_opened root tree x).mpr (.inr hx))
    · exact .inr (hdone hx)

theorem Grown.grow (hadj : Undirected adjacent n) {tree : Spanning}
    (h : Grown adjacent n source tree) {root : ℕ} (hroot : ¬ tree.seen root) (hbound : root < n)
    (hsource : source root ∨ ∀ v, source v → tree.seen v) :
    Grown adjacent n source (Spanning.grow adjacent n root tree) := by
  obtain ⟨htrees, hroots, hseen⟩ := seen_grow hadj h hroot hbound
  constructor
  case trees => exact htrees
  case closed =>
    intro u v k hu hnext
    rw [hseen] at hu ⊢
    rcases hu with hu | hu
    · exact .inl (h.closed hu hnext)
    · exact .inr (hu.tail ⟨k, hnext⟩)
  case bound =>
    intro v hv
    rcases (hseen v).mp hv with hv | hv
    · exact h.bound hv
    · exact hadj.reaches_lt hv hbound
  case apart =>
    rw [hroots, List.pairwise_append]
    refine ⟨h.apart, List.pairwise_singleton _ _, ?_⟩
    intro r hr s hs hreach
    rw [List.mem_singleton.mp hs] at hreach
    exact hroot (h.seen_of_reaches hreach (h.trees.seen_root hr))
  case sourced =>
    intro r hr
    rw [hroots] at hr
    rcases List.mem_append.mp hr with hr | hr
    · exact h.sourced r hr
    · rw [List.mem_singleton.mp hr]
      rcases hsource with hsource | hsource
      · exact .inl hsource
      · right
        intro v hreach hv
        exact hroot (h.seen_of_reaches (hadj.reaches_symm hreach) (hsource v hv))

theorem Grown.growAll (hadj : Undirected adjacent n) {first : ℕ → Bool} (buses : List ℕ)
    (hbuses : ∀ i ∈ buses, i < n) {tree : Spanning} (h : Grown adjacent n source tree)
    (hfirst : (∀ i, first i → source i) ∨ ∀ v, source v → tree.seen v) :
    Grown adjacent n source (Spanning.growAll adjacent n first buses tree) ∧
      ∀ v, tree.seen v ∨ (v ∈ buses ∧ first v) →
        (Spanning.growAll adjacent n first buses tree).seen v := by
  rw [Spanning.growAll]
  induction buses generalizing tree with
  | nil =>
    refine ⟨h, ?_⟩
    rintro v (hv | hv)
    · exact hv
    · exact absurd hv.1 List.not_mem_nil
  | cons i rest ih =>
    rw [List.foldl_cons]
    have hrest : ∀ j ∈ rest, j < n := fun j hj => hbuses j (List.mem_cons_of_mem _ hj)
    split
    case isTrue hopen =>
      obtain ⟨hi, hnone⟩ := hopen
      have hunseen : ¬ tree.seen i := by
        rw [seen, Option.isNone_iff_eq_none.mp hnone]
        exact Bool.false_ne_true
      have hin : i < n := hbuses i List.mem_cons_self
      have hseen := (seen_grow hadj h hunseen hin).2.2
      have hsource : source i ∨ ∀ v, source v → tree.seen v := by
        rcases hfirst with hfirst | hfirst
        · exact .inl (hfirst i hi)
        · exact .inr hfirst
      have hlater : (∀ j, first j → source j) ∨
          ∀ v, source v → (Spanning.grow adjacent n i tree).seen v := by
        rcases hfirst with hfirst | hfirst
        · exact .inl hfirst
        · exact .inr fun v hv => (hseen v).mpr (.inl (hfirst v hv))
      obtain ⟨hgrown, hfound⟩ := ih hrest (h.grow hadj hunseen hin hsource) hlater
      refine ⟨hgrown, ?_⟩
      rintro v (hv | ⟨hv, hvf⟩)
      · exact hfound v (.inl ((hseen v).mpr (.inl hv)))
      · rcases List.mem_cons.mp hv with rfl | hv
        · exact hfound v (.inl ((hseen v).mpr (.inr .refl)))
        · exact hfound v (.inr ⟨hv, hvf⟩)
    case isFalse hskip =>
      obtain ⟨hgrown, hfound⟩ := ih hrest h hfirst
      refine ⟨hgrown, ?_⟩
      rintro v (hv | ⟨hv, hvf⟩)
      · exact hfound v (.inl hv)
      · rcases List.mem_cons.mp hv with rfl | hv
        · have hseen : tree.seen v := by
            rw [seen, ← Option.not_isNone, Bool.not_eq_true']
            exact Bool.eq_false_iff.mpr fun hnone => hskip ⟨hvf, hnone⟩
          exact hfound v (.inl hseen)
        · exact hfound v (.inr ⟨hv, hvf⟩)

theorem grown_build (hadj : Undirected adjacent n) (hsource : ∀ v, source v → v < n) :
    Grown adjacent n source (build adjacent n source) ∧
      ∀ v < n, (build adjacent n source).seen v := by
  have hrange : ∀ i ∈ List.range n, i < n := fun i hi => List.mem_range.mp hi
  have hempty : Grown adjacent n source empty := grown_empty
  have hsame : (∀ i, source i → source i) ∨ ∀ v, source v → empty.seen v := .inl fun _ hi => hi
  obtain ⟨hsources, hfound⟩ := hempty.growAll hadj (List.range n) hrange hsame
  have hseen : (∀ i, (fun _ => true) i → source i) ∨
      ∀ v, source v → (growAll adjacent n source (List.range n) empty).seen v :=
    .inr fun v hv => hfound v (.inr ⟨List.mem_range.mpr (hsource v hv), hv⟩)
  obtain ⟨hgrown, hall⟩ := hsources.growAll hadj (List.range n) hrange hseen
  exact ⟨hgrown, fun v hv => hall v (.inr ⟨List.mem_range.mpr hv, rfl⟩)⟩

end Growing

/-! ### The way up -/

/-- Going from a node to its parent, and on. -/
def Ascends (tree : Spanning) : ℕ → ℕ → Prop :=
  Relation.ReflTransGen fun a b => tree.parent a = some b

section Ascending

variable {adjacent : ℕ → List (ℕ × ℕ)} {n : ℕ} {source : ℕ → Bool} {tree : Spanning}

theorem Trees.ascends_root (h : Trees adjacent tree) {r x : ℕ} (hr : r ∈ tree.roots)
    (hup : tree.Ascends r x) : x = r := by
  induction hup with
  | refl => rfl
  | tail _ hparent ih =>
    rw [ih, (h.root r hr).1] at hparent
    exact (Option.some.inj hparent).symm

theorem Trees.root_unique (h : Trees adjacent tree) {v r s : ℕ} (hr : r ∈ tree.roots)
    (hs : s ∈ tree.roots) (hvr : tree.Ascends v r) (hvs : tree.Ascends v s) : s = r := by
  induction hvr using Relation.ReflTransGen.head_induction_on with
  | refl => exact h.ascends_root hr hvs
  | @head v w hparent hwr ih =>
    rcases Relation.ReflTransGen.cases_head hvs with rfl | ⟨x, hx, hxs⟩
    · rw [(h.root v hs).1] at hparent
      obtain rfl := Option.some.inj hparent
      exact (h.ascends_root hs hwr).symm
    · rw [hparent] at hx
      obtain rfl := Option.some.inj hx
      exact ih hxs

theorem Trees.exists_root (h : Trees adjacent tree) (d : ℕ) {v : ℕ} (hv : tree.depth v = some d) :
    ∃ r ∈ tree.roots, tree.Ascends v r ∧ Reaches adjacent r v := by
  induction d generalizing v with
  | zero =>
    rcases h.step v (seen_of_depth hv) with hroot | ⟨u, k, d, _, _, _, _, hdepth⟩
    · exact ⟨v, hroot, .refl, .refl⟩
    · rw [hv] at hdepth
      cases hdepth
  | succ d ih =>
    rcases h.step v (seen_of_depth hv) with hroot | ⟨u, k, e, hparent, _, hnext, hu, hdepth⟩
    · exact ⟨v, hroot, .refl, .refl⟩
    · rw [hv] at hdepth
      obtain rfl := Nat.succ.inj (Option.some.inj hdepth)
      obtain ⟨r, hr, hup, hreach⟩ := ih hu
      exact ⟨r, hr, .head hparent hup, hreach.tail ⟨k, hnext⟩⟩

theorem Trees.existsUnique_root (h : Trees adjacent tree) {v : ℕ} (hv : tree.seen v) :
    ∃! r, r ∈ tree.roots ∧ tree.Ascends v r := by
  obtain ⟨d, hd⟩ := Option.isSome_iff_exists.mp hv
  obtain ⟨r, hr, hup, _⟩ := h.exists_root d hd
  exact ⟨r, ⟨hr, hup⟩, fun s hs => h.root_unique hr hs.1 hup hs.2⟩

theorem Trees.reaches_of_ascends (h : Trees adjacent tree) {v r : ℕ} (hv : tree.seen v)
    (hr : r ∈ tree.roots) (hup : tree.Ascends v r) : Reaches adjacent r v := by
  obtain ⟨d, hd⟩ := Option.isSome_iff_exists.mp hv
  obtain ⟨s, hs, hups, hreach⟩ := h.exists_root d hd
  rw [h.root_unique hs hr hups hup]
  exact hreach

theorem Grown.reaches_iff (hadj : Undirected adjacent n) (h : Grown adjacent n source tree) {u v : ℕ}
    (hu : tree.seen u) (hv : tree.seen v) :
    Reaches adjacent u v ↔ ∃ r ∈ tree.roots, tree.Ascends u r ∧ tree.Ascends v r := by
  obtain ⟨r, ⟨hr, hur⟩, _⟩ := h.trees.existsUnique_root hu
  obtain ⟨s, ⟨hs, hvs⟩, _⟩ := h.trees.existsUnique_root hv
  have hru := h.trees.reaches_of_ascends hu hr hur
  have hsv := h.trees.reaches_of_ascends hv hs hvs
  constructor
  · intro hreach
    have hrs : Reaches adjacent r s := (hru.trans hreach).trans (hadj.reaches_symm hsv)
    have hsymm : Std.Symm fun r s => ¬ Reaches adjacent r s :=
      ⟨fun a b hab hba => hab (hadj.reaches_symm hba)⟩
    have heq : r = s := by
      by_contra hne
      exact h.apart.forall hr hs hne hrs
    refine ⟨r, hr, hur, ?_⟩
    rw [heq]
    exact hvs
  · rintro ⟨t, ht, hut, hvt⟩
    exact (hadj.reaches_symm (h.trees.reaches_of_ascends hu ht hut)).trans
      (h.trees.reaches_of_ascends hv ht hvt)

end Ascending

end Spanning

section

variable {I K : Type} [DecidableEq K] (lower : I → K) (graph : DistGraph I)

def spanningTree : Spanning :=
  Spanning.build (adjacency lower graph) graph.buses.length (hasSource graph)

theorem spanning_displayTree : (displayTree lower graph).spanning = spanningTree lower graph := by
  have hfold := foldl_view DisplayTree.spanning DisplayTree.depth (fun _ => rfl)
    (spanning_grow_displayTree (adjacency lower graph) graph.buses.length)
  have hall := hfold (fun _ => true) (List.range graph.buses.length)
  simp only [true_and] at hall
  rw [displayTree, spanningTree, Spanning.build]
  rw [hall, hfold]
  rfl

theorem spanning_forest : (forest lower graph).spanning = spanningTree lower graph := by
  have hfold := foldl_view Forest.spanning Forest.depth (fun _ => rfl)
    (spanning_grow_forest (adjacency lower graph) graph.buses.length)
  have hall := hfold (fun _ => true) (List.range graph.buses.length)
  simp only [true_and] at hall
  rw [forest, spanningTree, Spanning.build]
  rw [hall, hfold]
  rfl

/-! ### The closed branches -/

/-- Branch `k` is closed and joins the two buses. -/
def ClosedBranch (k u v : ℕ) : Prop :=
  ∃ edge, graph.edges[k]? = some edge ∧ edge.closed = true ∧
    (branchEnds lower graph edge = some (u, v) ∨ branchEnds lower graph edge = some (v, u))

def Connected : ℕ → ℕ → Prop := Relation.ReflTransGen fun u v => ∃ k, ClosedBranch lower graph k u v

variable {lower graph}

theorem branchEnds_lt {edge : DistEdge I} {a b : ℕ} (h : branchEnds lower graph edge = some (a, b)) :
    a < graph.buses.length ∧ b < graph.buses.length := by
  rw [branchEnds] at h
  split at h
  case h_1 hfrom hto =>
    cases h
    exact ⟨Lookup.lastIndex_lt hfrom, Lookup.lastIndex_lt hto⟩
  case h_2 => cases h

/-- An edge leads from either of its ends to the other. -/
theorem mem_across {β : Type} {a b u v : ℕ} {k l : β} :
    (v, l) ∈ (if u = a then [(b, k)] else []) ++ (if u = b then [(a, k)] else []) ↔
      l = k ∧ (u = a ∧ v = b ∨ u = b ∧ v = a) := by
  simp only [List.mem_append, List.mem_ite_nil_right, List.mem_singleton, Prod.mk.injEq]
  grind

theorem mem_adjacency {u v k : ℕ} :
    (v, k) ∈ adjacency lower graph u ↔ ClosedBranch lower graph k u v ∧ u ≠ v := by
  rw [adjacency, List.mem_flatMap]
  constructor
  · rintro ⟨⟨edge, j⟩, hedge, hmem⟩
    have hat := List.mk_mem_zipIdx_iff_getElem?.mp hedge
    dsimp only at hmem
    split at hmem
    case h_2 => exact absurd hmem List.not_mem_nil
    case h_1 a b hends =>
      obtain ⟨hclosed, hmem⟩ := List.mem_ite_nil_right.mp hmem
      obtain ⟨rfl, ⟨rfl, rfl⟩ | ⟨rfl, rfl⟩⟩ := mem_across.mp hmem
      · exact ⟨⟨edge, hat, hclosed.1, .inl hends⟩, hclosed.2⟩
      · exact ⟨⟨edge, hat, hclosed.1, .inr hends⟩, hclosed.2.symm⟩
  · rintro ⟨⟨edge, hat, hclosed, hends⟩, hne⟩
    refine ⟨(edge, k), List.mk_mem_zipIdx_iff_getElem?.mpr hat, ?_⟩
    rcases hends with hends | hends
    · simp only [hends, hclosed, ne_eq, hne, not_false_eq_true, and_self, if_true, if_false,
        List.append_nil, List.mem_singleton]
    · simp only [hends, hclosed, ne_eq, hne, Ne.symm hne, not_false_eq_true, and_self, if_true,
        if_false, List.nil_append, List.mem_singleton]

theorem ClosedBranch.symm {k u v : ℕ} (h : ClosedBranch lower graph k u v) :
    ClosedBranch lower graph k v u := by
  obtain ⟨edge, hat, hclosed, hends⟩ := h
  exact ⟨edge, hat, hclosed, hends.symm⟩

theorem ClosedBranch.lt {k u v : ℕ} (h : ClosedBranch lower graph k u v) :
    v < graph.buses.length := by
  obtain ⟨edge, _, _, hends | hends⟩ := h
  · exact (branchEnds_lt hends).2
  · exact (branchEnds_lt hends).1

theorem undirected_adjacency : Undirected (adjacency lower graph) graph.buses.length := by
  constructor
  case symm =>
    intro u v k h
    obtain ⟨hbranch, hne⟩ := mem_adjacency.mp h
    exact mem_adjacency.mpr ⟨hbranch.symm, hne.symm⟩
  case bound =>
    intro u v k h
    exact (mem_adjacency.mp h).1.lt

theorem reaches_adjacency_iff {u v : ℕ} :
    Reaches (adjacency lower graph) u v ↔ Connected lower graph u v := by
  constructor
  · intro h
    induction h with
    | refl => exact .refl
    | tail _ hnext ih =>
      obtain ⟨k, hk⟩ := hnext
      exact ih.tail ⟨k, (mem_adjacency.mp hk).1⟩
  · intro h
    induction h with
    | refl => exact .refl
    | @tail x y _ hnext ih =>
      obtain ⟨k, hk⟩ := hnext
      by_cases heq : x = y
      · rw [← heq]
        exact ih
      · exact ih.tail ⟨k, mem_adjacency.mpr ⟨hk, heq⟩⟩

theorem lt_of_hasSource {v : ℕ} (h : hasSource graph v) : v < graph.buses.length := by
  by_contra hge
  rw [hasSource, List.getElem?_eq_none (Nat.le_of_not_lt hge)] at h
  cases h

variable (lower graph)

theorem grown_spanningTree :
    Spanning.Grown (adjacency lower graph) graph.buses.length (hasSource graph)
        (spanningTree lower graph) ∧
      ∀ v < graph.buses.length, (spanningTree lower graph).seen v :=
  Spanning.grown_build undirected_adjacency fun _ hv => lt_of_hasSource hv

/-- Every bus hangs below one root, on a branch from its parent; the trees are the components of the
closed branches. -/
structure SpansClosed (tree : Spanning) : Prop where
  root : ∀ v < graph.buses.length, ∃! r, r ∈ tree.roots ∧ tree.Ascends v r
  depth : ∀ v < graph.buses.length,
    (v ∈ tree.roots ∧ tree.parent v = some v ∧ tree.parentEdge v = none ∧ tree.depth v = some 0) ∨
    (v ∉ tree.roots ∧ ∃ u k d, tree.parent v = some u ∧ tree.parentEdge v = some k ∧
      ClosedBranch lower graph k u v ∧ u ≠ v ∧ tree.depth u = some d ∧ tree.depth v = some (d + 1))
  connected : ∀ u < graph.buses.length, ∀ v < graph.buses.length,
    Connected lower graph u v ↔ ∃ r ∈ tree.roots, tree.Ascends u r ∧ tree.Ascends v r

theorem spansClosed_spanningTree : SpansClosed lower graph (spanningTree lower graph) := by
  obtain ⟨hgrown, hseen⟩ := grown_spanningTree lower graph
  constructor
  case root => exact fun v hv => hgrown.trees.existsUnique_root (hseen v hv)
  case depth =>
    intro v hv
    rcases hgrown.trees.step v (hseen v hv) with hroot |
      ⟨u, k, d, hparent, hedge, hnext, hdepth, hdepth'⟩
    · exact .inl ⟨hroot, hgrown.trees.root v hroot⟩
    · obtain ⟨hbranch, hne⟩ := mem_adjacency.mp hnext
      refine .inr ⟨?_, u, k, d, hparent, hedge, hbranch, hne, hdepth, hdepth'⟩
      intro hroot
      rw [(hgrown.trees.root v hroot).2.2] at hdepth'
      cases hdepth'
  case connected =>
    intro u hu v hv
    rw [← reaches_adjacency_iff]
    exact hgrown.reaches_iff undirected_adjacency (hseen u hu) (hseen v hv)

end

end Tellegen
