import Mathlib.Data.Set.Card
import Tellegen.Lib.UnionFind

/-!
Spanning forests by union-find: a pair is kept when its ends are not connected yet. Every kept pair takes
one component away, so their number tells when everything is connected.
-/

namespace SpanningForest

variable {V K : Type}

/-- Every pair joins two vertices that neither `R` nor the pairs before it connect. -/
def Bridging (R : V → V → Prop) : List (V × V) → Prop
  | [] => True
  | p :: rest =>
    ¬ Relation.EqvGen R p.1 p.2 ∧ Bridging (fun x y => R x y ∨ (x = p.1 ∧ y = p.2)) rest

/-- The sets of vertices that `R` connects. -/
def classes (R : V → V → Prop) (vertices : Finset V) : Set (Set V) :=
  (fun x => {y | y ∈ vertices ∧ Relation.EqvGen R x y}) '' (vertices : Set V)

/-- Only what is connected matters. -/
theorem bridging_congr {R S : V → V → Prop} {pairs : List (V × V)}
    (h : ∀ x y, Relation.EqvGen R x y ↔ Relation.EqvGen S x y) (hR : Bridging R pairs) : Bridging S pairs := by
  induction pairs generalizing R S with
  | nil => trivial
  | cons p rest ih =>
    refine ⟨fun hconn => hR.1 ((h _ _).mpr hconn), ih (fun x y => ?_) hR.2⟩
    have hadd : ∀ {R S : V → V → Prop}, (∀ x y, Relation.EqvGen R x y → Relation.EqvGen S x y) →
        Relation.EqvGen (fun x y => R x y ∨ (x = p.1 ∧ y = p.2)) x y →
        Relation.EqvGen (fun x y => S x y ∨ (x = p.1 ∧ y = p.2)) x y := by
      intro R S hle hconn
      refine hconn.image (f := id) fun u v huv => ?_
      rcases huv with huv | huv
      · exact (hle u v (.rel _ _ huv)).mono fun _ _ => Or.inl
      · exact .rel _ _ (.inr huv)
    exact ⟨hadd fun x y => (h x y).mp, hadd fun x y => (h x y).mpr⟩

variable [DecidableEq V]

/-! ### Components -/

def roots (uf : UnionFind V) (vertices : Finset V) : Finset V := vertices.filter fun x => uf.root x = x

/-- No path leads out of the vertices. -/
def Within (uf : UnionFind V) (vertices : Finset V) : Prop := ∀ x ∈ vertices, uf.root x ∈ vertices

omit [DecidableEq V] in
theorem within_new (vertices : Finset V) : Within (UnionFind.new V) vertices := by
  intro x hx
  rwa [UnionFind.root_new]

theorem roots_new (vertices : Finset V) : roots (UnionFind.new V) vertices = vertices :=
  Finset.filter_eq_self.mpr fun _ _ => UnionFind.root_new _

section Join

variable {uf : UnionFind V} {vertices : Finset V}

theorem Within.join (h : Within uf vertices) (a : V) {b : V} (hb : b ∈ vertices) :
    Within (uf.join a b) vertices := by
  intro x hx
  rw [UnionFind.root_join]
  split
  · exact h b hb
  · exact h x hx

theorem roots_join {a b : V} (hne : uf.root a ≠ uf.root b) :
    roots (uf.join a b) vertices = (roots uf vertices).erase (uf.root a) := by
  ext x
  rw [Finset.mem_erase, roots, roots, Finset.mem_filter, Finset.mem_filter, UnionFind.root_join]
  constructor
  · rintro ⟨hx, hroot⟩
    split at hroot
    case isTrue hxa =>
      subst hroot
      rw [UnionFind.root_root] at hxa
      exact absurd hxa.symm hne
    case isFalse hxa => exact ⟨fun heq => hxa (by rw [hroot, heq]), hx, hroot⟩
  · rintro ⟨hxa, hx, hroot⟩
    refine ⟨hx, ?_⟩
    rw [if_neg (by rwa [hroot]), hroot]

/-- A join takes one component away. -/
theorem card_roots_join (h : Within uf vertices) {a b : V} (ha : a ∈ vertices)
    (hne : uf.root a ≠ uf.root b) :
    (roots (uf.join a b) vertices).card + 1 = (roots uf vertices).card := by
  rw [roots_join hne]
  exact Finset.card_erase_add_one (Finset.mem_filter.mpr ⟨h a ha, uf.root_root a⟩)

/-- The roots count the components. -/
theorem ncard_classes {R : V → V → Prop} (h : Within uf vertices) (hrep : uf.Represents R) :
    (classes R vertices).ncard = (roots uf vertices).card := by
  have himage : classes R vertices =
      (fun x => {y | y ∈ vertices ∧ Relation.EqvGen R x y}) '' (roots uf vertices : Set V) := by
    ext c
    constructor
    · rintro ⟨x, hx, rfl⟩
      refine ⟨uf.root x, Finset.mem_coe.mpr (Finset.mem_filter.mpr ⟨h x hx, uf.root_root x⟩), ?_⟩
      have hroot := hrep.eqvGen_root x
      ext y
      exact ⟨fun ⟨hy, hxy⟩ => ⟨hy, .trans _ _ _ hroot hxy⟩,
        fun ⟨hy, hxy⟩ => ⟨hy, .trans _ _ _ (.symm _ _ hroot) hxy⟩⟩
    · rintro ⟨x, hx, rfl⟩
      exact ⟨x, Finset.mem_coe.mpr (Finset.mem_filter.mp hx).1, rfl⟩
  rw [himage, Set.InjOn.ncard_image, Set.ncard_coe_finset]
  intro x hx y hy heq
  obtain ⟨hx, hxroot⟩ := Finset.mem_filter.mp (Finset.mem_coe.mp hx)
  obtain ⟨hy, hyroot⟩ := Finset.mem_filter.mp (Finset.mem_coe.mp hy)
  have hmem : y ∈ {z | z ∈ vertices ∧ Relation.EqvGen R x z} := by
    change {z | z ∈ vertices ∧ Relation.EqvGen R x z} = {z | z ∈ vertices ∧ Relation.EqvGen R y z} at heq
    rw [heq]
    exact ⟨hy, .refl y⟩
  have hsame : uf.root x = uf.root y := (hrep x y).mpr hmem.2
  rw [← hxroot, hsame, hyroot]

/-- With a single root everything is connected. -/
theorem same_of_card_roots_le_one (h : Within uf vertices) (hcard : (roots uf vertices).card ≤ 1) {x y : V}
    (hx : x ∈ vertices) (hy : y ∈ vertices) : uf.Same x y := by
  have hroot : ∀ {z}, z ∈ vertices → uf.root z ∈ roots uf vertices :=
    fun hz => Finset.mem_filter.mpr ⟨h _ hz, uf.root_root _⟩
  exact Finset.card_le_one.mp hcard _ (hroot hx) _ (hroot hy)

/-- Joining what is connected already moves no root. -/
theorem root_join_of_same {a b : V} (h : uf.root a = uf.root b) (x : V) :
    (uf.join a b).root x = uf.root x := by
  rw [UnionFind.root_join]
  split
  case isTrue hx => rw [← h, hx]
  case isFalse => rfl

theorem represents_join_of_same {R : V → V → Prop} (hrep : uf.Represents R) {a b : V}
    (h : uf.root a = uf.root b) : (uf.join a b).Represents R := by
  intro x y
  rw [UnionFind.Same, root_join_of_same h, root_join_of_same h]
  exact hrep x y

end Join

/-! ### Kruskal's loop -/

variable (ends : K → V × V)

/-- Keeps every item whose ends are not connected yet, until `n` vertices must be. -/
def grow (n : ℕ) : List K → UnionFind V → ℕ → List K
  | [], _, _ => []
  | k :: rest, uf, kept =>
    let first := uf.find (ends k).1
    let second := first.1.find (ends k).2
    let uf' := uf.join (ends k).1 (ends k).2
    if first.2 ≠ second.2 then k :: if n ≤ kept + 1 + 1 then [] else grow n rest uf' (kept + 1)
    else grow n rest uf' kept

/-- The relation with pairs added to it. -/
def withPairs (R : V → V → Prop) (pairs : List (V × V)) : V → V → Prop :=
  fun x y => R x y ∨ (x, y) ∈ pairs

omit [DecidableEq V] in
theorem withPairs_cons (R : V → V → Prop) (p : V × V) (rest : List (V × V)) :
    withPairs R (p :: rest) = withPairs (fun x y => R x y ∨ (x = p.1 ∧ y = p.2)) rest := by
  funext x y
  simp only [withPairs, List.mem_cons, Prod.ext_iff, eq_iff_iff]
  tauto

theorem grow_sublist (n : ℕ) (order : List K) (uf : UnionFind V) (kept : ℕ) :
    (grow ends n order uf kept).Sublist order := by
  induction order generalizing uf kept with
  | nil => exact .refl _
  | cons k rest ih =>
    simp only [grow]
    split
    · apply List.Sublist.cons_cons
      split
      · exact List.nil_sublist _
      · exact ih _ _
    · exact (ih _ _).cons k

/-- The kept items connect whatever all of them would. -/
theorem grow_connects {R : V → V → Prop} {vertices : Finset V} (order : List K) (uf : UnionFind V)
    (kept : ℕ) (hrep : uf.Represents R) (hwithin : Within uf vertices)
    (hends : ∀ k ∈ order, (ends k).1 ∈ vertices ∧ (ends k).2 ∈ vertices)
    (hkept : (roots uf vertices).card + kept = vertices.card) :
    ∀ k ∈ order, Relation.EqvGen
      (withPairs R ((grow ends vertices.card order uf kept).map ends)) (ends k).1 (ends k).2 := by
  induction order generalizing uf kept R with
  | nil => exact fun _ h => absurd h List.not_mem_nil
  | cons k rest ih =>
    obtain ⟨hfst, hsnd⟩ := hends k List.mem_cons_self
    have hrest : ∀ k ∈ rest, (ends k).1 ∈ vertices ∧ (ends k).2 ∈ vertices :=
      fun k hk => hends k (List.mem_cons_of_mem _ hk)
    have hwithin' := hwithin.join (ends k).1 hsnd
    have hrep' := hrep.join (ends k).1 (ends k).2
    simp only [grow, UnionFind.find_snd, UnionFind.root_find]
    split
    case isTrue hne =>
      have hcard := card_roots_join hwithin hfst hne
      split
      case isTrue hdone =>
        -- everything is connected now
        have hall : ∀ x ∈ vertices, ∀ y ∈ vertices,
            Relation.EqvGen (withPairs R [ends k]) x y := by
          intro x hx y hy
          have hone : (roots (uf.join (ends k).1 (ends k).2) vertices).card ≤ 1 := by omega
          have hsame := (hrep' x y).mp (same_of_card_roots_le_one hwithin' hone hx hy)
          rw [withPairs_cons]
          exact hsame.mono fun _ _ => Or.inl
        intro j hj
        obtain ⟨hj1, hj2⟩ := hends j hj
        exact hall _ hj1 _ hj2
      case isFalse =>
        rw [List.map_cons, withPairs_cons]
        intro j hj
        rcases List.mem_cons.mp hj with rfl | hj
        · exact .rel _ _ (.inl (.inr ⟨rfl, rfl⟩))
        · exact ih _ _ hrep' hwithin' hrest (by omega) j hj
    case isFalse heq =>
      have heq := not_not.mp heq
      have hroots : roots (uf.join (ends k).1 (ends k).2) vertices = roots uf vertices :=
        Finset.filter_congr fun x _ => by rw [root_join_of_same heq]
      intro j hj
      rcases List.mem_cons.mp hj with rfl | hj
      · exact ((hrep _ _).mp heq).mono fun _ _ => Or.inl
      · apply ih _ _ (represents_join_of_same hrep heq) hwithin' hrest _ j hj
        rw [hroots]
        exact hkept

end SpanningForest
