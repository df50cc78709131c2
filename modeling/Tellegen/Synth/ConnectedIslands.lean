import Tellegen.Synth.IslandMesh

/-!
The mesh of an island connects its buses: whatever the triangulation left apart is joined with one corridor
for each missing component. Mesh and loops stay within the degree limit.
-/

set_option linter.unusedSectionVars false

open Binary64

namespace Tellegen.Synth

def linked (corridors : Finset Edge) (x y : ℕ) : Prop := Edge.new x y ∈ corridors

def degreeIn (corridors : Finset Edge) (k : ℕ) : ℕ :=
  (corridors.filter fun e => (ofLex e).1 = k ∨ (ofLex e).2 = k).card

/-! ### Adding corridors -/

namespace Mesh

/-- The corridors are between points below `n`, and the degrees count them. -/
structure Valid (n : ℕ) (m : Mesh) : Prop where
  between : ∀ e ∈ m.corridors, (ofLex e).1 < (ofLex e).2 ∧ (ofLex e).2 < n
  counted : ∀ k, m.degree k = degreeIn m.corridors k

theorem valid_empty (n : ℕ) : Valid n .empty where
  between _ h := absurd h (Finset.notMem_empty _)
  counted _ := rfl

theorem add_cases (m : Mesh) (e : Edge) :
    m.add e = m ∨ ((ofLex e).1 ≠ (ofLex e).2 ∧ e ∉ m.corridors ∧
      (m.add e).corridors = insert e m.corridors ∧
      ∀ k, (m.add e).degree k = m.degree k + if (ofLex e).1 = k ∨ (ofLex e).2 = k then 1 else 0) := by
  unfold add
  split
  case isTrue => exact .inl rfl
  case isFalse hnew =>
    obtain ⟨hne, hmem⟩ := not_or.mp hnew
    refine .inr ⟨hne, hmem, rfl, fun k => ?_⟩
    dsimp only
    simp only [Function.update_apply]
    grind

theorem subset_add (m : Mesh) (e : Edge) : m.corridors ⊆ (m.add e).corridors := by
  rcases m.add_cases e with h | ⟨-, -, h, -⟩
  · rw [h]
  · rw [h]
    exact Finset.subset_insert _ _

theorem mem_add {m : Mesh} {e : Edge} (h : (ofLex e).1 ≠ (ofLex e).2) : e ∈ (m.add e).corridors := by
  unfold add
  split
  case isTrue hor => exact hor.resolve_left h
  case isFalse => exact Finset.mem_insert_self _ _

theorem Valid.add {n : ℕ} {m : Mesh} (h : Valid n m) {e : Edge}
    (he : (ofLex e).1 ≤ (ofLex e).2 ∧ (ofLex e).2 < n) : Valid n (m.add e) := by
  rcases m.add_cases e with heq | ⟨hne, hnew, hcorridors, hdegree⟩
  · rwa [heq]
  · constructor
    case between =>
      intro e' he'
      rw [hcorridors] at he'
      rcases Finset.mem_insert.mp he' with rfl | he'
      · exact ⟨Nat.lt_of_le_of_ne he.1 hne, he.2⟩
      · exact h.between e' he'
    case counted =>
      intro k
      rw [hdegree, h.counted, degreeIn, degreeIn, hcorridors, Finset.filter_insert]
      split
      case isTrue =>
        rw [Finset.card_insert_of_notMem fun hmem => hnew (Finset.mem_filter.mp hmem).1]
      case isFalse => rfl

theorem Valid.addAll {n : ℕ} {m : Mesh} (h : Valid n m) {list : List Edge} (hlist : EdgesBelow n list) :
    Valid n (list.foldl Mesh.add m) := by
  induction list generalizing m with
  | nil => exact h
  | cons e rest ih =>
    apply ih (h.add (hlist e List.mem_cons_self))
    exact fun e' he' => hlist e' (List.mem_cons_of_mem _ he')

theorem subset_addAll (m : Mesh) (list : List Edge) :
    m.corridors ⊆ (list.foldl Mesh.add m).corridors := by
  induction list generalizing m with
  | nil => exact Finset.Subset.refl _
  | cons e rest ih => exact (m.subset_add e).trans (ih _)

theorem mem_addAll {list : List Edge} (m : Mesh) {e : Edge} (he : e ∈ list)
    (hne : (ofLex e).1 ≠ (ofLex e).2) : e ∈ (list.foldl Mesh.add m).corridors := by
  induction list generalizing m with
  | nil => exact absurd he List.not_mem_nil
  | cons e' rest ih =>
    rcases List.mem_cons.mp he with rfl | he
    · exact subset_addAll (m.add e) rest (mem_add hne)
    · exact ih _ he

end Mesh

/-! ### Mesh and loops -/

/-- What mesh and loops do to a mesh: corridors are added up to a target, at points with room for them. -/
structure Grown (target : ℕ) (before after : Mesh) : Prop where
  kept : before.corridors ⊆ after.corridors
  sized : after.corridors.card ≤ max target before.corridors.card
  bounded : ∀ k, after.degree k ≤ max maxDegree (before.degree k)
  capped : ∀ e ∈ after.corridors, e ∉ before.corridors →
    after.degree (ofLex e).1 ≤ maxDegree ∧ after.degree (ofLex e).2 ≤ maxDegree

namespace Grown

variable {target : ℕ}

theorem refl (m : Mesh) : Grown target m m where
  kept := Finset.Subset.refl _
  sized := Nat.le_max_right _ _
  bounded _ := Nat.le_max_right _ _
  capped _ he hnot := absurd he hnot

theorem trans {a b c : Mesh} (hab : Grown target a b) (hbc : Grown target b c) : Grown target a c where
  kept := hab.kept.trans hbc.kept
  sized := by
    have h1 := hab.sized
    have h2 := hbc.sized
    omega
  bounded k := by
    have h1 := hab.bounded k
    have h2 := hbc.bounded k
    omega
  capped e he hnot := by
    by_cases hb : e ∈ b.corridors
    · obtain ⟨h1, h2⟩ := hab.capped e hb hnot
      have h3 := hbc.bounded (ofLex e).1
      have h4 := hbc.bounded (ofLex e).2
      omega
    · exact hbc.capped e he hb

theorem add {m : Mesh} {e : Edge} (hroom : crowded m e = false) (hfew : m.corridors.card < target) :
    Grown target m (m.add e) := by
  unfold crowded at hroom
  rw [Bool.or_eq_false_iff, decide_eq_false_iff_not, decide_eq_false_iff_not] at hroom
  rcases m.add_cases e with heq | ⟨hne, hnew, hcorridors, hdegree⟩
  · rw [heq]
    exact refl m
  · refine { kept := m.subset_add e, sized := ?_, bounded := ?_, capped := ?_ }
    · rw [hcorridors, Finset.card_insert_of_notMem hnew]
      omega
    · intro k
      rw [hdegree]
      split
      case isTrue hk => rcases hk with rfl | rfl <;> omega
      case isFalse => omega
    · intro e' he' hnot
      rw [hcorridors] at he'
      obtain rfl := (Finset.mem_insert.mp he').resolve_right hnot
      rw [hdegree, hdegree, if_pos (.inl rfl), if_pos (.inr rfl)]
      omega

end Grown

theorem grown_addMesh (target : ℕ) (m : Mesh) (list : List Edge) :
    Grown target m (addMesh target m list) := by
  induction list generalizing m with
  | nil => exact .refl m
  | cons e rest ih =>
    unfold addMesh
    split
    case isTrue => exact .refl m
    case isFalse hfew =>
      split
      case isTrue => exact ih m
      case isFalse hroom => exact (Grown.add (Bool.not_eq_true _ ▸ hroom) (by omega)).trans (ih _)

theorem grown_addLoops (target cap : ℕ) (m : Mesh) (added : ℕ) (list : List (List Edge)) :
    Grown target m (addLoops target cap m added list) := by
  induction list generalizing m added with
  | nil => exact .refl m
  | cons candidates rest ih =>
    unfold addLoops
    split
    case isTrue => exact .refl m
    case isFalse hfew =>
      split
      case h_1 e he =>
        have hfree := List.find?_some he
        rw [Bool.not_eq_true', Bool.or_eq_false_iff] at hfree
        exact (Grown.add hfree.2 (by omega)).trans (ih _ _)
      case h_2 => exact ih m added

/-! ### Every phase keeps to the points -/

section Phases

variable {n : ℕ} {m : Mesh}

theorem valid_addTree (target : ℕ) (h : m.Valid n) {list : List Edge} (hlist : EdgesBelow n list) :
    (addTree target m list).Valid n ∧ m.corridors ⊆ (addTree target m list).corridors := by
  induction list generalizing m with
  | nil => exact ⟨h, Finset.Subset.refl _⟩
  | cons e rest ih =>
    unfold addTree
    split
    case isTrue => exact ⟨h, Finset.Subset.refl _⟩
    case isFalse =>
      obtain ⟨hvalid, hsubset⟩ := ih (h.add (hlist e List.mem_cons_self)) fun e' he' =>
        hlist e' (List.mem_cons_of_mem _ he')
      exact ⟨hvalid, (m.subset_add e).trans hsubset⟩

theorem valid_addMesh (target : ℕ) (h : m.Valid n) {list : List Edge} (hlist : EdgesBelow n list) :
    (addMesh target m list).Valid n := by
  induction list generalizing m with
  | nil => exact h
  | cons e rest ih =>
    have hrest : EdgesBelow n rest := fun e' he' => hlist e' (List.mem_cons_of_mem _ he')
    unfold addMesh
    split
    case isTrue => exact h
    case isFalse =>
      split
      case isTrue => exact ih h hrest
      case isFalse => exact ih (h.add (hlist e List.mem_cons_self)) hrest

theorem valid_addLoops (target cap : ℕ) (h : m.Valid n) (added : ℕ) {list : List (List Edge)}
    (hlist : ∀ candidates ∈ list, EdgesBelow n candidates) : (addLoops target cap m added list).Valid n := by
  induction list generalizing m added with
  | nil => exact h
  | cons candidates rest ih =>
    have hrest : ∀ candidates ∈ rest, EdgesBelow n candidates :=
      fun c hc => hlist c (List.mem_cons_of_mem _ hc)
    unfold addLoops
    split
    case isTrue => exact h
    case isFalse =>
      split
      case h_1 e he =>
        exact ih (h.add (hlist candidates List.mem_cons_self e (List.mem_of_find?_eq_some he))) _ hrest
      case h_2 => exact ih h _ hrest

end Phases

/-! ### Joins -/

theorem linked_insert (corridors : Finset Edge) (a b x y : ℕ) :
    Relation.EqvGen (linked (insert (Edge.new a b) corridors)) x y ↔
      Relation.EqvGen (fun x y => linked corridors x y ∨ (x = a ∧ y = b)) x y := by
  constructor
  · intro h
    refine h.image (f := id) fun u v huv => ?_
    rcases Finset.mem_insert.mp huv with heq | huv
    · rcases Edge.new_eq_iff.mp heq with ⟨rfl, rfl⟩ | ⟨rfl, rfl⟩
      · exact .rel _ _ (.inr ⟨rfl, rfl⟩)
      · exact .symm _ _ (.rel _ _ (.inr ⟨rfl, rfl⟩))
    · exact .rel _ _ (.inl huv)
  · intro h
    refine h.mono fun u v huv => ?_
    rcases huv with huv | ⟨rfl, rfl⟩
    · exact Finset.mem_insert_of_mem huv
    · exact Finset.mem_insert_self _ _

theorem linked_add (m : Mesh) {a b : ℕ} (hne : a ≠ b) (x y : ℕ) :
    Relation.EqvGen (linked (m.add (Edge.new a b)).corridors) x y ↔
      Relation.EqvGen (fun x y => linked m.corridors x y ∨ (x = a ∧ y = b)) x y := by
  rw [← linked_insert]
  rcases m.add_cases (Edge.new a b) with heq | ⟨-, -, hcorridors, -⟩
  · have hmem := Mesh.mem_add (m := m) (Nat.ne_of_lt (Edge.new_lt hne))
    rw [heq] at hmem ⊢
    rw [Finset.insert_eq_self.mpr hmem]
  · rw [hcorridors]

theorem represents_corridors {n : ℕ} {m : Mesh} (h : m.Valid n) :
    (m.corridors.sort.foldl (fun uf e => uf.join (ofLex e).1 (ofLex e).2)
      (UnionFind.new ℕ)).Represents (linked m.corridors) ∧
    SpanningForest.Within (m.corridors.sort.foldl (fun uf e => uf.join (ofLex e).1 (ofLex e).2)
      (UnionFind.new ℕ)) (Finset.range n) := by
  have hfold : ∀ (list : List Edge) (uf : UnionFind ℕ) (R : ℕ → ℕ → Prop),
      (∀ e ∈ list, (ofLex e).2 < n) → uf.Represents R → SpanningForest.Within uf (Finset.range n) →
      (list.foldl (fun uf e => uf.join (ofLex e).1 (ofLex e).2) uf).Represents
        (SpanningForest.withPairs R (list.map ofLex)) ∧
      SpanningForest.Within (list.foldl (fun uf e => uf.join (ofLex e).1 (ofLex e).2) uf)
        (Finset.range n) := by
    intro list
    induction list with
    | nil =>
      intro uf R _ hrep hwithin
      have hsame : SpanningForest.withPairs R [] = R := by
        funext x y
        simp [SpanningForest.withPairs]
      rw [List.map_nil, hsame]
      exact ⟨hrep, hwithin⟩
    | cons e rest ih =>
      intro uf R hlist hrep hwithin
      rw [List.map_cons, SpanningForest.withPairs_cons, List.foldl_cons]
      apply ih _ _ fun e' he' => hlist e' (List.mem_cons_of_mem _ he')
      · exact hrep.join _ _
      · exact hwithin.join _ (Finset.mem_range.mpr (hlist e List.mem_cons_self))
  obtain ⟨hrep, hwithin⟩ := hfold m.corridors.sort (UnionFind.new ℕ) (fun _ _ => False)
    (fun e he => (h.between e ((Finset.mem_sort _).mp he)).2) UnionFind.represents_new
    (SpanningForest.within_new _)
  refine ⟨fun x y => (hrep x y).trans ⟨fun hconn => ?_, fun hconn => ?_⟩, hwithin⟩
  · refine hconn.mono fun u v huv => ?_
    rcases huv with huv | huv
    · exact huv.elim
    · obtain ⟨e, he, heq⟩ := List.mem_map.mp huv
      have hmem := (Finset.mem_sort _).mp he
      obtain ⟨hlt, -⟩ := h.between e hmem
      have hnew := Edge.new_of_lt hlt
      rw [heq] at hnew
      change Edge.new u v = e at hnew
      rwa [linked, hnew]
  · refine hconn.image (f := id) fun u v huv => ?_
    have hmem : (ofLex (Edge.new u v)) ∈ m.corridors.sort.map ofLex :=
      List.mem_map_of_mem ((Finset.mem_sort _).mpr huv)
    unfold Edge.new at hmem
    split at hmem
    · exact .rel _ _ (.inr hmem)
    · exact .symm _ _ (.rel _ _ (.inr hmem))

section Join

variable {F : Type} [Libm F] (points : List (F × F))

theorem nearestOfRoot_spec {uf : UnionFind ℕ} {root : ℕ} (hzero : uf.root 0 = root)
    (hpos : 0 < points.length) (k : ℕ) :
    nearestOfRoot points uf root k < points.length ∧ uf.root (nearestOfRoot points uf root k) = root := by
  have hstep : ∀ best, ∀ m < points.length, (∀ held ∈ best, held.2 < points.length ∧ uf.root held.2 = root) →
      ∀ held ∈ nearerOfRoot points uf root k best m, held.2 < points.length ∧ uf.root held.2 = root := by
    intro best m hm hbest
    unfold nearerOfRoot
    rw [UnionFind.find_snd]
    split
    case isTrue hroot =>
      cases best with
      | none =>
        dsimp only
        split
        · rintro held ⟨⟩
          exact ⟨hm, hroot⟩
        · exact fun held hheld => nomatch hheld
      | some before =>
        dsimp only
        split
        · rintro held ⟨⟩
          exact ⟨hm, hroot⟩
        · exact hbest
    case isFalse => exact hbest
  have hfold : ∀ (list : List ℕ) (best : Option (F × ℕ)), (∀ m ∈ list, m < points.length) →
      (∀ held ∈ best, held.2 < points.length ∧ uf.root held.2 = root) →
      ∀ held ∈ list.foldl (nearerOfRoot points uf root k) best,
        held.2 < points.length ∧ uf.root held.2 = root := by
    intro list
    induction list with
    | nil => exact fun _ _ h => h
    | cons m rest ih =>
      intro best hlist hbest
      apply ih
      · exact fun j hj => hlist j (List.mem_cons_of_mem _ hj)
      · exact hstep best m (hlist m List.mem_cons_self) hbest
  unfold nearestOfRoot
  split
  case h_1 held hheld =>
    exact hfold _ none (fun _ hm => List.mem_range.mp hm) (fun _ h => nomatch h) held hheld
  case h_2 => exact ⟨hpos, hzero⟩

def joinPair (m : Mesh) (p : ℕ × ℕ) : Mesh := m.add (Edge.new p.1 p.2)

/-- What the joins hold: the root is still the first point's, and the forest connects what corridors do. -/
structure Joined (n root : ℕ) (state : Joining) : Prop where
  valid : state.mesh.Valid n
  within : SpanningForest.Within state.uf (Finset.range n)
  represents : state.uf.Represents (linked state.mesh.corridors)
  first : state.uf.root 0 = root

variable {points}

theorem joinPoint_cases {root k : ℕ} {state : Joining} (h : Joined points.length root state)
    (hk : k < points.length) :
    (state.uf.root k = root ∧ joinPoint points root state k = state) ∨
      ∃ best < points.length, state.uf.root best = root ∧ state.uf.root k ≠ root ∧
        joinPoint points root state k =
          { mesh := joinPair state.mesh (k, best), uf := state.uf.join k best } := by
  unfold joinPoint
  rw [UnionFind.find_snd]
  split
  case isTrue hroot => exact .inl ⟨hroot, rfl⟩
  case isFalse hroot =>
    obtain ⟨hbelow, hbest⟩ := nearestOfRoot_spec points h.first (by omega) k
    exact .inr ⟨_, hbelow, hbest, hroot, rfl⟩

theorem Joined.join {n root k best : ℕ} {state : Joining} (h : Joined n root state) (hk : k < n)
    (hbelow : best < n) (hbest : state.uf.root best = root) (hroot : state.uf.root k ≠ root) :
    Joined n root { mesh := joinPair state.mesh (k, best), uf := state.uf.join k best } := by
  have hne : k ≠ best := by
    rintro rfl
    exact hroot hbest
  have hends : (ofLex (Edge.new k best)).1 ≤ (ofLex (Edge.new k best)).2 ∧
      (ofLex (Edge.new k best)).2 < n := by
    rw [Edge.new_snd]
    exact ⟨(Edge.new_snd k best ▸ Nat.le_of_lt (Edge.new_lt hne)), max_lt hk hbelow⟩
  refine { valid := h.valid.add hends, within := ?_, represents := fun x y => ?_, first := ?_ }
  · exact h.within.join _ (Finset.mem_range.mpr hbelow)
  · rw [h.represents.join k best x y]
    exact (linked_add state.mesh hne x y).symm
  · rw [UnionFind.root_join, if_neg, h.first]
    rw [h.first]
    exact hroot.symm

/-- The joins connect every point with the first one, and each of them takes a component away. -/
theorem joinPoints_spec {root : ℕ} (ks : List ℕ) {state : Joining} (h : Joined points.length root state)
    (hks : ∀ k ∈ ks, k < points.length) :
    ∃ joins : List (ℕ × ℕ),
      (ks.foldl (joinPoint points root) state).mesh = joins.foldl joinPair state.mesh ∧
      SpanningForest.Bridging (linked state.mesh.corridors) joins ∧
      Joined points.length root (ks.foldl (joinPoint points root) state) ∧
      (SpanningForest.roots (ks.foldl (joinPoint points root) state).uf (Finset.range points.length)).card +
        joins.length = (SpanningForest.roots state.uf (Finset.range points.length)).card ∧
      (∀ x, state.uf.root x = root → (ks.foldl (joinPoint points root) state).uf.root x = root) ∧
      ∀ k ∈ ks, (ks.foldl (joinPoint points root) state).uf.root k = root := by
  induction ks generalizing state with
  | nil => exact ⟨[], rfl, trivial, h, rfl, fun _ hx => hx, fun _ hk => absurd hk List.not_mem_nil⟩
  | cons k rest ih =>
    have hk := hks k List.mem_cons_self
    have hrest : ∀ k ∈ rest, k < points.length := fun k hk => hks k (List.mem_cons_of_mem _ hk)
    rw [List.foldl_cons]
    rcases joinPoint_cases h hk with ⟨hroot, heq⟩ | ⟨best, hbelow, hbest, hroot, heq⟩
    · rw [heq]
      obtain ⟨joins, hmesh, hbridging, hjoined, hcard, hkept, hall⟩ := ih h hrest
      refine ⟨joins, hmesh, hbridging, hjoined, hcard, hkept, fun j hj => ?_⟩
      rcases List.mem_cons.mp hj with rfl | hj
      · exact hkept _ hroot
      · exact hall j hj
    · rw [heq]
      have hnext := h.join hk hbelow hbest hroot
      obtain ⟨joins, hmesh, hbridging, hjoined, hcard, hkept, hall⟩ := ih hnext hrest
      have hne : state.uf.root k ≠ state.uf.root best := by rwa [hbest]
      have hfewer := SpanningForest.card_roots_join h.within (Finset.mem_range.mpr hk) hne
      have hjoin : ∀ x, (state.uf.root x = root ∨ x = k) → (state.uf.join k best).root x = root := by
        intro x hx
        rw [UnionFind.root_join]
        split
        case isTrue => exact hbest
        case isFalse hnot =>
          rcases hx with hx | rfl
          · exact hx
          · exact absurd rfl hnot
      refine ⟨(k, best) :: joins, hmesh, ⟨?_, ?_⟩, hjoined, ?_, ?_, ?_⟩
      · exact fun hconn => hne ((h.represents k best).mpr hconn)
      · apply SpanningForest.bridging_congr _ hbridging
        intro x y
        exact linked_add state.mesh (fun heq => hne (congrArg state.uf.root heq)) x y
      · rw [List.length_cons]
        dsimp only at hcard
        omega
      · exact fun x hx => hkept x (hjoin x (.inl hx))
      · intro j hj
        rcases List.mem_cons.mp hj with rfl | hj
        · exact hkept _ (hjoin _ (.inr rfl))
        · exact hall j hj

end Join

/-! ### The phases of an island -/

section Island

variable {F : Type} [Planning F] {triangulate : List (F × F) → Triangles} (own : List (DraftBus F))
  (points : List (F × F)) (uniqueRatio : F)

theorem edgesBelow_map_edgeAt {n : ℕ} {edges : List Edge} (h : EdgesBelow n edges) {list : List ℕ}
    (hlist : ∀ k ∈ list, k < edges.length) : EdgesBelow n (list.map (edgeAt edges)) := by
  intro e he
  obtain ⟨k, hk, rfl⟩ := List.mem_map.mp he
  have hlt := hlist k hk
  rw [edgeAt, List.getD_eq_getElem _ _ hlt]
  exact h _ (List.getElem_mem hlt)

theorem mem_minimumSpanningForest {edges : List Edge} {weight : ℕ → F} {n k : ℕ}
    (h : k ∈ minimumSpanningForest edges weight n) : k < edges.length :=
  List.mem_range.mp (List.mem_mergeSort.mp ((SpanningForest.grow_sublist _ _ _ _ _).subset h))

theorem edgesBelow_new {n a b : ℕ} (ha : a < n) (hb : b < n) : EdgesBelow n [Edge.new a b] := by
  have h : EdgesBelow n Triangulation.empty.edges := fun e he => absurd he List.not_mem_nil
  exact h.push ha hb (none, none)

theorem highEdge_below (hpos : 0 < own.length) (e : Edge) : EdgesBelow own.length [highEdge own e] := by
  have hbelow : ∀ k, (highVoltage own).getD k 0 < own.length := by
    intro k
    rw [List.getD_eq_getElem?_getD]
    cases hk : (highVoltage own)[k]? with
    | none => exact hpos
    | some i => exact List.mem_range.mp (List.mem_filter.mp (List.mem_of_getElem? hk)).1
  exact edgesBelow_new (hbelow _) (hbelow _)

theorem highEdges_below (hpos : 0 < own.length) {list : List Edge}
    (hlist : ∀ e ∈ list, ∃ e', e = highEdge own e') : EdgesBelow own.length list := by
  intro e he
  obtain ⟨e', rfl⟩ := hlist e he
  exact highEdge_below own hpos e' _ List.mem_cons_self

variable {points}

theorem valid_backbone (htri : NamesPoints triangulate) :
    (backbone triangulate own points).Valid points.length := by
  apply (Mesh.valid_empty _).addAll
  apply edgesBelow_map_edgeAt (edgesBelow_delaunay htri points)
  exact fun k hk => mem_minimumSpanningForest hk

theorem valid_treesOf (htri : NamesPoints triangulate) (hlength : own.length = points.length)
    (hpos : 0 < points.length) : (treesOf triangulate own points uniqueRatio).Valid points.length ∧
      (backbone triangulate own points).corridors ⊆ (treesOf triangulate own points uniqueRatio).corridors := by
  have hvalid : (backbone triangulate own points).Valid points.length := valid_backbone own htri
  unfold treesOf highTree
  split
  · apply valid_addTree _ hvalid
    rw [← hlength]
    apply highEdges_below own (by omega)
    intro e he
    obtain ⟨k, -, rfl⟩ := List.mem_map.mp he
    exact ⟨_, rfl⟩
  · exact ⟨hvalid, Finset.Subset.refl _⟩

theorem valid_meshOf (htri : NamesPoints triangulate) (hlength : own.length = points.length)
    (hpos : 0 < points.length) : (meshOf triangulate own points uniqueRatio).Valid points.length := by
  have htrees := (valid_treesOf own uniqueRatio htri hlength hpos).1
  have hgabriel : (gabrielMesh triangulate own points uniqueRatio
      (treesOf triangulate own points uniqueRatio)).Valid points.length := by
    apply valid_addMesh _ htrees
    apply edgesBelow_map_edgeAt (edgesBelow_delaunay htri points)
    exact fun k hk => List.mem_range.mp (List.mem_filter.mp (List.mem_mergeSort.mp hk)).1
  unfold meshOf highLoops
  split
  · apply valid_addLoops _ _ hgabriel
    intro candidates hcandidates
    obtain ⟨h, -, rfl⟩ := List.mem_map.mp hcandidates
    rw [← hlength]
    apply highEdges_below own (by omega)
    intro e he
    obtain ⟨j, -, rfl⟩ := List.mem_map.mp he
    exact ⟨_, rfl⟩
  · exact hgabriel

theorem grown_meshOf : Grown (meshTarget own uniqueRatio) (treesOf triangulate own points uniqueRatio)
    (meshOf triangulate own points uniqueRatio) := by
  unfold meshOf highLoops
  split
  · exact (grown_addMesh _ _ _).trans (grown_addLoops _ _ _ _ _)
  · exact grown_addMesh _ _ _

theorem backbone_connects (htri : NamesPoints triangulate) (hlength : own.length = points.length) {x y : ℕ}
    (h : Relation.EqvGen (fun x y => toLex (x, y) ∈ (islandTriangulation triangulate points).edges) x y) :
    Relation.EqvGen (linked (backbone triangulate own points).corridors) x y := by
  set tri := islandTriangulation triangulate points with htriangles
  have hbelow : EdgesBelow points.length tri.edges := edgesBelow_delaunay htri points
  set order := (List.range tri.edges.length).mergeSort (shorterFirst tri.edges (lengthOf own tri.edges))
  set chosen := minimumSpanningForest tri.edges (lengthOf own tri.edges) own.length
  have hends : ∀ k ∈ order, (ofLex (edgeAt tri.edges k)).1 ∈ Finset.range points.length ∧
      (ofLex (edgeAt tri.edges k)).2 ∈ Finset.range points.length := by
    intro k hk
    have hlt := List.mem_range.mp (List.mem_mergeSort.mp hk)
    have hmem : edgeAt tri.edges k ∈ tri.edges := by
      rw [edgeAt, List.getD_eq_getElem _ _ hlt]
      exact List.getElem_mem hlt
    obtain ⟨hle, hsnd⟩ := hbelow _ hmem
    exact ⟨Finset.mem_range.mpr (Nat.lt_of_le_of_lt hle hsnd), Finset.mem_range.mpr hsnd⟩
  have hgrow := SpanningForest.grow_connects (fun k => ofLex (edgeAt tri.edges k)) order (UnionFind.new ℕ) 0
    UnionFind.represents_new (SpanningForest.within_new _) hends (by rw [SpanningForest.roots_new]; rfl)
  rw [Finset.card_range, ← hlength] at hgrow
  refine h.image (f := id) fun u v huv => ?_
  obtain ⟨k, hk, hkuv⟩ := List.getElem_of_mem huv
  have hat : edgeAt tri.edges k = toLex (u, v) := by
    rw [edgeAt, List.getD_eq_getElem _ _ hk, hkuv]
  have hconn := hgrow k (List.mem_mergeSort.mpr (List.mem_range.mpr hk))
  rw [hat] at hconn
  refine hconn.image (f := id) fun a b hab => ?_
  rcases hab with hnone | hab
  · exact hnone.elim
  · obtain ⟨j, hj, hjab⟩ := List.mem_map.mp hab
    by_cases hne : a = b
    · subst hne
      exact .refl _
    · have hedge : edgeAt tri.edges j = toLex (a, b) := hjab
      have hmem : toLex (a, b) ∈ (backbone triangulate own points).corridors := by
        apply Mesh.mem_addAll
        · rw [← hedge]
          exact List.mem_map_of_mem hj
        · exact hne
      have hlt := ((valid_backbone own htri).between _ hmem).1
      have hnew : Edge.new a b = toLex (a, b) := Edge.new_of_lt hlt
      rw [← hnew] at hmem
      exact .rel _ _ hmem

end Island

/-! ### The whole island -/

section Whole

variable {F : Type} [Planning F]

theorem components_eq (uf : UnionFind ℕ) (n : ℕ) :
    components uf n = (SpanningForest.roots uf (Finset.range n)).card := by
  have hfilter : (List.range n).filter (fun i => (uf.find i).2 = i) =
      (List.range n).filter fun i => uf.root i = i :=
    List.filter_congr fun i _ => by rw [UnionFind.find_snd]
  rw [components, hfilter]
  rfl

theorem joinComponents_spec {points : List (F × F)} {m : Mesh} (h : m.Valid points.length)
    (hpos : 0 < points.length) :
    (joinComponents points m).Valid points.length ∧
      (∀ x < points.length, ∀ y < points.length,
        Relation.EqvGen (linked (joinComponents points m).corridors) x y) ∧
      ∃ joins : List (ℕ × ℕ), joinComponents points m = joins.foldl joinPair m ∧
        SpanningForest.Bridging (linked m.corridors) joins ∧
        joins.length + 1 =
          (SpanningForest.classes (linked m.corridors) (Finset.range points.length)).ncard := by
  obtain ⟨hrep, hwithin⟩ := represents_corridors h
  rw [SpanningForest.ncard_classes hwithin hrep]
  unfold joinComponents
  dsimp only
  rw [components_eq, UnionFind.find_snd]
  set uf := m.corridors.sort.foldl (fun uf e => uf.join (ofLex e).1 (ofLex e).2) (UnionFind.new ℕ)
  have hzero : uf.root 0 ∈ SpanningForest.roots uf (Finset.range points.length) :=
    Finset.mem_filter.mpr ⟨hwithin 0 (Finset.mem_range.mpr hpos), uf.root_root 0⟩
  split
  case isTrue =>
    have hstart : Joined points.length (uf.root 0) { mesh := m, uf := uf } :=
      { valid := h, within := hwithin, represents := hrep, first := rfl }
    obtain ⟨joins, hmesh, hbridging, hjoined, hcard, hkept, hall⟩ :=
      joinPoints_spec (List.range' 1 (points.length - 1)) hstart fun k hk => by
        rw [List.mem_range'_1] at hk
        omega
    set final := (List.range' 1 (points.length - 1)).foldl (joinPoint points (uf.root 0)) { mesh := m, uf := uf }
    have hroot : ∀ x < points.length, final.uf.root x = uf.root 0 := by
      intro x hx
      rcases Nat.eq_zero_or_pos x with rfl | hxpos
      · exact hkept 0 rfl
      · exact hall x (List.mem_range'_1.mpr ⟨hxpos, by omega⟩)
    refine ⟨hjoined.valid, fun x hx y hy => ?_, joins, hmesh, hbridging, ?_⟩
    · exact (hjoined.represents x y).mp ((hroot x hx).trans (hroot y hy).symm)
    · have hone : SpanningForest.roots final.uf (Finset.range points.length) = {uf.root 0} := by
        ext x
        rw [Finset.mem_singleton, SpanningForest.roots, Finset.mem_filter, Finset.mem_range]
        constructor
        · rintro ⟨hx, hself⟩
          rw [← hself]
          exact hroot x hx
        · rintro rfl
          have hx := Finset.mem_range.mp (hwithin 0 (Finset.mem_range.mpr hpos))
          exact ⟨hx, hroot _ hx⟩
      rw [hone, Finset.card_singleton] at hcard
      dsimp only at hcard
      omega
  case isFalse hfew =>
    refine ⟨h, fun x hx y hy => ?_, [], rfl, trivial, ?_⟩
    · exact (hrep x y).mp (SpanningForest.same_of_card_roots_le_one hwithin (not_lt.mp hfew)
        (Finset.mem_range.mpr hx) (Finset.mem_range.mpr hy))
    · have hsome := Finset.card_pos.mpr ⟨_, hzero⟩
      rw [List.length_nil]
      omega

/-! ### Bus numbers -/

variable {idxs : List ℕ}

theorem toBuses_new (a b : ℕ) :
    toBuses idxs (Edge.new a b) = Edge.new (idxs.getD a 0) (idxs.getD b 0) := by
  by_cases hlt : a < b
  · have hnew : Edge.new a b = toLex (a, b) := if_pos hlt
    rw [toBuses, hnew]
    rfl
  · have hnew : Edge.new a b = toLex (b, a) := if_neg hlt
    rw [toBuses, hnew]
    exact Edge.new_comm _ _

theorem getD_injOn (hidxs : idxs.Nodup) {a b : ℕ} (ha : a < idxs.length) (hb : b < idxs.length)
    (heq : idxs.getD a 0 = idxs.getD b 0) : a = b := by
  rw [List.getD_eq_getElem _ _ ha, List.getD_eq_getElem _ _ hb] at heq
  exact (List.Nodup.getElem_inj_iff hidxs).mp heq

theorem toBuses_injOn (hidxs : idxs.Nodup) {m : Mesh} (h : m.Valid idxs.length) :
    Set.InjOn (toBuses idxs) (m.corridors : Set Edge) := by
  intro e he e' he' heq
  obtain ⟨hlt, hsnd⟩ := h.between e (Finset.mem_coe.mp he)
  obtain ⟨hlt', hsnd'⟩ := h.between e' (Finset.mem_coe.mp he')
  rw [← Edge.new_of_lt hlt, ← Edge.new_of_lt hlt']
  rw [toBuses, toBuses, Edge.new_eq_iff] at heq
  apply Edge.new_eq_iff.mpr
  rcases heq with ⟨h1, h2⟩ | ⟨h1, h2⟩
  · exact .inl ⟨getD_injOn hidxs (by omega) (by omega) h1, getD_injOn hidxs hsnd hsnd' h2⟩
  · exact .inr ⟨getD_injOn hidxs (by omega) hsnd' h1, getD_injOn hidxs hsnd (by omega) h2⟩

theorem between_toBuses (hidxs : idxs.Nodup) {m : Mesh} (h : m.Valid idxs.length) :
    ∀ e ∈ m.corridors.image (toBuses idxs),
      (ofLex e).1 < (ofLex e).2 ∧ (ofLex e).1 ∈ idxs ∧ (ofLex e).2 ∈ idxs := by
  intro e he
  obtain ⟨e', he', rfl⟩ := Finset.mem_image.mp he
  obtain ⟨hlt, hsnd⟩ := h.between e' he'
  have hmem : ∀ k < idxs.length, idxs.getD k 0 ∈ idxs := by
    intro k hk
    rw [List.getD_eq_getElem _ _ hk]
    exact List.getElem_mem hk
  have hne : idxs.getD (ofLex e').1 0 ≠ idxs.getD (ofLex e').2 0 :=
    fun heq => Nat.ne_of_lt hlt (getD_injOn hidxs (by omega) hsnd heq)
  refine ⟨Edge.new_lt hne, ?_⟩
  rw [toBuses, Edge.new]
  split
  · exact ⟨hmem _ (by omega), hmem _ hsnd⟩
  · exact ⟨hmem _ hsnd, hmem _ (by omega)⟩

/-- What the corridors of an island of several buses are: `mesh` is what stands before the joins. -/
structure LeanMesh (triangulate : List (F × F) → Triangles) (own : List (DraftBus F))
    (points : List (F × F)) (uniqueRatio : F) (joins : List (ℕ × ℕ)) (mesh : Mesh) : Prop where
  /-- Every join is between buses that nothing before it connects. -/
  bridging : SpanningForest.Bridging (linked mesh.corridors) joins
  /-- There is one join for each component beyond the first. -/
  missing : joins.length + 1 =
    (SpanningForest.classes (linked mesh.corridors) (Finset.range points.length)).ncard
  /-- Corridors beyond the trees stay within the degree limit, -/
  capped : ∀ e ∈ mesh.corridors, e ∉ (treesOf triangulate own points uniqueRatio).corridors →
    degreeIn mesh.corridors (ofLex e).1 ≤ maxDegree ∧ degreeIn mesh.corridors (ofLex e).2 ≤ maxDegree
  /-- and there are no more of them than the target asks for. -/
  sized : mesh.corridors.card ≤
    max (meshTarget own uniqueRatio) (treesOf triangulate own points uniqueRatio).corridors.card
  /-- Where the triangulation connects all points, the tree does so too and nothing is joined. -/
  spanned : (∀ x < points.length, ∀ y < points.length,
      Relation.EqvGen (fun x y => toLex (x, y) ∈ (islandTriangulation triangulate points).edges) x y) →
    joins = []

theorem leanMesh_meshOf {triangulate : List (F × F) → Triangles} (htri : NamesPoints triangulate)
    {own : List (DraftBus F)} {points : List (F × F)} (hlength : own.length = points.length)
    (hpos : 0 < points.length) (uniqueRatio : F) :
    ∃ joins, joinComponents points (meshOf triangulate own points uniqueRatio) =
        joins.foldl joinPair (meshOf triangulate own points uniqueRatio) ∧
      LeanMesh triangulate own points uniqueRatio joins (meshOf triangulate own points uniqueRatio) := by
  have hvalid := valid_meshOf own uniqueRatio htri hlength hpos
  have hgrown : Grown (meshTarget own uniqueRatio) (treesOf triangulate own points uniqueRatio)
      (meshOf triangulate own points uniqueRatio) := grown_meshOf own uniqueRatio
  obtain ⟨-, -, joins, hjoins, hbridging, hmissing⟩ := joinComponents_spec hvalid hpos
  refine ⟨joins, hjoins, hbridging, hmissing, fun e he hnot => ?_, hgrown.sized, fun hspan => ?_⟩
  · rw [← hvalid.counted, ← hvalid.counted]
    exact hgrown.capped e he hnot
  · have hconn : ∀ x < points.length, ∀ y < points.length,
        Relation.EqvGen (linked (meshOf triangulate own points uniqueRatio).corridors) x y := by
      intro x hx y hy
      have hsubset := (valid_treesOf own uniqueRatio htri hlength hpos).2.trans hgrown.kept
      exact (backbone_connects own htri hlength (hspan x hx y hy)).mono fun _ _ hab => hsubset hab
    cases joins with
    | nil => rfl
    | cons p rest =>
      -- a join could only repeat a connection that the count of components excludes
      have hone : (SpanningForest.classes (linked (meshOf triangulate own points uniqueRatio).corridors)
          (Finset.range points.length)).ncard ≤ 1 := by
        apply (Set.ncard_le_one ((Finset.finite_toSet _).image _)).mpr
        rintro a ⟨x, hx, rfl⟩ b ⟨y, hy, rfl⟩
        have hxy := hconn x (Finset.mem_range.mp hx) y (Finset.mem_range.mp hy)
        ext z
        exact ⟨fun ⟨hz, hxz⟩ => ⟨hz, .trans _ _ _ (.symm _ _ hxy) hxz⟩,
          fun ⟨hz, hyz⟩ => ⟨hz, .trans _ _ _ hxy hyz⟩⟩
      rw [List.length_cons] at hmissing
      omega

theorem exists_own {buses : List (DraftBus F)} (hbuses : ∀ i ∈ idxs, i < buses.length) :
    ∃ own, idxs.mapM (fun i => buses[i]?) = some own ∧ own.length = idxs.length := by
  induction idxs with
  | nil => exact ⟨[], rfl, rfl⟩
  | cons i rest ih =>
    obtain ⟨own, hown, hlength⟩ := ih fun k hk => hbuses k (List.mem_cons_of_mem _ hk)
    obtain ⟨b, hb⟩ : ∃ b, buses[i]? = some b :=
      ⟨_, List.getElem?_eq_getElem (hbuses i List.mem_cons_self)⟩
    refine ⟨b :: own, ?_, by rw [List.length_cons, List.length_cons, hlength]⟩
    rw [List.mapM_cons, hb, hown]
    rfl

/-- The corridors of an island connect its buses and lead nowhere else, no two of them are between the same
buses, and beyond the trees there are only as many as the degree limit, the target and the missing
components allow. -/
theorem island_mesh_connected_and_lean (triangulate : List (F × F) → Triangles)
    (htri : NamesPoints triangulate) (buses : List (DraftBus F)) (points : List (F × F)) (idxs : List ℕ)
    (hidxs : idxs.Nodup) (hbuses : ∀ i ∈ idxs, i < buses.length) (uniqueRatio : F)
    (edges delaunayEdges : Finset Edge) :
    ∃ added marked, islandTopology triangulate buses points idxs uniqueRatio edges delaunayEdges =
        some (edges ∪ added, marked) ∧
      (∀ x ∈ idxs, ∀ y ∈ idxs, Relation.EqvGen (linked added) x y) ∧
      (∀ e ∈ added, (ofLex e).1 < (ofLex e).2 ∧ (ofLex e).1 ∈ idxs ∧ (ofLex e).2 ∈ idxs) ∧
      (2 ≤ idxs.length → ∃ own joins mesh, idxs.mapM (fun i => buses[i]?) = some own ∧
        mesh = meshOf triangulate own (idxs.map (pointAt points)) uniqueRatio ∧
        LeanMesh triangulate own (idxs.map (pointAt points)) uniqueRatio joins mesh ∧
        added = (joins.foldl joinPair mesh).corridors.image (toBuses idxs) ∧
        added.card = (joins.foldl joinPair mesh).corridors.card) := by
  unfold islandTopology
  split
  case isTrue hfew =>
    refine ⟨∅, delaunayEdges, by rw [Finset.union_empty], fun x hx y hy => ?_, ?_, fun h => by omega⟩
    · obtain ⟨i, hi, rfl⟩ := List.getElem_of_mem hx
      obtain ⟨j, hj, rfl⟩ := List.getElem_of_mem hy
      obtain rfl : i = j := by omega
      exact .refl _
    · exact fun e he => absurd he (Finset.notMem_empty e)
  case isFalse hmany =>
    obtain ⟨own, hown, hlength⟩ := exists_own hbuses
    have hpoints : (idxs.map (pointAt points)).length = idxs.length := List.length_map _
    rw [← hpoints] at hlength
    have hpos : 0 < (idxs.map (pointAt points)).length := by omega
    obtain ⟨hvalid, hconn, -⟩ := joinComponents_spec (valid_meshOf own uniqueRatio htri hlength hpos) hpos
    obtain ⟨joins, hjoins, hlean⟩ := leanMesh_meshOf htri hlength hpos uniqueRatio
    rw [hpoints] at hvalid hconn
    rw [hjoins] at hvalid hconn
    rw [hown, Option.map_some]
    dsimp only
    rw [hjoins]
    refine ⟨_, _, rfl, fun x hx y hy => ?_, between_toBuses hidxs hvalid, fun _ =>
      ⟨own, joins, _, rfl, rfl, hlean, rfl, Finset.card_image_of_injOn (toBuses_injOn hidxs hvalid)⟩⟩
    · obtain ⟨i, hi, rfl⟩ := List.getElem_of_mem hx
      obtain ⟨j, hj, rfl⟩ := List.getElem_of_mem hy
      rw [← List.getD_eq_getElem idxs 0 hi, ← List.getD_eq_getElem idxs 0 hj]
      refine (hconn i hi j hj).image (f := fun k => idxs.getD k 0) fun a b hab => .rel _ _ ?_
      rw [linked, ← toBuses_new]
      exact Finset.mem_image_of_mem _ hab

end Whole

section Sample

@[reducible] local instance meshText : DecimalText ℝ := ⟨fun _ => ""⟩

/-- Points in order along a line: no triangle, and all of them on the hull. -/
def alongLine (points : List (ℝ × ℝ)) : Triangles :=
  { triangles := [], hull := List.range points.length }

noncomputable def equatorBus (lon : ℝ) : DraftBus ℝ where
  lon := lon
  lat := 0
  name := "Bus"
  place := none
  tier := 0
  baseKv := 220
  kind := .substation
  confidence := 0
  polygon := 0
  island := 0
  source := .synthetic
  populationWeight := 0
  loadMw := 0
  loadMvar := 0
  annotation := ""
  site := 0

theorem island_mesh_connected_and_lean_line :
    ∃ added marked, islandTopology alongLine [equatorBus 0, equatorBus 1, equatorBus 2]
        [(0, 0), (1, 0), (2, 0)] [0, 1, 2] 1 ∅ ∅ = some (∅ ∪ added, marked) ∧
      Relation.EqvGen (linked added) 0 2 := by
  have hnames : NamesPoints alongLine :=
    { corner := fun _ _ h => absurd h List.not_mem_nil, hull := fun _ _ h => List.mem_range.mp h }
  have hbuses : ∀ i ∈ [0, 1, 2], i < [equatorBus 0, equatorBus 1, equatorBus 2].length := by
    change ∀ i ∈ [0, 1, 2], i < 3
    decide
  obtain ⟨added, marked, hadded, hconn, -⟩ :=
    island_mesh_connected_and_lean alongLine hnames [equatorBus 0, equatorBus 1, equatorBus 2]
      [(0, 0), (1, 0), (2, 0)] [0, 1, 2] (by decide) hbuses 1 ∅ ∅
  exact ⟨added, marked, hadded, hconn 0 (by decide) 2 (by decide)⟩

end Sample

end Tellegen.Synth
