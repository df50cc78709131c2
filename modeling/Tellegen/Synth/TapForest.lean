import Tellegen.Lib.Splicing
import Tellegen.Synth.Taps

/-!
What tapping keeps: the corridors stay a forest that joins the same buses, and every tap is one new point,
one more edge and one new bus.
-/

set_option linter.unusedSectionVars false

open Tellegen.Osm (Drafting)

namespace Tellegen.Synth

/-! ### Edge sets as graphs -/

def graph (edges : Finset Edge) : SimpleGraph ℕ where
  Adj a b := a ≠ b ∧ Edge.new a b ∈ edges
  symm := ⟨fun a b h => ⟨h.1.symm, Edge.new_comm a b ▸ h.2⟩⟩
  loopless := ⟨fun _ h => h.1 rfl⟩

theorem graph_adj {edges : Finset Edge} {a b : ℕ} :
    (graph edges).Adj a b ↔ a ≠ b ∧ Edge.new a b ∈ edges := Iff.rfl

/-- A forest of corridors over `n` placed points. -/
structure Corridors (n : ℕ) (edges : Finset Edge) : Prop where
  ordered : ∀ e ∈ edges, (ofLex e).1 < (ofLex e).2
  placed : ∀ e ∈ edges, (ofLex e).2 < n
  forest : (graph edges).IsAcyclic

theorem Corridors.lt_of_adj {n : ℕ} {edges : Finset Edge} (h : Corridors n edges) {a b : ℕ}
    (hadj : (graph edges).Adj a b) : a < n := by
  have hplaced := h.placed _ hadj.2
  rw [Edge.new_snd] at hplaced
  exact lt_of_le_of_lt (Nat.le_max_left a b) hplaced

/-! ### One tap -/

theorem mem_cutEdges {edges : Finset Edge} {v a b : ℕ} {e : Edge} :
    e ∈ cutEdges edges v [a, b] ↔ e ∈ edges ∧ e ≠ Edge.new v a ∧ e ≠ Edge.new v b := by
  simp only [cutEdges, List.foldl_cons, List.foldl_nil, Finset.mem_erase]
  tauto

theorem mem_joinEdges {edges : Finset Edge} {tap : ℕ} {ends : List ℕ} {e : Edge} :
    e ∈ joinEdges edges tap ends ↔ e ∈ edges ∨ ∃ w ∈ ends, e = Edge.new tap w := by
  unfold joinEdges
  induction ends generalizing edges with
  | nil => simp
  | cons w rest ih =>
    rw [List.foldl_cons, ih, Finset.mem_insert]
    simp only [List.mem_cons, exists_eq_or_imp]
    tauto

/-- The ends of the new edges, in either order of the source. -/
def TapEnds (ends : List ℕ) (v a b : ℕ) : Prop := ends = [v, a, b] ∨ ends = [a, b, v]

theorem TapEnds.mem {ends : List ℕ} {v a b : ℕ} (h : TapEnds ends v a b) (w : ℕ) :
    w ∈ ends ↔ w = v ∨ w = a ∨ w = b := by
  rcases h with rfl | rfl
  · simp
  · simp only [List.mem_cons, List.not_mem_nil, or_false]
    tauto

theorem graph_tapped {edges : Finset Edge} {ends : List ℕ} {tap v a b : ℕ}
    (hends : TapEnds ends v a b) (hs : (graph edges).Spliceable tap v a b) :
    graph (joinEdges (cutEdges edges v [a, b]) tap ends) = (graph edges).splice tap v a b := by
  have hv := hs.ne_corner
  have ha := hs.ne_left
  have hb := hs.ne_right
  ext x y
  rw [graph_adj, mem_joinEdges, mem_cutEdges]
  simp only [SimpleGraph.splice, SimpleGraph.sup_adj, SimpleGraph.deleteEdges_adj, graph_adj,
    SimpleGraph.edge_adj, hends.mem, exists_eq_or_imp, exists_eq_left, Edge.new_eq_iff, ne_eq,
    Set.mem_insert_iff, Set.mem_singleton_iff, Sym2.eq_iff]
  constructor
  · rintro ⟨hxy, hold | hnew⟩
    · exact .inl (.inl (.inl ⟨⟨hxy, hold.1⟩, by grind⟩))
    · grind
  · rintro (((⟨⟨hxy, hold⟩, hcut⟩ | h) | h) | h)
    · exact ⟨hxy, .inl ⟨hold, by grind⟩⟩
    · exact ⟨h.2, by grind⟩
    · exact ⟨h.2, by grind⟩
    · exact ⟨h.2, by grind⟩

theorem card_joinEdges {edges : Finset Edge} {tap v a b : ℕ} {ends : List ℕ}
    (hends : TapEnds ends v a b) (hva : v ≠ a) (hvb : v ≠ b) (hab : a ≠ b)
    (hfresh : ∀ w, Edge.new tap w ∉ edges) :
    (joinEdges edges tap ends).card = edges.card + 3 := by
  have hnew : ∀ x y, x ≠ y → Edge.new tap x ≠ Edge.new tap y := by
    intro x y hxy h
    rcases Edge.new_eq_iff.mp h with ⟨-, h⟩ | ⟨h, h'⟩
    · exact hxy h
    · exact hxy (h'.trans h)
  have hcard : ∀ x y z, x ≠ y → x ≠ z → y ≠ z →
      (joinEdges edges tap [x, y, z]).card = edges.card + 3 := by
    intro x y z hxy hxz hyz
    simp only [joinEdges, List.foldl_cons, List.foldl_nil]
    rw [Finset.card_insert_of_notMem, Finset.card_insert_of_notMem,
      Finset.card_insert_of_notMem (hfresh x)]
    · rw [Finset.mem_insert, not_or]
      exact ⟨(hnew x y hxy).symm, hfresh y⟩
    · rw [Finset.mem_insert, Finset.mem_insert, not_or, not_or]
      exact ⟨(hnew y z hyz).symm, (hnew x z hxz).symm, hfresh z⟩
  rcases hends with rfl | rfl
  · exact hcard v a b hva hvb hab
  · exact hcard a b v hab hva.symm hvb.symm

theorem card_cutEdges {edges : Finset Edge} {v a b : ℕ} (hab : a ≠ b) (ha : Edge.new v a ∈ edges)
    (hb : Edge.new v b ∈ edges) : (cutEdges edges v [a, b]).card + 2 = edges.card := by
  have hne : Edge.new v b ≠ Edge.new v a := by
    intro h
    rcases Edge.new_eq_iff.mp h with ⟨-, h⟩ | ⟨h, h'⟩
    · exact hab h.symm
    · exact hab (h.symm.trans h'.symm)
  simp only [cutEdges, List.foldl_cons, List.foldl_nil]
  have hb' : Edge.new v b ∈ edges.erase (Edge.new v a) := Finset.mem_erase.mpr ⟨hne, hb⟩
  have hfirst := Finset.card_erase_add_one ha
  have hsecond := Finset.card_erase_add_one hb'
  omega

/-- What a run of taps keeps: `before` is the number of points at its start. -/
structure TapsKept (before : ℕ) (edges : Finset Edge) (after : ℕ) (edges' : Finset Edge)
    (taps : List ℕ) : Prop where
  corridors : Corridors after edges'
  points : after = before + taps.length
  count : edges'.card = edges.card + taps.length
  connected : ∀ x y, x < before → y < before →
    ((graph edges').Reachable x y ↔ (graph edges).Reachable x y)
  served : ∀ k (h : k < taps.length),
    taps[k] < before + k ∧ (graph edges').Reachable (before + k) taps[k]

theorem TapsKept.start {n : ℕ} {edges : Finset Edge} (h : Corridors n edges) :
    TapsKept n edges n edges [] where
  corridors := h
  points := rfl
  count := rfl
  connected _ _ _ _ := Iff.rfl
  served _ h := nomatch h

theorem TapsKept.trans {n m k : ℕ} {edges edges' edges'' : Finset Edge} {taps taps' : List ℕ}
    (h : TapsKept n edges m edges' taps) (h' : TapsKept m edges' k edges'' taps') :
    TapsKept n edges k edges'' (taps ++ taps') where
  corridors := h'.corridors
  points := by
    rw [h'.points, h.points, List.length_append, Nat.add_assoc]
  count := by
    rw [h'.count, h.count, List.length_append, Nat.add_assoc]
  connected x y hx hy := by
    have hm := h.points
    rw [h'.connected x y (by omega) (by omega), h.connected x y hx hy]
  served i hi := by
    have hm := h.points
    rw [List.length_append] at hi
    rcases Nat.lt_or_ge i taps.length with hlt | hge
    · obtain ⟨hbound, hreach⟩ := h.served i hlt
      rw [List.getElem_append_left hlt]
      exact ⟨hbound, (h'.connected _ _ (by omega) (by omega)).mpr hreach⟩
    · obtain ⟨hbound, hreach⟩ := h'.served (i - taps.length) (by omega)
      rw [List.getElem_append_right hge]
      rw [show m + (i - taps.length) = n + i by omega] at hbound hreach
      exact ⟨hbound, hreach⟩

theorem TapsKept.tapped {n : ℕ} {edges : Finset Edge} {ends : List ℕ} {v a b : ℕ}
    (h : Corridors n edges) (hends : TapEnds ends v a b) (ha : (graph edges).Adj v a)
    (hb : (graph edges).Adj v b) (hab : a ≠ b) :
    TapsKept n edges (n + 1) (joinEdges (cutEdges edges v [a, b]) n ends) [v] := by
  have hfresh : ∀ w, Edge.new n w ∉ edges := by
    intro w hmem
    have hplaced := h.placed _ hmem
    rw [Edge.new_snd] at hplaced
    exact absurd (Nat.le_max_left n w) (Nat.not_le_of_lt hplaced)
  have hs : (graph edges).Spliceable n v a b :=
    { fresh := fun w hadj => hfresh w hadj.2, left := ha, right := hb, distinct := hab }
  have hgraph := graph_tapped hends hs
  have hvn := h.lt_of_adj ha
  have hold : ∀ {w}, w ∈ ends → w < n := by
    intro w hw
    rcases (hends.mem w).mp hw with rfl | rfl | rfl
    · exact hvn
    · exact h.lt_of_adj ha.symm
    · exact h.lt_of_adj hb.symm
  refine { corridors := ⟨?_, ?_, ?_⟩, points := rfl, count := ?_, connected := ?_, served := ?_ }
  · intro e he
    rcases mem_joinEdges.mp he with he | ⟨w, hw, rfl⟩
    · exact h.ordered e (mem_cutEdges.mp he).1
    · exact Edge.new_lt (hold hw).ne'
  · intro e he
    rcases mem_joinEdges.mp he with he | ⟨w, hw, rfl⟩
    · exact (h.placed e (mem_cutEdges.mp he).1).trans (Nat.lt_succ_self n)
    · rw [Edge.new_snd]
      exact Nat.max_lt.mpr ⟨Nat.lt_succ_self n, (hold hw).trans (Nat.lt_succ_self n)⟩
  · rw [hgraph]
    exact hs.isAcyclic h.forest
  · rw [card_joinEdges hends ha.1 hb.1 hab fun w hmem => hfresh w (mem_cutEdges.mp hmem).1,
      List.length_singleton]
    have hcut := card_cutEdges hab ha.2 hb.2
    omega
  · intro x y hx hy
    rw [hgraph]
    exact hs.reachable_iff hx.ne hy.ne
  · intro k hk
    obtain rfl : k = 0 := by
      rw [List.length_singleton] at hk
      omega
    rw [hgraph]
    exact ⟨hvn, hs.adj_corner.reachable⟩

/-! ### The runs -/

variable {F S A : Type} [Drafting F] (t : Tuning F) (rng : Osm.Stream F S)

/-- What a pass holds at each of its steps. -/
structure Running (Adjacent : Finset Edge → A → Prop) (points : List (F × F)) (edges : Finset Edge)
    (st : Tapping F S A) : Prop where
  placed : ∃ more, st.points = points ++ more
  kept : TapsKept points.length edges st.points.length st.edges st.taps
  adjacent : Adjacent st.edges st.adj

theorem Running.fold {Adjacent : Finset Edge → A → Prop} {points : List (F × F)} {edges : Finset Edge}
    {step : Tapping F S A → ℕ → Tapping F S A}
    (hstep : ∀ st v, Running Adjacent points edges st → Running Adjacent points edges (step st v))
    (nodes : List ℕ) {st : Tapping F S A} (h : Running Adjacent points edges st) :
    Running Adjacent points edges (nodes.foldl step st) := by
  induction nodes generalizing st with
  | nil => exact h
  | cons v rest ih => exact ih (hstep st v h)

theorem Running.tap {Adjacent : Finset Edge → A → Prop} {points : List (F × F)} {edges : Finset Edge}
    {st next : Tapping F S A} {ends : List ℕ} {v a b : ℕ} {s : F × F}
    (h : Running Adjacent points edges st) (hends : TapEnds ends v a b)
    (ha : (graph st.edges).Adj v a) (hb : (graph st.edges).Adj v b) (hab : a ≠ b)
    (hpoints : next.points = st.points ++ [s]) (htaps : next.taps = st.taps ++ [v])
    (hedges : next.edges = joinEdges (cutEdges st.edges v [a, b]) st.points.length ends)
    (hadjacent : (graph st.edges).Spliceable st.points.length v a b →
      graph next.edges = (graph st.edges).splice st.points.length v a b →
      Adjacent next.edges next.adj) :
    Running Adjacent points edges next := by
  obtain ⟨more, hmore⟩ := h.placed
  have htap := TapsKept.tapped h.kept.corridors hends ha hb hab
  have hs : (graph st.edges).Spliceable st.points.length v a b :=
    { fresh := fun w hadj => absurd (h.kept.corridors.lt_of_adj hadj) (Nat.lt_irrefl _)
      left := ha, right := hb, distinct := hab }
  refine { placed := ⟨more ++ [s], ?_⟩, kept := ?_, adjacent := ?_ }
  · rw [hpoints, hmore, List.append_assoc]
  · rw [hpoints, htaps, hedges, List.length_append, List.length_singleton]
    exact h.kept.trans htap
  · apply hadjacent hs
    rw [hedges]
    exact graph_tapped hends hs

/-! ### Bends -/

def AdjacentSets (edges : Finset Edge) (adj : ℕ → Finset ℕ) : Prop :=
  ∀ x y, y ∈ adj x ↔ (graph edges).Adj x y

theorem mem_linkBoth {adj : ℕ → Finset ℕ} {a b x y : ℕ} :
    y ∈ linkBoth adj a b x ↔ y ∈ adj x ∨ (x = a ∧ y = b) ∨ (x = b ∧ y = a) := by
  simp only [linkBoth, Function.update_apply]
  grind

theorem mem_unlinkBoth {adj : ℕ → Finset ℕ} {a b x y : ℕ} :
    y ∈ unlinkBoth adj a b x ↔ y ∈ adj x ∧ ¬ (x = a ∧ y = b) ∧ ¬ (x = b ∧ y = a) := by
  simp only [unlinkBoth, Function.update_apply]
  grind

theorem adjacentSets_start {n : ℕ} {edges : Finset Edge} (h : Corridors n edges) : AdjacentSets edges
    (edges.sort.foldl (fun adj e => linkBoth adj (ofLex e).1 (ofLex e).2) fun _ => ∅) := by
  have hfold : ∀ (list : List Edge) (adj : ℕ → Finset ℕ) (x y : ℕ),
      y ∈ list.foldl (fun adj e => linkBoth adj (ofLex e).1 (ofLex e).2) adj x ↔ y ∈ adj x ∨
        ∃ e ∈ list, (x = (ofLex e).1 ∧ y = (ofLex e).2) ∨ (x = (ofLex e).2 ∧ y = (ofLex e).1) := by
    intro list
    induction list with
    | nil => simp
    | cons e rest ih =>
      intro adj x y
      rw [List.foldl_cons, ih, mem_linkBoth]
      simp only [List.mem_cons, exists_eq_or_imp, or_assoc]
  intro x y
  rw [hfold, graph_adj]
  simp only [Finset.notMem_empty, false_or, Finset.mem_sort]
  constructor
  · rintro ⟨e, he, ⟨rfl, rfl⟩ | ⟨rfl, rfl⟩⟩
    · have hlt := h.ordered e he
      rw [Edge.new_of_lt hlt]
      exact ⟨hlt.ne, he⟩
    · have hlt := h.ordered e he
      rw [Edge.new_comm, Edge.new_of_lt hlt]
      exact ⟨hlt.ne', he⟩
  · rintro ⟨hne, he⟩
    refine ⟨_, he, ?_⟩
    unfold Edge.new
    split
    · exact .inl ⟨rfl, rfl⟩
    · exact .inr ⟨rfl, rfl⟩

theorem mem_pairsOf {nb : List ℕ} (hnodup : nb.Nodup) {a b : ℕ} (h : (a, b) ∈ pairsOf nb) :
    a ∈ nb ∧ b ∈ nb ∧ a ≠ b := by
  induction nb with
  | nil => exact nomatch h
  | cons first rest ih =>
    rw [List.nodup_cons] at hnodup
    rw [pairsOf, List.mem_append, List.mem_map] at h
    rcases h with ⟨other, hother, h⟩ | h
    · obtain ⟨rfl, rfl⟩ := Prod.mk.injEq .. |>.mp h
      exact ⟨List.mem_cons_self, List.mem_cons_of_mem _ hother, fun heq => hnodup.1 (heq ▸ hother)⟩
    · obtain ⟨ha, hb, hne⟩ := ih hnodup.2 h
      exact ⟨List.mem_cons_of_mem _ ha, List.mem_cons_of_mem _ hb, hne⟩

theorem bendAt_ends {points : List (F × F)} {v a b : ℕ} {bend : Bend F}
    (h : bendAt t points v a b = some bend) : bend.a = a ∧ bend.b = b := by
  simp only [bendAt] at h
  split at h
  · exact nomatch h
  · split at h
    · exact nomatch h
    · split at h
      · obtain rfl := Option.some.inj h
        exact ⟨rfl, rfl⟩
      · exact nomatch h

theorem bestBend_mem {points : List (F × F)} {v : ℕ} {nb : List ℕ} {bend : Bend F}
    (h : bestBend t points v nb = some bend) : (bend.a, bend.b) ∈ pairsOf nb := by
  revert h
  refine List.foldlRecOn (motive := fun best => best = some bend → (bend.a, bend.b) ∈ pairsOf nb) _ _ ?_ ?_
  · intro hnone
    cases hnone
  · intro best ih pair hpair hbest
    split at hbest
    case h_1 found hfound =>
      unfold keepBend at hbest
      split at hbest
      · obtain rfl := Option.some.inj hbest
        obtain ⟨ha, hb⟩ := bendAt_ends t hfound
        rw [ha, hb]
        exact hpair
      · exact ih hbest
    case h_2 => exact ih hbest

theorem tapBend_running {points : List (F × F)} {edges : Finset Edge}
    (st : Tapping F S (ℕ → Finset ℕ)) (v : ℕ) (h : Running AdjacentSets points edges st) :
    Running AdjacentSets points edges (tapBend t rng st v) := by
  simp only [tapBend]
  split
  · exact h
  · split
    · exact h
    case h_2 bend hbend =>
      split
      · exact ⟨h.placed, h.kept, h.adjacent⟩
      · obtain ⟨ha, hb, hab⟩ := mem_pairsOf (Finset.sort_nodup _ _) (bestBend_mem t hbend)
        rw [Finset.mem_sort, h.adjacent] at ha hb
        refine h.tap (.inl rfl) ha hb hab rfl rfl rfl fun hs hgraph => ?_
        intro x y
        rw [hgraph, hs.adj_iff]
        simp only [List.foldl_cons, List.foldl_nil, mem_linkBoth, mem_unlinkBoth, h.adjacent x y]
        clear * -
        grind

/-! ### Straight lines -/

def neighboursAt (adj : ℕ → Option (List ℕ)) (x : ℕ) : List ℕ := (adj x).getD []

def AdjacentLists (edges : Finset Edge) (adj : ℕ → Option (List ℕ)) : Prop :=
  ∀ x, (neighboursAt adj x).Nodup ∧ ∀ y, y ∈ neighboursAt adj x ↔ (graph edges).Adj x y

theorem neighboursAt_pushNeighbour (adj : ℕ → Option (List ℕ)) (a b x : ℕ) :
    neighboursAt (pushNeighbour adj a b) x =
      neighboursAt adj x ++ if x = a then [b] else [] := by
  simp only [neighboursAt, pushNeighbour, Function.update_apply]
  split
  case isTrue heq => rw [heq, Option.getD_some]
  case isFalse => rw [List.append_nil]

/-- What an edge adds to the neighbours of a point. -/
def across (e : Edge) (x : ℕ) : List ℕ :=
  (if x = (ofLex e).1 then [(ofLex e).2] else []) ++ if x = (ofLex e).2 then [(ofLex e).1] else []

theorem mem_across {e : Edge} {x y : ℕ} : y ∈ across e x ↔
    (x = (ofLex e).1 ∧ y = (ofLex e).2) ∨ (x = (ofLex e).2 ∧ y = (ofLex e).1) := by
  rw [across, List.mem_append]
  apply or_congr <;> split <;> simp_all

theorem neighboursAt_start (list : List Edge) (adj : ℕ → Option (List ℕ)) (x : ℕ) :
    neighboursAt (list.foldl (fun adj e =>
      pushNeighbour (pushNeighbour adj (ofLex e).1 (ofLex e).2) (ofLex e).2 (ofLex e).1) adj) x =
      neighboursAt adj x ++ list.flatMap (across · x) := by
  induction list generalizing adj with
  | nil => simp
  | cons e rest ih =>
    rw [List.foldl_cons, ih, neighboursAt_pushNeighbour, neighboursAt_pushNeighbour,
      List.flatMap_cons, across, List.append_assoc, List.append_assoc, List.append_assoc]

theorem adjacentLists_start {n : ℕ} {edges : Finset Edge} (h : Corridors n edges) :
    AdjacentLists edges (edges.sort.foldl (fun adj e =>
      pushNeighbour (pushNeighbour adj (ofLex e).1 (ofLex e).2) (ofLex e).2 (ofLex e).1)
        fun _ => none) := by
  intro x
  rw [neighboursAt_start]
  have hnew : ∀ e ∈ edges, ∀ y ∈ across e x, Edge.new x y = e ∧ x ≠ y := by
    intro e he y hy
    have hlt := h.ordered e he
    rcases mem_across.mp hy with ⟨rfl, rfl⟩ | ⟨rfl, rfl⟩
    · exact ⟨Edge.new_of_lt hlt, hlt.ne⟩
    · rw [Edge.new_comm]
      exact ⟨Edge.new_of_lt hlt, hlt.ne'⟩
  refine ⟨?_, fun y => ?_⟩
  · change ([] ++ edges.sort.flatMap (across · x)).Nodup
    rw [List.nil_append, List.nodup_flatMap]
    constructor
    · intro e he
      have hlt := h.ordered e ((Finset.mem_sort _).mp he)
      unfold across
      split <;> split <;> simp
      omega
    · refine (Finset.sort_nodup edges (· ≤ ·)).pairwise_of_forall_ne ?_
      intro e he e' he' hne y hy hy'
      rw [Finset.mem_sort] at he he'
      exact hne ((hnew e he y hy).1.symm.trans (hnew e' he' y hy').1)
  · change y ∈ [] ++ edges.sort.flatMap (across · x) ↔ _
    rw [List.nil_append, List.mem_flatMap, graph_adj]
    constructor
    · rintro ⟨e, he, hy⟩
      rw [Finset.mem_sort] at he
      obtain ⟨heq, hne⟩ := hnew e he y hy
      exact ⟨hne, heq ▸ he⟩
    · rintro ⟨hne, he⟩
      refine ⟨_, (Finset.mem_sort _).mpr he, mem_across.mpr ?_⟩
      unfold Edge.new
      split
      · exact .inl ⟨rfl, rfl⟩
      · exact .inr ⟨rfl, rfl⟩

theorem neighboursAt_retarget {adj : ℕ → Option (List ℕ)} {v tap w : ℕ}
    (hsome : neighboursAt adj w ≠ []) (x : ℕ) : neighboursAt (retarget v tap adj w) x =
      if x = w then (neighboursAt adj w).filter (fun y => y ≠ v) ++ [tap] else neighboursAt adj x := by
  unfold retarget
  split
  case h_1 l hl =>
    simp only [neighboursAt, Function.update_apply]
    split
    · rw [hl, Option.getD_some, Option.getD_some]
    · rfl
  case h_2 hnone =>
    exact absurd (by rw [neighboursAt, hnone, Option.getD_none]) hsome

theorem tapStraight_running {points : List (F × F)} {edges : Finset Edge} (isProtected : ℕ → Bool)
    (st : Tapping F S (ℕ → Option (List ℕ))) (v : ℕ) (h : Running AdjacentLists points edges st) :
    Running AdjacentLists points edges (tapStraight t rng isProtected st v) := by
  simp only [tapStraight]
  split
  · exact h
  · split
    case h_2 => exact h
    case h_1 a b hends =>
      split
      · exact ⟨h.placed, h.kept, h.adjacent⟩
      · have hat : neighboursAt st.adj v = [a, b] := by
          rw [neighboursAt, hends, Option.getD_some]
        obtain ⟨hnodup, hmem⟩ := h.adjacent v
        rw [hat] at hnodup hmem
        have hab : a ≠ b := by
          rintro rfl
          simp at hnodup
        have ha := (hmem a).mp List.mem_cons_self
        have hb := (hmem b).mp (List.mem_cons_of_mem _ List.mem_cons_self)
        refine h.tap (.inr rfl) ha hb hab rfl rfl rfl fun hs hgraph => ?_
        have hv := hs.ne_corner
        have hta := hs.ne_left
        have htb := hs.ne_right
        have hsome : ∀ {w}, (graph st.edges).Adj v w → neighboursAt st.adj w ≠ [] := by
          intro w hw hnil
          have hback := ((h.adjacent w).2 v).mpr hw.symm
          rw [hnil] at hback
          exact nomatch hback
        have hturned : ∀ x, neighboursAt ([a, b].foldl (retarget v st.points.length) st.adj) x =
            if x = a ∨ x = b then
              (neighboursAt st.adj x).filter (fun y => y ≠ v) ++ [st.points.length]
            else neighboursAt st.adj x := by
          intro x
          have hfirst : ∀ x, neighboursAt (retarget v st.points.length st.adj a) x = _ :=
            neighboursAt_retarget (hsome ha)
          rw [List.foldl_cons, List.foldl_cons, List.foldl_nil, neighboursAt_retarget ?_ x, hfirst x,
            hfirst b, if_neg hab.symm]
          · by_cases hxb : x = b
            · rw [if_pos hxb, if_pos (.inr hxb), hxb]
            · rw [if_neg hxb]
              simp only [hxb, or_false]
              split
              case isTrue hxa => rw [hxa]
              case isFalse => rfl
          · rw [hfirst b, if_neg hab.symm]
            exact hsome hb
        intro x
        simp only [hgraph, hs.adj_iff]
        by_cases hxt : x = st.points.length
        · have hnew : neighboursAt (Function.update (Function.update
              ([a, b].foldl (retarget v st.points.length) st.adj) v (some [st.points.length]))
              st.points.length (some [a, b, v])) x = [a, b, v] := by
            rw [hxt, neighboursAt, Function.update_self, Option.getD_some]
          rw [hnew, hxt]
          refine ⟨by simp [hab, ha.1.symm, hb.1.symm], fun y => ?_⟩
          have hnone := hs.fresh y
          simp only [List.mem_cons, List.not_mem_nil, or_false]
          grind
        · by_cases hxv : x = v
          · have hnew : neighboursAt (Function.update (Function.update
                ([a, b].foldl (retarget v st.points.length) st.adj) v (some [st.points.length]))
                st.points.length (some [a, b, v])) x = [st.points.length] := by
              rw [neighboursAt, Function.update_of_ne hxt, hxv, Function.update_self, Option.getD_some]
            rw [hnew, hxv]
            refine ⟨List.nodup_singleton _, fun y => ?_⟩
            have hold := hmem y
            simp only [List.mem_cons, List.not_mem_nil, or_false] at hold ⊢
            grind
          · have hnew : neighboursAt (Function.update (Function.update
                ([a, b].foldl (retarget v st.points.length) st.adj) v (some [st.points.length]))
                st.points.length (some [a, b, v])) x =
                neighboursAt ([a, b].foldl (retarget v st.points.length) st.adj) x := by
              rw [neighboursAt, Function.update_of_ne hxt, Function.update_of_ne hxv, neighboursAt]
            rw [hnew, hturned]
            obtain ⟨hxnodup, hxmem⟩ := h.adjacent x
            have hxfresh : st.points.length ∉ neighboursAt st.adj x := by
              rw [hxmem]
              exact fun hadj => hs.fresh x hadj.symm
            split
            case isTrue hside =>
              constructor
              · rw [List.nodup_append]
                refine ⟨hxnodup.filter _, List.nodup_singleton _, ?_⟩
                intro y hy z hz
                rw [List.mem_singleton] at hz
                rintro rfl
                exact hxfresh (hz ▸ (List.mem_filter.mp hy).1)
              · intro y
                rw [List.mem_append, List.mem_filter, hxmem, List.mem_singleton, decide_eq_true_eq]
                grind
            case isFalse hside =>
              refine ⟨hxnodup, fun y => ?_⟩
              rw [hxmem]
              grind

/-! ### Whole passes -/

theorem steinerize_running (points : List (F × F)) {edges : Finset Edge} (nodes : List ℕ) (state : S)
    (h : Corridors points.length edges) :
    Running AdjacentSets points edges (steinerize t rng points edges nodes state) := by
  have hstart : Running AdjacentSets points edges
      { points := points, edges := edges,
        adj := edges.sort.foldl (fun adj e => linkBoth adj (ofLex e).1 (ofLex e).2) fun _ => ∅,
        rng := state, taps := [] } :=
    { placed := ⟨[], (List.append_nil points).symm⟩
      kept := .start h
      adjacent := adjacentSets_start h }
  exact Running.fold (fun _ _ hst => Running.fold (tapBend_running t rng) nodes hst) _ hstart

theorem straightTaps_running (points : List (F × F)) {edges : Finset Edge} (nodes : List ℕ)
    (isProtected : ℕ → Bool) (state : S) (h : Corridors points.length edges) :
    Running AdjacentLists points edges (straightTaps t rng points edges nodes isProtected state) := by
  have hstart : Running AdjacentLists points edges
      { points := points, edges := edges,
        adj := edges.sort.foldl (fun adj e => pushNeighbour
          (pushNeighbour adj (ofLex e).1 (ofLex e).2) (ofLex e).2 (ofLex e).1) fun _ => none,
        rng := state, taps := [] } :=
    { placed := ⟨[], (List.append_nil points).symm⟩
      kept := .start h
      adjacent := adjacentLists_start h }
  exact Running.fold (tapStraight_running t rng isProtected) nodes hstart

/-! ### Tap buses -/

variable (shape : RegionShape F)

/-- The buses from `before` on are the taps, each at its point and on the level of the bus it was made for. -/
structure TapBuses (points : List (F × F)) (before : ℕ) (taps : List ℕ) (buses : List (DraftBus F)) :
    Prop where
  count : buses.length = before + taps.length
  tap : ∀ k (h : k < taps.length), ∃ bus src,
    buses[before + k]? = some bus ∧ buses[taps[k]]? = some src ∧ bus.kind = .tap ∧
      (bus.lon, bus.lat) = shape.unproject (pointAt points (before + k)) ∧
      bus.tier = src.tier ∧ bus.baseKv = src.baseKv ∧ bus.island = src.island

theorem TapBuses.push {points : List (F × F)} {before v : ℕ} {taps : List ℕ}
    {buses : List (DraftBus F)} (h : TapBuses shape points before taps buses)
    (hv : v < before + taps.length) :
    ∃ src, pushTap shape points buses (before + taps.length) v = some
        (buses ++ [tapBus shape buses src (shape.unproject (pointAt points (before + taps.length)))]) ∧
      TapBuses shape points before (taps ++ [v])
        (buses ++ [tapBus shape buses src (shape.unproject (pointAt points (before + taps.length)))]) := by
  have hlt : v < buses.length := h.count ▸ hv
  refine ⟨buses[v], ?_, ?_, ?_⟩
  · rw [pushTap, List.getElem?_eq_getElem hlt, Option.map_some]
  · rw [List.length_append, List.length_append, h.count, List.length_singleton, Nat.add_assoc]
    rfl
  · intro k hk
    rw [List.length_append, List.length_singleton] at hk
    rcases Nat.lt_or_eq_of_le (Nat.le_of_lt_succ hk) with hlast | rfl
    · obtain ⟨bus, src, hbus, hsrc, hrest⟩ := h.tap k hlast
      refine ⟨bus, src, ?_, ?_, hrest⟩
      · rw [List.getElem?_append_left (List.getElem?_eq_some_iff.mp hbus).1]
        exact hbus
      · rw [List.getElem_append_left hlast,
          List.getElem?_append_left (List.getElem?_eq_some_iff.mp hsrc).1]
        exact hsrc
    · refine ⟨tapBus shape buses buses[v] (shape.unproject (pointAt points (before + taps.length))),
        buses[v], ?_, ?_, rfl, rfl, rfl, rfl, rfl⟩
      · rw [← h.count, List.getElem?_concat_length]
      · rw [List.getElem_concat_length rfl, List.getElem?_append_left hlt,
          List.getElem?_eq_getElem hlt]

theorem TapBuses.pushAll {points : List (F × F)} {before : ℕ} (rest done : List ℕ)
    {buses : List (DraftBus F)} (h : TapBuses shape points before done buses)
    (hrest : ∀ k (h : k < rest.length), rest[k] < before + (done.length + k)) :
    ∃ out more, ((rest.zipIdx done.length).foldlM
        (fun buses tap => pushTap shape points buses (before + tap.2) tap.1) buses) = some out ∧
      out = buses ++ more ∧ TapBuses shape points before (done ++ rest) out := by
  induction rest generalizing done buses with
  | nil => exact ⟨buses, [], rfl, (List.append_nil buses).symm, by rwa [List.append_nil]⟩
  | cons v rest ih =>
    have hfirst : v < before + done.length := hrest 0 (Nat.zero_lt_succ _)
    obtain ⟨src, hpush, hkept⟩ := h.push shape hfirst
    have hnext : ∀ k (h : k < rest.length), rest[k] < before + ((done ++ [v]).length + k) := by
      intro k hk
      have hk' := hrest (k + 1) (Nat.succ_lt_succ hk)
      rw [List.getElem_cons_succ] at hk'
      rw [List.length_append, List.length_singleton]
      omega
    obtain ⟨out, more, hout, hmore, hall⟩ := ih (done ++ [v]) hkept hnext
    rw [List.append_assoc, List.singleton_append] at hall
    refine ⟨out, _ :: more, ?_, by rw [hmore, List.append_assoc, List.singleton_append], hall⟩
    rw [List.zipIdx_cons, List.foldlM_cons, hpush]
    rw [List.length_append, List.length_singleton] at hout
    exact hout

/-- Corridors, points and buses of a pocket agree. -/
structure Pocket.Aligned (pocket : Pocket F S) : Prop where
  corridors : Corridors pocket.points.length pocket.tree
  buses : pocket.buses.length = pocket.points.length
  fed : pocket.fed.length = pocket.points.length

/-- Tapping a forest of corridors leaves a forest that joins two buses exactly when it did; each tap adds a
point, an edge and a bus, and stands at its point on the level of the bus it is connected to. -/
theorem taps_keep_forest (members : List ℕ) (isProtected : ℕ → Bool) (pocket : Pocket F S)
    (h : pocket.Aligned) :
    Running AdjacentSets pocket.points pocket.tree
        (steinerize t rng pocket.points pocket.tree members pocket.rng) ∧
      Running AdjacentLists pocket.points pocket.tree
        (straightTaps t rng pocket.points pocket.tree members isProtected pocket.rng) ∧
      ∃ out taps, tapPocket t rng shape members isProtected pocket = some out ∧ out.Aligned ∧
        (∃ more, out.points = pocket.points ++ more) ∧ (∃ more, out.buses = pocket.buses ++ more) ∧
        TapsKept pocket.points.length pocket.tree out.points.length out.tree taps ∧
        TapBuses shape out.points pocket.points.length taps out.buses := by
  have hbends := steinerize_running t rng pocket.points members pocket.rng h.corridors
  refine ⟨hbends, straightTaps_running t rng pocket.points members isProtected pocket.rng h.corridors, ?_⟩
  simp only [tapPocket]
  set bends := steinerize t rng pocket.points pocket.tree members pocket.rng
  have hstraight := straightTaps_running t rng bends.points members isProtected bends.rng
    hbends.kept.corridors
  set straight := straightTaps t rng bends.points bends.edges members isProtected bends.rng
  have hkept := hbends.kept.trans hstraight.kept
  have hempty : TapBuses shape straight.points pocket.points.length [] pocket.buses :=
    { count := h.buses, tap := fun _ hk => nomatch hk }
  have hlow : ∀ k (hk : k < (bends.taps ++ straight.taps).length),
      (bends.taps ++ straight.taps)[k] < pocket.points.length + (([] : List ℕ).length + k) := by
    intro k hk
    rw [List.length_nil, Nat.zero_add]
    exact (hkept.served k hk).1
  obtain ⟨out, more, hout, hmore, hbuses⟩ := hempty.pushAll shape _ [] hlow
  rw [List.length_nil] at hout
  rw [List.nil_append] at hbuses
  refine ⟨_, bends.taps ++ straight.taps, by rw [hout, Option.map_some], ⟨?_, ?_, ?_⟩, ?_, ⟨more, hmore⟩,
    hkept, hbuses⟩
  · exact hstraight.kept.corridors
  · exact hbuses.count.trans hkept.points.symm
  · have hpoints := hkept.points
    rw [List.length_append, List.length_replicate, h.fed]
    exact hpoints.symm
  · obtain ⟨first, hfirst⟩ := hbends.placed
    obtain ⟨second, hsecond⟩ := hstraight.placed
    exact ⟨first ++ second, by rw [hsecond, hfirst, List.append_assoc]⟩

section Sample

@[reducible] local instance tapText : DecimalText ℝ := ⟨fun _ => ""⟩

def zeroDraws : Osm.Stream ℝ Unit where
  uniform state := (0, state)
  index _ h state := (⟨0, h⟩, state)

def lineBus (km : ℝ) : DraftBus ℝ where
  lon := km
  lat := 0
  name := "Substation"
  place := none
  tier := 1
  baseKv := 66
  kind := .load
  confidence := 1
  polygon := 0
  island := 0
  source := .synthetic
  populationWeight := 0
  loadMw := 0
  loadMvar := 0
  annotation := ""
  site := 0

def linePocket : Pocket ℝ Unit where
  points := [(0, 0), (1, 0), (2, 0)]
  tree := {Edge.new 0 1, Edge.new 1 2}
  buses := [lineBus 0, lineBus 1, lineBus 2]
  fed := [true, false, false]
  rng := ()

theorem linePocket_aligned : linePocket.Aligned where
  corridors := by
    refine { ordered := by decide, placed := by decide, forest := ?_ }
    have hgraph : graph {Edge.new 0 1, Edge.new 1 2} =
        ⊥ ⊔ SimpleGraph.edge 0 1 ⊔ SimpleGraph.edge 1 2 := by
      ext x y
      simp only [graph_adj, Finset.mem_insert, Finset.mem_singleton, Edge.new_eq_iff,
        SimpleGraph.sup_adj, SimpleGraph.edge_adj, SimpleGraph.bot_adj, false_or, ne_eq]
      tauto
    change (graph {Edge.new 0 1, Edge.new 1 2}).IsAcyclic
    rw [hgraph]
    apply SimpleGraph.IsAcyclic.sup_edge_of_not_reachable
    · intro h
      have hside := h.carry (P := fun x => x < 2) ?_ (by decide)
      · exact absurd hside (by decide)
      · intro x y hadj hx
        rcases SimpleGraph.sup_edge_adj_cases hadj with hadj | ⟨-, rfl⟩ | ⟨-, rfl⟩
        · exact hadj.elim
        · decide
        · decide
    · apply SimpleGraph.IsAcyclic.sup_edge_of_not_reachable
      · rw [SimpleGraph.reachable_bot]
        decide
      · exact SimpleGraph.isAcyclic_bot
  buses := rfl
  fed := rfl

theorem taps_keep_forest_line : ∃ out taps,
    tapPocket Tuning.standard zeroDraws ⟨id, fun _ _ => none⟩ [1] (fun _ => false) linePocket =
        some out ∧ out.Aligned ∧
      TapsKept 3 {Edge.new 0 1, Edge.new 1 2} out.points.length out.tree taps := by
  obtain ⟨-, -, out, taps, hout, haligned, -, -, hkept, -⟩ :=
    taps_keep_forest Tuning.standard zeroDraws ⟨id, fun _ _ => none⟩ [1] (fun _ => false) linePocket
      linePocket_aligned
  exact ⟨out, taps, hout, haligned, hkept⟩

end Sample

end Tellegen.Synth
