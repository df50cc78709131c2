import Tellegen.Lib.Counting
import Tellegen.Lib.FragmentGrowth
import Tellegen.Osm.Interconnects

/-!
What the ties join. The table holds a tie for every bus outside the tree, so the tree grows until it has
every fragment; the parallel ties leave their fragment at one level each.
-/

set_option linter.unusedSectionVars false

open Binary64 FragmentGrowth

namespace Tellegen.Osm

variable {F : Type} [Drafting F]

def Linked (n : ℕ) (corridors : List (Corridor F)) (i j : Fin n) : Prop :=
  ∃ c ∈ corridors, c.a = i ∧ c.b = j

def Connected (n : ℕ) (corridors : List (Corridor F)) : Fin n → Fin n → Prop :=
  Relation.EqvGen (Linked n corridors)

/-- The ends of the corridors are among the first `n` buses. -/
def EndsBelow (n : ℕ) (corridors : List (Corridor F)) : Prop :=
  ∀ c ∈ corridors, c.a < n ∧ c.b < n

/-! ### Fragments -/

theorem corridorForest_represents (corridors : List (Corridor F)) :
    (corridorForest corridors).Represents fun x y => ∃ c ∈ corridors, c.a = x ∧ c.b = y := by
  induction corridors using List.reverseRecOn with
  | nil =>
    have heq : (fun x y => ∃ c ∈ ([] : List (Corridor F)), c.a = x ∧ c.b = y) = fun _ _ => False := by
      funext x y
      simp only [List.not_mem_nil, false_and, exists_false]
    rw [heq]
    exact UnionFind.represents_new
  | append_singleton corridors last ih =>
    have heq : (fun x y => ∃ c ∈ corridors ++ [last], c.a = x ∧ c.b = y) =
        fun x y => (∃ c ∈ corridors, c.a = x ∧ c.b = y) ∨ (x = last.a ∧ y = last.b) := by
      funext x y
      simp only [List.mem_append, List.mem_singleton, or_and_right, exists_or, exists_eq_left,
        eq_comm (a := x) (b := last.a), eq_comm (a := y) (b := last.b)]
    rw [heq, corridorForest, List.foldl_append]
    exact ih.join last.a last.b

theorem fragmentOf_eq (corridors : List (Corridor F)) (i : ℕ) :
    fragmentOf corridors i = (corridorForest corridors).root i :=
  UnionFind.find_snd _ i

theorem connected_iff {n : ℕ} {corridors : List (Corridor F)} (hends : EndsBelow n corridors)
    (i j : Fin n) :
    Relation.EqvGen (fun x y : ℕ => ∃ c ∈ corridors, c.a = x ∧ c.b = y) i j ↔
      Connected n corridors i j := by
  constructor
  · intro h
    have hlift : ∀ x y : ℕ, Relation.EqvGen (fun x y : ℕ => ∃ c ∈ corridors, c.a = x ∧ c.b = y) x y →
        (x < n ↔ y < n) ∧ ∀ (hx : x < n) (hy : y < n), Connected n corridors ⟨x, hx⟩ ⟨y, hy⟩ := by
      intro x y hxy
      induction hxy with
      | rel x y hxy =>
        obtain ⟨c, hc, rfl, rfl⟩ := hxy
        obtain ⟨ha, hb⟩ := hends c hc
        exact ⟨iff_of_true ha hb, fun _ _ => .rel _ _ ⟨c, hc, rfl, rfl⟩⟩
      | refl x => exact ⟨Iff.rfl, fun _ _ => .refl _⟩
      | symm x y _ ih => exact ⟨ih.1.symm, fun hx hy => .symm _ _ (ih.2 hy hx)⟩
      | trans x y z _ _ ih ih' =>
        refine ⟨ih.1.trans ih'.1, ?_⟩
        intro hx hz
        exact .trans _ _ _ (ih.2 hx (ih.1.mp hx)) (ih'.2 (ih.1.mp hx) hz)
    exact (hlift i j h).2 i.isLt j.isLt
  · intro h
    induction h with
    | rel x y hxy => exact .rel _ _ hxy
    | refl x => exact .refl _
    | symm _ _ _ ih => exact .symm _ _ ih
    | trans _ _ _ _ _ ih ih' => exact .trans _ _ _ ih ih'

theorem fragmentOf_eq_iff {n : ℕ} {corridors : List (Corridor F)} (hends : EndsBelow n corridors)
    (i j : Fin n) : fragmentOf corridors i = fragmentOf corridors j ↔ Connected n corridors i j := by
  rw [fragmentOf_eq, fragmentOf_eq, ← connected_iff hends]
  exact corridorForest_represents corridors i j

theorem fragmentOf_lt {n : ℕ} {corridors : List (Corridor F)} (hends : EndsBelow n corridors)
    {i : ℕ} (hi : i < n) : fragmentOf corridors i < n := by
  have hpath := (corridorForest_represents corridors).eqvGen_root i
  rw [fragmentOf_eq]
  refine (hpath.iff_of_step (p := fun k => k < n) ?_).mp hi
  rintro x y ⟨c, hc, rfl, rfl⟩
  exact iff_of_true (hends c hc).1 (hends c hc).2

theorem fragmentOf_fragmentOf (corridors : List (Corridor F)) (i : ℕ) :
    fragmentOf corridors (fragmentOf corridors i) = fragmentOf corridors i := by
  rw [fragmentOf_eq, fragmentOf_eq, UnionFind.root_root]

theorem connected_of_components {n : ℕ} {corridors : List (Corridor F)} (hends : EndsBelow n corridors)
    (hone : components (corridorForest corridors) n ≤ 1) (i j : Fin n) : Connected n corridors i j := by
  rw [← fragmentOf_eq_iff hends]
  by_contra hne
  let roots := (List.range n).filter fun k => ((corridorForest corridors).find k).2 = k
  have hroot : ∀ k : Fin n, fragmentOf corridors k ∈ roots := by
    intro k
    apply List.mem_filter.mpr
    refine ⟨List.mem_range.mpr (fragmentOf_lt hends k.isLt), ?_⟩
    exact decide_eq_true (fragmentOf_fragmentOf corridors k)
  have hlength : roots.length ≤ 1 := by
    rw [components, List.countP_eq_length_filter] at hone
    exact hone
  have hsame : ∀ a ∈ roots, ∀ b ∈ roots, a = b := by
    generalize roots = list at hlength
    intro a ha b hb
    cases list with
    | nil => cases ha
    | cons root rest =>
      rw [List.length_cons] at hlength
      have hrest : rest = [] := List.eq_nil_of_length_eq_zero (by omega)
      subst hrest
      exact (List.mem_singleton.mp ha).trans (List.mem_singleton.mp hb).symm
  exact hne (hsame _ (hroot i) _ (hroot j))

theorem card_fragments {n : ℕ} {corridors : List (Corridor F)} (hends : EndsBelow n corridors) :
    Nat.card (Quot (Linked n corridors)) =
      (Set.range fun i : Fin n => fragmentOf corridors i).ncard := by
  let rootOf : Quot (Linked n corridors) → ℕ :=
    Quot.lift (fun i => fragmentOf corridors i) fun i j hij =>
      (fragmentOf_eq_iff hends i j).mpr (.rel _ _ hij)
  have hinjective : Function.Injective rootOf := by
    rintro ⟨i⟩ ⟨j⟩ heq
    exact Quot.eqvGen_sound ((fragmentOf_eq_iff hends i j).mp heq)
  have hrange : Set.range rootOf = Set.range fun i : Fin n => fragmentOf corridors i :=
    Set.range_quot_lift _
  rw [← hrange, ← Nat.card_coe_set_eq]
  exact (Nat.card_range_of_injective hinjective).symm

/-! ### Growth -/

theorem mem_of_minBy {α : Type} {smaller : α → α → Bool} {list : List α} {a : α}
    (h : minBy smaller list = some a) : a ∈ list := by
  have hfold : ∀ (rest : List α) (best : α),
      rest.foldl (fun best b => if smaller b best then b else best) best ∈ best :: rest := by
    intro rest
    induction rest with
    | nil => exact fun best => List.mem_singleton_self best
    | cons b rest ih =>
      intro best
      rw [List.foldl_cons]
      have hmem := ih (if smaller b best then b else best)
      rcases List.mem_cons.mp hmem with heq | hmem
      · rw [heq]
        split
        case isTrue => exact List.mem_cons_of_mem _ List.mem_cons_self
        case isFalse => exact List.mem_cons_self
      · exact List.mem_cons_of_mem _ (List.mem_cons_of_mem _ hmem)
  cases list with
  | nil => cases h
  | cons b rest =>
    cases h
    exact hfold rest b

section Growth

variable (buses : List (DraftBus F))

theorem relax_spec {inTree : Fin buses.length → Bool} {i : Fin buses.length} (hi : inTree i = false)
    (best : BestTies F buses.length) (t : Fin buses.length) :
    ∃ w j, relax buses inTree best t i = some (w, j) ∧ (j = t ∨ ∃ w', best i = some (w', j)) := by
  rw [relax, hi, if_neg Bool.false_ne_true]
  split
  case h_1 => exact ⟨_, t, rfl, .inl rfl⟩
  case h_2 w j hbest =>
    dsimp only
    split
    case isTrue => exact ⟨_, t, rfl, .inl rfl⟩
    case isFalse => exact ⟨w, j, rfl, .inr ⟨w, hbest⟩⟩

theorem foldl_relax {inTree : Fin buses.length → Bool} {i : Fin buses.length} (hi : inTree i = false)
    (ts : List (Fin buses.length)) (best : BestTies F buses.length)
    (hsome : ts ≠ [] ∨ ∃ w j, best i = some (w, j)) :
    ∃ w j, ts.foldl (relax buses inTree) best i = some (w, j) ∧
      (j ∈ ts ∨ ∃ w', best i = some (w', j)) := by
  induction ts generalizing best with
  | nil =>
    obtain ⟨w, j, hbest⟩ := hsome.resolve_left fun h => h rfl
    exact ⟨w, j, hbest, .inr ⟨w, hbest⟩⟩
  | cons t rest ih =>
    obtain ⟨w', k, hnext, hk⟩ := relax_spec buses hi best t
    obtain ⟨w, j, hfold, hj⟩ := ih (relax buses inTree best t) (.inr ⟨w', k, hnext⟩)
    refine ⟨w, j, hfold, ?_⟩
    rcases hj with hj | ⟨w'', hj⟩
    · exact .inl (List.mem_cons_of_mem _ hj)
    · rw [hnext] at hj
      cases hj
      rcases hk with rfl | hk
      · exact .inl List.mem_cons_self
      · exact .inr hk

/-- The tree holds whole fragments, and every other bus has a tie into it. -/
structure Growing (fragment : ℕ → ℕ) (tree : Tree F buses.length) : Prop where
  table : ∀ i, tree.inTree i = false → ∃ w j, tree.best i = some (w, j) ∧ tree.inTree j = true
  grown : ∃ reached, Grown (fun i : Fin buses.length => fragment i) (fragment 0) tree.ties reached ∧
    ∀ i, tree.inTree i = true ↔ fragment i ∈ reached

theorem growing_start (fragment : ℕ → ℕ) (hne : 0 < buses.length) :
    Growing buses fragment (startTree buses fragment) where
  table := by
    intro i hi
    have hzero : (⟨0, hne⟩ : Fin buses.length) ∈ (List.finRange buses.length).filter
        fun i : Fin buses.length => decide (fragment i = fragment 0) :=
      List.mem_filter.mpr ⟨List.mem_finRange _, decide_eq_true rfl⟩
    obtain ⟨w, j, hbest, hj⟩ := foldl_relax buses hi _ (fun _ => none) (.inl (List.ne_nil_of_mem hzero))
    refine ⟨w, j, hbest, ?_⟩
    rcases hj with hj | ⟨_, hj⟩
    · exact (List.mem_filter.mp hj).2
    · cases hj
  grown := ⟨{fragment 0}, .start, fun _ => decide_eq_true_iff⟩

theorem Growing.join {fragment : ℕ → ℕ} {tree : Tree F buses.length} (h : Growing buses fragment tree)
    {i j : Fin buses.length} (hi : tree.inTree i = false) (hj : tree.inTree j = true) :
    Growing buses fragment (tree.join buses fragment i j) where
  table := by
    intro k hk
    have hk' : tree.inTree k = false := (Bool.or_eq_false_iff.mp hk).1
    obtain ⟨w', l, hold, hl⟩ := h.table k hk'
    obtain ⟨w, m, hbest, hm⟩ := foldl_relax buses hk _ tree.best (.inr ⟨w', l, hold⟩)
    refine ⟨w, m, hbest, ?_⟩
    apply Bool.or_eq_true_iff.mpr
    rcases hm with hm | ⟨w'', hm⟩
    · exact .inr (decide_eq_true hm)
    · rw [hold] at hm
      cases hm
      exact .inl hl
  grown := by
    obtain ⟨reached, hgrown, hiff⟩ := h.grown
    have hout : fragment i ∉ reached := fun hmem => by
      rw [(hiff i).mpr hmem] at hi
      cases hi
    refine ⟨insert (fragment i) reached, hgrown.link hout ((hiff j).mp hj), ?_⟩
    intro k
    change (tree.inTree k || decide (k ∈ _)) = true ↔ _
    rw [Bool.or_eq_true_iff, decide_eq_true_iff, List.mem_filter, Set.mem_insert_iff, ← hiff k,
      Bool.and_eq_true_iff, decide_eq_true_iff]
    constructor
    · rintro (hk | ⟨_, _, hk⟩)
      · exact .inr hk
      · exact .inl hk
    · rintro (hk | hk)
      · cases hin : tree.inTree k with
        | true => exact .inl rfl
        | false => exact .inr ⟨List.mem_finRange k, rfl, hk⟩
      · exact .inl hk

theorem Growing.of_pick {fragment : ℕ → ℕ} {tree : Tree F buses.length} (h : Growing buses fragment tree)
    {i j : Fin buses.length} {w : F} (hpick : tree.pick = some (i, w, j)) :
    tree.inTree i = false ∧ tree.inTree j = true := by
  obtain ⟨k, _, hk⟩ := List.mem_filterMap.mp (mem_of_minBy hpick)
  split at hk
  case isTrue => cases hk
  case isFalse hout =>
    have hout := Bool.eq_false_iff.mpr hout
    obtain ⟨w', l, hbest, hl⟩ := h.table k hout
    rw [hbest] at hk
    cases hk
    exact ⟨hout, hl⟩

theorem Growing.pick_eq_none {fragment : ℕ → ℕ} {tree : Tree F buses.length}
    (h : Growing buses fragment tree) : tree.pick = none ↔ ∀ i, tree.inTree i = true := by
  rw [Tree.pick, minBy_eq_none, Tree.frontier, List.filterMap_eq_nil_iff]
  constructor
  · intro hnone i
    have hi := hnone i (List.mem_finRange i)
    split at hi
    case isTrue hin => exact hin
    case isFalse hout =>
      obtain ⟨w, j, hbest, _⟩ := h.table i (Bool.eq_false_iff.mpr hout)
      rw [hbest] at hi
      cases hi
  · intro hall i _
    rw [if_pos (hall i)]

def outside (tree : Tree F buses.length) : ℕ := (List.finRange buses.length).countP fun i => !tree.inTree i

theorem outside_join (fragment : ℕ → ℕ) {tree : Tree F buses.length} {i : Fin buses.length}
    (hi : tree.inTree i = false) (j : Fin buses.length) :
    outside buses (tree.join buses fragment i j) < outside buses tree := by
  apply Counting.countP_lt_countP _ (List.mem_finRange i)
  · rw [hi]
    rfl
  · have hnew : i ∈ (List.finRange buses.length).filter fun k =>
        !tree.inTree k && decide (fragment k = fragment i) := by
      apply List.mem_filter.mpr
      refine ⟨List.mem_finRange i, ?_⟩
      rw [hi, decide_eq_true rfl]
      rfl
    change (!(tree.inTree i || decide (i ∈ _))) = false
    rw [decide_eq_true hnew, Bool.or_true]
    rfl
  · intro k hk
    rw [Bool.not_eq_true'] at hk
    rw [(Bool.or_eq_false_iff.mp hk).1]
    rfl

theorem growTree_spec {fragment : ℕ → ℕ} (fuel : ℕ) {tree : Tree F buses.length}
    (h : Growing buses fragment tree) (hfuel : outside buses tree ≤ fuel) :
    Growing buses fragment (growTree buses fragment fuel tree) ∧
      ∀ i, (growTree buses fragment fuel tree).inTree i = true := by
  induction fuel generalizing tree with
  | zero =>
    refine ⟨h, ?_⟩
    intro i
    have hnone := List.countP_eq_zero.mp (Nat.le_zero.mp hfuel) i (List.mem_finRange i)
    rw [Bool.not_eq_true, Bool.not_eq_false'] at hnone
    exact hnone
  | succ fuel ih =>
    rw [growTree]
    split
    case h_1 hnone => exact ⟨h, (h.pick_eq_none buses).mp hnone⟩
    case h_2 i w j hpick =>
      obtain ⟨hi, hj⟩ := h.of_pick buses hpick
      have hless := outside_join buses fragment hi j
      exact ih (h.join buses hi hj) (by omega)

/-! ### Parallel ties -/

theorem nodup_tieRequests (fragment : ℕ → ℕ) : (tieRequests buses fragment).Nodup := by
  rw [tieRequests]
  apply List.nodup_flatMap.mpr
  constructor
  · intro root _
    exact (List.nodup_dedup _).map fun a b h => congrArg Prod.snd h
  · refine ((List.nodup_dedup _).filter _).imp ?_
    intro root other hne x hx hy
    obtain ⟨_, _, rfl⟩ := List.mem_map.mp hx
    obtain ⟨_, _, heq⟩ := List.mem_map.mp hy
    exact hne (congrArg Prod.fst heq).symm

theorem closestTie_mem {pairs : List (Fin buses.length × Fin buses.length)} {d : F}
    {i j : Fin buses.length} (h : closestTie buses pairs = some (d, i, j)) : (i, j) ∈ pairs := by
  revert h
  refine List.foldlRecOn (motive := fun best => best = some (d, i, j) → (i, j) ∈ pairs) pairs _ ?_ ?_
  · intro hnone
    cases hnone
  · intro best ih pair hpair hbest
    dsimp only at hbest
    split at hbest
    case isTrue =>
      cases hbest
      exact hpair
    case isFalse => exact ih hbest

theorem ends_interconnect (i j : Fin buses.length) (d : F) :
    (interconnect buses i j d).a = Min.min i.val j.val ∧
      (interconnect buses i j d).b = Max.max i.val j.val :=
  ⟨Fin.coe_min i j, Fin.coe_max i j⟩

/-- A tie that leaves its fragment at one voltage level. -/
def LeavesAt (fragment : ℕ → ℕ) (request : ℕ × ℤ) (c : Corridor F) : Prop :=
  ∃ i j : Fin buses.length, fragment i = request.1 ∧ fragment j ≠ request.1 ∧
    levelOf buses i = request.2 ∧ levelOf buses j = request.2 ∧
    c.a = Min.min i.val j.val ∧ c.b = Max.max i.val j.val

theorem leavesAt_of_closest {fragment : ℕ → ℕ} {request : ℕ × ℤ} {d : F} {i j : Fin buses.length}
    (h : closestTie buses (tiePairs buses fragment request) = some (d, i, j)) :
    LeavesAt buses fragment request (interconnect buses i j d) := by
  obtain ⟨k, hk, hpair⟩ := List.mem_flatMap.mp (closestTie_mem buses h)
  obtain ⟨l, hl, heq⟩ := List.mem_map.mp hpair
  cases heq
  obtain ⟨hmember, hlevel⟩ := List.mem_filter.mp hk
  obtain ⟨hlevel', hout⟩ := of_decide_eq_true (List.mem_filter.mp hl).2
  exact ⟨i, j, of_decide_eq_true (List.mem_filter.mp hmember).2, hout, of_decide_eq_true hlevel,
    hlevel', ends_interconnect buses i j d⟩

theorem cornersOf_interconnect (i j : Fin buses.length) (d : F) :
    cornersOf (interconnect buses i j d) = (Min.min i.val j.val, Max.max i.val j.val) := by
  obtain ⟨ha, hb⟩ := ends_interconnect buses i j d
  rw [cornersOf, ha, hb, Prod.mk.injEq]
  omega

theorem eq_of_corners {i j k l : ℕ}
    (h : (Min.min i j, Max.max i j) = (Min.min k l, Max.max k l)) :
    i = k ∧ j = l ∨ i = l ∧ j = k := by
  rw [Prod.mk.injEq] at h
  omega

theorem foldl_addParallel (fragment : ℕ → ℕ) (requests : List (ℕ × ℤ)) (existing : List (ℕ × ℕ))
    (done : List (Corridor F)) :
    ∃ made : List ((ℕ × ℤ) × Corridor F),
      (requests.foldl (addParallel buses fragment) (existing, done)).2 = done ++ made.map Prod.snd ∧
      (made.map Prod.fst).Sublist requests ∧ (∀ entry ∈ made, LeavesAt buses fragment entry.1 entry.2) ∧
      (∀ entry ∈ made, cornersOf entry.2 ∉ existing) ∧
      (made.map fun entry => cornersOf entry.2).Nodup := by
  induction requests generalizing existing done with
  | nil =>
    exact ⟨[], (List.append_nil _).symm, .slnil, fun _ h => absurd h List.not_mem_nil,
      fun _ h => absurd h List.not_mem_nil, List.nodup_nil⟩
  | cons request rest ih =>
    have hskip : ∀ made : List ((ℕ × ℤ) × Corridor F), (made.map Prod.fst).Sublist rest →
        (made.map Prod.fst).Sublist (request :: rest) := fun _ h => h.cons request
    rw [List.foldl_cons, addParallel]
    split
    case h_1 =>
      obtain ⟨made, hresult, hsub, hmade⟩ := ih existing done
      exact ⟨made, hresult, hskip made hsub, hmade⟩
    case h_2 d i j hclosest =>
      dsimp only
      split
      case isTrue =>
        obtain ⟨made, hresult, hsub, hmade⟩ := ih existing done
        exact ⟨made, hresult, hskip made hsub, hmade⟩
      case isFalse hnew =>
        let c := interconnect buses i j d
        have hcorners : cornersOf c = (c.a, c.b) := by
          obtain ⟨ha, hb⟩ := ends_interconnect buses i j d
          rw [cornersOf_interconnect, ha, hb]
        obtain ⟨made, hresult, hsub, hleaves, hfresh, hnodup⟩ :=
          ih ((c.a, c.b) :: existing) (done ++ [c])
        refine ⟨(request, c) :: made, ?_, ?_, ?_, ?_, ?_⟩
        · rw [hresult, List.append_assoc]
          rfl
        · exact hsub.cons_cons request
        · intro entry hentry
          rcases List.mem_cons.mp hentry with rfl | hentry
          · exact leavesAt_of_closest buses hclosest
          · exact hleaves entry hentry
        · intro entry hentry
          rcases List.mem_cons.mp hentry with rfl | hentry
          · rw [hcorners]
            exact hnew
          · exact fun hmem => hfresh entry hentry (List.mem_cons_of_mem _ hmem)
        · rw [List.map_cons, List.nodup_cons]
          refine ⟨?_, hnodup⟩
          intro hmem
          obtain ⟨entry, hentry, heq⟩ := List.mem_map.mp hmem
          apply hfresh entry hentry
          rw [heq, hcorners]
          exact List.mem_cons_self

theorem corners_ne {corridors : List (Corridor F)} (hends : EndsBelow buses.length corridors)
    {i j : Fin buses.length} (hleaves : fragmentOf corridors i ≠ fragmentOf corridors j)
    {d : Corridor F} (hd : d ∈ corridors) :
    (Min.min i.val j.val, Max.max i.val j.val) ≠ cornersOf d := by
  intro heq
  obtain ⟨ha, hb⟩ := hends d hd
  have hlinked : fragmentOf corridors d.a = fragmentOf corridors d.b :=
    (fragmentOf_eq_iff hends ⟨d.a, ha⟩ ⟨d.b, hb⟩).mpr (.rel _ _ ⟨d, hd, rfl, rfl⟩)
  apply hleaves
  rcases eq_of_corners heq with ⟨hi, hj⟩ | ⟨hi, hj⟩
  · rw [hi, hj, hlinked]
  · rw [hi, hj, hlinked]

theorem nodup_treeCorridors {fragment : ℕ → ℕ} {first : ℕ}
    {ties : List (Fin buses.length × Fin buses.length)} {reached : Set ℕ}
    (h : Grown (fun i : Fin buses.length => fragment i) first ties reached) :
    ((treeCorridors buses ties).map cornersOf).Nodup := by
  induction h with
  | start => exact List.nodup_nil
  | @link links reached i j h hi hj ih =>
    rw [treeCorridors, List.map_append, List.map_append, List.nodup_append]
    refine ⟨ih, List.nodup_singleton _, ?_⟩
    intro x hx y hy heq
    obtain ⟨c, hc, rfl⟩ := List.mem_map.mp hx
    obtain ⟨⟨k, l⟩, hkl, rfl⟩ := List.mem_map.mp hc
    rw [List.mem_singleton.mp hy] at heq
    dsimp only at heq
    rw [cornersOf_interconnect, cornersOf_interconnect] at heq
    obtain ⟨hk, hl⟩ := h.ends_mem hkl
    rcases eq_of_corners heq with ⟨hik, _⟩ | ⟨_, hil⟩
    · rw [Fin.ext hik] at hk
      exact hi hk
    · rw [Fin.ext hil] at hl
      exact hi hl

def Leaves (corridors : List (Corridor F)) (c : Corridor F) : Prop :=
  ∃ i j : Fin buses.length, ¬ Connected buses.length corridors i j ∧
    c.a = Min.min i.val j.val ∧ c.b = Max.max i.val j.val

theorem leaves_of_mem_treeCorridors {corridors : List (Corridor F)}
    (hends : EndsBelow buses.length corridors) {first : ℕ}
    {ties : List (Fin buses.length × Fin buses.length)} {reached : Set ℕ}
    (h : Grown (fun i : Fin buses.length => fragmentOf corridors i) first ties reached)
    {c : Corridor F} (hc : c ∈ treeCorridors buses ties) : Leaves buses corridors c := by
  obtain ⟨⟨i, j⟩, hmem, rfl⟩ := List.mem_map.mp hc
  obtain ⟨before, after, hsplit⟩ := List.append_of_mem hmem
  refine ⟨i, j, ?_, ends_interconnect buses i j _⟩
  rw [← fragmentOf_eq_iff hends]
  exact (h.link_fresh hsplit).1

theorem leaves_of_leavesAt {corridors : List (Corridor F)} (hends : EndsBelow buses.length corridors)
    {request : ℕ × ℤ} {c : Corridor F} (h : LeavesAt buses (fragmentOf corridors) request c) :
    Leaves buses corridors c := by
  obtain ⟨i, j, hi, hj, _, _, ha, hb⟩ := h
  refine ⟨i, j, ?_, ha, hb⟩
  rw [← fragmentOf_eq_iff hends, hi]
  exact hj.symm

theorem Leaves.corners_ne {corridors : List (Corridor F)} (hends : EndsBelow buses.length corridors)
    {c : Corridor F} (h : Leaves buses corridors c) {d : Corridor F} (hd : d ∈ corridors) :
    cornersOf c ≠ cornersOf d := by
  obtain ⟨i, j, hij, ha, hb⟩ := h
  rw [← fragmentOf_eq_iff hends] at hij
  have hcorners : cornersOf c = (Min.min i.val j.val, Max.max i.val j.val) := by
    rw [cornersOf, ha, hb, Prod.mk.injEq]
    omega
  rw [hcorners]
  exact Osm.corners_ne buses hends hij hd

theorem connected_of_grown {corridors more : List (Corridor F)}
    (hends : EndsBelow buses.length corridors) {first : ℕ}
    {ties : List (Fin buses.length × Fin buses.length)} {reached : Set ℕ}
    (h : Grown (fun i : Fin buses.length => fragmentOf corridors i) first ties reached)
    (hall : ∀ i : Fin buses.length, fragmentOf corridors i ∈ reached) (i j : Fin buses.length) :
    Connected buses.length (corridors ++ treeCorridors buses ties ++ more) i j := by
  have hpath := h.connected (fun a b hab => (fragmentOf_eq_iff hends a b).mp hab) (hall i) (hall j)
  induction hpath with
  | refl x => exact .refl x
  | symm x y _ ih => exact .symm _ _ ih
  | trans x y z _ _ ih ih' => exact .trans _ _ _ ih ih'
  | rel x y hxy =>
    rcases hxy with ⟨c, hc, hends⟩ | htie
    · exact .rel _ _ ⟨c, List.mem_append_left _ (List.mem_append_left _ hc), hends⟩
    · have hmem : interconnect buses x y (distanceKm buses (Min.min x y) (Max.max x y)) ∈
          corridors ++ treeCorridors buses ties ++ more :=
        List.mem_append_left _ (List.mem_append_right _ (List.mem_map.mpr ⟨(x, y), htie, rfl⟩))
      rcases le_total x y with hle | hle
      · exact .rel _ _ ⟨_, hmem, congrArg Fin.val (min_eq_left hle),
          congrArg Fin.val (max_eq_right hle)⟩
      · exact .symm _ _ (.rel _ _ ⟨_, hmem, congrArg Fin.val (min_eq_right hle),
          congrArg Fin.val (max_eq_left hle)⟩)

/-- The growth from the fragment of bus 0 has reached everything, with one tie less than fragments. -/
theorem growTree_all {corridors : List (Corridor F)} (hends : EndsBelow buses.length corridors)
    (hne : 0 < buses.length) :
    let tree := growTree buses (fragmentOf corridors) buses.length
      (startTree buses (fragmentOf corridors))
    tree.pick = none ∧
      tree.ties.length = Nat.card (Quot (Linked buses.length corridors)) - 1 ∧
      ∃ reached, Grown (fun i : Fin buses.length => fragmentOf corridors i) (fragmentOf corridors 0)
        tree.ties reached ∧ ∀ i : Fin buses.length, fragmentOf corridors i ∈ reached := by
  intro tree
  have hfuel : outside buses (startTree buses (fragmentOf corridors)) ≤ buses.length := by
    have hle := List.countP_le_length (l := List.finRange buses.length)
      (p := fun i => !(startTree buses (fragmentOf corridors)).inTree i)
    rw [List.length_finRange] at hle
    exact hle
  obtain ⟨hgrowing, hall⟩ := growTree_spec buses buses.length
    (growing_start buses (fragmentOf corridors) hne) hfuel
  obtain ⟨reached, hgrown, hiff⟩ := hgrowing.grown
  have hmem : ∀ i : Fin buses.length, fragmentOf corridors i ∈ reached := fun i => (hiff i).mp (hall i)
  refine ⟨(hgrowing.pick_eq_none buses).mpr hall, ?_, reached, hgrown, hmem⟩
  have hrange : reached = Set.range fun i : Fin buses.length => fragmentOf corridors i := by
    apply Set.Subset.antisymm
    · exact hgrown.subset_range ⟨⟨0, hne⟩, rfl⟩
    · rintro _ ⟨i, rfl⟩
      exact hmem i
  have hcard := hgrown.ncard_eq
  rw [hrange, ← card_fragments hends] at hcard
  rw [hcard]
  rfl

theorem connectComponents_cases {corridors : List (Corridor F)}
    (hends : EndsBelow buses.length corridors) :
    (connectComponents buses corridors = (corridors, 0) ∧
      ∀ i j, Connected buses.length corridors i j) ∨
    0 < buses.length ∧ ∃ ties extra, connectComponents buses corridors =
        (corridors ++ ties ++ extra, ties.length + extra.length) ∧
      ties = treeCorridors buses (growTree buses (fragmentOf corridors) buses.length
        (startTree buses (fragmentOf corridors))).ties ∧
      extra = parallelTies buses (fragmentOf corridors) (corridors ++ ties) := by
  rw [connectComponents]
  split
  case isTrue hfew =>
    left
    refine ⟨rfl, ?_⟩
    intro i j
    have hsame : i = j := Fin.ext (by omega)
    rw [hsame]
    exact .refl j
  case isFalse hmany =>
    split
    case isTrue hone => exact .inl ⟨rfl, connected_of_components hends hone⟩
    case isFalse => exact .inr ⟨by omega, _, _, rfl, rfl, rfl⟩

theorem card_of_connected {n : ℕ} {corridors : List (Corridor F)}
    (h : ∀ i j, Connected n corridors i j) : Nat.card (Quot (Linked n corridors)) - 1 = 0 := by
  have hsub : Subsingleton (Quot (Linked n corridors)) := by
    constructor
    rintro ⟨i⟩ ⟨j⟩
    exact Quot.eqvGen_sound (h i j)
  have hle := Finite.card_le_one_iff_subsingleton.mpr hsub
  omega

/-- For every bus list and corridor list the growth ends, the corridors stay in front of the ties, the
first ties are one less than the fragments, the further ones are of different fragments and voltage
levels, no tie joins two buses of one fragment or two that a corridor or another tie joins, and every bus
is connected to every other. -/
theorem fragments_connected (corridors : List (Corridor F))
    (hends : EndsBelow buses.length corridors) :
    ∃ (ties extra : List (Corridor F)) (keys : List (ℕ × ℤ)),
      connectComponents buses corridors =
        (corridors ++ ties ++ extra, ties.length + extra.length) ∧
      ties.length = Nat.card (Quot (Linked buses.length corridors)) - 1 ∧
      (List.Forall₂ (LeavesAt buses (fragmentOf corridors)) keys extra ∧ keys.Nodup ∧
        ∀ i j : Fin buses.length, fragmentOf corridors i = fragmentOf corridors j ↔
          Connected buses.length corridors i j) ∧
      (∀ c ∈ ties ++ extra, Leaves buses corridors c ∧ ∀ d ∈ corridors, cornersOf c ≠ cornersOf d) ∧
      ((ties ++ extra).map cornersOf).Nodup ∧
      (∀ i j, Connected buses.length (corridors ++ ties ++ extra) i j) ∧
      (0 < buses.length → (growTree buses (fragmentOf corridors) buses.length
        (startTree buses (fragmentOf corridors))).pick = none) := by
  have hpick := fun hne => (growTree_all buses hends hne).1
  rcases connectComponents_cases buses hends with
    ⟨hresult, hall⟩ | ⟨hne, ties, extra, hresult, hties, hextra⟩
  · refine ⟨[], [], [], ?_, (card_of_connected hall).symm, ⟨.nil, List.nodup_nil, ?_⟩,
      fun _ h => absurd h List.not_mem_nil, List.nodup_nil, ?_, hpick⟩
    · rw [hresult, List.append_nil, List.append_nil]
      rfl
    · exact fun i j => fragmentOf_eq_iff hends i j
    · rw [List.append_nil, List.append_nil]
      exact hall
  · obtain ⟨_, hlength, reached, hgrown, hreached⟩ := growTree_all buses hends hne
    obtain ⟨made, hmade, hsub, hleaves, hfresh, hnodup⟩ := foldl_addParallel buses
      (fragmentOf corridors) (tieRequests buses (fragmentOf corridors)) ((corridors ++ ties).map cornersOf) []
    have hextra : extra = made.map Prod.snd := by
      rw [hextra, parallelTies, hmade, List.nil_append]
    have htie : ∀ c ∈ ties ++ extra, Leaves buses corridors c := by
      intro c hc
      rcases List.mem_append.mp hc with hc | hc
      · rw [hties] at hc
        exact leaves_of_mem_treeCorridors buses hends hgrown hc
      · rw [hextra] at hc
        obtain ⟨entry, hentry, rfl⟩ := List.mem_map.mp hc
        exact leaves_of_leavesAt buses hends (hleaves entry hentry)
    refine ⟨ties, extra, made.map Prod.fst, hresult, ?_, ⟨?_, ?_, ?_⟩, ?_, ?_, ?_, hpick⟩
    · rw [hties, treeCorridors, List.length_map]
      exact hlength
    · rw [hextra, List.forall₂_map_left_iff, List.forall₂_map_right_iff, List.forall₂_same]
      exact hleaves
    · exact (nodup_tieRequests buses _).sublist hsub
    · exact fun i j => fragmentOf_eq_iff hends i j
    · exact fun c hc => ⟨htie c hc, fun d hd => (htie c hc).corners_ne buses hends hd⟩
    · rw [List.map_append, List.nodup_append]
      refine ⟨?_, ?_, ?_⟩
      · rw [hties]
        exact nodup_treeCorridors buses hgrown
      · rw [hextra, List.map_map]
        exact hnodup
      · intro x hx y hy heq
        rw [hextra, List.map_map] at hy
        obtain ⟨entry, hentry, rfl⟩ := List.mem_map.mp hy
        have hcorners : x = cornersOf entry.2 := heq
        apply hfresh entry hentry
        rw [List.map_append, ← hcorners]
        exact List.mem_append_right _ hx
    · rw [hties]
      exact connected_of_grown buses hends hgrown hreached

end Growth

@[reducible] local instance townsText : DecimalText ℝ := ⟨fun _ => ""⟩

def road (a b : ℕ) : Corridor ℝ where
  a
  b
  kv := 110
  lengthKm := 1
  role := .internal
  circuits := 1
  route := []
  isDelaunay := false

/-- Two pairs of towns, each joined by a road, and a town on its own. -/
theorem fragments_connected_towns : ∃ ties extra : List (Corridor ℝ),
    connectComponents [town, town, town, town, town] [road 0 1, road 2 3] =
        ([road 0 1, road 2 3] ++ ties ++ extra, ties.length + extra.length) ∧
      (∀ c ∈ ties ++ extra, ∀ d ∈ [road 0 1, road 2 3], cornersOf c ≠ cornersOf d) ∧
      ∀ i j, Connected 5 ([road 0 1, road 2 3] ++ ties ++ extra) i j := by
  have hends : EndsBelow 5 [road 0 1, road 2 3] := by
    intro c hc
    simp only [List.mem_cons, List.not_mem_nil, or_false] at hc
    rcases hc with rfl | rfl
    all_goals exact ⟨by decide, by decide⟩
  obtain ⟨ties, extra, _, hresult, _, _, hleaves, _, hconnected, _⟩ :=
    fragments_connected [town, town, town, town, town] [road 0 1, road 2 3] hends
  exact ⟨ties, extra, hresult, fun c hc => (hleaves c hc).2, hconnected⟩

end Tellegen.Osm
