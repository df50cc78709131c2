import Mathlib.Combinatorics.SimpleGraph.Acyclic

/-!
A junction spliced into a forest: two edges at a vertex are replaced by three edges at a new vertex. The
forest stays one, and joins the same old vertices.
-/

namespace SimpleGraph

variable {V : Type} {G H : SimpleGraph V} {t v a b : V}

/-! ### Walks under a map -/

/-- A map that takes edges to connected pairs takes connected pairs to connected pairs. -/
theorem Reachable.lift {W : Type} {K : SimpleGraph W} {f : V → W}
    (hstep : ∀ x y, G.Adj x y → K.Reachable (f x) (f y)) {x y : V} (h : G.Reachable x y) :
    K.Reachable (f x) (f y) := by
  obtain ⟨walk⟩ := h
  induction walk with
  | nil => exact .refl _
  | cons hadj _ ih => exact (hstep _ _ hadj).trans ih

/-- A property that edges carry over holds all along a walk. -/
theorem Reachable.carry {P : V → Prop} (hstep : ∀ x y, G.Adj x y → P x → P y) {x y : V}
    (h : G.Reachable x y) (hx : P x) : P y := by
  obtain ⟨walk⟩ := h
  induction walk with
  | nil => exact hx
  | cons hadj _ ih => exact ih (hstep _ _ hadj hx)

theorem sup_edge_adj_cases {x y : V} (h : (G ⊔ edge a b).Adj x y) :
    G.Adj x y ∨ (x = a ∧ y = b) ∨ (x = b ∧ y = a) := by
  rcases sup_adj .. |>.mp h with h | h
  · exact .inl h
  · rw [edge_adj] at h
    rcases h.1 with h | h
    · exact .inr (.inl h)
    · exact .inr (.inr ⟨h.1, h.2⟩)

/-! ### Splicing -/

/-- Takes the edges from `v` to `a` and `b` out, and joins all three to `t`. -/
def splice (G : SimpleGraph V) (t v a b : V) : SimpleGraph V :=
  G.deleteEdges {s(v, a), s(v, b)} ⊔ edge t v ⊔ edge t a ⊔ edge t b

/-- The junction is new, and the two edges are there. -/
structure Spliceable (G : SimpleGraph V) (t v a b : V) : Prop where
  fresh : ∀ w, ¬ G.Adj t w
  left : G.Adj v a
  right : G.Adj v b
  distinct : a ≠ b

namespace Spliceable

variable (hs : Spliceable G t v a b)

include hs

theorem ne_corner : t ≠ v := by
  rintro rfl
  exact hs.fresh _ hs.left

theorem ne_left : t ≠ a := by
  rintro rfl
  exact hs.fresh _ hs.left.symm

theorem ne_right : t ≠ b := by
  rintro rfl
  exact hs.fresh _ hs.right.symm

theorem adj_iff {x y : V} : (splice G t v a b).Adj x y ↔
    (G.Adj x y ∧ ¬ (x = v ∧ (y = a ∨ y = b)) ∧ ¬ (y = v ∧ (x = a ∨ x = b))) ∨
      (x = t ∧ (y = v ∨ y = a ∨ y = b)) ∨ (y = t ∧ (x = v ∨ x = a ∨ x = b)) := by
  have hv := hs.ne_corner
  have ha := hs.ne_left
  have hb := hs.ne_right
  simp only [splice, sup_adj, deleteEdges_adj, edge_adj, Set.mem_insert_iff, Set.mem_singleton_iff,
    Sym2.eq_iff]
  constructor
  · rintro (((⟨hadj, hcut⟩ | h) | h) | h)
    · exact .inl ⟨hadj, by tauto⟩
    · tauto
    · tauto
    · tauto
  · rintro (⟨hadj, hcut⟩ | ⟨rfl, h⟩ | ⟨rfl, h⟩)
    · exact .inl (.inl (.inl ⟨hadj, by tauto⟩))
    · rcases h with rfl | rfl | rfl
      · exact .inl (.inl (.inr ⟨.inl ⟨rfl, rfl⟩, hv⟩))
      · exact .inl (.inr ⟨.inl ⟨rfl, rfl⟩, ha⟩)
      · exact .inr ⟨.inl ⟨rfl, rfl⟩, hb⟩
    · rcases h with rfl | rfl | rfl
      · exact .inl (.inl (.inr ⟨.inr ⟨rfl, rfl⟩, hv.symm⟩))
      · exact .inl (.inr ⟨.inr ⟨rfl, rfl⟩, ha.symm⟩)
      · exact .inr ⟨.inr ⟨rfl, rfl⟩, hb.symm⟩

theorem adj_corner : (splice G t v a b).Adj t v := by
  simp [splice, edge_adj, hs.ne_corner]

theorem adj_left : (splice G t v a b).Adj t a := by
  simp [splice, edge_adj, hs.ne_left]

theorem adj_right : (splice G t v a b).Adj t b := by
  simp [splice, edge_adj, hs.ne_right]

theorem reachable_of_adj {x y : V} (h : G.Adj x y) : (splice G t v a b).Reachable x y := by
  by_cases hkept : (G.deleteEdges {s(v, a), s(v, b)}).Adj x y
  · have hadj : (splice G t v a b).Adj x y := by
      simp only [splice, sup_adj]
      exact .inl (.inl (.inl hkept))
    exact hadj.reachable
  · have hcorner := hs.adj_corner.reachable
    have hleft := hs.adj_left.reachable
    have hright := hs.adj_right.reachable
    have hcut : s(x, y) = s(v, a) ∨ s(x, y) = s(v, b) := by
      rw [deleteEdges_adj] at hkept
      by_contra hno
      exact hkept ⟨h, by simpa using hno⟩
    rcases hcut with hcut | hcut <;> rcases Sym2.eq_iff.mp hcut with ⟨rfl, rfl⟩ | ⟨rfl, rfl⟩
    · exact hcorner.symm.trans hleft
    · exact hleft.symm.trans hcorner
    · exact hcorner.symm.trans hright
    · exact hright.symm.trans hcorner

open Classical in
/-- Seen from the old vertices, the junction stands for the corner. -/
theorem reachable_fold {x y : V} (h : (splice G t v a b).Adj x y) :
    G.Reachable (if x = t then v else x) (if y = t then v else y) := by
  have hv := hs.ne_corner
  have ha := hs.ne_left
  have hb := hs.ne_right
  rcases sup_edge_adj_cases h with h | ⟨rfl, rfl⟩ | ⟨rfl, rfl⟩
  case inl =>
    rcases sup_edge_adj_cases h with h | ⟨rfl, rfl⟩ | ⟨rfl, rfl⟩
    case inl =>
      rcases sup_edge_adj_cases h with h | ⟨rfl, rfl⟩ | ⟨rfl, rfl⟩
      case inl =>
        have hold := (deleteEdges_le _ h : G.Adj x y)
        have hx : x ≠ t := fun hx => hs.fresh y (hx ▸ hold)
        have hy : y ≠ t := fun hy => hs.fresh x (hy ▸ hold.symm)
        rw [if_neg hx, if_neg hy]
        exact hold.reachable
      case inr.inl =>
        rw [if_pos rfl, if_neg hv.symm]
      case inr.inr =>
        rw [if_pos rfl, if_neg hv.symm]
    case inr.inl =>
      rw [if_pos rfl, if_neg ha.symm]
      exact hs.left.reachable
    case inr.inr =>
      rw [if_pos rfl, if_neg ha.symm]
      exact hs.left.symm.reachable
  case inr.inl =>
    rw [if_pos rfl, if_neg hb.symm]
    exact hs.right.reachable
  case inr.inr =>
    rw [if_pos rfl, if_neg hb.symm]
    exact hs.right.symm.reachable

/-- Old vertices are connected after a splice exactly when they were before. -/
theorem reachable_iff {x y : V} (hx : x ≠ t) (hy : y ≠ t) :
    (splice G t v a b).Reachable x y ↔ G.Reachable x y := by
  classical
  constructor
  · intro h
    have hfold := h.lift fun _ _ hadj => hs.reachable_fold hadj
    rwa [if_neg hx, if_neg hy] at hfold
  · intro h
    exact h.lift fun _ _ hadj => hs.reachable_of_adj hadj

/-- In a forest the two cut edges leave three parts. -/
theorem parts (hforest : G.IsAcyclic) :
    ¬ (G.deleteEdges {s(v, a), s(v, b)}).Reachable v a ∧
      ¬ (G.deleteEdges {s(v, a), s(v, b)}).Reachable v b ∧
      ¬ (G.deleteEdges {s(v, a), s(v, b)}).Reachable a b := by
  have hcutLeft := isAcyclic_iff_forall_adj_isBridge.mp hforest hs.left
  have hcutRight := isAcyclic_iff_forall_adj_isBridge.mp hforest hs.right
  rw [isBridge_iff] at hcutLeft hcutRight
  have hleft : G.deleteEdges {s(v, a), s(v, b)} ≤ G.deleteEdges {s(v, a)} :=
    deleteEdges_anti (by simp)
  have hright : G.deleteEdges {s(v, a), s(v, b)} ≤ G.deleteEdges {s(v, b)} :=
    deleteEdges_anti (by simp)
  refine ⟨fun h => hcutLeft (h.mono hleft), fun h => hcutRight (h.mono hright), fun h => ?_⟩
  -- the edge to `b` is still there, and closes the way back from `b` to `a`
  have hstay : (G.deleteEdges {s(v, a)}).Adj v b := by
    rw [deleteEdges_adj]
    refine ⟨hs.right, ?_⟩
    simp only [Set.mem_singleton_iff, Sym2.eq_iff]
    rintro (⟨-, h⟩ | ⟨h, -⟩)
    · exact hs.distinct h.symm
    · exact hs.left.ne h
  exact hcutLeft (hstay.reachable.trans (h.symm.mono hleft))

theorem isAcyclic (hforest : G.IsAcyclic) : (splice G t v a b).IsAcyclic := by
  obtain ⟨hva, hvb, hab⟩ := hs.parts hforest
  set K := G.deleteEdges {s(v, a), s(v, b)}
  have hfresh : ∀ w, ¬ K.Adj t w := fun w h => hs.fresh w (deleteEdges_le _ h)
  have hcut : K.IsAcyclic := hforest.anti (deleteEdges_le _)
  have hclosed : ∀ {c w : V}, K.Reachable c w → w ≠ t ∨ c = t := by
    intro c w h
    by_contra hno
    push Not at hno
    obtain ⟨rfl, hne⟩ := hno
    have hstay := h.symm.carry (P := fun x => x = w) (fun x y hadj hx => absurd hadj (hx ▸ hfresh y)) rfl
    exact hne hstay
  have hfirst : (K ⊔ edge t v).IsAcyclic := by
    apply hcut.sup_edge_of_not_reachable
    intro h
    exact (hclosed h.symm).elim (fun h => h rfl) fun h => hs.ne_corner h.symm
  have hsecond : (K ⊔ edge t v ⊔ edge t a).IsAcyclic := by
    apply hfirst.sup_edge_of_not_reachable
    intro h
    have hside := h.carry (P := fun x => x = t ∨ K.Reachable v x) ?_ (.inl rfl)
    · rcases hside with hside | hside
      · exact hs.ne_left hside.symm
      · exact hva hside
    · intro x y hadj hx
      rcases sup_edge_adj_cases hadj with hold | ⟨-, rfl⟩ | ⟨-, rfl⟩
      · rcases hx with rfl | hx
        · exact absurd hold (hfresh y)
        · exact .inr (hx.trans hold.reachable)
      · exact .inr (.refl y)
      · exact .inl rfl
  apply hsecond.sup_edge_of_not_reachable
  intro h
  have hside := h.carry (P := fun x => x = t ∨ K.Reachable v x ∨ K.Reachable a x) ?_ (.inl rfl)
  · rcases hside with hside | hside | hside
    · exact hs.ne_right hside.symm
    · exact hvb hside
    · exact hab hside
  · intro x y hadj hx
    rcases sup_edge_adj_cases hadj with hfirst | ⟨-, rfl⟩ | ⟨-, rfl⟩
    · rcases sup_edge_adj_cases hfirst with hold | ⟨-, rfl⟩ | ⟨-, rfl⟩
      · rcases hx with rfl | hx | hx
        · exact absurd hold (hfresh y)
        · exact .inr (.inl (hx.trans hold.reachable))
        · exact .inr (.inr (hx.trans hold.reachable))
      · exact .inr (.inl (.refl y))
      · exact .inl rfl
    · exact .inr (.inr (.refl y))
    · exact .inl rfl

end Spliceable

end SimpleGraph
