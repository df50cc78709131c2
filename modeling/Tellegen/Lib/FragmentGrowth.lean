import Mathlib.Data.Set.Card
import Tellegen.Lib.Classes

/-!
Growth over fragments: elements fall into fragments, and one link after another joins a fragment to
those that are connected already. Every link connects one more fragment, so a growth that reaches all
of them is connected and has one link less than there are fragments.
-/

namespace FragmentGrowth

variable {α κ : Type} {fragment : α → κ}

/-- The links made so far, and the fragments they connect to the first one. -/
inductive Grown (fragment : α → κ) (first : κ) : List (α × α) → Set κ → Prop
  | start : Grown fragment first [] {first}
  | link {links : List (α × α)} {reached : Set κ} {i j : α} (h : Grown fragment first links reached)
      (hi : fragment i ∉ reached) (hj : fragment j ∈ reached) :
      Grown fragment first (links ++ [(i, j)]) (insert (fragment i) reached)

variable {first : κ} {links : List (α × α)} {reached : Set κ}

theorem Grown.finite (h : Grown fragment first links reached) : reached.Finite := by
  induction h with
  | start => exact Set.finite_singleton first
  | link _ _ _ ih => exact ih.insert _

theorem Grown.ncard_eq (h : Grown fragment first links reached) :
    reached.ncard = links.length + 1 := by
  induction h with
  | start => exact Set.ncard_singleton first
  | link h hi _ ih =>
    rw [Set.ncard_insert_of_notMem hi h.finite, ih, List.length_append, List.length_singleton]

theorem Grown.ends_mem (h : Grown fragment first links reached) {i j : α} (hmem : (i, j) ∈ links) :
    fragment i ∈ reached ∧ fragment j ∈ reached := by
  induction h with
  | start => cases hmem
  | link _ _ hj ih =>
    rcases List.mem_append.mp hmem with hmem | hmem
    · exact ⟨Set.mem_insert_of_mem _ (ih hmem).1, Set.mem_insert_of_mem _ (ih hmem).2⟩
    · cases List.mem_singleton.mp hmem
      exact ⟨Set.mem_insert _ _, Set.mem_insert_of_mem _ hj⟩

theorem Grown.subset_range (h : Grown fragment first links reached) (hfirst : first ∈ Set.range fragment) :
    reached ⊆ Set.range fragment := by
  induction h with
  | start => exact Set.singleton_subset_iff.mpr hfirst
  | @link _ _ i _ _ _ _ ih => exact Set.insert_subset ⟨i, rfl⟩ ih

/-- A link leaves its fragment, and its first end is in none that an earlier link has touched. -/
theorem Grown.link_fresh (h : Grown fragment first links reached) {before after : List (α × α)}
    {i j : α} (hsplit : links = before ++ (i, j) :: after) :
    fragment i ≠ fragment j ∧
      ∀ k l, (k, l) ∈ before → fragment i ≠ fragment k ∧ fragment i ≠ fragment l := by
  induction h generalizing after with
  | start => exact absurd hsplit.symm (List.append_ne_nil_of_right_ne_nil _ (List.cons_ne_nil _ _))
  | link h hi hj ih =>
    rcases List.eq_nil_or_concat after with rfl | ⟨init, last, rfl⟩
    · obtain ⟨rfl, hlast⟩ := List.append_inj' hsplit rfl
      cases hlast
      refine ⟨fun heq => hi (heq ▸ hj), ?_⟩
      intro k l hmem
      obtain ⟨hk, hl⟩ := h.ends_mem hmem
      exact ⟨fun heq => hi (heq ▸ hk), fun heq => hi (heq ▸ hl)⟩
    · rw [List.concat_eq_append, ← List.cons_append, ← List.append_assoc] at hsplit
      exact ih (List.append_inj' hsplit rfl).1

/-- What is reached is connected, where the elements of one fragment are. -/
theorem Grown.connected {R : α → α → Prop}
    (hfragment : ∀ a b, fragment a = fragment b → Relation.EqvGen R a b)
    (h : Grown fragment first links reached) {a b : α} (ha : fragment a ∈ reached)
    (hb : fragment b ∈ reached) :
    Relation.EqvGen (fun x y => R x y ∨ (x, y) ∈ links) a b := by
  induction h generalizing a b with
  | start =>
    have hsame : fragment a = fragment b := Eq.trans ha (Eq.symm hb)
    exact (hfragment a b hsame).mono fun _ _ => .inl
  | @link links reached i j h hi hj ih =>
    have hold : ∀ {x y}, Relation.EqvGen (fun x y => R x y ∨ (x, y) ∈ links) x y →
        Relation.EqvGen (fun x y => R x y ∨ (x, y) ∈ links ++ [(i, j)]) x y :=
      fun {_ _} hxy => hxy.mono fun _ _ => Or.imp_right (List.mem_append_left _)
    -- everything reached is connected to the old end of the new link
    have hroot : ∀ x, fragment x ∈ insert (fragment i) reached →
        Relation.EqvGen (fun x y => R x y ∨ (x, y) ∈ links ++ [(i, j)]) x j := by
      intro x hx
      rcases Set.mem_insert_iff.mp hx with hx | hx
      · have hxi : Relation.EqvGen (fun x y => R x y ∨ (x, y) ∈ links ++ [(i, j)]) x i :=
          (hfragment x i hx).mono fun _ _ => .inl
        exact .trans _ _ _ hxi (.rel _ _ (.inr (List.mem_append_right _ List.mem_cons_self)))
      · exact hold (ih hx hj)
    exact .trans _ _ _ (hroot a ha) (.symm _ _ (hroot b hb))

end FragmentGrowth
