import Mathlib.Algebra.BigOperators.Group.Finset.Basic

/-!
Items in buckets. Reading the buckets of some cells one after another gives, in another order, the items
whose key is one of the cells; and the amounts added to the slots of an array are sums over the items.
-/

namespace Buckets

section Read

variable {α β K : Type} [DecidableEq K]

theorem filterMap_or_perm (p q : α → Prop) [DecidablePred p] [DecidablePred q] (hpq : ∀ a, p a → ¬ q a)
    (f : α → Option β) (list : List α) :
    ((list.filterMap fun a => if p a then f a else none) ++
      list.filterMap fun a => if q a then f a else none).Perm
      (list.filterMap fun a => if p a ∨ q a then f a else none) := by
  induction list with
  | nil => exact List.Perm.refl _
  | cons a rest ih =>
    simp only [List.filterMap_cons]
    by_cases hp : p a
    · rw [if_pos hp, if_neg (hpq a hp), if_pos (Or.inl hp)]
      cases f a with
      | none => exact ih
      | some b => exact ih.cons b
    · by_cases hq : q a
      · rw [if_neg hp, if_pos hq, if_pos (Or.inr hq)]
        cases f a with
        | none => exact ih
        | some b => exact List.perm_middle.trans (ih.cons b)
      · rw [if_neg hp, if_neg hq, if_neg (not_or.mpr ⟨hp, hq⟩)]
        exact ih

/-- Each item is found once: in the bucket of its own key. -/
theorem flatMap_filterMap_perm {cells : List K} (hcells : cells.Nodup) (key : α → K) (f : α → Option β)
    (list : List α) :
    (cells.flatMap fun cell => list.filterMap fun a => if key a = cell then f a else none).Perm
      (list.filterMap fun a => if key a ∈ cells then f a else none) := by
  induction cells with
  | nil => simp
  | cons cell rest ih =>
    obtain ⟨hnew, hrest⟩ := List.nodup_cons.mp hcells
    rw [List.flatMap_cons]
    have happend := (ih hrest).append_left (list.filterMap fun a => if key a = cell then f a else none)
    have hor := filterMap_or_perm (fun a => key a = cell) (fun a => key a ∈ rest)
      (fun a h hmem => hnew (h ▸ hmem)) f list
    simp only [← List.mem_cons] at hor
    exact happend.trans hor

end Read

section Add

variable {α M : Type} [AddCommMonoid M]

theorem sum_filterMap (p : α → Prop) [DecidablePred p] (g : α → M) (list : List α) :
    (list.filterMap fun a => if p a then some (g a) else none).sum =
      (list.map fun a => if p a then g a else 0).sum := by
  induction list with
  | nil => rfl
  | cons a rest ih =>
    rw [List.filterMap_cons, List.map_cons, List.sum_cons, ← ih]
    by_cases hp : p a
    · rw [if_pos hp, if_pos hp, List.sum_cons]
    · rw [if_neg hp, if_neg hp, zero_add]

variable {I : Type} [DecidableEq I]

theorem foldl_update_apply (slot : α → I) (g : α → M) (list : List α) (out : I → M) (i : I) :
    list.foldl (fun out a => Function.update out (slot a) (out (slot a) + g a)) out i =
      out i + (list.map fun a => if slot a = i then g a else 0).sum := by
  induction list generalizing out with
  | nil => exact (add_zero _).symm
  | cons a rest ih =>
    rw [List.foldl_cons, ih, List.map_cons, List.sum_cons, ← add_assoc]
    congr 1
    by_cases hi : slot a = i
    · rw [if_pos hi, ← hi, Function.update_self]
    · rw [if_neg hi, Function.update_of_ne (Ne.symm hi), add_zero]

end Add

end Buckets
