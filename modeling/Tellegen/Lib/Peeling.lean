import Mathlib.Data.List.Nodup

/-!
Peeling: elements are removed one after another, each under a condition on what is gone already. Where
the condition only gets weaker as more is removed, every order that runs until nothing can be removed
takes away the same elements, and no order takes away others.
-/

namespace Peeling

variable {α : Type}

/-- The elements removed so far, in their order. -/
inductive Peels (ready : List α → α → Prop) : List α → Prop
  | nil : Peels ready []
  | snoc {order : List α} {a : α} (h : Peels ready order) (hnew : a ∉ order)
      (hready : ready order a) : Peels ready (order ++ [a])

def Exhausted (ready : List α → α → Prop) (order : List α) : Prop :=
  ∀ a, a ∉ order → ¬ ready order a

variable {ready : List α → α → Prop} {order other : List α}

theorem Peels.nodup (h : Peels ready order) : order.Nodup := by
  induction h with
  | nil => exact List.nodup_nil
  | snoc _ hnew _ ih =>
    rw [List.nodup_append]
    refine ⟨ih, List.nodup_singleton _, ?_⟩
    intro x hx y hy heq
    rw [heq, List.mem_singleton.mp hy] at hx
    exact hnew hx

/-- What any order removes, an exhausted one removes. -/
theorem Peels.subset (hmono : ∀ gone more a, gone ⊆ more → ready gone a → ready more a)
    (h : Peels ready order) (hother : Exhausted ready other) : order ⊆ other := by
  induction h with
  | nil => exact List.nil_subset _
  | @snoc order a _ _ hready ih =>
    intro x hx
    rcases List.mem_append.mp hx with hx | hx
    · exact ih hx
    · rw [List.mem_singleton.mp hx]
      by_contra hnot
      exact hother a hnot (hmono _ _ a ih hready)

/-- Two exhausted orders remove the same elements. -/
theorem Peels.mem_iff (hmono : ∀ gone more a, gone ⊆ more → ready gone a → ready more a)
    (h : Peels ready order) (hdone : Exhausted ready order) (hother : Peels ready other)
    (hotherDone : Exhausted ready other) (a : α) : a ∈ order ↔ a ∈ other :=
  ⟨fun ha => h.subset hmono hotherDone ha, fun ha => hother.subset hmono hdone ha⟩

end Peeling
