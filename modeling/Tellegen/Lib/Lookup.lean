import Mathlib.Data.List.Basic

/-!
Positions in a list by a property of the entry. A map that is filled from a list keeps
for each key the last entry that has it.
-/

namespace Lookup

/-- The last position that satisfies `p`. -/
def lastIndex {α : Type} (p : α → Bool) : List α → Option ℕ
  | [] => none
  | x :: rest =>
    match lastIndex p rest with
    | some i => some (i + 1)
    | none => if p x then some 0 else none

theorem lastIndex_eq_none {α : Type} {p : α → Bool} {l : List α} (h : lastIndex p l = none) :
    ∀ x ∈ l, ¬ p x := by
  induction l with
  | nil => exact fun x hx => absurd hx List.not_mem_nil
  | cons y rest ih =>
    rw [lastIndex] at h
    cases hrest : lastIndex p rest with
    | some i =>
      rw [hrest] at h
      cases h
    | none =>
      rw [hrest] at h
      intro x hx
      rcases List.mem_cons.mp hx with rfl | hmem
      · intro hp
        simp only [if_pos hp] at h
        cases h
      · exact ih hrest x hmem

/-- The last position is one that satisfies `p`, and no later one does. -/
theorem of_lastIndex_eq_some {α : Type} {p : α → Bool} {l : List α} {i : ℕ}
    (h : lastIndex p l = some i) :
    (∃ x, l[i]? = some x ∧ p x) ∧ ∀ (j : ℕ) (x : α), l[j]? = some x → p x → j ≤ i := by
  induction l generalizing i with
  | nil => cases h
  | cons y rest ih =>
    rw [lastIndex] at h
    cases hrest : lastIndex p rest with
    | some k =>
      rw [hrest] at h
      cases h
      obtain ⟨hat, hlast⟩ := ih hrest
      refine ⟨hat, ?_⟩
      intro j x hj hp
      cases j with
      | zero => omega
      | succ j =>
        have hle := hlast j x hj hp
        omega
    | none =>
      rw [hrest] at h
      simp only at h
      split at h
      case isFalse => cases h
      case isTrue hy =>
        cases h
        refine ⟨⟨y, rfl, hy⟩, ?_⟩
        intro j x hj hp
        cases j with
        | zero => exact Nat.le_refl 0
        | succ j => exact absurd hp (lastIndex_eq_none hrest x (List.mem_of_getElem? hj))

theorem exists_lastIndex {α : Type} {p : α → Bool} {l : List α} {j : ℕ} {x : α}
    (hj : l[j]? = some x) (hp : p x) : ∃ i, lastIndex p l = some i ∧ j ≤ i := by
  cases h : lastIndex p l with
  | none => exact absurd hp (lastIndex_eq_none h x (List.mem_of_getElem? hj))
  | some i => exact ⟨i, rfl, (of_lastIndex_eq_some h).2 j x hj hp⟩

theorem lastIndex_lt {α : Type} {p : α → Bool} {l : List α} {i : ℕ} (h : lastIndex p l = some i) :
    i < l.length := by
  obtain ⟨⟨x, hx, _⟩, _⟩ := of_lastIndex_eq_some h
  exact (List.getElem?_eq_some_iff.mp hx).1

theorem lastIndex_congr {α β : Type} {p : α → Bool} {q : β → Bool} {l : List α} {m : List β}
    (h : List.Forall₂ (fun a b => p a = q b) l m) : lastIndex p l = lastIndex q m := by
  induction h with
  | nil => rfl
  | cons hhead _ ih => rw [lastIndex, lastIndex, ih, hhead]

end Lookup
