import Mathlib.Data.List.Count

/-!
Counts that go down: loops that mark one more element at each round.
-/

namespace Counting

variable {α : Type}

/-- A predicate that loses an element of the list holds of fewer. -/
theorem countP_lt_countP {p q : α → Bool} {list : List α} (h : ∀ x, p x = true → q x = true)
    {a : α} (ha : a ∈ list) (hq : q a = true) (hp : p a = false) : list.countP p < list.countP q := by
  induction list with
  | nil => cases ha
  | cons b rest ih =>
    have hle : rest.countP p ≤ rest.countP q := List.countP_mono_left fun x _ => h x
    rw [List.countP_cons, List.countP_cons]
    rcases List.mem_cons.mp ha with rfl | ha
    · rw [if_pos hq, if_neg (Bool.eq_false_iff.mp hp)]
      omega
    · have hlt := ih ha
      by_cases hb : p b = true
      · rw [if_pos hb, if_pos (h b hb)]
        omega
      · rw [if_neg hb]
        split <;> omega

/-- Marking a new element leaves fewer unmarked ones. -/
theorem countP_not_update [DecidableEq α] {used : α → Bool} {list : List α} {a : α} (ha : a ∈ list)
    (hnew : used a = false) :
    (list.countP fun x => !Function.update used a true x) < list.countP fun x => !used x := by
  apply countP_lt_countP _ ha
  · rw [hnew]
    rfl
  · rw [Function.update_self]
    rfl
  · intro x hx
    by_cases heq : x = a
    · rw [heq, Function.update_self] at hx
      cases hx
    · rw [Function.update_of_ne heq] at hx
      exact hx

end Counting
