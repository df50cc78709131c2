import Mathlib.Data.List.Basic

/-!
Pages of a sequence that is produced one item after another. A producer keeps
the position of the next item, and keeps an item when its position is within
the page; it may skip a block of items that the page does not meet.
-/

namespace Paging

variable {α : Type}

/-- The items at the positions from `start` until `stop`. -/
def window (start stop : ℕ) (l : List α) : List α := (l.take stop).drop start

/-- The next item, and the position after it. -/
def visit (start stop : ℕ) (state : ℕ × List α) (a : α) : ℕ × List α :=
  (state.1 + 1, if start ≤ state.1 ∧ state.1 < stop then state.2 ++ [a] else state.2)

theorem window_append {start stop : ℕ} (l m : List α) :
    window start stop (l ++ m) =
      window start stop l ++ window (start - l.length) (stop - l.length) m := by
  unfold window
  rw [List.take_append, List.drop_append, List.length_take]
  rcases Nat.le_total stop l.length with hstop | hstop
  · rw [Nat.sub_eq_zero_of_le hstop, List.take_zero, List.drop_nil, List.drop_nil]
  · rw [Nat.min_eq_right hstop]

theorem window_singleton (start stop : ℕ) (a : α) :
    window start stop [a] = if start = 0 ∧ 0 < stop then [a] else [] := by
  unfold window
  cases stop with
  | zero => simp
  | succ stop => cases start <;> simp

/-- A page keeps exactly the items of its window. -/
theorem visit_window (start stop : ℕ) (l : List α) (a : α) :
    visit start stop (l.length, window start stop l) a =
      ((l ++ [a]).length, window start stop (l ++ [a])) := by
  have hposition : start - l.length = 0 ∧ 0 < stop - l.length ↔
      start ≤ l.length ∧ l.length < stop := by omega
  rw [visit, window_append, window_singleton, List.length_append, List.length_singleton]
  simp only [hposition, Prod.mk.injEq, true_and]
  split
  · rfl
  · rw [List.append_nil]

theorem foldl_visit (start stop : ℕ) (l m : List α) :
    m.foldl (visit start stop) (l.length, window start stop l) =
      ((l ++ m).length, window start stop (l ++ m)) := by
  induction m generalizing l with
  | nil => rw [List.append_nil]; rfl
  | cons a rest ih => rw [List.foldl_cons, visit_window, ih, List.append_assoc,
      List.singleton_append]

/-- A block that ends before the page, or begins after it, adds nothing. -/
theorem window_append_of_disjoint {start stop : ℕ} {l m : List α}
    (h : ¬(start < l.length + m.length ∧ l.length < stop)) :
    window start stop (l ++ m) = window start stop l := by
  have hempty : window (start - l.length) (stop - l.length) m = [] := by
    rw [window, List.drop_eq_nil_iff, List.length_take]
    omega
  rw [window_append, hempty, List.append_nil]

theorem window_eq (start size : ℕ) (l : List α) :
    window start (start + size) l = (l.drop start).take size := by
  rw [window, List.drop_take, Nat.add_sub_cancel_left]

/-- The pages of a sequence, one after another, are its beginning. -/
theorem flatMap_pages (size count : ℕ) (l : List α) :
    ((List.range count).flatMap fun k => (l.drop (k * size)).take size) =
      l.take (count * size) := by
  induction count with
  | zero => simp
  | succ count ih =>
    rw [List.range_succ, List.flatMap_append, ih, Nat.succ_mul, List.take_add]
    simp

end Paging
