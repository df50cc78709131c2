import Mathlib.Algebra.BigOperators.Fin

/-!
Values written to the rows that a map gives them. Where no two values go to one row, each row holds the value
that goes to it, and what the rows make together is what the values make.
-/

namespace Scatter

variable {n : ℕ} {R β : Type} [DecidableEq R]

def write (rows : Fin n → Option R) (value : Fin n → β) (out : R → β) (k : Fin n) : R → β :=
  match rows k with
  | some r => Function.update out r (value k)
  | none => out

/-- Every value in turn, over an array that holds `blank`. -/
def scatter (blank : β) (rows : Fin n → Option R) (value : Fin n → β) : R → β :=
  (List.finRange n).foldl (write rows value) fun _ => blank

def Injective (rows : Fin n → Option R) : Prop := ∀ i j r, rows i = some r → rows j = some r → i = j

variable {rows : Fin n → Option R} {value : Fin n → β} {blank : β}

theorem foldl_write_of_absent {list : List (Fin n)} {r : R} (habsent : ∀ k ∈ list, rows k ≠ some r)
    (out : R → β) : list.foldl (write rows value) out r = out r := by
  induction list generalizing out with
  | nil => rfl
  | cons k rest ih =>
    rw [List.foldl_cons, ih fun j hj => habsent j (List.mem_cons_of_mem _ hj), write]
    cases hk : rows k with
    | none => rfl
    | some r' =>
      have hne : r ≠ r' := fun h => habsent k List.mem_cons_self (hk.trans (congrArg some h.symm))
      exact Function.update_of_ne hne _ _

theorem scatter_of_absent {r : R} (habsent : ∀ k, rows k ≠ some r) : scatter blank rows value r = blank :=
  foldl_write_of_absent (fun k _ => habsent k) _

theorem scatter_of_some (hrows : Injective rows) {k : Fin n} {r : R} (hk : rows k = some r) :
    scatter blank rows value r = value k := by
  obtain ⟨before, after, hlist⟩ := List.append_of_mem (List.mem_finRange k)
  have hnodup := List.nodup_finRange n
  rw [hlist] at hnodup
  have hafter : ∀ j ∈ after, rows j ≠ some r := by
    intro j hj hrow
    have hsame := hrows j k r hrow hk
    have hfresh := (List.nodup_cons.mp (List.nodup_append.mp hnodup).2.1).1
    exact hfresh (hsame ▸ hj)
  rw [scatter, hlist, List.foldl_append, List.foldl_cons, foldl_write_of_absent hafter, write, hk]
  exact Function.update_self _ _ _

/-- A sum over the rows is a sum over the values that reach one. -/
theorem sum_scatter [Fintype R] {M : Type} [AddCommMonoid M] (hrows : Injective rows) (g : R → β → M)
    (hblank : ∀ r, g r blank = 0) :
    ∑ r, g r (scatter blank rows value r) = ∑ k, (rows k).elim 0 fun r => g r (value k) := by
  have hvalue : ∀ k, ((rows k).elim 0 fun r => g r (value k)) =
      ∑ r, if rows k = some r then g r (value k) else 0 := by
    intro k
    cases hk : rows k with
    | none => simp
    | some r => simp
  rw [Finset.sum_congr rfl fun k _ => hvalue k, Finset.sum_comm]
  apply Finset.sum_congr rfl
  intro r _
  by_cases hr : ∃ k, rows k = some r
  · obtain ⟨k, hk⟩ := hr
    rw [scatter_of_some hrows hk, Finset.sum_eq_single_of_mem k (Finset.mem_univ k), if_pos hk]
    intro j _ hj
    exact if_neg fun h => hj (hrows j k r h hk)
  · rw [not_exists] at hr
    rw [scatter_of_absent hr, hblank, Finset.sum_eq_zero fun k _ => if_neg (hr k)]

end Scatter
