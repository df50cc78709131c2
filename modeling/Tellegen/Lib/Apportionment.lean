import Mathlib.Algebra.BigOperators.Group.List.Basic
import Mathlib.Algebra.Order.Floor.Div
import Mathlib.Data.List.GetD
import Mathlib.Tactic.Ring
import Tellegen.Lib.StableSort

/-!
Largest remainders. A total is shared in proportion to weights: every share is rounded down first, and
what is left goes one each to the largest remainders, to the earlier one where two are equal.
-/

namespace Apportionment

variable (total : ℕ) (weights : List ℕ)

def floors : List ℕ := weights.map fun weight => total * weight / weights.sum

def left : ℕ := total - (floors total weights).sum

def remainder (k : ℕ) : ℕ := total * weights.getD k 0 % weights.sum

def byRemainder : Collation ℕ where
  le j k := decide (remainder total weights k ≤ remainder total weights j)
  trans i j k hij hjk := by
    rw [decide_eq_true_eq] at *
    exact hjk.trans hij
  total j k := by
    rw [Bool.or_eq_true, decide_eq_true_eq, decide_eq_true_eq]
    exact Nat.le_total _ _

def order : List ℕ := (byRemainder total weights).sort (List.range weights.length)

def raised : List ℕ := (order total weights).take (left total weights)

def shares : List ℕ :=
  (raised total weights).foldl (fun shares k => shares.modify k (· + 1)) (floors total weights)

/-! ### Raising single positions -/

theorem length_raise (positions values : List ℕ) :
    (positions.foldl (fun values k => values.modify k (· + 1)) values).length = values.length := by
  induction positions generalizing values with
  | nil => rfl
  | cons k rest ih => rw [List.foldl_cons, ih, List.length_modify]

theorem getElem?_raise {positions : List ℕ} (hnodup : positions.Nodup) (values : List ℕ) (k : ℕ) :
    (positions.foldl (fun values k => values.modify k (· + 1)) values)[k]? =
      values[k]?.map fun value => value + if k ∈ positions then 1 else 0 := by
  induction positions generalizing values with
  | nil =>
    rw [List.foldl_nil, if_neg List.not_mem_nil]
    exact Option.map_id'.symm
  | cons j rest ih =>
    obtain ⟨hj, hrest⟩ := List.nodup_cons.mp hnodup
    rw [List.foldl_cons, ih hrest, List.getElem?_modify]
    by_cases hjk : j = k
    · subst hjk
      rw [if_pos List.mem_cons_self, Option.map_eq_map, Option.map_map]
      simp only [if_pos, if_neg hj, Function.comp_def, Nat.add_zero]
    · have hmem : k ∈ j :: rest ↔ k ∈ rest := by
        rw [List.mem_cons]
        exact ⟨fun h => h.resolve_left fun heq => hjk heq.symm, .inr⟩
      simp only [if_neg hjk, hmem, Option.map_eq_map, Option.map_id']

theorem sum_modify {values : List ℕ} {k : ℕ} (hk : k < values.length) :
    (values.modify k (· + 1)).sum = values.sum + 1 := by
  induction values generalizing k with
  | nil => cases hk
  | cons value rest ih =>
    cases k with
    | zero =>
      rw [List.modify_zero_cons, List.sum_cons, List.sum_cons]
      omega
    | succ k =>
      rw [List.modify_succ_cons, List.sum_cons, List.sum_cons, ih (Nat.lt_of_succ_lt_succ hk)]
      omega

theorem sum_raise {positions : List ℕ} (values : List ℕ)
    (hpositions : ∀ k ∈ positions, k < values.length) :
    (positions.foldl (fun values k => values.modify k (· + 1)) values).sum =
      values.sum + positions.length := by
  induction positions generalizing values with
  | nil => rfl
  | cons k rest ih =>
    rw [List.foldl_cons, ih, sum_modify (hpositions k List.mem_cons_self), List.length_cons]
    · omega
    · intro j hj
      rw [List.length_modify]
      exact hpositions j (List.mem_cons_of_mem _ hj)

/-! ### Remainders -/

variable {total weights}

theorem length_floors : (floors total weights).length = weights.length := List.length_map _

theorem length_shares (total : ℕ) (weights : List ℕ) : (shares total weights).length = weights.length := by
  rw [shares, length_raise, length_floors]

theorem order_perm : (order total weights).Perm (List.range weights.length) :=
  (byRemainder total weights).sort_perm _

theorem nodup_order : (order total weights).Nodup :=
  order_perm.nodup_iff.mpr List.nodup_range

theorem nodup_raised : (raised total weights).Nodup :=
  nodup_order.sublist (List.take_sublist _ _)

theorem lt_of_mem_raised {k : ℕ} (hk : k ∈ raised total weights) : k < weights.length :=
  List.mem_range.mp (order_perm.mem_iff.mp (List.mem_of_mem_take hk))

/-- Euclidean division, summed over the weights. -/
theorem sum_floors_add_remainders (total : ℕ) (weights : List ℕ) :
    weights.sum * (floors total weights).sum +
      ((List.range weights.length).map (remainder total weights)).sum = total * weights.sum := by
  have hdivision : ∀ (n : ℕ) (l : List ℕ), n * (l.map fun weight => total * weight / n).sum +
      (l.map fun weight => total * weight % n).sum = total * l.sum := by
    intro n l
    induction l with
    | nil => rfl
    | cons weight rest ih =>
      have hweight := Nat.div_add_mod (total * weight) n
      rw [List.map_cons, List.map_cons, List.sum_cons, List.sum_cons, List.sum_cons, Nat.mul_add,
        Nat.mul_add, ← ih, ← hweight]
      ring_nf
      rw [hweight]
  have hrange : (List.range weights.length).map (remainder total weights) =
      weights.map fun weight => total * weight % weights.sum := by
    apply List.ext_getElem
    · rw [List.length_map, List.length_map, List.length_range]
    · intro k hk _
      rw [List.length_map, List.length_range] at hk
      rw [List.getElem_map, List.getElem_map, List.getElem_range, remainder,
        List.getD_eq_getElem _ _ hk]
  rw [hrange]
  exact hdivision weights.sum weights

theorem sum_floors_le (total : ℕ) (hweights : 0 < weights.sum) : (floors total weights).sum ≤ total := by
  have hsum := sum_floors_add_remainders total weights
  apply Nat.le_of_mul_le_mul_left _ hweights
  rw [Nat.mul_comm weights.sum total]
  omega

/-- Not more is left than there are remainders. -/
theorem left_le_count (total : ℕ) (hweights : 0 < weights.sum) :
    left total weights ≤ (order total weights).countP fun k => 0 < remainder total weights k := by
  have hsum := sum_floors_add_remainders total weights
  have hleft : weights.sum * left total weights =
      ((List.range weights.length).map (remainder total weights)).sum := by
    rw [left, Nat.mul_sub, Nat.mul_comm weights.sum total]
    omega
  have hbound : ∀ l : List ℕ, (l.map (remainder total weights)).sum ≤
      weights.sum * l.countP fun k => 0 < remainder total weights k := by
    intro l
    induction l with
    | nil => exact Nat.le_refl _
    | cons k rest ih =>
      have hk : remainder total weights k < weights.sum := Nat.mod_lt _ hweights
      rw [List.map_cons, List.sum_cons]
      by_cases hpos : 0 < remainder total weights k
      · simp only [List.countP_cons, decide_eq_true hpos, if_true, Nat.mul_add, Nat.mul_one]
        omega
      · simp only [List.countP_cons, decide_eq_false hpos, Bool.false_eq_true, if_false, Nat.add_zero]
        omega
  apply Nat.le_of_mul_le_mul_left _ hweights
  rw [hleft, order_perm.countP_eq]
  exact hbound _

/-- Only shares that were rounded are raised. -/
theorem remainder_pos_of_mem_raised (hweights : 0 < weights.sum) {k : ℕ}
    (hk : k ∈ raised total weights) : 0 < remainder total weights k := by
  by_contra hzero
  -- the positions after a raised one without a remainder have none either
  have hdrop : ((order total weights).drop (left total weights)).countP
      (fun j => 0 < remainder total weights j) = 0 := by
    rw [List.countP_eq_zero]
    intro j hj
    have hsorted := (byRemainder total weights).sort_pairwise (List.range weights.length)
    have hsplit : (byRemainder total weights).sort (List.range weights.length) =
        raised total weights ++ (order total weights).drop (left total weights) :=
      (List.take_append_drop _ _).symm
    rw [hsplit] at hsorted
    have hle := (List.pairwise_append.mp hsorted).2.2 k hk j hj
    have hle : remainder total weights j ≤ remainder total weights k := of_decide_eq_true hle
    rw [decide_eq_true_eq]
    omega
  have hcount := left_le_count total hweights
  rw [← List.take_append_drop (left total weights) (order total weights), List.countP_append, hdrop,
    Nat.add_zero] at hcount
  have hlength : (raised total weights).length ≤ left total weights := List.length_take_le _ _
  have hall : (raised total weights).countP (fun j => 0 < remainder total weights j) =
      (raised total weights).length :=
    Nat.le_antisymm List.countP_le_length (hlength.trans hcount)
  rw [List.countP_eq_length] at hall
  exact hzero (of_decide_eq_true (hall k hk))

/-! ### Shares -/

/-- The shares add up to the total. -/
theorem sum_shares (total : ℕ) (hweights : 0 < weights.sum) : (shares total weights).sum = total := by
  have hlength : (raised total weights).length = left total weights := by
    rw [raised, List.length_take]
    exact Nat.min_eq_left ((left_le_count total hweights).trans List.countP_le_length)
  have hfloors := sum_floors_le total hweights
  rw [shares, sum_raise, hlength, left]
  · omega
  · intro k hk
    rw [length_floors]
    exact lt_of_mem_raised hk

theorem getElem?_shares (k : ℕ) : (shares total weights)[k]? =
    weights[k]?.map fun weight =>
      total * weight / weights.sum + if k ∈ raised total weights then 1 else 0 := by
  rw [shares, getElem?_raise nodup_raised, floors, List.getElem?_map, Option.map_map]
  rfl

theorem mem_raised_iff {k weight share : ℕ} (hweight : weights[k]? = some weight)
    (hshare : (shares total weights)[k]? = some share) :
    k ∈ raised total weights ↔ share = total * weight / weights.sum + 1 := by
  rw [getElem?_shares, hweight, Option.map_some, Option.some.injEq] at hshare
  rw [← hshare]
  split
  case isTrue hk => exact ⟨fun _ => rfl, fun _ => hk⟩
  case isFalse hk =>
    constructor
    · exact fun h => absurd h hk
    · omega

/-- A share is its proportion rounded down or up. -/
theorem share_rounds (hweights : 0 < weights.sum) {k share weight : ℕ}
    (hweight : weights[k]? = some weight) (hshare : (shares total weights)[k]? = some share) :
    share = total * weight / weights.sum ∨ share = total * weight ⌈/⌉ weights.sum := by
  rw [getElem?_shares, hweight, Option.map_some, Option.some.injEq] at hshare
  by_cases hk : k ∈ raised total weights
  · have hpos := remainder_pos_of_mem_raised hweights hk
    rw [remainder, List.getD_eq_getElem?_getD, hweight, Option.getD_some] at hpos
    rw [if_pos hk] at hshare
    right
    rw [← hshare, Nat.ceilDiv_eq_add_pred_div]
    have hdivision := Nat.div_add_mod (total * weight) weights.sum
    have hlt := Nat.mod_lt (total * weight) hweights
    have hcommutes := Nat.mul_comm weights.sum (total * weight / weights.sum)
    symm
    apply Nat.div_eq_of_lt_le
    · rw [Nat.add_mul, Nat.one_mul]
      omega
    · rw [Nat.add_mul, Nat.add_mul, Nat.one_mul]
      omega
  · rw [if_neg hk] at hshare
    exact .inl hshare.symm

/-- What is raised has the larger remainder, or came first. -/
theorem raised_of_precedes {j k : ℕ} (hj : j < weights.length) (hk : k ∈ raised total weights)
    (hprecedes : remainder total weights k < remainder total weights j ∨
      remainder total weights k = remainder total weights j ∧ j < k) :
    j ∈ raised total weights := by
  have hjorder : j ∈ order total weights := order_perm.mem_iff.mpr (List.mem_range.mpr hj)
  by_contra hnot
  have hdrop : j ∈ (order total weights).drop (left total weights) := by
    rw [← List.take_append_drop (left total weights) (order total weights)] at hjorder
    exact (List.mem_append.mp hjorder).resolve_left hnot
  have hsplit : order total weights =
      raised total weights ++ (order total weights).drop (left total weights) :=
    (List.take_append_drop _ _).symm
  have hsorted := (byRemainder total weights).sort_pairwise (List.range weights.length)
  change (order total weights).Pairwise _ at hsorted
  rw [hsplit] at hsorted
  have hle : remainder total weights j ≤ remainder total weights k :=
    of_decide_eq_true ((List.pairwise_append.mp hsorted).2.2 k hk j hdrop)
  rcases hprecedes with hlt | ⟨heq, hjk⟩
  · omega
  · -- equal remainders keep their order
    have htied := (byRemainder total weights).filter_tied_sort j (List.range weights.length)
    change (order total weights).filter _ = _ at htied
    rw [hsplit, List.filter_append] at htied
    have hincreasing : ((List.range weights.length).filter
        ((byRemainder total weights).tied j)).Pairwise (· < ·) := List.pairwise_lt_range.filter _
    rw [← htied] at hincreasing
    have hktied : (byRemainder total weights).tied j k = true := by
      rw [Collation.tied, Bool.and_eq_true]
      exact ⟨decide_eq_true (Nat.le_of_eq heq), decide_eq_true (Nat.le_of_eq heq.symm)⟩
    have hlt : k < j := (List.pairwise_append.mp hincreasing).2.2 k (List.mem_filter.mpr ⟨hk, hktied⟩)
      j (List.mem_filter.mpr ⟨hdrop, (byRemainder total weights).tied_refl j⟩)
    omega

end Apportionment
