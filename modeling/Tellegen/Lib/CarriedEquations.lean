import Tellegen.Lib.Orthogonalization

/-!
Equations that an orthogonalization carries along. An equation asks of a point
that its product with a vector is a number. Where the vector loses its part
along a unit vector, the number loses the same part of that vector's own, so
the points that satisfy both equations stay the same. The point that satisfies
the equations of an orthonormal list and differs from a given one within their
span is had by one correction for each.
-/

open Submodule

namespace Orthogonalization

variable {E : Type*} [NormedAddCommGroup E] [InnerProductSpace ℝ E]

abbrev Equation (E : Type*) := E × ℝ

def Holds (x : E) (e : Equation E) : Prop := inner ℝ e.1 x = e.2

/-- An equation without its part along another, whose vector is taken to have length one. -/
def lessen (e p : Equation E) : Equation E := (e.1 - inner ℝ e.1 p.1 • p.1, e.2 - inner ℝ e.1 p.1 * p.2)

def sweep (basis : List (Equation E)) (e : Equation E) : Equation E := basis.foldl lessen e

theorem lessen_holds {x : E} {p : Equation E} (hp : Holds x p) (e : Equation E) :
    Holds x (lessen e p) ↔ Holds x e := by
  rw [Holds, Holds, lessen, inner_sub_left, inner_smul_left, hp.symm, RCLike.conj_to_real]
  exact sub_left_inj

theorem sweep_holds {x : E} {basis : List (Equation E)} (hbasis : ∀ p ∈ basis, Holds x p) (e : Equation E) :
    Holds x (sweep basis e) ↔ Holds x e := by
  induction basis generalizing e with
  | nil => exact Iff.rfl
  | cons p basis ih =>
    change Holds x (sweep basis (lessen e p)) ↔ _
    rw [ih (fun q hq => hbasis q (List.mem_cons_of_mem _ hq)), lessen_holds (hbasis p List.mem_cons_self)]

/-- What is swept away is within the span. -/
theorem sweep_span (basis : List (Equation E)) (e : Equation E) :
    e.1 - (sweep basis e).1 ∈ spanOf (basis.map Prod.fst) := by
  induction basis generalizing e with
  | nil =>
    change e.1 - e.1 ∈ _
    rw [sub_self]
    exact zero_mem _
  | cons p basis ih =>
    have hrest : (lessen e p).1 - (sweep basis (lessen e p)).1 ∈ spanOf ((p :: basis).map Prod.fst) :=
      spanOf_mono (fun q hq => List.mem_cons_of_mem _ hq) (ih (lessen e p))
    have hfirst : e.1 - (lessen e p).1 ∈ spanOf ((p :: basis).map Prod.fst) := by
      rw [lessen, sub_sub_cancel]
      exact Submodule.smul_mem _ _ (mem_spanOf List.mem_cons_self)
    have hsum := Submodule.add_mem _ hfirst hrest
    rwa [sub_add_sub_cancel] at hsum

/-- What is left is orthogonal to vectors of length one that are orthogonal to one another. -/
theorem sweep_orthogonal {basis : List (Equation E)} (h : UnitList (basis.map Prod.fst)) (e : Equation E) :
    ∀ p ∈ basis.map Prod.fst, inner ℝ p (sweep basis e).1 = 0 := by
  suffices ∀ (rest swept : List (Equation E)) (e : Equation E), swept ++ rest = basis →
      (∀ p ∈ swept.map Prod.fst, inner ℝ p e.1 = 0) →
      ∀ p ∈ basis.map Prod.fst, inner ℝ p (sweep rest e).1 = 0 from
    this basis [] e rfl fun p hp => absurd hp List.not_mem_nil
  intro rest
  induction rest with
  | nil =>
    intro swept e hsplit hswept
    rw [List.append_nil] at hsplit
    rw [← hsplit]
    exact hswept
  | cons next rest ih =>
    intro swept e hsplit hswept
    apply ih (swept ++ [next]) (lessen e next)
    · rw [← hsplit, List.append_assoc, List.singleton_append]
    · intro p hp
      have hnext : next.1 ∈ basis.map Prod.fst := by
        rw [← hsplit, List.map_append, List.map_cons]
        exact List.mem_append_right _ List.mem_cons_self
      have hself : inner ℝ next.1 next.1 = (1 : ℝ) := by
        rw [real_inner_self_eq_norm_sq, h.unit _ hnext, one_pow]
      rw [lessen, inner_sub_right, inner_smul_right]
      rw [List.map_append, List.map_singleton] at hp
      obtain hp | hp := List.mem_append.mp hp
      · have hpairs := h.orthogonal
        rw [← hsplit, List.map_append, List.map_cons, List.pairwise_append] at hpairs
        rw [hswept p hp, hpairs.2.2 p hp next.1 List.mem_cons_self, mul_zero, sub_zero]
      · rw [List.mem_singleton.mp hp, hself, mul_one, real_inner_comm, sub_self]

theorem inner_eq_zero_of_mem_span {vectors : Set E} {w r : E} (hw : w ∈ span ℝ vectors)
    (h : ∀ v ∈ vectors, inner ℝ v r = (0 : ℝ)) : inner ℝ w r = (0 : ℝ) := by
  induction hw using Submodule.span_induction with
  | mem v hv => exact h v hv
  | zero => exact inner_zero_left r
  | add w w' _ _ hw hw' => rw [inner_add_left, hw, hw', add_zero]
  | smul t w _ hw => rw [inner_smul_left, hw, mul_zero]

/-- Nothing is left of a vector of the span. -/
theorem eq_zero_of_mem_span {basis : List E} {v r : E} (hspan : v - r ∈ spanOf basis)
    (horthogonal : ∀ p ∈ basis, inner ℝ p r = 0) (hv : v ∈ spanOf basis) : r = 0 := by
  have hr : r ∈ spanOf basis := by
    have hsub := Submodule.sub_mem _ hv hspan
    rwa [sub_sub_cancel] at hsub
  exact inner_self_eq_zero.mp (inner_eq_zero_of_mem_span hr horthogonal)

/-- What is left of a vector is no longer than it is far from any vector of the span. -/
theorem norm_le_of_orthogonal {basis : List E} {v r w : E} (hspan : v - r ∈ spanOf basis)
    (horthogonal : ∀ p ∈ basis, inner ℝ p r = 0) (hw : w ∈ spanOf basis) : ‖r‖ ≤ ‖v - w‖ := by
  have hpart : inner ℝ (v - r - w) r = (0 : ℝ) :=
    inner_eq_zero_of_mem_span (Submodule.sub_mem _ hspan hw) horthogonal
  have hsplit : v - w = (v - r - w) + r := by abel
  have hsquare := norm_add_sq_real (v - r - w) r
  rw [← hsplit, hpart] at hsquare
  have hnonneg := sq_nonneg ‖v - r - w‖
  apply le_of_sq_le_sq _ (norm_nonneg _)
  linarith

/-! ### Corrections -/

/-- The point that the corrections of a list make of a default. -/
def corrected (default : E) (basis : List (Equation E)) : E :=
  basis.foldl (fun x p => x + (p.2 - inner ℝ p.1 default) • p.1) default

theorem corrected_eq (default : E) (basis : List (Equation E)) :
    corrected default basis = default + (basis.map fun p => (p.2 - inner ℝ p.1 default) • p.1).sum := by
  have hfold : ∀ x, basis.foldl (fun x p => x + (p.2 - inner ℝ p.1 default) • p.1) x =
      x + (basis.map fun p => (p.2 - inner ℝ p.1 default) • p.1).sum := by
    induction basis with
    | nil => exact fun x => (add_zero x).symm
    | cons p basis ih =>
      intro x
      rw [List.foldl_cons, ih, List.map_cons, List.sum_cons, add_assoc]
  exact hfold default

theorem corrected_span (default : E) (basis : List (Equation E)) :
    corrected default basis - default ∈ spanOf (basis.map Prod.fst) := by
  rw [corrected_eq, add_sub_cancel_left]
  apply list_sum_mem
  intro part hpart
  obtain ⟨p, hp, rfl⟩ := List.mem_map.mp hpart
  exact Submodule.smul_mem _ _ (mem_spanOf (List.mem_map_of_mem hp))

/-- The corrected point satisfies the equations. -/
theorem corrected_holds {basis : List (Equation E)} (h : UnitList (basis.map Prod.fst)) (default : E) :
    ∀ p ∈ basis, Holds (corrected default basis) p := by
  have hsum : ∀ (rest : List (Equation E)) (q : Equation E), UnitList (rest.map Prod.fst) → q ∈ rest →
      inner ℝ q.1 (rest.map fun p => (p.2 - inner ℝ p.1 default) • p.1).sum = q.2 - inner ℝ q.1 default := by
    intro rest
    induction rest with
    | nil => exact fun q _ hq => absurd hq List.not_mem_nil
    | cons p rest ih =>
      intro q hunit hq
      have hrest : UnitList (rest.map Prod.fst) :=
        ⟨fun v hv => hunit.unit v (List.mem_cons_of_mem _ hv), (List.pairwise_cons.mp hunit.orthogonal).2⟩
      have hother := (List.pairwise_cons.mp hunit.orthogonal).1
      rw [List.map_cons, List.sum_cons, inner_add_right, inner_smul_right]
      obtain rfl | hq := List.mem_cons.mp hq
      · have hself : inner ℝ q.1 q.1 = (1 : ℝ) := by
          rw [real_inner_self_eq_norm_sq, hunit.unit _ List.mem_cons_self, one_pow]
        have hnone : inner ℝ q.1 (rest.map fun p => (p.2 - inner ℝ p.1 default) • p.1).sum = (0 : ℝ) := by
          have hmem : (rest.map fun p => (p.2 - inner ℝ p.1 default) • p.1).sum ∈ spanOf (rest.map Prod.fst) := by
            apply list_sum_mem
            intro part hpart
            obtain ⟨p, hp, rfl⟩ := List.mem_map.mp hpart
            exact Submodule.smul_mem _ _ (mem_spanOf (List.mem_map_of_mem hp))
          rw [real_inner_comm]
          apply inner_eq_zero_of_mem_span hmem
          intro v hv
          rw [real_inner_comm]
          exact hother v hv
        rw [hself, hnone, mul_one, add_zero]
      · have hzero : inner ℝ q.1 p.1 = (0 : ℝ) := by
          rw [real_inner_comm]
          exact hother q.1 (List.mem_map_of_mem hq)
        rw [hzero, mul_zero, zero_add, ih q hrest hq]
  intro p hp
  rw [Holds, corrected_eq, inner_add_right, hsum basis p h hp, add_sub_cancel]

/-- There is one point that satisfies the equations and differs from a default within their span. -/
theorem unique_point {vectors : Set E} {default x x' : E} (hx : x - default ∈ span ℝ vectors)
    (hx' : x' - default ∈ span ℝ vectors) (hsame : ∀ v ∈ vectors, inner ℝ v x = (inner ℝ v x' : ℝ)) : x = x' := by
  have hmem : x - x' ∈ span ℝ vectors := by
    have hsub := Submodule.sub_mem _ hx hx'
    rwa [sub_sub_sub_cancel_right] at hsub
  have hzero : inner ℝ (x - x') (x - x') = (0 : ℝ) := by
    apply inner_eq_zero_of_mem_span hmem
    intro v hv
    rw [inner_sub_right, hsame v hv, sub_self]
  exact sub_eq_zero.mp (inner_self_eq_zero.mp hzero)

end Orthogonalization
