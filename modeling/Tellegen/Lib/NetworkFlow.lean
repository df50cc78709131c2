import Mathlib.Data.Real.Basic
import Mathlib.Tactic.Ring
import Mathlib.Tactic.Linarith
import Mathlib.Algebra.BigOperators.Ring.Finset
import Mathlib.Algebra.Order.BigOperators.Group.Finset

/-!
Flows on the edges of a graph that are weights times differences of a potential. Where no weight is negative
and every vertex hangs on a grounded one, the flows that leave the other vertices determine the potential.
-/

namespace NetworkFlow

variable {V E : Type} [DecidableEq V] [Fintype E] (src tgt : E → V)

def outflow (flow : E → ℝ) (i : V) : ℝ :=
  ∑ e, ((if src e = i then flow e else 0) - if tgt e = i then flow e else 0)

theorem outflow_add (first second : E → ℝ) (i : V) :
    outflow src tgt (fun e => first e + second e) i = outflow src tgt first i + outflow src tgt second i := by
  rw [outflow, outflow, outflow, ← Finset.sum_add_distrib]
  apply Finset.sum_congr rfl
  intro e _
  by_cases hsrc : src e = i
  · by_cases htgt : tgt e = i
    · simp only [hsrc, htgt, if_true]
      ring
    · simp only [hsrc, htgt, if_true, if_false]
      ring
  · by_cases htgt : tgt e = i
    · simp only [hsrc, htgt, if_true, if_false]
      ring
    · simp only [hsrc, htgt, if_false]
      ring

/-- Summed against a potential, what leaves the vertices is what the edges lose. -/
theorem sum_mul_outflow [Fintype V] (θ : V → ℝ) (flow : E → ℝ) :
    ∑ i, θ i * outflow src tgt flow i = ∑ e, (θ (src e) - θ (tgt e)) * flow e := by
  have hexpand : ∀ i, θ i * outflow src tgt flow i =
      ∑ e, ((if src e = i then θ i * flow e else 0) - if tgt e = i then θ i * flow e else 0) := by
    intro i
    rw [outflow, Finset.mul_sum]
    apply Finset.sum_congr rfl
    intro e _
    rw [mul_sub, mul_ite, mul_ite, mul_zero]
  rw [Finset.sum_congr rfl fun i _ => hexpand i, Finset.sum_comm]
  apply Finset.sum_congr rfl
  intro e _
  rw [Finset.sum_sub_distrib, Finset.sum_ite_eq, Finset.sum_ite_eq, if_pos (Finset.mem_univ _),
    if_pos (Finset.mem_univ _), sub_mul]

variable (w : E → ℝ)

def driven (θ : V → ℝ) (e : E) : ℝ := w e * (θ (src e) - θ (tgt e))

/-- Ends of edges of positive weight hang together. -/
def Linked : V → V → Prop := Relation.EqvGen fun i j => ∃ e, 0 < w e ∧ src e = i ∧ tgt e = j

variable {src tgt w}

/-- A potential that is zero where it is grounded and drives no flow out of any other vertex is zero. -/
theorem eq_zero_of_grounded [Fintype V] (hw : ∀ e, 0 ≤ w e) {ground : V → Prop} {θ : V → ℝ}
    (hground : ∀ r, ground r → θ r = 0)
    (hbalance : ∀ i, ¬ ground i → outflow src tgt (driven src tgt w θ) i = 0)
    {i r : V} (hr : ground r) (hlinked : Linked src tgt w i r) : θ i = 0 := by
  have hloss : ∑ e, (θ (src e) - θ (tgt e)) * driven src tgt w θ e = 0 := by
    rw [← sum_mul_outflow]
    apply Finset.sum_eq_zero
    intro i _
    by_cases hi : ground i
    · rw [hground i hi, zero_mul]
    · rw [hbalance i hi, mul_zero]
  have hterm : ∀ e, (θ (src e) - θ (tgt e)) * driven src tgt w θ e = w e * (θ (src e) - θ (tgt e)) ^ 2 := by
    intro e
    rw [driven]
    ring
  have hnonneg : ∀ e ∈ Finset.univ, 0 ≤ (θ (src e) - θ (tgt e)) * driven src tgt w θ e := by
    intro e _
    rw [hterm]
    exact mul_nonneg (hw e) (sq_nonneg _)
  have heach := (Finset.sum_eq_zero_iff_of_nonneg hnonneg).mp hloss
  have hsame : ∀ {i j : V}, Linked src tgt w i j → θ i = θ j := by
    intro i j h
    induction h with
    | rel i j h =>
      obtain ⟨e, hpos, rfl, rfl⟩ := h
      have hzero := heach e (Finset.mem_univ e)
      rw [hterm, mul_eq_zero, sq_eq_zero_iff, sub_eq_zero] at hzero
      exact hzero.resolve_left hpos.ne'
    | refl i => rfl
    | symm i j _ ih => exact ih.symm
    | trans i j k _ _ ih ih' => exact ih.trans ih'
  rw [hsame hlinked, hground r hr]

end NetworkFlow
