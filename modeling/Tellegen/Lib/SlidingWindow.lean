import Mathlib.Algebra.Order.Monoid.Defs
import Mathlib.Data.List.Induction
import Mathlib.Data.List.Basic
import Tellegen.Lib.Machine

/-!
Limits over a window that slides with the time. A time is live for the length
of the window. Where each time was let in with fewer than `n` live before it,
no window holds more than `n` of them.
-/

namespace SlidingWindow

open Machine

variable {T : Type} [AddCommMonoid T] [LinearOrder T]

def expired (window now seen : T) : Bool := decide (seen + window ≤ now)

/-- The times of a list that are live. -/
def live (window now : T) (times : List T) : List T := times.filter fun seen => !expired window now seen

theorem live_append (window now : T) (first second : List T) :
    live window now (first ++ second) = live window now first ++ live window now second :=
  List.filter_append ..

/-- To drop what has expired makes no difference later. -/
theorem live_dropWhile {window now now' : T} (h : now' ≤ now) (times : List T) :
    live window now (times.dropWhile (expired window now')) = live window now times := by
  induction times with
  | nil => rfl
  | cons seen times ih =>
    by_cases hseen : expired window now' seen = true
    · have hnow : expired window now seen = true := decide_eq_true (le_trans (of_decide_eq_true hseen) h)
      rw [List.dropWhile_cons_of_pos hseen, ih, live, live, List.filter_cons_of_neg (by rw [hnow]; decide)]
    · rw [List.dropWhile_cons_of_neg hseen]

/-- To drop what has expired from the front of ordered times leaves what is live. -/
theorem dropWhile_eq_live [IsOrderedAddMonoid T] {window now : T} {times : List T}
    (h : times.Pairwise fun first second => first ≤ second) :
    times.dropWhile (expired window now) = live window now times := by
  induction times with
  | nil => rfl
  | cons seen times ih =>
    obtain ⟨hfirst, hrest⟩ := List.pairwise_cons.mp h
    by_cases hseen : expired window now seen = true
    · rw [List.dropWhile_cons_of_pos hseen, ih hrest, live, live,
        List.filter_cons_of_neg (by rw [hseen]; decide)]
    · have hlive : ∀ later ∈ seen :: times, (!expired window now later) = true := by
        intro later hlater
        have hle : seen ≤ later := by
          obtain rfl | hlater := List.mem_cons.mp hlater
          · exact le_refl _
          · exact hfirst later hlater
        rw [Bool.not_eq_true', expired, decide_eq_false_iff_not, not_le]
        rw [expired, decide_eq_true_eq, not_le] at hseen
        exact lt_of_lt_of_le hseen (add_le_add_left hle window)
      rw [List.dropWhile_cons_of_neg hseen, live, List.filter_eq_self.mpr hlive]

/-- The times in the window that starts at `start`. -/
def within (window start : T) (times : List T) : List T :=
  times.filter fun seen => decide (start ≤ seen ∧ seen < start + window)

/-- A window holds no more than what each of its times was let in with, and itself. -/
theorem length_within_le [IsOrderedAddMonoid T] {window : T} {n : ℕ} {times : List T}
    (h : Grounded (fun before now => (live window now before).length < n) times) (start : T) :
    (within window start times).length ≤ n := by
  induction times using List.reverseRecOn with
  | nil => exact Nat.zero_le n
  | append_singleton times now ih =>
    have hbefore : Grounded (fun before now => (live window now before).length < n) times := by
      intro before seen after hsplit
      apply h before seen (after ++ [now])
      rw [hsplit, List.append_assoc, List.cons_append]
    rw [within, List.filter_append]
    by_cases hnow : start ≤ now ∧ now < start + window
    · have hsub : (within window start times).Sublist (live window now times) := by
        apply List.monotone_filter_right
        intro seen hseen
        have hstart : start ≤ seen := (of_decide_eq_true hseen).1
        rw [Bool.not_eq_true', expired, decide_eq_false_iff_not, not_le]
        exact lt_of_lt_of_le hnow.2 (add_le_add_left hstart window)
      have hcount := h times now [] rfl
      have hle := hsub.length_le
      have hin : [now].filter (fun seen => decide (start ≤ seen ∧ seen < start + window)) = [now] := by
        rw [List.filter_eq_self]
        intro seen hseen
        rw [List.mem_singleton.mp hseen, decide_eq_true_eq]
        exact hnow
      rw [hin, List.length_append, List.length_singleton]
      change (within window start times).length + 1 ≤ n
      omega
    · have hout : [now].filter (fun seen => decide (start ≤ seen ∧ seen < start + window)) = [] := by
        rw [List.filter_eq_nil_iff]
        intro seen hseen
        rw [List.mem_singleton.mp hseen, decide_eq_true_eq]
        exact hnow
      rw [hout, List.append_nil]
      exact ih hbefore

end SlidingWindow
