import Mathlib.Data.Rat.Floor
import Tellegen.Lib.Instances

/-!
The operations a numerical program performs on double-precision values, as a
class. Equality of values is equality of their bits; `eq`, `lt` and `le` are
the IEEE comparisons, which are all false at a NaN.

`LawfulBinary64` lists the order facts the proofs rely on. Each one holds of
IEEE doubles, rounding, infinities and NaN included. `exact` interprets the
operations in an ordered field; there every value is finite.
-/

set_option linter.unusedSectionVars false

class Binary64 (F : Type) extends Zero F, One F, Add F, Sub F, Mul F, Div F, Neg F where
  eq : F → F → Bool
  lt : F → F → Bool
  le : F → F → Bool
  isFinite : F → Bool
  abs : F → F
  floor : F → F
  /-- Rounds half away from zero. -/
  round : F → F
  min : F → F → F
  max : F → F → F
  totalCmp : F → F → Ordering
  /-- The double nearest to a literal. -/
  lit : ℚ → F
  /-- The shortest decimal text, and the same with its sign. -/
  display : F → String
  displaySigned : F → String

namespace Binary64

variable {F : Type} [Binary64 F]

def ofNat (n : ℕ) : F := lit n

def sum (values : List F) : F := values.foldl (· + ·) 0

/-- `PartialOrd` of `f64`. -/
def partialCmp (a b : F) : Option Ordering :=
  if lt a b then some .lt
  else if lt b a then some .gt
  else if eq a b then some .eq
  else none

/-- `PartialOrd` of `Vec<f64>`: the first position that is not equal decides. -/
def partialCmpList : List F → List F → Option Ordering
  | [], [] => some .eq
  | [], _ :: _ => some .lt
  | _ :: _, [] => some .gt
  | a :: as, b :: bs =>
    match partialCmp a b with
    | some .eq => partialCmpList as bs
    | other => other

/-- `(a..=b).contains(&x)`. -/
def within (a x b : F) : Bool := le a x && le x b

end Binary64

open Binary64 in
/-- Order facts of IEEE doubles. Comparisons hold only between numbers, so
transitivity needs no finiteness. -/
class LawfulBinary64 (F : Type) [Binary64 F] : Prop where
  lt_irrefl (a : F) : ¬ lt a a
  lt_trans {a b c : F} : lt a b → lt b c → lt a c
  lt_of_lt_of_le {a b c : F} : lt a b → le b c → lt a c
  le_of_not_lt {a b : F} : isFinite a → isFinite b → ¬ lt a b → le b a
  sub_le_self {a m : F} : isFinite a → isFinite m → le 0 m → le (a - m) a
  isFinite_zero : isFinite (0 : F)

namespace Binary64

section Lawful

variable {F : Type} [Binary64 F] [LawfulBinary64 F]

open LawfulBinary64

/-- A value beyond a margin below `b` stays beyond a margin below anything
smaller than `b`. -/
theorem not_lt_sub_of_lt {t w b m : F} (hw : isFinite w) (hm : isFinite m)
    (hnonneg : ¬ lt m 0) (hwb : lt w b) (ht : ¬ lt t b) :
    ¬ lt t (w - m) := by
  intro hlt
  have hle : le (w - m) w := sub_le_self hw hm (le_of_not_lt hm isFinite_zero hnonneg)
  exact ht (lt_trans (lt_of_lt_of_le hlt hle) hwb)

theorem not_lt_sub_self {w m : F} (hw : isFinite w) (hm : isFinite m)
    (hnonneg : ¬ lt m 0) : ¬ lt w (w - m) := by
  intro hlt
  have hle : le (w - m) w := sub_le_self hw hm (le_of_not_lt hm isFinite_zero hnonneg)
  exact lt_irrefl w (lt_of_lt_of_le hlt hle)

end Lawful

section Exact

variable {K : Type} [Field K] [LinearOrder K] [IsStrictOrderedRing K] [FloorRing K]

/-- Exact arithmetic. Decimal texts are those of the host. -/
@[reducible] def exact (text : K → String) : Binary64 K where
  eq a b := decide (a = b)
  lt a b := decide (a < b)
  le a b := decide (a ≤ b)
  isFinite _ := true
  abs a := if a < 0 then -a else a
  floor a := (⌊a⌋ : K)
  round a := if a < 0 then (⌈a - 1 / 2⌉ : K) else (⌊a + 1 / 2⌋ : K)
  min a b := if a < b then a else b
  max a b := if a < b then b else a
  totalCmp := compare
  lit q := (q : K)
  display := text
  displaySigned a := if a < 0 then text a else "+" ++ text a

theorem exact_lit (text : K → String) (q : ℚ) : (exact text).lit q = (q : K) := rfl

theorem exact_abs (text : K → String) (a : K) : (exact text).abs a = |a| := by
  change (if a < 0 then -a else a) = |a|
  split
  case isTrue hneg => exact (abs_of_neg hneg).symm
  case isFalse hnonneg => exact (abs_of_nonneg (not_lt.mp hnonneg)).symm

theorem exact_lawful (text : K → String) :
    @LawfulBinary64 K (exact text) := by
  let _ := exact text
  refine { lt_irrefl := ?_, lt_trans := ?_, lt_of_lt_of_le := ?_, le_of_not_lt := ?_,
           sub_le_self := ?_, isFinite_zero := ?_ }
  · intro a
    simp [lt]
  · intro a b c hab hbc
    simp only [lt, decide_eq_true_eq] at *
    exact hab.trans hbc
  · intro a b c hab hbc
    simp only [lt, le, decide_eq_true_eq] at *
    exact hab.trans_le hbc
  · intro a b _ _ h
    simpa [lt, le] using h
  · intro a m _ _ h
    simpa [le] using h
  · rfl

end Exact

end Binary64
