import Tellegen.Lib.Complex64

/-!
IEEE doubles themselves, as `Float` models them bit by bit. What is proved of a program over an ordered field need
not hold of them: where a run goes wrong by rounding or by overflow, it is evaluated here.
-/

namespace Double

/-- Toward zero, of a double that is not negative; from 2 ^ 52 on every double is whole. -/
def whole (a : Float) : Float := if a < 4503599627370496 then a.toUInt64.toFloat else a

/-- Toward negative infinity. -/
def floor (a : Float) : Float :=
  if 0 ≤ a then whole a
  else if whole (-a) < -a then -(whole (-a) + 1) else a

/-- Half away from zero. -/
def round (a : Float) : Float :=
  let below := whole a.abs
  let size := if 0.5 ≤ a.abs - below then below + 1 else below
  if a < 0 then -size else size

/-- The bits of a double in the order of `total_cmp`. -/
def totalKey (a : Float) : ℤ :=
  if a.toBits.toNat < 2 ^ 63 then a.toBits.toNat else 2 ^ 63 - 1 - a.toBits.toNat

/-- The double nearest to a literal that is whole, or whose two parts are below 2 ^ 53. -/
def ofLiteral (q : ℚ) : Float :=
  let size := Float.ofNat q.num.natAbs / Float.ofNat q.den
  if q < 0 then -size else size

end Double

instance Binary64.double : Binary64 Float where
  zero := 0
  one := 1
  eq := Float.beq
  lt := Float.lt
  le := Float.le
  isFinite := Float.isFinite
  abs := Float.abs
  floor := Double.floor
  round := Double.round
  min a b := if b.isNaN || a.lt b then a else b
  max a b := if b.isNaN || b.lt a then a else b
  totalCmp a b := compare (Double.totalKey a) (Double.totalKey b)
  lit := Double.ofLiteral
  display := Float.toString
  displaySigned a := if a.toBits.toNat < 2 ^ 63 then "+" ++ a.toString else a.toString

/-- The kernel knows the sine and the cosine of zero alone. -/
instance Libm.double : Libm Float where
  infinity := 1 / 0
  sqrt := Float.sqrt
  hypot a b := Float.sqrt (a * a + b * b)
  powf := Float.pow
  cos a := if a == 0 then 1 else a.cos
  sin a := if a == 0 then a else a.sin
  atan2 := Float.atan2
  displayExp := Float.toString

example : Binary64.lt (0.3 : Float) (0.1 + 0.2) = true := by decide +kernel
