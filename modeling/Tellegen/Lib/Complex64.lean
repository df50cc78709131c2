import Mathlib.Analysis.SpecialFunctions.Pow.Real
import Tellegen.Lib.Binary64

/-!
Complex numbers as pairs of doubles, with the operations in the order in which
a program performs them. Over the reals they form a commutative ring with a
conjugation, and `norm` is zero only at zero.
-/

/-- The functions of a mathematical library on doubles. -/
class Libm (F : Type) extends Binary64 F where
  infinity : F
  sqrt : F → F
  hypot : F → F → F
  powf : F → F → F
  cos : F → F
  sin : F → F
  atan2 : F → F → F
  /-- Three decimals and an exponent. -/
  displayExp : F → String

/-- How the host writes a number. -/
class DecimalText (F : Type) where
  text : F → String

/-- Exact arithmetic. There is no infinity among the reals. -/
noncomputable instance Libm.exactReal [DecimalText ℝ] : Libm ℝ where
  toBinary64 := Binary64.exact DecimalText.text
  infinity := 0
  sqrt := Real.sqrt
  hypot a b := Real.sqrt (a * a + b * b)
  powf a b := a ^ b
  cos := Real.cos
  sin := Real.sin
  atan2 y x := Complex.arg ⟨x, y⟩
  displayExp := DecimalText.text

@[ext] structure Complex64 (F : Type) where
  re : F
  im : F
  deriving DecidableEq

namespace Complex64

section Operations

variable {F : Type} [Binary64 F]

instance : Zero (Complex64 F) := ⟨⟨0, 0⟩⟩
instance : One (Complex64 F) := ⟨⟨1, 0⟩⟩
instance : Add (Complex64 F) := ⟨fun a b => ⟨a.re + b.re, a.im + b.im⟩⟩
instance : Sub (Complex64 F) := ⟨fun a b => ⟨a.re - b.re, a.im - b.im⟩⟩
instance : Neg (Complex64 F) := ⟨fun a => ⟨-a.re, -a.im⟩⟩
instance : Mul (Complex64 F) :=
  ⟨fun a b => ⟨a.re * b.re - a.im * b.im, a.re * b.im + a.im * b.re⟩⟩

def conj (a : Complex64 F) : Complex64 F := ⟨a.re, -a.im⟩

/-- `x * a` of a double `x`. -/
def scale (x : F) (a : Complex64 F) : Complex64 F := ⟨x * a.re, x * a.im⟩

/-- `a / x` of a double `x`. -/
def divReal (a : Complex64 F) (x : F) : Complex64 F := ⟨a.re / x, a.im / x⟩

def normSqr (a : Complex64 F) : F := a.re * a.re + a.im * a.im

instance : Div (Complex64 F) :=
  ⟨fun a b =>
    ⟨(a.re * b.re + a.im * b.im) / b.normSqr, (a.im * b.re - a.re * b.im) / b.normSqr⟩⟩

def isFinite (a : Complex64 F) : Bool := Binary64.isFinite a.re && Binary64.isFinite a.im

/-- `values.sum()` -/
def sum (values : List (Complex64 F)) : Complex64 F := values.foldl (· + ·) 0

end Operations

section Functions

variable {F : Type} [Libm F]

def norm (a : Complex64 F) : F := Libm.hypot a.re a.im

/-- `a.norm() == 0.0` -/
def isZero (a : Complex64 F) : Bool := Binary64.eq a.norm 0

def fromPolar (r theta : F) : Complex64 F := ⟨r * Libm.cos theta, r * Libm.sin theta⟩

end Functions

section Exact

variable [DecimalText ℝ]

@[simp] theorem zero_re : (0 : Complex64 ℝ).re = 0 := rfl
@[simp] theorem zero_im : (0 : Complex64 ℝ).im = 0 := rfl
@[simp] theorem one_re : (1 : Complex64 ℝ).re = 1 := rfl
@[simp] theorem one_im : (1 : Complex64 ℝ).im = 0 := rfl
@[simp] theorem add_re (a b : Complex64 ℝ) : (a + b).re = a.re + b.re := rfl
@[simp] theorem add_im (a b : Complex64 ℝ) : (a + b).im = a.im + b.im := rfl
@[simp] theorem sub_re (a b : Complex64 ℝ) : (a - b).re = a.re - b.re := rfl
@[simp] theorem sub_im (a b : Complex64 ℝ) : (a - b).im = a.im - b.im := rfl
@[simp] theorem neg_re (a : Complex64 ℝ) : (-a).re = -a.re := rfl
@[simp] theorem neg_im (a : Complex64 ℝ) : (-a).im = -a.im := rfl
@[simp] theorem mul_re (a b : Complex64 ℝ) : (a * b).re = a.re * b.re - a.im * b.im := rfl
@[simp] theorem mul_im (a b : Complex64 ℝ) : (a * b).im = a.re * b.im + a.im * b.re := rfl
@[simp] theorem conj_re (a : Complex64 ℝ) : a.conj.re = a.re := rfl
@[simp] theorem conj_im (a : Complex64 ℝ) : a.conj.im = -a.im := rfl
@[simp] theorem scale_re (x : ℝ) (a : Complex64 ℝ) : (scale x a).re = x * a.re := rfl
@[simp] theorem scale_im (x : ℝ) (a : Complex64 ℝ) : (scale x a).im = x * a.im := rfl

noncomputable instance : CommRing (Complex64 ℝ) where
  add_assoc a b c := by ext <;> simp [add_assoc]
  zero_add a := by ext <;> simp
  add_zero a := by ext <;> simp
  add_comm a b := by ext <;> simp [add_comm]
  neg_add_cancel a := by ext <;> simp
  sub_eq_add_neg a b := by ext <;> simp [sub_eq_add_neg]
  mul_assoc a b c := by ext <;> simp <;> ring
  one_mul a := by ext <;> simp
  mul_one a := by ext <;> simp
  mul_comm a b := by ext <;> simp <;> ring
  left_distrib a b c := by ext <;> simp <;> ring
  right_distrib a b c := by ext <;> simp <;> ring
  zero_mul a := by ext <;> simp
  mul_zero a := by ext <;> simp
  nsmul := nsmulRec
  zsmul := zsmulRec

@[simp] theorem conj_zero : (0 : Complex64 ℝ).conj = 0 := by ext <;> simp

theorem conj_add (a b : Complex64 ℝ) : (a + b).conj = a.conj + b.conj := by
  ext <;> simp [add_comm]

@[simp] theorem conj_conj (a : Complex64 ℝ) : a.conj.conj = a := by ext <;> simp

noncomputable def conjHom : Complex64 ℝ →+ Complex64 ℝ where
  toFun := conj
  map_zero' := conj_zero
  map_add' := conj_add

theorem conj_sum {ι : Type*} (s : Finset ι) (f : ι → Complex64 ℝ) :
    (∑ i ∈ s, f i).conj = ∑ i ∈ s, (f i).conj := map_sum conjHom f s

theorem sum_eq (l : List (Complex64 ℝ)) : sum l = l.sum := by
  rw [List.sum_eq_foldl]
  rfl

theorem norm_eq_zero (a : Complex64 ℝ) : a.norm = 0 ↔ a = 0 := by
  change Real.sqrt (a.re * a.re + a.im * a.im) = 0 ↔ _
  rw [Real.sqrt_eq_zero (add_nonneg (mul_self_nonneg _) (mul_self_nonneg _)),
    mul_self_add_mul_self_eq_zero, Complex64.ext_iff]
  rfl

theorem isZero_iff (a : Complex64 ℝ) : a.isZero = true ↔ a = 0 := by
  rw [← norm_eq_zero]
  exact decide_eq_true_iff

@[simp] theorem isFinite_exact (a : Complex64 ℝ) : a.isFinite = true := rfl

end Exact

end Complex64

namespace Binary64

variable [DecimalText ℝ]

theorem sum_real (values : List ℝ) : Binary64.sum values = values.sum := by
  rw [List.sum_eq_foldl]
  rfl

theorem max_real (a b : ℝ) : Binary64.max a b = Max.max a b := by
  change (if a < b then b else a) = Max.max a b
  split
  case isTrue h => exact (max_eq_right h.le).symm
  case isFalse h => exact (max_eq_left (not_lt.mp h)).symm

theorem le_foldl_max (list : List ℝ) (a : ℝ) :
    a ≤ list.foldl Binary64.max a ∧ ∀ b ∈ list, b ≤ list.foldl Binary64.max a := by
  induction list generalizing a with
  | nil => exact ⟨le_refl a, fun b hb => absurd hb List.not_mem_nil⟩
  | cons c rest ih =>
    obtain ⟨hstart, hall⟩ := ih (Binary64.max a c)
    have hleft : a ≤ Binary64.max a c := max_real a c ▸ le_max_left a c
    have hright : c ≤ Binary64.max a c := max_real a c ▸ le_max_right a c
    rw [List.foldl_cons, List.forall_mem_cons]
    exact ⟨hleft.trans hstart, hright.trans hstart, hall⟩

theorem min_real (a b : ℝ) : Binary64.min a b = Min.min a b := by
  change (if a < b then a else b) = Min.min a b
  split
  case isTrue h => exact (min_eq_left h.le).symm
  case isFalse h => exact (min_eq_right (not_lt.mp h)).symm

end Binary64
