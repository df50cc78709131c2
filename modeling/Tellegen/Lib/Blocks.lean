import Mathlib.Data.List.FinRange
import Mathlib.Tactic.Ring

/-!
Numberings that use every number of an interval once. A layout that places one
block after another is such a numbering of all its blocks together.
-/

namespace Blocks

variable {α β : Type}

/-- The numbers from `a` up to `b`, each once. -/
structure Fills (f : α → ℕ) (a b : ℕ) : Prop where
  le : a ≤ b
  injective : Function.Injective f
  within : ∀ x, a ≤ f x ∧ f x < b
  covers : ∀ c, a ≤ c → c < b → ∃ x, f x = c

theorem Fills.append {f : α → ℕ} {g : β → ℕ} {a b c : ℕ} (hf : Fills f a b) (hg : Fills g b c) :
    Fills (Sum.elim f g) a c where
  le := hf.le.trans hg.le
  injective := by
    rintro (x | x) (y | y) h
    · rw [hf.injective h]
    · have hx := hf.within x
      have hy := hg.within y
      change f x = g y at h
      omega
    · have hx := hg.within x
      have hy := hf.within y
      change g x = f y at h
      omega
    · rw [hg.injective h]
  within := by
    have hab := hf.le
    have hbc := hg.le
    rintro (x | x)
    · have hx := hf.within x
      exact ⟨hx.1, by exact hx.2.trans_le hbc⟩
    · have hx := hg.within x
      exact ⟨by exact hab.trans hx.1, hx.2⟩
  covers := by
    intro i ha hc
    by_cases hb : i < b
    · obtain ⟨x, hx⟩ := hf.covers i ha hb
      exact ⟨.inl x, hx⟩
    · obtain ⟨y, hy⟩ := hg.covers i (Nat.le_of_not_lt hb) hc
      exact ⟨.inr y, hy⟩

theorem Fills.relabel {f : α → ℕ} {g : β → ℕ} {a b : ℕ} (h : Fills f a b) (e : β ≃ α)
    (hg : ∀ y, g y = f (e y)) : Fills g a b where
  le := h.le
  injective x y hxy := by
    rw [hg, hg] at hxy
    exact e.injective (h.injective hxy)
  within y := by
    rw [hg]
    exact h.within (e y)
  covers c ha hb := by
    obtain ⟨x, hx⟩ := h.covers c ha hb
    exact ⟨e.symm x, by rw [hg, e.apply_symm_apply, hx]⟩

theorem Fills.cast {f : α → ℕ} {a b a' b' : ℕ} (h : Fills f a b) (ha : a = a') (hb : b = b') :
    Fills f a' b' := by
  subst ha hb
  exact h

theorem fills_fin (base n : ℕ) : Fills (fun i : Fin n => base + i) base (base + n) where
  le := Nat.le_add_right base n
  injective i j h := Fin.ext (by simpa using h)
  within i := ⟨Nat.le_add_right base i, Nat.add_lt_add_left i.isLt base⟩
  covers c ha hb := ⟨⟨c - base, by omega⟩, by simp only; omega⟩

/-- One number for each position, and what comes after. -/
theorem Fills.after {g : β → ℕ} {a b c n : ℕ} (hg : Fills g b c) (hb : a + n = b) :
    Fills (Sum.elim (fun i : Fin n => a + (i : ℕ)) g) a c :=
  ((fills_fin a n).cast rfl hb).append hg

/-- Blocks of one size. -/
theorem fills_grid (base n d : ℕ) :
    Fills (fun x : Fin n × Fin d => base + d * x.1 + x.2) base (base + d * n) where
  le := Nat.le_add_right base _
  injective := by
    rintro ⟨i, j⟩ ⟨i', j'⟩ h
    simp only at h
    have hj := j.isLt
    have hj' := j'.isLt
    have hi : (i : ℕ) = i' := by
      rcases Nat.lt_trichotomy i i' with hlt | heq | hgt
      · have hmul : d * (i + 1) ≤ d * i' := Nat.mul_le_mul_left d hlt
        rw [Nat.mul_succ] at hmul
        omega
      · exact heq
      · have hmul : d * (i' + 1) ≤ d * i := Nat.mul_le_mul_left d hgt
        rw [Nat.mul_succ] at hmul
        omega
    rw [hi] at h
    exact Prod.ext (Fin.ext hi) (Fin.ext (by simp only; omega))
  within x := by
    have hmul : d * (x.1 + 1) ≤ d * n := Nat.mul_le_mul_left d x.1.isLt
    rw [Nat.mul_succ] at hmul
    have hj := x.2.isLt
    constructor <;> omega
  covers c ha hb := by
    have hd : 0 < d := by
      rcases Nat.eq_zero_or_pos d with rfl | hpos
      · omega
      · exact hpos
    have hdiv := Nat.div_add_mod (c - base) d
    have hmod := Nat.mod_lt (c - base) hd
    have hlt : (c - base) / d < n := by
      rw [Nat.div_lt_iff_lt_mul hd, Nat.mul_comm]
      omega
    exact ⟨(⟨_, hlt⟩, ⟨_, hmod⟩), by simp only; omega⟩

section Sizes

variable {n : ℕ} (base : ℕ) (sizes : Fin n → ℕ)

/-- Where a block starts, after the blocks before it. -/
def startAt (i : ℕ) : ℕ := base + (((List.finRange n).take i).map sizes).sum

theorem startAt_zero : startAt base sizes 0 = base := by simp [startAt]

theorem startAt_succ (i : Fin n) : startAt base sizes (i + 1) = startAt base sizes i + sizes i := by
  have hlt : (i : ℕ) < (List.finRange n).length := by
    rw [List.length_finRange]
    exact i.isLt
  have hget : (List.finRange n)[(i : ℕ)] = i := by simp
  rw [startAt, List.take_succ_eq_append_getElem hlt, hget, List.map_append, List.sum_append]
  simp [startAt, Nat.add_assoc]

theorem startAt_mono {i j : ℕ} (h : i ≤ j) (hj : j ≤ n) :
    startAt base sizes i ≤ startAt base sizes j := by
  induction j with
  | zero =>
    obtain rfl := Nat.le_zero.mp h
    exact le_rfl
  | succ j ih =>
    rcases Nat.lt_or_ge i (j + 1) with hlt | hge
    · have hsucc := startAt_succ base sizes ⟨j, hj⟩
      simp only at hsucc
      have hle := ih (Nat.le_of_lt_succ hlt) (Nat.le_of_succ_le hj)
      omega
    · obtain rfl := Nat.le_antisymm h hge
      exact le_rfl

theorem exists_block {j c : ℕ} (hj : j ≤ n) (ha : base ≤ c) (hc : c < startAt base sizes j) :
    ∃ i : Fin n, (i : ℕ) < j ∧ startAt base sizes i ≤ c ∧ c < startAt base sizes (i + 1) := by
  induction j with
  | zero =>
    rw [startAt_zero] at hc
    omega
  | succ j ih =>
    by_cases hlt : c < startAt base sizes j
    · obtain ⟨i, hi, hstart⟩ := ih (Nat.le_of_succ_le hj) hlt
      exact ⟨i, Nat.lt_succ_of_lt hi, hstart⟩
    · exact ⟨⟨j, hj⟩, Nat.lt_succ_self j, Nat.le_of_not_lt hlt, hc⟩

/-- Blocks of their own sizes. -/
theorem fills_blocks :
    Fills (fun x : (i : Fin n) × Fin (sizes i) => startAt base sizes x.1 + x.2) base
      (startAt base sizes n) where
  le := by
    have hmono := startAt_mono base sizes (Nat.zero_le n) le_rfl
    rwa [startAt_zero] at hmono
  injective := by
    rintro ⟨i, x⟩ ⟨j, y⟩ h
    simp only at h
    have hx := x.isLt
    have hy := y.isLt
    have hi := startAt_succ base sizes i
    have hj := startAt_succ base sizes j
    rcases Nat.lt_trichotomy i j with hlt | heq | hgt
    · have hmono := startAt_mono base sizes (Nat.succ_le_of_lt hlt) j.isLt.le
      rw [Nat.succ_eq_add_one] at hmono
      omega
    · obtain rfl := Fin.ext heq
      obtain rfl : x = y := Fin.ext (by omega)
      rfl
    · have hmono := startAt_mono base sizes (Nat.succ_le_of_lt hgt) i.isLt.le
      rw [Nat.succ_eq_add_one] at hmono
      omega
  within := by
    rintro ⟨i, x⟩
    have hx := x.isLt
    have hi := startAt_succ base sizes i
    have hfirst := startAt_mono base sizes (Nat.zero_le i) i.isLt.le
    have hlast := startAt_mono base sizes (Nat.succ_le_of_lt i.isLt) le_rfl
    rw [startAt_zero] at hfirst
    rw [Nat.succ_eq_add_one] at hlast
    simp only
    constructor <;> omega
  covers := by
    intro c ha hc
    obtain ⟨i, -, hle, hlt⟩ := exists_block base sizes le_rfl ha hc
    rw [startAt_succ] at hlt
    exact ⟨⟨i, ⟨c - startAt base sizes i, by omega⟩⟩, by simp only; omega⟩

end Sizes

end Blocks
