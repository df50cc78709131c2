import Mathlib.LinearAlgebra.Matrix.NonsingularInverse
import Tellegen.Lib.Binary64

/-!
Matrices and vectors as lists of entries. Entries at one place add up. A system
and its transpose answer the same question: a functional of a solution is the
right-hand side seen through a solution of the transposed system.
-/

open Matrix

namespace Triplets

variable {α : Type} {n : ℕ}

/-- Entries added to a vector of zeros one after another. -/
def gather [Zero α] [Add α] (entries : List (Fin n × α)) : Fin n → α :=
  entries.foldl (fun total (i, w) => Function.update total i (total i + w)) 0

/-- The sum of weight times value over a list of entries. -/
def contract [Zero α] [Add α] [Mul α] (entries : List (Fin n × α)) (x : Fin n → α) : α :=
  entries.foldl (fun total (i, w) => total + w * x i) 0

def residual [Sub α] [Mul α] (entries : List (Fin n × Fin n × α)) (x b : Fin n → α) : Fin n → α :=
  entries.foldl (fun r (i, j, w) => Function.update r i (r i - w * x j)) b

def transpose (entries : List (Fin n × Fin n × α)) : List (Fin n × Fin n × α) :=
  entries.map fun (i, j, w) => (j, i, w)

section Ring

variable [CommRing α]

def matrix (entries : List (Fin n × Fin n × α)) : Matrix (Fin n) (Fin n) α :=
  (entries.map fun (i, j, w) => Matrix.single i j w).sum

@[simp] theorem matrix_nil : matrix ([] : List (Fin n × Fin n × α)) = 0 := rfl

@[simp] theorem matrix_cons (i j : Fin n) (w : α) (rest : List (Fin n × Fin n × α)) :
    matrix ((i, j, w) :: rest) = Matrix.single i j w + matrix rest := by
  simp [matrix]

theorem matrix_append (first second : List (Fin n × Fin n × α)) :
    matrix (first ++ second) = matrix first + matrix second := by
  simp [matrix]

theorem matrix_transpose (entries : List (Fin n × Fin n × α)) :
    matrix (transpose entries) = (matrix entries)ᵀ := by
  induction entries with
  | nil => simp [transpose]
  | cons entry rest ih =>
    obtain ⟨i, j, w⟩ := entry
    change matrix ((j, i, w) :: transpose rest) = _
    rw [matrix_cons, matrix_cons, ih, Matrix.transpose_add, Matrix.transpose_single]

theorem foldl_gather (entries : List (Fin n × α)) (start : Fin n → α) :
    entries.foldl (fun total (i, w) => Function.update total i (total i + w)) start =
      start + gather entries := by
  induction entries generalizing start with
  | nil => simp [gather]
  | cons entry rest ih =>
    obtain ⟨i, w⟩ := entry
    have hstep : ∀ v : Fin n → α, Function.update v i (v i + w) = v + Pi.single i w := by
      intro v
      funext k
      by_cases hk : k = i
      · subst hk
        simp
      · simp [hk]
    rw [gather, List.foldl_cons, List.foldl_cons, ih, ih]
    simp only [hstep]
    rw [zero_add, add_assoc]

theorem gather_cons (i : Fin n) (w : α) (rest : List (Fin n × α)) :
    gather ((i, w) :: rest) = Pi.single i w + gather rest := by
  rw [gather, List.foldl_cons, foldl_gather]
  congr 1
  funext k
  by_cases hk : k = i
  · subst hk
    simp
  · simp [hk]

theorem gather_append (first second : List (Fin n × α)) :
    gather (first ++ second) = gather first + gather second := by
  rw [gather, List.foldl_append, foldl_gather, foldl_gather]
  simp

theorem contract_eq (entries : List (Fin n × α)) (x : Fin n → α) :
    contract entries x = gather entries ⬝ᵥ x := by
  have hfold : ∀ start : α,
      entries.foldl (fun total (i, w) => total + w * x i) start = start + gather entries ⬝ᵥ x := by
    induction entries with
    | nil => simp [gather]
    | cons entry rest ih =>
      obtain ⟨i, w⟩ := entry
      intro start
      rw [List.foldl_cons, ih, gather_cons, add_dotProduct, single_dotProduct, add_assoc]
  rw [contract, hfold, zero_add]

/-- The values of a vector that are not zero carry all of it. -/
theorem gather_nonzero (keep : Fin n → Bool) (v : Fin n → α)
    (hkeep : ∀ i, keep i = false → v i = 0) :
    gather ((List.finRange n).filterMap fun i => if keep i then some (i, v i) else none) = v := by
  have hgather : ∀ l : List (Fin n), l.Nodup → ∀ k,
      gather (l.filterMap fun i => if keep i then some (i, v i) else none) k =
        if k ∈ l then v k else 0 := by
    intro l
    induction l with
    | nil => simp [gather]
    | cons i rest ih =>
      intro hnodup k
      obtain ⟨hnotin, hrest⟩ := List.nodup_cons.mp hnodup
      rw [List.filterMap_cons]
      by_cases hi : keep i
      · simp only [hi, if_true]
        rw [gather_cons, Pi.add_apply, ih hrest]
        by_cases hk : k = i
        · subst hk
          simp [hnotin]
        · simp [hk]
      · simp only [hi]
        rw [if_neg (by simp), ih hrest]
        by_cases hk : k = i
        · subst hk
          simp [hnotin, hkeep k (by simpa using hi)]
        · simp [hk]
  funext k
  rw [hgather _ (List.nodup_finRange n)]
  simp

theorem residual_eq (entries : List (Fin n × Fin n × α)) (x b : Fin n → α) :
    residual entries x b = b - matrix entries *ᵥ x := by
  induction entries generalizing b with
  | nil => simp [residual]
  | cons entry rest ih =>
    obtain ⟨i, j, w⟩ := entry
    have hstep : Function.update b i (b i - w * x j) = b - Matrix.single i j w *ᵥ x := by
      funext k
      by_cases hk : k = i
      · subst hk
        simp [Matrix.single_mulVec]
      · simp [Matrix.single_mulVec, hk]
    rw [residual, List.foldl_cons]
    change residual rest x (Function.update b i (b i - w * x j)) = _
    rw [ih, hstep, matrix_cons, Matrix.add_mulVec, sub_sub]

/-- A functional of a solution is the right-hand side seen by the adjoint solution. -/
theorem functional_eq_adjoint {A : Matrix (Fin n) (Fin n) α} {x y b s : Fin n → α}
    (hx : A *ᵥ x = b) (hy : Aᵀ *ᵥ y = s) : s ⬝ᵥ x = y ⬝ᵥ b := by
  rw [← hx, ← hy, Matrix.mulVec_transpose, Matrix.dotProduct_mulVec]

/-- Adding what solves the residual solves the system again. -/
theorem solves_refined {A : Matrix (Fin n) (Fin n) α} {x d b : Fin n → α}
    (hd : A *ᵥ d = b - A *ᵥ x) : A *ᵥ (x + d) = b := by
  rw [Matrix.mulVec_add, hd]
  abel

end Ring

end Triplets
