import Tellegen.ConstraintRows
import Tellegen.DcPowerFlow
import Tellegen.Lib.NetworkFlow

/-!
The grounded system in exact arithmetic. It is nonsingular where every island has a reference bus, and its
solution is what the DC OPF has for the same injections.
-/

set_option linter.unusedSectionVars false

open Binary64 Matrix

namespace Triplets

variable {α : Type} {n : ℕ} [CommRing α]

theorem matrix_flatMap {ι : Type} (f : ι → List (Fin n × Fin n × α)) (list : List ι) :
    matrix (list.flatMap f) = (list.map fun a => matrix (f a)).sum := by
  induction list with
  | nil => rfl
  | cons a rest ih => rw [List.flatMap_cons, matrix_append, ih, List.map_cons, List.sum_cons]

theorem matrix_filter (keep : Fin n → Fin n → Bool) (entries : List (Fin n × Fin n × α)) (i j : Fin n) :
    matrix (entries.filter fun (row, column, _) => keep row column) i j =
      if keep i j then matrix entries i j else 0 := by
  induction entries with
  | nil => simp
  | cons entry rest ih =>
    obtain ⟨row, column, w⟩ := entry
    rw [matrix_cons, Matrix.add_apply, List.filter_cons]
    by_cases hkeep : keep row column
    · rw [if_pos hkeep, matrix_cons, Matrix.add_apply, ih]
      by_cases hplace : row = i ∧ column = j
      · obtain ⟨rfl, rfl⟩ := hplace
        rw [if_pos hkeep, if_pos hkeep]
      · rw [Matrix.single_apply, if_neg hplace, zero_add, zero_add]
    · rw [if_neg hkeep, ih]
      by_cases hplace : row = i ∧ column = j
      · obtain ⟨rfl, rfl⟩ := hplace
        rw [if_neg hkeep, if_neg hkeep]
      · rw [Matrix.single_apply, if_neg hplace, zero_add]

theorem single_mulVec_apply (row column : Fin n) (w : α) (x : Fin n → α) (i : Fin n) :
    (Matrix.single row column w *ᵥ x) i = if row = i then w * x column else 0 := by
  by_cases hrow : row = i
  · subst hrow
    simp [Matrix.single_mulVec]
  · simp [Matrix.single_mulVec, hrow, Ne.symm hrow]

theorem mulVec_apply (entries : List (Fin n × Fin n × α)) (x : Fin n → α) (i : Fin n) :
    (matrix entries *ᵥ x) i = (entries.map fun (row, column, w) => if row = i then w * x column else 0).sum := by
  induction entries with
  | nil => simp
  | cons entry rest ih =>
    obtain ⟨row, column, w⟩ := entry
    rw [matrix_cons, Matrix.add_mulVec, Pi.add_apply, ih, List.map_cons, List.sum_cons,
      single_mulVec_apply]

theorem foldl_mulVec (entries : List (Fin n × Fin n × α)) (x b : Fin n → α) :
    entries.foldl (fun total (row, column, w) =>
      Function.update total row (total row + w * x column)) b = b + matrix entries *ᵥ x := by
  induction entries generalizing b with
  | nil => simp
  | cons entry rest ih =>
    obtain ⟨row, column, w⟩ := entry
    have hstep : Function.update b row (b row + w * x column) = b + Matrix.single row column w *ᵥ x := by
      funext k
      rw [Pi.add_apply, single_mulVec_apply]
      by_cases hk : row = k
      · rw [if_pos hk, ← hk, Function.update_self]
      · rw [if_neg hk, Function.update_of_ne (Ne.symm hk), add_zero]
    rw [List.foldl_cons]
    dsimp only
    rw [hstep, ih, matrix_cons, Matrix.add_mulVec, add_assoc]

end Triplets

namespace Tellegen.Dc

open Ac (LinearSolver)
open NetworkFlow (outflow driven Linked)

section Exact

variable [DecimalText ℝ]

/-! ### The susceptance matrix -/

namespace Sums

variable {n : ℕ}

def matrix (acc : Sums ℝ n) : Matrix (Fin n) (Fin n) ℝ := Matrix.of fun i j => (acc (i, j)).getD 0

theorem matrix_add (acc : Sums ℝ n) (i j : Fin n) (w : ℝ) :
    (acc.add i j w).matrix = acc.matrix + Matrix.single i j w := by
  ext row column
  rw [Matrix.add_apply, Matrix.single_apply, matrix, matrix, Matrix.of_apply, Matrix.of_apply, add]
  by_cases hplace : i = row ∧ j = column
  · obtain ⟨rfl, rfl⟩ := hplace
    rw [Function.update_self, if_pos ⟨rfl, rfl⟩, Option.getD_some]
  · have hne : (row, column) ≠ (i, j) := fun h =>
      hplace ⟨(Prod.mk.inj h).1.symm, (Prod.mk.inj h).2.symm⟩
    rw [Function.update_of_ne hne, if_neg hplace, add_zero]

theorem sub_eq_add (acc : Sums ℝ n) (i j : Fin n) (w : ℝ) : acc.sub i j w = acc.add i j (-w) := by
  rw [sub, add, sub_eq_add_neg]

theorem matrix_triplets (acc : Sums ℝ n) : Triplets.matrix acc.triplets = acc.matrix := by
  have hrow : ∀ (row : Fin n) (columns : List (Fin n)),
      Triplets.matrix (columns.filterMap fun column => (acc (row, column)).map fun w => (row, column, w)) =
        (columns.map fun column => Matrix.single row column (acc.matrix row column)).sum := by
    intro row columns
    induction columns with
    | nil => rfl
    | cons column rest ih =>
      rw [List.filterMap_cons, List.map_cons, List.sum_cons, ← ih, matrix, Matrix.of_apply]
      cases acc (row, column) with
      | none =>
        change Triplets.matrix _ = Matrix.single row column 0 + _
        rw [Matrix.single_zero, zero_add]
        rfl
      | some w => exact Triplets.matrix_cons _ _ _ _
  rw [triplets, Triplets.matrix_flatMap]
  simp only [hrow]
  rw [← Fin.sum_univ_def]
  simp only [← Fin.sum_univ_def]
  exact (Matrix.matrix_eq_sum_single acc.matrix).symm

end Sums

section Network

variable (dc : DcNetwork ℝ)

theorem addSusceptance_mulVec (acc : Sums ℝ dc.n) (e : Fin dc.m) (theta : Fin dc.n → ℝ) (i : Fin dc.n) :
    ((addSusceptance dc acc e).matrix *ᵥ theta) i = (acc.matrix *ᵥ theta) i +
      ((if dc.brFrom e = i then driven dc.brFrom dc.brTo weight theta e else 0) -
        if dc.brTo e = i then driven dc.brFrom dc.brTo weight theta e else 0) := by
  rw [addSusceptance, driven]
  change ((if eq (weight e) 0 then acc else _ : Sums ℝ dc.n).matrix *ᵥ theta) i = _
  split
  case isTrue hopen =>
    have hzero : weight e = 0 := of_decide_eq_true hopen
    rw [hzero, zero_mul, ite_self, ite_self, sub_self, add_zero]
  case isFalse =>
    rw [Sums.sub_eq_add, Sums.sub_eq_add, Sums.matrix_add, Sums.matrix_add, Sums.matrix_add, Sums.matrix_add]
    simp only [Matrix.add_mulVec, Pi.add_apply, Triplets.single_mulVec_apply]
    change (acc.matrix *ᵥ theta) i + (if dc.brFrom e = i then weight e * theta (dc.brFrom e) else 0) +
      (if dc.brTo e = i then weight e * theta (dc.brTo e) else 0) +
      (if dc.brFrom e = i then -weight e * theta (dc.brTo e) else 0) +
      (if dc.brTo e = i then -weight e * theta (dc.brFrom e) else 0) = _
    by_cases hfrom : dc.brFrom e = i
    · by_cases hto : dc.brTo e = i
      · simp only [hfrom, hto, if_true]
        ring
      · simp only [hfrom, hto, if_true, if_false]
        ring
    · by_cases hto : dc.brTo e = i
      · simp only [hfrom, hto, if_true, if_false]
        ring
      · simp only [hfrom, hto, if_false]
        ring

theorem susceptanceCoo_mulVec (theta : Fin dc.n → ℝ) :
    Triplets.matrix (susceptanceCoo dc) *ᵥ theta =
      outflow dc.brFrom dc.brTo (driven dc.brFrom dc.brTo weight theta) := by
  funext i
  have hfold : ∀ (branches : List (Fin dc.m)) (acc : Sums ℝ dc.n),
      ((branches.foldl (addSusceptance dc) acc).matrix *ᵥ theta) i = (acc.matrix *ᵥ theta) i +
        (branches.map fun e => (if dc.brFrom e = i then driven dc.brFrom dc.brTo weight theta e else 0) -
          if dc.brTo e = i then driven dc.brFrom dc.brTo weight theta e else 0).sum := by
    intro branches
    induction branches with
    | nil => exact fun acc => (add_zero _).symm
    | cons e rest ih =>
      intro acc
      rw [List.foldl_cons, ih, addSusceptance_mulVec, List.map_cons, List.sum_cons, add_assoc]
  have hempty : Sums.matrix (fun _ => none : Sums ℝ dc.n) = 0 := rfl
  rw [susceptanceCoo, Sums.matrix_triplets, hfold, hempty, Matrix.zero_mulVec, Pi.zero_apply, zero_add,
    outflow, Fin.sum_univ_def]

end Network

/-! ### The grounded system -/

section Grounded

variable (dc : GroundedNetwork ℝ)

theorem reference_iff {i : Fin dc.n} : reference dc i = true ↔ i ∈ dc.refBuses := List.contains_iff_mem

noncomputable def drivenOut (theta : Fin dc.n → ℝ) : Fin dc.n → ℝ :=
  outflow dc.brFrom dc.brTo (driven dc.brFrom dc.brTo weight theta)

theorem refTriplets_mulVec (theta : Fin dc.n → ℝ) (i : Fin dc.n) :
    (Triplets.matrix (dc.refBuses.map fun r => (r, r, (1 : ℝ))) *ᵥ theta) i =
      dc.refBuses.count i * theta i := by
  rw [Triplets.mulVec_apply, List.map_map]
  change (dc.refBuses.map fun r => if r = i then 1 * theta r else 0).sum = _
  induction dc.refBuses with
  | nil => simp
  | cons r rest ih =>
    rw [List.map_cons, List.sum_cons, ih, List.count_cons]
    by_cases hr : r = i
    · subst hr
      rw [if_pos rfl, if_pos (beq_self_eq_true r), Nat.cast_add, Nat.cast_one]
      ring
    · rw [if_neg hr, if_neg (by simpa using hr), zero_add, Nat.add_zero]

theorem mulVec_reference (injection theta : Fin dc.n → ℝ) {i : Fin dc.n} (hi : i ∈ dc.refBuses) :
    (Triplets.matrix (assemblePf dc injection).triplets *ᵥ theta) i = dc.refBuses.count i * theta i := by
  rw [assemblePf, Triplets.matrix_append, Matrix.add_mulVec, Pi.add_apply, refTriplets_mulVec]
  have hrow : ∀ j, Triplets.matrix ((susceptanceCoo dc.toDcNetwork).filter fun (row, column, _) =>
      !(reference dc row || reference dc column)) i j = 0 := by
    intro j
    rw [Triplets.matrix_filter fun row column => !(reference dc row || reference dc column),
      (reference_iff dc).mpr hi]
    rfl
  rw [Matrix.mulVec, dotProduct, Finset.sum_eq_zero fun j _ => by rw [hrow, zero_mul], zero_add]

theorem mulVec_balance (injection : Fin dc.n → ℝ) {theta : Fin dc.n → ℝ}
    (hzero : ∀ r ∈ dc.refBuses, theta r = 0) {i : Fin dc.n} (hi : i ∉ dc.refBuses) :
    (Triplets.matrix (assemblePf dc injection).triplets *ᵥ theta) i = drivenOut dc theta i := by
  rw [assemblePf, Triplets.matrix_append, Matrix.add_mulVec, Pi.add_apply, refTriplets_mulVec,
    List.count_eq_zero_of_not_mem hi, Nat.cast_zero, zero_mul, add_zero, drivenOut,
    ← susceptanceCoo_mulVec, Matrix.mulVec, Matrix.mulVec, dotProduct, dotProduct]
  apply Finset.sum_congr rfl
  intro j _
  rw [Triplets.matrix_filter fun row column => !(reference dc row || reference dc column)]
  by_cases hj : j ∈ dc.refBuses
  · rw [hzero j hj, mul_zero, mul_zero]
  · have hkeep : (!(reference dc i || reference dc j)) = true := by
      rw [Bool.not_eq_true', Bool.or_eq_false_iff, ← Bool.not_eq_true, ← Bool.not_eq_true,
        reference_iff, reference_iff]
      exact ⟨hi, hj⟩
    rw [if_pos hkeep]

theorem solves_iff (injection theta : Fin dc.n → ℝ) {b : Fin dc.n → ℝ} (hb : ∀ r ∈ dc.refBuses, b r = 0) :
    Triplets.matrix (assemblePf dc injection).triplets *ᵥ theta = b ↔
      (∀ r ∈ dc.refBuses, theta r = 0) ∧ ∀ i ∉ dc.refBuses, drivenOut dc theta i = b i := by
  constructor
  · intro h
    have hzero : ∀ r ∈ dc.refBuses, theta r = 0 := by
      intro r hr
      have hrow := congrFun h r
      rw [mulVec_reference dc injection theta hr, hb r hr, mul_eq_zero] at hrow
      have hcount : (dc.refBuses.count r : ℝ) ≠ 0 :=
        Nat.cast_ne_zero.mpr (List.count_pos_iff.mpr hr).ne'
      exact hrow.resolve_left hcount
    exact ⟨hzero, fun i hi => (mulVec_balance dc injection hzero hi).symm.trans (congrFun h i)⟩
  · rintro ⟨hzero, hbalance⟩
    funext i
    by_cases hi : i ∈ dc.refBuses
    · rw [mulVec_reference dc injection theta hi, hzero i hi, mul_zero, hb i hi]
    · rw [mulVec_balance dc injection hzero hi, hbalance i hi]

/-- No branch has a negative weight, and branches of positive weight join each bus to a reference. -/
structure Anchored : Prop where
  weights : ∀ e : Fin dc.m, 0 ≤ weight e
  anchored : ∀ i : Fin dc.n, ∃ r ∈ dc.refBuses, Linked dc.brFrom dc.brTo weight i r

variable {dc}

theorem Anchored.det_ne_zero (h : Anchored dc) (injection : Fin dc.n → ℝ) :
    (Triplets.matrix (assemblePf dc injection).triplets).det ≠ 0 := by
  intro hdet
  obtain ⟨theta, hne, hkernel⟩ := Matrix.exists_mulVec_eq_zero_iff.mpr hdet
  obtain ⟨hzero, hbalance⟩ := (solves_iff dc injection theta (b := 0) fun _ _ => rfl).mp hkernel
  apply hne
  funext i
  obtain ⟨r, hr, hlinked⟩ := h.anchored i
  exact NetworkFlow.eq_zero_of_grounded h.weights hzero hbalance hr hlinked

theorem Anchored.unique (h : Anchored dc) (injection : Fin dc.n → ℝ) {theta theta' : Fin dc.n → ℝ}
    (hsame : Triplets.matrix (assemblePf dc injection).triplets *ᵥ theta =
      Triplets.matrix (assemblePf dc injection).triplets *ᵥ theta') : theta = theta' := by
  have hunit : IsUnit (Triplets.matrix (assemblePf dc injection).triplets).det :=
    isUnit_iff_ne_zero.mpr (h.det_ne_zero injection)
  exact Matrix.mulVec_injective_of_isUnit ((Matrix.isUnit_iff_isUnit_det _).mpr hunit) hsame

/-! ### The solution -/

/-- The solver returns the solution of a nonsingular system. -/
structure ExactSolver [LinearSolver ℝ] : Prop where
  solves : ∀ {n : ℕ} (entries : List (Fin n × Fin n × ℝ)) (b : Fin n → ℝ),
    (Triplets.matrix entries).det ≠ 0 → ∃ x : ℕ → ℝ,
      LinearSolver.solveSparse n (entries.map fun (row, column, w) => (row.val, column.val, w))
        (List.ofFn b) = .ok x ∧ Triplets.matrix entries *ᵥ (fun i => x i) = b

/-- What the network takes at a bus under given flows: the shunt less the HVDC injection, and what leaves on
the branches. -/
noncomputable def withdrawal (f : Fin dc.m → ℝ) (i : Fin dc.n) : ℝ :=
  dc.shuntConductance i - dc.hvdcInjection i + outflow dc.brFrom dc.brTo f i

/-- A solution of the power flow: grounded, balanced off the references, and closed there by the slack. -/
structure Carries (injection : Fin dc.n → ℝ) (sol : DcPfSolution dc.n dc.m ℝ) : Prop where
  grounded : ∀ r ∈ dc.refBuses, sol.va r = 0
  balance : ∀ i ∉ dc.refBuses, injection i = withdrawal sol.f i
  slack : sol.refInjections = dc.refBuses.map (withdrawal sol.f)

/-- An optimal power flow reproduced: the angles and flows of a point. -/
structure Reproduces (sol : DcPfSolution dc.n dc.m ℝ) (x : Column dc.toDcNetwork → ℝ) : Prop where
  va : ∀ i, sol.va i = x (.va i)
  f : ∀ e, sol.f e = x (.f e)

/-- What a point of the OPF injects: its dispatch and shedding less the demand. -/
noncomputable def dispatched (x : Column dc.toDcNetwork → ℝ) (i : Fin dc.n) : ℝ :=
  generationAt x i + shed x i - dc.demand i

theorem withdrawal_branchFlow (theta : Fin dc.n → ℝ) (i : Fin dc.n) :
    withdrawal (branchFlow dc theta) i = networkWithdrawal dc.toDcNetwork i + drivenOut dc theta i := by
  have hflow : branchFlow dc theta = fun e =>
      driven dc.brFrom dc.brTo weight theta e + currentFlowOffset dc.toDcNetwork e := rfl
  rw [withdrawal, hflow, NetworkFlow.outflow_add, networkWithdrawal, phaseWithdrawal_eq, drivenOut]
  change _ + (_ + ∑ e, _) = _
  ring

theorem readDcPf_slack (theta : Fin dc.n → ℝ) :
    (readDcPf dc theta).refInjections = dc.refBuses.map (withdrawal (branchFlow dc theta)) := by
  rw [readDcPf]
  apply List.map_congr_left
  intro r _
  rw [withdrawal_branchFlow, drivenOut, ← susceptanceCoo_mulVec, Triplets.foldl_mulVec, Pi.add_apply]

theorem assemblePf_rhs_reference (injection : Fin dc.n → ℝ) {r : Fin dc.n} (hr : r ∈ dc.refBuses) :
    (assemblePf dc injection).rhs r = 0 := if_pos ((reference_iff dc).mpr hr)

theorem assemblePf_rhs (injection : Fin dc.n → ℝ) {i : Fin dc.n} (hi : i ∉ dc.refBuses) :
    (assemblePf dc injection).rhs i = injection i - networkWithdrawal dc.toDcNetwork i :=
  if_neg fun h => hi ((reference_iff dc).mp h)

theorem solves_of_balanced {rows : List (LinearRow ℝ dc.m dc.k)} {x : Column dc.toDcNetwork → ℝ}
    (hx : Balanced dc.toDcNetwork rows x) (hzero : ∀ r ∈ dc.refBuses, x (.va r) = 0) :
    Triplets.matrix (assemblePf dc (dispatched x)).triplets *ᵥ (fun i => x (.va i)) =
      (assemblePf dc (dispatched x)).rhs := by
  apply (solves_iff dc _ _ fun r hr => assemblePf_rhs_reference _ hr).mpr
  refine ⟨hzero, fun i hi => ?_⟩
  have hflow : ∀ e, branchFlow dc (fun i => x (.va i)) e = x (.f e) := by
    intro e
    have hrow := hx.flow e _ (rhs_flow_mem rows e)
    rw [rowSum_programEntries x (flow_ne_linear e), rowSum_flow] at hrow
    rw [branchFlow]
    change weight e * _ + _ = _
    linarith
  have hleaving := leaving_eq x hx i
  have hwithdrawal := withdrawal_branchFlow (fun i => x (.va i)) i
  rw [funext hflow, withdrawal] at hwithdrawal
  change leaving x i = _ at hleaving
  have hout : outflow dc.brFrom dc.brTo (fun e => x (.f e)) i = leaving x i := rfl
  rw [hout] at hwithdrawal
  rw [assemblePf_rhs _ hi, dispatched]
  rw [busInjection, surplus] at hleaving
  linarith

/-- DC power flow under an exact solver: the system is nonsingular, its solution carries the injections, and a
point of the OPF with grounded angles comes back from its own dispatch, shedding and demand. It is a result in
exact arithmetic; nothing is said about the rounding of a factorization in floats, nor about a network in which
an island has no grounded bus. -/
theorem dcPf_carries [LinearSolver ℝ] (hexact : ExactSolver) (h : Anchored dc) {injection : List ℝ}
    (hlength : injection.length = dc.n) :
    (Triplets.matrix (assemblePf dc fun i => injection.getD i 0).triplets).det ≠ 0 ∧
      ∃ sol, dcPf dc injection = .ok sol ∧ Carries (fun i => injection.getD i 0) sol ∧
        ∀ rows x, Balanced dc.toDcNetwork rows x → (∀ r ∈ dc.refBuses, x (.va r) = 0) →
          (∀ i : Fin dc.n, injection.getD i 0 = dispatched x i) → Reproduces sol x := by
  set given : Fin dc.n → ℝ := fun i => injection.getD i 0
  have hdet := h.det_ne_zero given
  obtain ⟨theta, hsolve, hsystem⟩ := hexact.solves (assemblePf dc given).triplets (assemblePf dc given).rhs hdet
  have hsol : dcPf dc injection = .ok (readDcPf dc fun i => theta i) := by
    rw [dcPf, if_neg (not_not.mpr hlength)]
    dsimp only
    rw [hsolve]
  obtain ⟨hzero, hbalance⟩ := (solves_iff dc given _ fun r hr => assemblePf_rhs_reference given hr).mp hsystem
  refine ⟨hdet, _, hsol, ?_, ?_⟩
  · constructor
    case grounded => exact hzero
    case balance =>
      intro i hi
      have hrow := hbalance i hi
      rw [assemblePf_rhs given hi] at hrow
      have hwithdrawal := withdrawal_branchFlow (fun i : Fin dc.n => theta i) i
      change given i = withdrawal (branchFlow dc fun i => theta i) i
      linarith
    case slack => exact readDcPf_slack _
  · intro rows x hx hgrounded hdispatch
    have hgiven : given = dispatched x := funext hdispatch
    have hpoint := solves_of_balanced hx hgrounded
    rw [← hgiven] at hpoint
    have hva := h.unique given (hsystem.trans hpoint.symm)
    constructor
    case va => exact fun i => congrFun hva i
    case f =>
      intro e
      have hrow := hx.flow e _ (rhs_flow_mem rows e)
      rw [rowSum_programEntries x (flow_ne_linear e), rowSum_flow] at hrow
      change weight e * (theta (dc.brFrom e) - theta (dc.brTo e)) + currentFlowOffset dc.toDcNetwork e = _
      have hfrom : theta (dc.brFrom e) = x (.va (dc.brFrom e)) := congrFun hva (dc.brFrom e)
      have hto : theta (dc.brTo e) = x (.va (dc.brTo e)) := congrFun hva (dc.brTo e)
      rw [hfrom, hto]
      linarith

end Grounded

end Exact

section Solver

open Classical

/-- The rows of a system at a vector. -/
def SolvesRows (dim : ℕ) (triplets : List (ℕ × ℕ × ℝ)) (rhs : List ℝ) (x : ℕ → ℝ) : Prop :=
  ∀ i < dim, (triplets.map fun (row, column, w) => if row = i then w * x column else 0).sum = rhs.getD i 0

/-- A solver that returns a solution where there is one. -/
@[reducible] noncomputable local instance solutionSolver : LinearSolver ℝ where
  solveSparse dim triplets rhs :=
    if h : ∃ x, SolvesRows dim triplets rhs x then .ok h.choose else .error "sparse LU failed"

theorem solvesRows_iff {n : ℕ} (entries : List (Fin n × Fin n × ℝ)) (b : Fin n → ℝ) (x : ℕ → ℝ) :
    SolvesRows n (entries.map fun (row, column, w) => (row.val, column.val, w)) (List.ofFn b) x ↔
      Triplets.matrix entries *ᵥ (fun i => x i) = b := by
  have hrow : ∀ i : Fin n, ((entries.map fun (row, column, w) => (row.val, column.val, w)).map
      fun (row, column, w) => if row = i.val then w * x column else 0).sum =
      (Triplets.matrix entries *ᵥ (fun i => x i)) i := by
    intro i
    rw [Triplets.mulVec_apply, List.map_map]
    congr 1
    apply List.map_congr_left
    intro entry _
    simp only [Function.comp_apply, Fin.ext_iff]
  have hrhs : ∀ i : Fin n, (List.ofFn b).getD i 0 = b i := by
    intro i
    rw [List.getD_eq_getElem?_getD, List.getElem?_ofFn, dif_pos i.isLt, Option.getD_some]
  constructor
  · intro h
    funext i
    rw [← hrow, h i i.isLt, hrhs]
  · intro h i hi
    exact (hrow ⟨i, hi⟩).trans ((congrFun h ⟨i, hi⟩).trans (hrhs ⟨i, hi⟩).symm)

theorem solutionSolver_exact [DecimalText ℝ] : ExactSolver := by
  constructor
  intro n entries b hdet
  have hunit : IsUnit (Triplets.matrix entries).det := isUnit_iff_ne_zero.mpr hdet
  have hsolution : Triplets.matrix entries *ᵥ ((Triplets.matrix entries)⁻¹ *ᵥ b) = b := by
    rw [Matrix.mulVec_mulVec, Matrix.mul_nonsing_inv _ hunit, Matrix.one_mulVec]
  have hexists : ∃ x, SolvesRows n (entries.map fun (row, column, w) => (row.val, column.val, w))
      (List.ofFn b) x := by
    refine ⟨fun i => if h : i < n then ((Triplets.matrix entries)⁻¹ *ᵥ b) ⟨i, h⟩ else 0, ?_⟩
    rw [solvesRows_iff]
    simp only [Fin.is_lt, dite_true, Fin.eta]
    exact hsolution
  exact ⟨hexists.choose, dif_pos hexists, (solvesRows_iff entries b _).mp hexists.choose_spec⟩

end Solver

namespace Sample

attribute [local instance] constraintText

/-- The line and the HVDC line, with bus 2 as the reference. -/
@[reducible] noncomputable def groundedBuses : GroundedNetwork ℝ :=
  { twoBuses with refBuses := [(1 : Fin 2)] }

theorem anchored_groundedBuses : Anchored groundedBuses := by
  have hweight : ∀ e : Fin 1, @weight twoBuses e = 1 := by
    intro e
    simp [weight]
  constructor
  case weights =>
    intro e
    exact (hweight e).symm ▸ zero_le_one
  case anchored =>
    intro i
    refine ⟨(1 : Fin 2), List.mem_singleton_self _, ?_⟩
    fin_cases i
    · exact Relation.EqvGen.rel _ _ ⟨(0 : Fin 1), (hweight 0).symm ▸ one_pos, rfl, rfl⟩
    · exact Relation.EqvGen.refl _

theorem dispatched_point (i : Fin 2) : @dispatched _ groundedBuses point i = 0 := by
  have hshed : @shed _ twoBuses point i = 0 := by simp [shed, sheddable, shedCap, Binary64.lt]
  have hgeneration : @generationAt twoBuses point i = 0 := by simp [generationAt]
  have hdemand : twoBuses.demand i = 0 := rfl
  rw [dispatched, hgeneration, hshed, hdemand]
  norm_num

/-- The point with one unit on the line comes back from injections that are all zero. -/
theorem dcPf_carries_point : ∃ sol : DcPfSolution 2 1 ℝ,
    @dcPf ℝ _ groundedBuses solutionSolver [0, 0] = .ok sol ∧ @Reproduces groundedBuses sol point := by
  obtain ⟨-, sol, hsol, -, hpoint⟩ := @dcPf_carries _ groundedBuses solutionSolver solutionSolver_exact
    anchored_groundedBuses [0, 0] rfl
  refine ⟨sol, hsol, hpoint [bandRow] point point_balanced ?_ ?_⟩
  · intro r hr
    rw [List.mem_singleton.mp hr]
    rfl
  · intro i
    refine Eq.trans ?_ (dispatched_point i).symm
    match i with
    | ⟨0, _⟩ => rfl
    | ⟨1, _⟩ => rfl

end Sample

end Tellegen.Dc
