import Mathlib.Analysis.InnerProductSpace.PiL2
import Tellegen.Lib.Orthogonalization
import Tellegen.RankAccounts

/-!
A rank audit in exact arithmetic, as an orthogonalization by pivots. The rows are the residuals of the normalized
rows it was given, so its pivots are orthonormal, every row is within the tolerance of their span when the
audit is over, and their number bounds the rank.
-/

set_option linter.unusedSectionVars false

open Binary64 hiding max min
open Guarantee Orthogonalization

namespace Tellegen.McOpf

variable [DecimalText ℝ]

namespace SparseRow

/-! ### Rows as vectors -/

/-- The columns of a row are below `n`. -/
def Below (n : ℕ) (row : SparseRow ℝ) : Prop := ∀ c ∈ row.columns, c < n

theorem get_eq (row : SparseRow ℝ) (c : ℕ) : row.get c = if c ∈ row.columns then row.value c else 0 := by
  rw [get, get?]
  split
  case isTrue => rfl
  case isFalse => rfl

theorem get_of_notMem {row : SparseRow ℝ} {c : ℕ} (h : c ∉ row.columns) : row.get c = 0 := by
  rw [get_eq, if_neg h]

theorem get_of_mem {row : SparseRow ℝ} {c : ℕ} (h : c ∈ row.columns) : row.get c = row.value c := by
  rw [get_eq, if_pos h]

theorem get_divide (row : SparseRow ℝ) (x : ℝ) (c : ℕ) : (row.divide x).get c = row.get c / x := by
  rw [get_eq, get_eq, divide]
  dsimp only
  split
  case isTrue => rfl
  case isFalse => rw [zero_div]

/-- The coefficients of a row, with zeros in the columns it leaves out. -/
noncomputable def vec (n : ℕ) (row : SparseRow ℝ) : EuclideanSpace ℝ (Fin n) :=
  WithLp.toLp 2 fun c => row.get c

variable {n : ℕ}

theorem vec_apply (row : SparseRow ℝ) (c : Fin n) : row.vec n c = row.get c := rfl

theorem vec_empty : (empty : SparseRow ℝ).vec n = 0 := by
  ext c
  rw [vec_apply, get_of_notMem (Finset.notMem_empty _)]
  rfl

theorem vec_divide (row : SparseRow ℝ) (x : ℝ) : (row.divide x).vec n = x⁻¹ • row.vec n := by
  ext c
  rw [PiLp.smul_apply, vec_apply, vec_apply, get_divide, smul_eq_mul, div_eq_inv_mul]

theorem sum_sort (columns : Finset ℕ) (f : ℕ → ℝ) :
    Binary64.sum ((columns.sort fun a b => a ≤ b).map f) = ∑ c ∈ columns, f c := by
  rw [sum_real, ← List.sum_toFinset f (Finset.sort_nodup _ _), Finset.sort_toFinset]

theorem sum_columns {columns : Finset ℕ} (hbelow : ∀ c ∈ columns, c < n) {f : ℕ → ℝ}
    (hzero : ∀ c, c ∉ columns → f c = 0) : ∑ c ∈ columns, f c = ∑ c : Fin n, f c := by
  rw [← Finset.sum_range]
  apply Finset.sum_subset
  · exact fun c hc => Finset.mem_range.mpr (hbelow c hc)
  · exact fun c _ hc => hzero c hc

theorem dot_eq {a b : SparseRow ℝ} (ha : Below n a) (hb : Below n b) :
    a.dot b = inner ℝ (a.vec n) (b.vec n) := by
  have hinner : inner ℝ (a.vec n) (b.vec n) = ∑ c : Fin n, a.get c * b.get c := by
    rw [PiLp.inner_apply]
    apply Finset.sum_congr rfl
    intro c _
    rw [vec_apply, vec_apply, RCLike.inner_apply, conj_trivial, mul_comm]
  have hshort : ∀ {short long : SparseRow ℝ}, Below n short →
      Binary64.sum ((short.columns.sort fun a b => a ≤ b).map fun c => short.value c * long.get c) =
        ∑ c : Fin n, short.get c * long.get c := by
    intro short long hbelow
    rw [sum_sort, ← sum_columns hbelow (f := fun c => short.get c * long.get c)]
    · apply Finset.sum_congr rfl
      intro c hc
      rw [get_of_mem hc]
    · intro c hc
      rw [get_of_notMem hc, zero_mul]
  rw [hinner, dot]
  by_cases hlen : a.len < b.len
  · rw [if_pos hlen]
    exact hshort ha
  · rw [if_neg hlen]
    dsimp only
    rw [hshort hb]
    apply Finset.sum_congr rfl
    intro c _
    rw [mul_comm]

theorem foldl_hypot (l : List ℝ) {a : ℝ} (ha : 0 ≤ a) :
    l.foldl Libm.hypot a = Real.sqrt (a * a + (l.map fun x => x * x).sum) := by
  induction l generalizing a with
  | nil => rw [List.foldl_nil, List.map_nil, List.sum_nil, add_zero, Real.sqrt_mul_self ha]
  | cons x l ih =>
    have hstep : Libm.hypot a x = Real.sqrt (a * a + x * x) := rfl
    have hnonneg : 0 ≤ a * a + x * x := add_nonneg (mul_self_nonneg a) (mul_self_nonneg x)
    rw [List.foldl_cons, hstep, ih (Real.sqrt_nonneg _), Real.mul_self_sqrt hnonneg, List.map_cons,
      List.sum_cons, add_assoc]

theorem norm_eq {row : SparseRow ℝ} (hbelow : Below n row) : row.norm = ‖row.vec n‖ := by
  have hsum : (row.values.map fun x => x * x).sum = ∑ c : Fin n, row.get c * row.get c := by
    rw [values, List.map_map, ← sum_real]
    change Binary64.sum ((row.columns.sort fun a b => a ≤ b).map fun c => row.value c * row.value c) = _
    rw [sum_sort, ← sum_columns hbelow (f := fun c => row.get c * row.get c)]
    · apply Finset.sum_congr rfl
      intro c hc
      rw [get_of_mem hc]
    · intro c hc
      rw [get_of_notMem hc, zero_mul]
  rw [norm, foldl_hypot _ (le_refl 0), mul_zero, zero_add, hsum, EuclideanSpace.norm_eq]
  congr 1
  apply Finset.sum_congr rfl
  intro c _
  rw [vec_apply, Real.norm_eq_abs, sq_abs, pow_two]

theorem inner_eq_zero {a b : SparseRow ℝ} (h : ∀ c ∈ b.columns, c ∉ a.columns) :
    inner ℝ (a.vec n) (b.vec n) = (0 : ℝ) := by
  rw [PiLp.inner_apply]
  apply Finset.sum_eq_zero
  intro c _
  rw [vec_apply, vec_apply, RCLike.inner_apply, conj_trivial, mul_comm]
  by_cases hc : (c : ℕ) ∈ b.columns
  · rw [get_of_notMem (h c hc), zero_mul]
  · rw [get_of_notMem hc, mul_zero]

end SparseRow

namespace RankState

variable {n i : ℕ} {s s' : RankState ℝ} {basis : SparseRow ℝ}

/-! ### One row -/

/-- Work on one row leaves the other rows, the norms, the queues and the pivots. -/
structure Aside (i : ℕ) (s s' : RankState ℝ) : Prop where
  rows : ∀ j, j ≠ i → s'.rows j = s.rows j
  norms : s'.norms = s.norms
  queue : s'.queue = s.queue
  sparsity : s'.sparsity = s.sparsity
  pivots : s'.pivots = s.pivots
  accepted : s'.d.acceptedPivots = s.d.acceptedPivots
  tolerance : s'.d.tolerance = s.d.tolerance

theorem Aside.refl (i : ℕ) (s : RankState ℝ) : Aside i s s :=
  ⟨fun _ _ => rfl, rfl, rfl, rfl, rfl, rfl, rfl⟩

theorem Aside.trans {s'' : RankState ℝ} (h : Aside i s s') (h' : Aside i s' s'') : Aside i s s'' := by
  constructor
  case rows =>
    intro j hj
    rw [h'.rows j hj, h.rows j hj]
  case norms => rw [h'.norms, h.norms]
  case queue => rw [h'.queue, h.queue]
  case sparsity => rw [h'.sparsity, h.sparsity]
  case pivots => rw [h'.pivots, h.pivots]
  case accepted => rw [h'.accepted, h.accepted]
  case tolerance => rw [h'.tolerance, h.tolerance]

theorem Charged.aside (h : Charged s s') (i : ℕ) : Aside i s s' := by
  obtain ⟨work, rfl⟩ := h
  exact ⟨fun _ _ => rfl, rfl, rfl, rfl, rfl, rfl, rfl⟩

theorem charge_any (s : RankState ℝ) (work : ℕ) :
    Guarantees (Charged s) (fun _ => True) (s.charge work) :=
  guarantees_of_ok fun _ h => charge_charged h

theorem release_any (s : RankState ℝ) (count : ℕ) :
    Guarantees (fun s' => s' = { s with live := s.live - count }) (fun _ => True) (s.release count) := by
  rw [release]
  split
  · exact trivial
  · exact rfl

theorem aside_setRow (s : RankState ℝ) (i : ℕ) (row : SparseRow ℝ) : Aside i s (s.setRow i row) := by
  refine ⟨?_, rfl, rfl, rfl, rfl, rfl, rfl⟩
  intro j hj
  exact Function.update_of_ne hj _ _

theorem setRow_self (s : RankState ℝ) (i : ℕ) (row : SparseRow ℝ) : (s.setRow i row).rows i = row :=
  Function.update_self ..

/-- What the passes over one row leave of it, when the columns `done` have been visited. -/
structure Subtracted (basis : SparseRow ℝ) (i : ℕ) (dot : ℝ) (s : RankState ℝ) (done : List ℕ)
    (s' : RankState ℝ) : Prop where
  aside : Aside i s s'
  coefficient : ∀ c, (s'.rows i).get c = (s.rows i).get c - if c ∈ done then dot * basis.value c else 0
  columns : ∀ c ∈ (s'.rows i).columns, c ∈ (s.rows i).columns ∨ c ∈ done

theorem subtracted_nil (basis : SparseRow ℝ) (i : ℕ) (dot : ℝ) (s : RankState ℝ) :
    Subtracted basis i dot s [] s := by
  constructor
  case aside => exact Aside.refl i s
  case coefficient =>
    intro c
    rw [if_neg List.not_mem_nil, sub_zero]
  case columns => exact fun c hc => Or.inl hc

theorem Subtracted.visit {dot : ℝ} {done : List ℕ} {c : ℕ} {s'' : RankState ℝ}
    (h : Subtracted basis i dot s done s') (hc : c ∉ done) (haside : Aside i s' s'')
    (hself : (s''.rows i).get c = (s'.rows i).get c - dot * basis.value c)
    (hother : ∀ k, k ≠ c → (s''.rows i).get k = (s'.rows i).get k)
    (hcolumns : ∀ k ∈ (s''.rows i).columns, k ∈ (s'.rows i).columns ∨ k = c) :
    Subtracted basis i dot s (done ++ [c]) s'' := by
  constructor
  case aside => exact h.aside.trans haside
  case coefficient =>
    intro k
    by_cases hk : k = c
    · subst hk
      rw [hself, h.coefficient k, if_neg hc, if_pos (List.mem_append_right _ List.mem_cons_self), sub_zero]
    · have hiff : k ∈ done ++ [c] ↔ k ∈ done := by
        rw [List.mem_append, List.mem_singleton, or_iff_left hk]
      rw [hother k hk, h.coefficient k]
      simp only [hiff]
  case columns =>
    intro k hk
    obtain hk | rfl := hcolumns k hk
    · exact (h.columns k hk).imp_right (List.mem_append_left _)
    · exact Or.inr (List.mem_append_right _ List.mem_cons_self)

theorem get_insert_self (row : SparseRow ℝ) (c : ℕ) (v : ℝ) : (row.insert c v).get c = v := by
  rw [SparseRow.get_of_mem (Finset.mem_insert_self _ _)]
  exact Function.update_self ..

theorem get_insert_of_ne (row : SparseRow ℝ) {c k : ℕ} (h : k ≠ c) (v : ℝ) :
    (row.insert c v).get k = row.get k := by
  have hmem : k ∈ (row.insert c v).columns ↔ k ∈ row.columns := by
    rw [SparseRow.insert, Finset.mem_insert, or_iff_right h]
  have hvalue : (row.insert c v).value k = row.value k := Function.update_of_ne h _ _
  rw [SparseRow.get_eq, SparseRow.get_eq, hvalue]
  exact if_congr hmem rfl rfl

theorem get_remove_of_ne (row : SparseRow ℝ) {c k : ℕ} (h : k ≠ c) : (row.remove c).get k = row.get k := by
  have hmem : k ∈ (row.remove c).columns ↔ k ∈ row.columns := by
    rw [SparseRow.remove, Finset.mem_erase, and_iff_right h]
  rw [SparseRow.get_eq, SparseRow.get_eq]
  exact if_congr hmem rfl rfl

theorem Subtracted.insertAt {dot : ℝ} {done : List ℕ} {c : ℕ} {s'' : RankState ℝ}
    (h : Subtracted basis i dot s done s') (hc : c ∉ done) (haside : Aside i s' s'')
    (hrow : s''.rows i = (s'.rows i).insert c ((s'.rows i).get c - dot * basis.value c)) :
    Subtracted basis i dot s (done ++ [c]) s'' := by
  apply h.visit hc haside
  · rw [hrow, get_insert_self]
  · intro k hk
    rw [hrow, get_insert_of_ne _ hk]
  · intro k hk
    rw [hrow, SparseRow.insert, Finset.mem_insert] at hk
    exact hk.symm

theorem Subtracted.subtractAt {dot : ℝ} {done : List ℕ} {c : ℕ} (h : Subtracted basis i dot s done s')
    (hc : c ∉ done) :
    Guarantees (Subtracted basis i dot s (done ++ [c])) (fun _ => True) (s'.subtractAt basis i dot c) := by
  rw [RankState.subtractAt]
  change Guarantees _ _ (if ¬ isFinite ((s'.rows i).get c - dot * basis.value c) then _ else _)
  split
  · exact trivial
  · split
    case isTrue hzero =>
      have hvalue : (s'.rows i).get c - dot * basis.value c = 0 := of_decide_eq_true hzero
      split
      case isTrue =>
        apply (release_any _ 1).mono
        · rintro _ rfl
          apply h.visit hc
          · have haside := aside_setRow s' i ((s'.rows i).remove c)
            exact ⟨haside.rows, rfl, rfl, rfl, rfl, rfl, rfl⟩
          · change ((s'.setRow i ((s'.rows i).remove c)).rows i).get c = _
            rw [setRow_self, hvalue]
            exact SparseRow.get_of_notMem (Finset.notMem_erase _ _)
          · intro k hk
            change ((s'.setRow i ((s'.rows i).remove c)).rows i).get k = _
            rw [setRow_self, get_remove_of_ne _ hk]
          · intro k hk
            change k ∈ ((s'.setRow i ((s'.rows i).remove c)).rows i).columns at hk
            rw [setRow_self] at hk
            exact Or.inl (Finset.mem_of_mem_erase hk)
        · exact fun _ h => h
      case isFalse hmem =>
        apply h.visit hc (Aside.refl i s')
        · rw [hvalue, SparseRow.get_of_notMem hmem]
        · exact fun k _ => rfl
        · exact fun k hk => Or.inl hk
    case isFalse =>
      split
      · exact h.insertAt hc (aside_setRow s' i _) (setRow_self s' i _)
      · split
        · exact trivial
        · have haside := aside_setRow s' i ((s'.rows i).insert c ((s'.rows i).get c - dot * basis.value c))
          exact h.insertAt hc ⟨haside.rows, rfl, rfl, rfl, rfl, rfl, rfl⟩ (setRow_self s' i _)

/-- What a pass makes of a row. -/
structure Passed (n : ℕ) (basis : SparseRow ℝ) (i : ℕ) (s s' : RankState ℝ) : Prop where
  aside : Aside i s s'
  vec : (s'.rows i).vec n = without (basis.vec n) ((s.rows i).vec n)
  below : SparseRow.Below n (s'.rows i)

theorem Subtracted.passed (hbasis : SparseRow.Below n basis) (hrow : SparseRow.Below n (s.rows i)) {dot : ℝ}
    (hdot : (s.rows i).dot basis = dot) (h : Subtracted basis i dot s basis.columns.sort s') :
    Passed n basis i s s' := by
  constructor
  case aside => exact h.aside
  case vec =>
    ext c
    rw [without, PiLp.sub_apply, PiLp.smul_apply, SparseRow.vec_apply, SparseRow.vec_apply,
      SparseRow.vec_apply, h.coefficient c, ← SparseRow.dot_eq hrow hbasis, hdot, smul_eq_mul,
      SparseRow.get_eq basis]
    simp only [Finset.mem_sort]
    split
    · rfl
    · rw [mul_zero]
  case below =>
    intro c hc
    obtain hc | hc := h.columns c hc
    · exact hrow c hc
    · exact hbasis c ((Finset.mem_sort _).mp hc)

theorem Charged.passed (hbasis : SparseRow.Below n basis) (hrow : SparseRow.Below n (s.rows i))
    (hdot : (s.rows i).dot basis = 0) (h : Charged s s') : Passed n basis i s s' := by
  have haside := h.aside i
  obtain ⟨work, rfl⟩ := h
  refine ⟨haside, ?_, hrow⟩
  rw [SparseRow.dot_eq hrow hbasis] at hdot
  exact (without_of_inner hdot).symm

theorem beginPass_any (basis : SparseRow ℝ) (i : ℕ) (s : RankState ℝ) :
    Guarantees (fun result => Charged s result.2 ∧ result.1.getD 0 = (s.rows i).dot basis) (fun _ => True)
      (beginPass basis i s) := by
  apply (charge_any s _).bind
  intro first hfirst
  dsimp only
  split
  · exact trivial
  · split
    case isTrue hzero => exact ⟨hfirst, (of_decide_eq_true hzero).symm⟩
    case isFalse =>
      apply (charge_any first _).bind
      intro second hsecond
      exact ⟨hfirst.trans hsecond, rfl⟩

theorem pass_passed (hbasis : SparseRow.Below n basis) (hrow : SparseRow.Below n (s.rows i)) :
    Guarantees (Passed n basis i s) (fun _ => True) (pass basis i s) := by
  apply (beginPass_any basis i s).bind
  rintro ⟨dot, begun⟩ ⟨hcharged, hdot⟩
  cases dot with
  | none => exact hcharged.passed hbasis hrow hdot.symm
  | some dot =>
    have haside := hcharged.aside i
    obtain ⟨work, rfl⟩ := hcharged
    have hdot : (s.rows i).dot basis = dot := hdot.symm
    have hloop : Guarantees (Subtracted basis i dot { s with d := { s.d with work } } basis.columns.sort)
        (fun _ => True) (basis.columns.sort.foldlM (RankState.subtractAt basis i dot)
          { s with d := { s.d with work } }) := by
      apply Guarantees.foldlM fun done => Subtracted basis i dot { s with d := { s.d with work } } done
      · intro done c rest state hsplit hdone
        apply hdone.subtractAt
        have hnodup := Finset.sort_nodup basis.columns fun a b => a ≤ b
        rw [hsplit] at hnodup
        exact fun hc => (List.nodup_append.mp hnodup).2.2 c hc c List.mem_cons_self rfl
      · exact subtracted_nil basis i dot _
    apply hloop.mono
    · intro last hlast
      have hpassed := Subtracted.passed (s := { s with d := { s.d with work } }) hbasis hrow hdot hlast
      exact ⟨haside.trans hpassed.aside, hpassed.vec, hpassed.below⟩
    · exact fun _ h => h

/-- What applying a pivot does to the state, for one row. -/
structure Applied (n : ℕ) (preferSparse : Bool) (basis : SparseRow ℝ) (i : ℕ) (s s' : RankState ℝ) :
    Prop where
  vec : (s'.rows i).vec n = without (basis.vec n) ((s.rows i).vec n)
  below : SparseRow.Below n (s'.rows i)
  rows : ∀ j, j ≠ i → s'.rows j = s.rows j
  norms : s'.norms = Function.update s.norms i (s'.rows i).norm
  queue : s'.queue = (s.queue.remove (s.norms i) i).insert (s'.rows i).norm i
  sparsity : s'.sparsity = if preferSparse then
      insert (toLex ((s'.rows i).len, i)) (s.sparsity.erase (toLex ((s.rows i).len, i)))
    else s.sparsity
  pivots : s'.pivots = s.pivots
  accepted : s'.d.acceptedPivots = s.d.acceptedPivots
  tolerance : s'.d.tolerance = s.d.tolerance

theorem applyRow_applied (preferSparse : Bool) (hbasis : SparseRow.Below n basis) (hunit : ‖basis.vec n‖ = 1)
    (hrow : SparseRow.Below n (s.rows i)) :
    Guarantees (Applied n preferSparse basis i s) (fun _ => True) (applyRow preferSparse basis s i) := by
  have hfirst : Guarantees (Passed n basis i (s.dequeue preferSparse i)) (fun _ => True)
      (pass basis i (s.dequeue preferSparse i)) := pass_passed hbasis hrow
  apply hfirst.bind
  intro first hfirst
  apply (pass_passed hbasis hfirst.below).bind
  intro second hsecond
  apply (charge_any second _).bind
  rintro _ ⟨work, rfl⟩
  have haside := hfirst.aside.trans hsecond.aside
  dsimp only
  split
  · exact trivial
  · constructor
    case vec =>
      change (second.rows i).vec n = _
      rw [hsecond.vec, hfirst.vec, without_without hunit]
      rfl
    case below => exact hsecond.below
    case rows => exact haside.rows
    case norms =>
      change Function.update second.norms i _ = _
      rw [haside.norms]
      rfl
    case queue =>
      change RankQueue.insert second.queue (Function.update second.norms i (second.rows i).norm i) i = _
      rw [Function.update_self, haside.queue]
      rfl
    case sparsity =>
      change (if preferSparse then _ else second.sparsity) = _
      rw [haside.sparsity]
      cases preferSparse with
      | true => rfl
      | false => rfl
    case pivots => exact haside.pivots
    case accepted => exact haside.accepted
    case tolerance => exact haside.tolerance

end RankState

end Tellegen.McOpf
