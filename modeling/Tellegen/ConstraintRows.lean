import Tellegen.ConicProgram
import Tellegen.LinearConstraints

/-!
What the rows of linear constraints say, in exact arithmetic. The flow that leaves a
bus is its generation less demand and shunt withdrawal, and beyond these what HVDC
lines inject there and what load is shed; a row of bus injections means what it says
where these two cancel.
-/

set_option linter.unusedSectionVars false

open Binary64 Outcome

namespace Tellegen.Dc

open Ac (Entry contribution rowSum)

section Exact

variable [DecimalText ℝ] (dc : DcNetwork ℝ)

/-! ### Points of the program -/

/-- An equality row of the program. -/
def Meets (entries : List (DcEntry dc)) (row : Row dc) (x : Column dc → ℝ) : Prop :=
  ∀ value, .rhs row value ∈ entries → rowSum entries row x = value

/-- An inequality row of the program. -/
def Within (entries : List (DcEntry dc)) (row : Row dc) (x : Column dc → ℝ) : Prop :=
  ∀ value, .rhs row value ∈ entries → rowSum entries row x ≤ value

structure Balanced (rows : List (LinearRow ℝ dc.m dc.k)) (x : Column dc → ℝ) : Prop where
  balance : ∀ i, Meets dc (programEntries dc rows) (.balance i) x
  flow : ∀ e, Meets dc (programEntries dc rows) (.flow e) x

/-- The rows of the `r`-th constraint. -/
structure Enforced (rows : List (LinearRow ℝ dc.m dc.k)) (r : ℕ) (x : Column dc → ℝ) : Prop where
  equality : Meets dc (programEntries dc rows) (.linear r .equality) x
  upper : Within dc (programEntries dc rows) (.linear r .upper) x
  lower : Within dc (programEntries dc rows) (.linear r .lower) x

/-! ### Quantities -/

variable {dc} (x : Column dc → ℝ)

noncomputable def shed (i : Fin dc.n) : ℝ := if sheddable dc i then x (.psh i) else 0

noncomputable def generationAt (i : Fin dc.n) : ℝ := ∑ j, if dc.genBus j = i then x (.pg j) else 0

/-- A bus injection as it is documented, per unit. -/
noncomputable def busInjection (i : Fin dc.n) : ℝ :=
  generationAt x i - dc.demand i - dc.shuntConductance i

/-- What else the power balance of a bus takes in. -/
noncomputable def surplus (i : Fin dc.n) : ℝ := dc.hvdcInjection i + shed x i

noncomputable def leaving (i : Fin dc.n) : ℝ :=
  ∑ e, ((if dc.brFrom e = i then x (.f e) else 0) - if dc.brTo e = i then x (.f e) else 0)

noncomputable def quantity (term : ConstraintTerm ℝ) : ℝ :=
  match term.kind with
  | .branchFlow => (dc.branches.source term.element).elim 0 fun e => dc.baseMva * x (.f e)
  | .busInjection => (dc.buses.source term.element).elim 0 fun i => dc.baseMva * busInjection x i
  | .generator => (dc.generators.source term.element).elim 0 fun j => dc.baseMva * x (.pg j)

/-- The HVDC injection and the shed load at the bus of a bus injection term, in MW. -/
noncomputable def surplusOf (term : ConstraintTerm ℝ) : ℝ :=
  match term.kind with
  | .busInjection => (dc.buses.source term.element).elim 0 fun i => dc.baseMva * surplus x i
  | _ => 0

/-! ### Entries by row -/

theorem mem_limitEntries {row : LinearRow ℝ dc.m dc.k} {at_ : Row dc} {sign limit : ℝ}
    {entry : DcEntry dc} (h : entry ∈ limitEntries dc row at_ sign limit) :
    (∃ c v, entry = .a at_ c v) ∨ entry = .rhs at_ (sign * limit / dc.baseMva) := by
  rw [limitEntries, List.mem_append, List.mem_append, List.mem_map, List.mem_map,
    List.mem_singleton] at h
  rcases h with (⟨term, _, rfl⟩ | ⟨term, _, rfl⟩) | rfl
  · exact .inl ⟨_, _, rfl⟩
  · exact .inl ⟨_, _, rfl⟩
  · exact .inr rfl

theorem mem_linearEntries {r : ℕ} {row : LinearRow ℝ dc.m dc.k} {entry : DcEntry dc}
    (h : entry ∈ linearEntries dc r row) :
    ∃ side, (∃ c v, entry = .a (.linear r side) c v) ∨ ∃ v, entry = .rhs (.linear r side) v := by
  have hside : ∀ {side sign} {limits : List ℝ},
      entry ∈ limits.flatMap (limitEntries dc row (.linear r side) sign) →
      ∃ side, (∃ c v, entry = .a (.linear r side) c v) ∨ ∃ v, entry = .rhs (.linear r side) v := by
    intro side sign limits hmem
    obtain ⟨limit, _, hentry⟩ := List.mem_flatMap.mp hmem
    rcases mem_limitEntries hentry with ha | hrhs
    · exact ⟨side, .inl ha⟩
    · exact ⟨side, .inr ⟨_, hrhs⟩⟩
  rw [linearEntries] at h
  split at h
  · exact hside h
  · rcases List.mem_append.mp h with h | h
    · exact hside h
    · exact hside h

theorem mem_networkEntries {entry : DcEntry dc} (h : entry ∈ networkEntries dc) :
    (∃ i, (∃ c v, entry = .a (.balance i) c v) ∨
      entry = .rhs (.balance i) (currentFixedWithdrawal dc i)) ∨
    ∃ e, (∃ c v, entry = .a (.flow e) c v) ∨ entry = .rhs (.flow e) (currentFlowOffset dc e) := by
  rw [networkEntries, List.mem_append, List.mem_append, List.mem_flatMap, List.mem_flatMap,
    List.mem_flatMap] at h
  rcases h with (⟨i, _, h⟩ | ⟨j, _, h⟩) | ⟨e, _, h⟩
  · rw [balanceEntries, List.mem_append, List.mem_singleton] at h
    rcases h with h | rfl
    · split at h
      · rw [List.mem_singleton.mp h]
        exact .inl ⟨i, .inl ⟨_, _, rfl⟩⟩
      · exact absurd h List.not_mem_nil
    · exact .inl ⟨i, .inr rfl⟩
  · rw [generatorEntries, List.mem_singleton] at h
    rw [h]
    exact .inl ⟨_, .inl ⟨_, _, rfl⟩⟩
  · simp only [branchEntries, List.mem_cons, List.not_mem_nil, or_false] at h
    rcases h with rfl | rfl | rfl | rfl | rfl | rfl | rfl | rfl
    · exact .inl ⟨_, .inl ⟨_, _, rfl⟩⟩
    · exact .inl ⟨_, .inl ⟨_, _, rfl⟩⟩
    · exact .inl ⟨_, .inl ⟨_, _, rfl⟩⟩
    · exact .inl ⟨_, .inl ⟨_, _, rfl⟩⟩
    · exact .inr ⟨e, .inl ⟨_, _, rfl⟩⟩
    · exact .inr ⟨e, .inl ⟨_, _, rfl⟩⟩
    · exact .inr ⟨e, .inl ⟨_, _, rfl⟩⟩
    · exact .inr ⟨e, .inr rfl⟩

theorem contribution_of_ne {row at_ : Row dc} (hne : at_ ≠ row) {entry : DcEntry dc}
    (h : (∃ c v, entry = .a at_ c v) ∨ ∃ v, entry = .rhs at_ v) : contribution row x entry = 0 := by
  rcases h with ⟨c, v, rfl⟩ | ⟨v, rfl⟩
  · rw [contribution, if_neg hne]
  · rfl

theorem rowSum_programEntries {row : Row dc} (hrow : ∀ r side, Row.linear r side ≠ row)
    (rows : List (LinearRow ℝ dc.m dc.k)) :
    rowSum (programEntries dc rows) row x = rowSum (networkEntries dc) row x := by
  rw [programEntries, Ac.rowSum_append]
  have hzero : rowSum (rows.zipIdx.flatMap fun (row, r) => linearEntries dc r row) row x = 0 := by
    apply Ac.rowSum_eq_zero
    intro entry hentry
    obtain ⟨next, _, hmem⟩ := List.mem_flatMap.mp hentry
    obtain ⟨side, hside⟩ := mem_linearEntries hmem
    exact contribution_of_ne x (hrow _ side) hside
  rw [hzero, add_zero]

theorem rhs_balance_mem (rows : List (LinearRow ℝ dc.m dc.k)) (i : Fin dc.n) :
    .rhs (.balance i) (currentFixedWithdrawal dc i) ∈ programEntries dc rows := by
  rw [programEntries, List.mem_append, networkEntries, List.mem_append, List.mem_append]
  left; left; left
  refine List.mem_flatMap.mpr ⟨i, List.mem_finRange i, ?_⟩
  exact List.mem_append_right _ List.mem_cons_self

theorem rhs_flow_mem (rows : List (LinearRow ℝ dc.m dc.k)) (e : Fin dc.m) :
    .rhs (.flow e) (currentFlowOffset dc e) ∈ programEntries dc rows := by
  rw [programEntries, List.mem_append, networkEntries, List.mem_append]
  left; right
  refine List.mem_flatMap.mpr ⟨e, List.mem_finRange e, ?_⟩
  simp only [branchEntries, List.mem_cons, true_or, or_true]

theorem eq_of_rhs_balance {rows : List (LinearRow ℝ dc.m dc.k)} {i : Fin dc.n} {v : ℝ}
    (h : .rhs (.balance i) v ∈ programEntries dc rows) : v = currentFixedWithdrawal dc i := by
  rw [programEntries, List.mem_append] at h
  rcases h with h | h
  · rcases mem_networkEntries h with ⟨i, ⟨c, v, ha⟩ | hrhs⟩ | ⟨e, ⟨c, v, ha⟩ | hrhs⟩
    · cases ha
    · cases hrhs
      rfl
    · cases ha
    · cases hrhs
  · obtain ⟨next, _, hmem⟩ := List.mem_flatMap.mp h
    obtain ⟨side, ⟨c, w, ha⟩ | ⟨w, hrhs⟩⟩ := mem_linearEntries hmem
    · cases ha
    · cases hrhs

theorem eq_of_rhs_flow {rows : List (LinearRow ℝ dc.m dc.k)} {e : Fin dc.m} {v : ℝ}
    (h : .rhs (.flow e) v ∈ programEntries dc rows) : v = currentFlowOffset dc e := by
  rw [programEntries, List.mem_append] at h
  rcases h with h | h
  · rcases mem_networkEntries h with ⟨i, ⟨c, v, ha⟩ | hrhs⟩ | ⟨e, ⟨c, v, ha⟩ | hrhs⟩
    · cases ha
    · cases hrhs
    · cases ha
    · cases hrhs
      rfl
  · obtain ⟨next, _, hmem⟩ := List.mem_flatMap.mp h
    obtain ⟨side, ⟨c, w, ha⟩ | ⟨w, hrhs⟩⟩ := mem_linearEntries hmem
    · cases ha
    · cases hrhs

theorem balance_ne_linear (i : Fin dc.n) : ∀ r side, (Row.linear r side : Row dc) ≠ .balance i :=
  fun _ _ h => nomatch h

theorem flow_ne_linear (e : Fin dc.m) : ∀ r side, (Row.linear r side : Row dc) ≠ .flow e :=
  fun _ _ h => nomatch h

/-! ### The balance of a bus -/

noncomputable def weight (e : Fin dc.m) : ℝ := -dc.b e * dc.sw e

theorem rowSum_balanceEntries (i i' : Fin dc.n) :
    rowSum (balanceEntries dc i') (.balance i) x = if i' = i then shed x i' else 0 := by
  rw [balanceEntries, shed]
  by_cases hi : i' = i
  · cases hs : sheddable dc i' <;> simp [contribution, hi]
  · cases hs : sheddable dc i' <;> simp [contribution, hi]

theorem rowSum_generatorEntries (i : Fin dc.n) (j : Fin dc.k) :
    rowSum (generatorEntries dc j) (.balance i) x = if dc.genBus j = i then x (.pg j) else 0 := by
  simp [generatorEntries, contribution]

theorem rowSum_branchEntries (i : Fin dc.n) (e : Fin dc.m) :
    rowSum (branchEntries dc e) (.balance i) x =
      (if dc.brTo e = i then weight e * (x (.va (dc.brFrom e)) - x (.va (dc.brTo e))) else 0) -
        if dc.brFrom e = i then weight e * (x (.va (dc.brFrom e)) - x (.va (dc.brTo e))) else 0 := by
  by_cases hfrom : dc.brFrom e = i
  · by_cases hto : dc.brTo e = i
    · simp [branchEntries, contribution, weight, hfrom, hto]
    · simp [branchEntries, contribution, weight, hfrom, hto]
      ring
  · by_cases hto : dc.brTo e = i
    · simp [branchEntries, contribution, weight, hfrom, hto]
      ring
    · simp [branchEntries, contribution, hfrom, hto]

/-- Power balance of the program, without the angles of the buses but in the differences. -/
theorem rowSum_balance (i : Fin dc.n) : rowSum (networkEntries dc) (.balance i) x =
    shed x i + generationAt x i + ∑ e,
      ((if dc.brTo e = i then weight e * (x (.va (dc.brFrom e)) - x (.va (dc.brTo e))) else 0) -
        if dc.brFrom e = i then weight e * (x (.va (dc.brFrom e)) - x (.va (dc.brTo e))) else 0) := by
  rw [networkEntries, Ac.rowSum_append, Ac.rowSum_append, Ac.rowSum_flatMap, Ac.rowSum_flatMap,
    Ac.rowSum_flatMap]
  simp only [rowSum_balanceEntries, rowSum_generatorEntries, rowSum_branchEntries,
    Finset.sum_ite_eq', Finset.mem_univ, if_true, generationAt]

theorem rowSum_flow (e : Fin dc.m) : rowSum (networkEntries dc) (.flow e) x =
    x (.f e) - weight e * (x (.va (dc.brFrom e)) - x (.va (dc.brTo e))) := by
  have hbus : ∀ i, rowSum (balanceEntries dc i) (.flow e) x = 0 := by
    intro i
    cases hs : sheddable dc i <;> simp [balanceEntries, contribution, hs]
  have hgenerator : ∀ j, rowSum (generatorEntries dc j) (.flow e) x = 0 := by
    intro j
    simp [generatorEntries, contribution]
  have hbranch : ∀ e', rowSum (branchEntries dc e') (.flow e) x =
      if e' = e then x (.f e') - weight e' * (x (.va (dc.brFrom e')) - x (.va (dc.brTo e')))
      else 0 := by
    intro e'
    by_cases he : e' = e
    · simp [branchEntries, contribution, weight, he]
      ring
    · simp [branchEntries, contribution, he]
  rw [networkEntries, Ac.rowSum_append, Ac.rowSum_append, Ac.rowSum_flatMap, Ac.rowSum_flatMap,
    Ac.rowSum_flatMap]
  simp only [hbus, hgenerator, hbranch, Finset.sum_const_zero, Finset.sum_ite_eq', Finset.mem_univ,
    if_true, zero_add]

theorem phaseWithdrawal_eq (i : Fin dc.n) : phaseWithdrawal dc i =
    ∑ e, ((if dc.brFrom e = i then currentFlowOffset dc e else 0) -
      if dc.brTo e = i then currentFlowOffset dc e else 0) := by
  have hfold : ∀ (branches : List (Fin dc.m)) (start : Fin dc.n → ℝ),
      branches.foldl (fun withdrawal e =>
        let offset := dc.sw e * dc.flowOffset e
        let left := Function.update withdrawal (dc.brFrom e) (withdrawal (dc.brFrom e) + offset)
        Function.update left (dc.brTo e) (left (dc.brTo e) - offset)) start i =
      start i + (branches.map fun e => (if dc.brFrom e = i then currentFlowOffset dc e else 0) -
        if dc.brTo e = i then currentFlowOffset dc e else 0).sum := by
    intro branches
    induction branches with
    | nil => simp
    | cons e rest ih =>
      intro start
      rw [List.foldl_cons, ih, List.map_cons, List.sum_cons]
      by_cases hfrom : dc.brFrom e = i
      · by_cases hto : dc.brTo e = i
        · simp [hfrom, hto, currentFlowOffset]
        · simp [hfrom, hto, Function.update_of_ne (Ne.symm hto), currentFlowOffset]
          ring
      · by_cases hto : dc.brTo e = i
        · simp [hfrom, hto, Function.update_of_ne (Ne.symm hfrom), currentFlowOffset]
          ring
        · simp [hfrom, hto, Function.update_of_ne (Ne.symm hto),
            Function.update_of_ne (Ne.symm hfrom)]
  rw [phaseWithdrawal, hfold, Fin.sum_univ_def, zero_add]

/-- What leaves a bus on its branches: its documented injection, and beyond it what HVDC lines inject
and what load is shed. -/
theorem leaving_eq {rows : List (LinearRow ℝ dc.m dc.k)} (hx : Balanced dc rows x) (i : Fin dc.n) :
    leaving x i = busInjection x i + surplus x i := by
  have hbalance := hx.balance i _ (rhs_balance_mem rows i)
  rw [rowSum_programEntries x (balance_ne_linear i), rowSum_balance] at hbalance
  have hangle : ∀ e, weight e * (x (.va (dc.brFrom e)) - x (.va (dc.brTo e))) =
      x (.f e) - currentFlowOffset dc e := by
    intro e
    have hflow := hx.flow e _ (rhs_flow_mem rows e)
    rw [rowSum_programEntries x (flow_ne_linear e), rowSum_flow] at hflow
    linarith
  have hphase := phaseWithdrawal_eq i
  have hsplit : ∀ e, ((if dc.brTo e = i then
        weight e * (x (.va (dc.brFrom e)) - x (.va (dc.brTo e))) else 0) -
      if dc.brFrom e = i then weight e * (x (.va (dc.brFrom e)) - x (.va (dc.brTo e))) else 0) =
      ((if dc.brFrom e = i then currentFlowOffset dc e else 0) -
        if dc.brTo e = i then currentFlowOffset dc e else 0) -
      ((if dc.brFrom e = i then x (.f e) else 0) - if dc.brTo e = i then x (.f e) else 0) := by
    intro e
    rw [hangle]
    by_cases hfrom : dc.brFrom e = i
    · by_cases hto : dc.brTo e = i
      · simp only [hfrom, hto, if_true]
        ring
      · simp only [hfrom, hto, if_true, if_false]
        ring
    · by_cases hto : dc.brTo e = i
      · simp only [hfrom, hto, if_true, if_false]
        ring
      · simp only [hfrom, hto, if_false]
        ring
  rw [Finset.sum_congr rfl fun e _ => hsplit e, Finset.sum_sub_distrib, ← hphase] at hbalance
  rw [currentFixedWithdrawal, networkWithdrawal] at hbalance
  rw [leaving, busInjection, surplus]
  linarith

/-! ### Coefficients -/

variable {x}

section Coefficients

variable {m : ℕ}

/-- What the coefficients so far make of a vector. -/
noncomputable def Coefficients.combine (terms : Coefficients ℝ m) (y : Fin m → ℝ) : ℝ :=
  ∑ e, (terms e).getD 0 * y e

theorem Coefficients.combine_add (terms : Coefficients ℝ m) (e : Fin m) (c : ℝ) (y : Fin m → ℝ) :
    (terms.add e c).combine y = terms.combine y + c * y e := by
  have hterm : ∀ e', ((terms.add e c) e').getD 0 * y e' =
      (terms e').getD 0 * y e' + if e' = e then c * y e else 0 := by
    intro e'
    by_cases he : e' = e
    · rw [Coefficients.add, he, Function.update_self, Option.getD_some, if_pos rfl]
      ring
    · rw [Coefficients.add, Function.update_of_ne he, if_neg he, add_zero]
  rw [Coefficients.combine, Finset.sum_congr rfl fun e' _ => hterm e', Finset.sum_add_distrib,
    Finset.sum_ite_eq' Finset.univ e, if_pos (Finset.mem_univ e)]
  rfl

theorem sum_nonzero {id : String} {terms : Coefficients ℝ m} {present : List (Fin m × ℝ)}
    (h : nonzero id terms = .ok present) (y : Fin m → ℝ) :
    Binary64.sum (present.map fun (e, c) => c * y e) = terms.combine y := by
  rw [nonzero] at h
  have hlist : ((List.finRange m).filterMap fun e => (terms e).map (e, ·)).filter
      (fun term => !eq term.2 0) = present := by
    split at h
    · cases h
    · exact Except.ok.inj h
  rw [sum_real, ← hlist, Coefficients.combine, Fin.sum_univ_def]
  induction List.finRange m with
  | nil => rfl
  | cons e rest ih =>
    rw [List.map_cons, List.sum_cons, ← ih]
    cases hterm : terms e with
    | none => simp [hterm]
    | some c =>
      by_cases hc : c = 0
      · simp [hterm, hc, Binary64.eq]
      · simp [hterm, hc, Binary64.eq]

end Coefficients

/-! ### Terms -/

theorem combine_incident (i : Fin dc.n) (c : ℝ) (flow : Coefficients ℝ dc.m) (y : Fin dc.m → ℝ) :
    ((incident dc i).foldl (fun flow (e, sign) => flow.add e (sign * c)) flow).combine y =
      flow.combine y + c * ∑ e, ((if dc.brFrom e = i then y e else 0) -
        if dc.brTo e = i then y e else 0) := by
  rw [incident, Fin.sum_univ_def]
  induction List.finRange dc.m generalizing flow with
  | nil => simp
  | cons e rest ih =>
    rw [List.flatMap_cons, List.foldl_append, ih, List.map_cons, List.sum_cons]
    by_cases hfrom : dc.brFrom e = i
    · by_cases hto : dc.brTo e = i
      · simp [hfrom, hto, Coefficients.combine_add]
      · simp [hfrom, hto, Coefficients.combine_add]
        ring
    · by_cases hto : dc.brTo e = i
      · simp [hfrom, hto, Coefficients.combine_add]
        ring
      · simp [hfrom, hto]

theorem combine_addTerm {rows : List (LinearRow ℝ dc.m dc.k)} (hx : Balanced dc rows x) {id : String}
    {combined next : Coefficients ℝ dc.m × Coefficients ℝ dc.k} {term : ConstraintTerm ℝ}
    (h : addTerm dc id combined term = .ok next) :
    dc.baseMva * (next.1.combine (fun e => x (.f e)) + next.2.combine fun j => x (.pg j)) =
      dc.baseMva * (combined.1.combine (fun e => x (.f e)) + combined.2.combine fun j => x (.pg j)) +
        term.coefficient * (quantity x term + surplusOf x term) := by
  rw [addTerm] at h
  dsimp only at h
  rw [ite_error_eq_ok] at h
  obtain ⟨_, h⟩ := h
  rw [quantity, surplusOf]
  cases hkind : term.kind with
  | branchFlow =>
    rw [hkind] at h
    dsimp only at h ⊢
    cases hsource : dc.branches.source term.element with
    | none =>
      rw [hsource] at h
      cases h
    | some e =>
      rw [hsource] at h
      cases h
      rw [Coefficients.combine_add, Option.elim_some]
      ring
  | busInjection =>
    rw [hkind] at h
    dsimp only at h ⊢
    cases hsource : dc.buses.source term.element with
    | none =>
      rw [hsource] at h
      cases h
    | some i =>
      rw [hsource] at h
      cases h
      have hleaving := leaving_eq x hx i
      rw [leaving] at hleaving
      rw [combine_incident, hleaving, Option.elim_some, Option.elim_some]
      ring
  | generator =>
    rw [hkind] at h
    dsimp only at h ⊢
    rw [ite_error_eq_ok] at h
    obtain ⟨_, h⟩ := h
    cases hsource : dc.generators.source term.element with
    | none =>
      rw [hsource] at h
      cases h
    | some j =>
      rw [hsource] at h
      cases h
      rw [Coefficients.combine_add, Option.elim_some]
      ring

theorem combine_addTerms {rows : List (LinearRow ℝ dc.m dc.k)} (hx : Balanced dc rows x) {id : String}
    {terms : List (ConstraintTerm ℝ)} {combined final : Coefficients ℝ dc.m × Coefficients ℝ dc.k}
    (h : terms.foldlM (addTerm dc id) combined = .ok final) :
    dc.baseMva * (final.1.combine (fun e => x (.f e)) + final.2.combine fun j => x (.pg j)) =
      dc.baseMva * (combined.1.combine (fun e => x (.f e)) + combined.2.combine fun j => x (.pg j)) +
        (terms.map fun term => term.coefficient * (quantity x term + surplusOf x term)).sum := by
  induction terms generalizing combined with
  | nil =>
    rw [List.foldlM_nil] at h
    cases h
    simp
  | cons term rest ih =>
    rw [List.foldlM_cons, bind_eq_ok] at h
    obtain ⟨next, hnext, hrest⟩ := h
    rw [ih hrest, combine_addTerm hx hnext, List.map_cons, List.sum_cons, add_assoc]

/-! ### Constraints -/

theorem of_resolveConstraint {rows : List (LinearRow ℝ dc.m dc.k)} (hx : Balanced dc rows x)
    {seen : List String} {constraint : LinearConstraint ℝ} {row : LinearRow ℝ dc.m dc.k}
    (h : resolveConstraint dc seen constraint = .ok row) :
    dc.baseMva * row.evaluate (fun e => x (.f e)) (fun j => x (.pg j)) =
        (constraint.terms.map fun term =>
          term.coefficient * (quantity x term + surplusOf x term)).sum ∧
      row.lowerMw = constraint.lower ∧ row.upperMw = constraint.upper ∧ row.id = constraint.id := by
  rw [resolveConstraint] at h
  simp only [ite_error_eq_ok, bind_eq_ok, pure_eq_ok] at h
  obtain ⟨_, _, _, _, _, combined, hcombined, flow, hflow, generation, hgeneration, _, rfl⟩ := h
  refine ⟨?_, rfl, rfl, rfl⟩
  have hvalue : (LinearRow.mk constraint.id flow generation constraint.lower
      constraint.upper).evaluate (fun e => x (.f e)) (fun j => x (.pg j)) =
      combined.1.combine (fun e => x (.f e)) + combined.2.combine fun j => x (.pg j) := by
    rw [← sum_nonzero hflow, ← sum_nonzero hgeneration]
    rfl
  rw [hvalue, combine_addTerms hx hcombined]
  simp [Coefficients.combine]

theorem getElem?_resolveConstraints {seen : List String} {constraints : List (LinearConstraint ℝ)}
    {resolved : List (LinearRow ℝ dc.m dc.k)}
    (h : resolveConstraints dc seen constraints = .ok resolved) :
    resolved.length = constraints.length ∧ ∀ (r : ℕ) constraint row, constraints[r]? = some constraint →
      resolved[r]? = some row → ∃ seen', resolveConstraint dc seen' constraint = .ok row := by
  induction constraints generalizing seen resolved with
  | nil =>
    rw [resolveConstraints] at h
    cases h
    exact ⟨rfl, fun r constraint row hconstraint => nomatch hconstraint⟩
  | cons first rest ih =>
    rw [resolveConstraints] at h
    simp only [bind_eq_ok, pure_eq_ok] at h
    obtain ⟨row, hrow, rows, hrows, rfl⟩ := h
    obtain ⟨hlength, hat⟩ := ih hrows
    refine ⟨by rw [List.length_cons, List.length_cons, hlength], ?_⟩
    intro r constraint row' hconstraint hrow'
    cases r with
    | zero =>
      cases hconstraint
      cases hrow'
      exact ⟨seen, hrow⟩
    | succ r => exact hat r constraint row' hconstraint hrow'

/-! ### Enforcement -/

theorem rowSum_limitEntries (row : LinearRow ℝ dc.m dc.k) (at_ : Row dc) (sign limit : ℝ) :
    rowSum (limitEntries dc row at_ sign limit) at_ x =
      sign * row.evaluate (fun e => x (.f e)) (fun j => x (.pg j)) := by
  have hflow : ∀ terms : List (Fin dc.m × ℝ),
      rowSum (terms.map fun (e, c) => (Entry.a at_ (Column.f e) (sign * c) : DcEntry dc)) at_ x =
        sign * (terms.map fun (e, c) => c * x (.f e)).sum := by
    intro terms
    induction terms with
    | nil => simp
    | cons term rest ih =>
      simp only [List.map_cons, Ac.rowSum_cons, ih, contribution, if_true, List.sum_cons]
      ring
  have hgeneration : ∀ terms : List (Fin dc.k × ℝ),
      rowSum (terms.map fun (j, c) => (Entry.a at_ (Column.pg j) (sign * c) : DcEntry dc)) at_ x =
        sign * (terms.map fun (j, c) => c * x (.pg j)).sum := by
    intro terms
    induction terms with
    | nil => simp
    | cons term rest ih =>
      simp only [List.map_cons, Ac.rowSum_cons, ih, contribution, if_true, List.sum_cons]
      ring
  rw [limitEntries, Ac.rowSum_append, Ac.rowSum_append, hflow, hgeneration, LinearRow.evaluate,
    sum_real, sum_real]
  simp only [Ac.rowSum_cons, Ac.rowSum_nil, contribution, add_zero]
  ring

theorem linearEntries_ne {r r' : ℕ} (hne : r' ≠ r) (side : LimitSide)
    (row : LinearRow ℝ dc.m dc.k) : rowSum (linearEntries dc r' row) (.linear r side) x = 0 := by
  apply Ac.rowSum_eq_zero
  intro entry hentry
  obtain ⟨side', hside⟩ := mem_linearEntries hentry
  exact contribution_of_ne x (fun h => hne (Row.linear.inj h).1) hside

theorem rowSum_linear {rows : List (LinearRow ℝ dc.m dc.k)} {r : ℕ} {row : LinearRow ℝ dc.m dc.k}
    (hrow : rows[r]? = some row) (side : LimitSide) :
    rowSum (programEntries dc rows) (.linear r side) x =
      rowSum (linearEntries dc r row) (.linear r side) x := by
  have hnetwork : rowSum (networkEntries dc) (.linear r side) x = 0 := by
    apply Ac.rowSum_eq_zero
    intro entry hentry
    have hbalance : ∀ i, (Row.balance i : Row dc) ≠ .linear r side := fun _ h => nomatch h
    have hflow : ∀ e, (Row.flow e : Row dc) ≠ .linear r side := fun _ h => nomatch h
    rcases mem_networkEntries hentry with ⟨i, ha | hrhs⟩ | ⟨e, ha | hrhs⟩
    · exact contribution_of_ne x (hbalance i) (.inl ha)
    · exact contribution_of_ne x (hbalance i) (.inr ⟨_, hrhs⟩)
    · exact contribution_of_ne x (hflow e) (.inl ha)
    · exact contribution_of_ne x (hflow e) (.inr ⟨_, hrhs⟩)
  -- by induction on the constraints before it
  have hfrom : ∀ (rows : List (LinearRow ℝ dc.m dc.k)) (start d : ℕ), start + d = r →
      rows[d]? = some row →
      rowSum ((rows.zipIdx start).flatMap fun (row, r) => linearEntries dc r row) (.linear r side) x =
        rowSum (linearEntries dc r row) (.linear r side) x := by
    intro rows
    induction rows with
    | nil => exact fun _ _ _ h => nomatch h
    | cons first rest ih =>
      intro start d hstart hd
      rw [List.zipIdx_cons, List.flatMap_cons, Ac.rowSum_append]
      cases d with
      | zero =>
        cases hd
        have hrest : rowSum ((rest.zipIdx (start + 1)).flatMap fun (row, r) =>
            linearEntries dc r row) (.linear r side) x = 0 := by
          apply Ac.rowSum_eq_zero
          intro entry hentry
          obtain ⟨⟨row', r'⟩, hmem, hentry⟩ := List.mem_flatMap.mp hentry
          have hle := List.le_snd_of_mem_zipIdx hmem
          obtain ⟨side', hside⟩ := mem_linearEntries hentry
          apply contribution_of_ne x _ hside
          intro h
          have heq := (Row.linear.inj h).1
          dsimp only at hle heq
          omega
        rw [hrest, add_zero]
        rw [show start = r by omega]
      | succ d =>
        rw [linearEntries_ne (by omega), zero_add]
        exact ih (start + 1) d (by omega) hd
  rw [programEntries, Ac.rowSum_append, hnetwork, zero_add, hfrom rows 0 r (Nat.zero_add r) hrow]

theorem rhs_linear_iff {rows : List (LinearRow ℝ dc.m dc.k)} {r : ℕ} {row : LinearRow ℝ dc.m dc.k}
    (hrow : rows[r]? = some row) (side : LimitSide) (v : ℝ) :
    .rhs (.linear r side) v ∈ programEntries dc rows ↔
      .rhs (.linear r side) v ∈ linearEntries dc r row := by
  rw [programEntries, List.mem_append]
  constructor
  · rintro (h | h)
    · rcases mem_networkEntries h with ⟨i, ⟨c, v, ha⟩ | hrhs⟩ | ⟨e, ⟨c, v, ha⟩ | hrhs⟩
      · cases ha
      · cases hrhs
      · cases ha
      · cases hrhs
    · obtain ⟨⟨row', r'⟩, hmem, hentry⟩ := List.mem_flatMap.mp h
      have hat := List.mk_mem_zipIdx_iff_getElem?.mp hmem
      obtain ⟨side', ⟨c, v, ha⟩ | ⟨v, hrhs⟩⟩ := mem_linearEntries hentry
      · cases ha
      · cases hrhs
        rw [hrow] at hat
        cases hat
        exact hentry
  · intro h
    right
    exact List.mem_flatMap.mpr ⟨(row, r), List.mk_mem_zipIdx_iff_getElem?.mpr hrow, h⟩

theorem rhs_mem_limitEntries {row : LinearRow ℝ dc.m dc.k} {at_ at' : Row dc} {sign limit v : ℝ} :
    .rhs at' v ∈ limitEntries dc row at_ sign limit ↔
      at' = at_ ∧ v = sign * limit / dc.baseMva := by
  constructor
  · intro h
    rcases mem_limitEntries h with ⟨c, w, ha⟩ | hrhs
    · cases ha
    · cases hrhs
      exact ⟨rfl, rfl⟩
  · rintro ⟨rfl, rfl⟩
    exact List.mem_append_right _ List.mem_cons_self

theorem rowSum_limitEntries_ne {row : LinearRow ℝ dc.m dc.k} {at_ at' : Row dc} (hne : at_ ≠ at')
    (sign limit : ℝ) : rowSum (limitEntries dc row at_ sign limit) at' x = 0 := by
  apply Ac.rowSum_eq_zero
  intro entry hentry
  rcases mem_limitEntries hentry with ha | hrhs
  · exact contribution_of_ne x hne (.inl ha)
  · exact contribution_of_ne x hne (.inr ⟨_, hrhs⟩)

theorem isEquality_iff {m k : ℕ} (row : LinearRow ℝ m k) :
    row.isEquality ↔ ∃ limit, row.lowerMw = some limit ∧ row.upperMw = some limit := by
  rw [LinearRow.isEquality]
  cases hlower : row.lowerMw with
  | none => simp
  | some lower =>
    cases hupper : row.upperMw with
    | none => simp
    | some upper =>
      constructor
      · intro h
        have heq : lower = upper := of_decide_eq_true h
        exact ⟨lower, rfl, by rw [heq]⟩
      · rintro ⟨limit, hl, hu⟩
        cases hl
        cases hu
        exact decide_eq_true rfl

theorem enforced_iff {rows : List (LinearRow ℝ dc.m dc.k)} {r : ℕ} {row : LinearRow ℝ dc.m dc.k}
    (hrow : rows[r]? = some row) :
    Enforced dc rows r x ↔
      (∀ limit, row.upperMw = some limit →
        row.evaluate (fun e => x (.f e)) (fun j => x (.pg j)) ≤ limit / dc.baseMva) ∧
      ∀ limit, row.lowerMw = some limit →
        limit / dc.baseMva ≤ row.evaluate (fun e => x (.f e)) (fun j => x (.pg j)) := by
  have hsides : Enforced dc rows r x ↔
      (∀ v, .rhs (.linear r .equality) v ∈ linearEntries dc r row →
        rowSum (linearEntries dc r row) (.linear r .equality) x = v) ∧
      (∀ v, .rhs (.linear r .upper) v ∈ linearEntries dc r row →
        rowSum (linearEntries dc r row) (.linear r .upper) x ≤ v) ∧
      ∀ v, .rhs (.linear r .lower) v ∈ linearEntries dc r row →
        rowSum (linearEntries dc r row) (.linear r .lower) x ≤ v := by
    constructor
    · intro h
      simp only [← rowSum_linear hrow, ← rhs_linear_iff hrow]
      exact ⟨h.equality, h.upper, h.lower⟩
    · intro h
      simp only [← rowSum_linear hrow, ← rhs_linear_iff hrow] at h
      exact ⟨h.1, h.2.1, h.2.2⟩
  rw [hsides]
  have hne : ∀ {side side' : LimitSide}, side ≠ side' →
      (Row.linear r side : Row dc) ≠ .linear r side' :=
    fun hne h => hne (Row.linear.inj h).2
  cases heq : row.isEquality with
  | true =>
    obtain ⟨limit, hlower, hupper⟩ := (isEquality_iff row).mp heq
    have hentries : linearEntries dc r row =
        limitEntries dc row (.linear r .equality) 1 limit := by
      simp [linearEntries, heq, hlower]
    simp only [hentries, rhs_mem_limitEntries, rowSum_limitEntries, Row.linear.injEq, true_and,
      reduceCtorEq, false_and, false_imp_iff, forall_true_iff, and_true, forall_eq, hlower, hupper,
      Option.some.injEq, forall_eq', one_mul]
    exact le_antisymm_iff
  | false =>
    have hentries : linearEntries dc r row =
        row.upperMw.toList.flatMap (limitEntries dc row (.linear r .upper) 1) ++
          row.lowerMw.toList.flatMap (limitEntries dc row (.linear r .lower) (-1)) := by
      simp [linearEntries, heq]
    have hupperNe : (Row.linear r .upper : Row dc) ≠ .linear r .lower := hne (fun h => nomatch h)
    have hlowerNe : (Row.linear r .lower : Row dc) ≠ .linear r .upper := hne (fun h => nomatch h)
    have hneg : ∀ value limit : ℝ, -value ≤ -limit / dc.baseMva ↔ limit / dc.baseMva ≤ value := by
      intro value limit
      rw [neg_div, neg_le_neg_iff]
    cases hu : row.upperMw with
    | none =>
      cases hl : row.lowerMw with
      | none => simp [hentries, hu, hl]
      | some lower => simp [hentries, hu, hl, rhs_mem_limitEntries, rowSum_limitEntries, hneg]
    | some upper =>
      cases hl : row.lowerMw with
      | none => simp [hentries, hu, hl, rhs_mem_limitEntries, rowSum_limitEntries]
      | some lower =>
        simp [hentries, hu, hl, rhs_mem_limitEntries, rowSum_limitEntries,
          rowSum_limitEntries_ne hupperNe, rowSum_limitEntries_ne hlowerNe, hneg]

/-- A resolved constraint is held between its limits, and its value is the sum of its terms exactly
where the HVDC injections and the shed load at its bus injections cancel. -/
theorem constraint_value_iff {constraints : List (LinearConstraint ℝ)}
    {rows : List (LinearRow ℝ dc.m dc.k)} (hrows : applyLinearConstraints dc constraints = .ok rows)
    (hx : Balanced dc rows x) :
    rows.length = constraints.length ∧ ∀ (r : ℕ) constraint row, constraints[r]? = some constraint →
      rows[r]? = some row →
      let value := row.evaluate (fun e => x (.f e)) fun j => x (.pg j)
      (Enforced dc rows r x ↔
        (∀ limit, constraint.upper = some limit → value ≤ limit / dc.baseMva) ∧
          ∀ limit, constraint.lower = some limit → limit / dc.baseMva ≤ value) ∧
      (dc.baseMva * value =
          (constraint.terms.map fun term => term.coefficient * quantity x term).sum ↔
        (constraint.terms.map fun term => term.coefficient * surplusOf x term).sum = 0) := by
  obtain ⟨hlength, hat⟩ := getElem?_resolveConstraints hrows
  refine ⟨hlength, ?_⟩
  intro r constraint row hconstraint hrow
  obtain ⟨seen, hresolved⟩ := hat r constraint row hconstraint hrow
  obtain ⟨hvalue, hlower, hupper, _⟩ := of_resolveConstraint hx hresolved
  refine ⟨?_, ?_⟩
  · rw [enforced_iff hrow, hlower, hupper]
  · have hsplit : (constraint.terms.map fun term =>
          term.coefficient * (quantity x term + surplusOf x term)).sum =
        (constraint.terms.map fun term => term.coefficient * quantity x term).sum +
          (constraint.terms.map fun term => term.coefficient * surplusOf x term).sum := by
      simp only [mul_add, List.sum_map_add]
    rw [hvalue, hsplit]
    constructor
    · intro h
      linarith
    · intro h
      rw [h, add_zero]

end Exact

/-! ### A line and an HVDC line between two buses -/

namespace Sample

@[reducible] local instance constraintText : DecimalText ℝ := ⟨fun _ => ""⟩

/-- The HVDC line injects one unit at bus 1, which the AC line takes back to bus 2. -/
@[reducible] noncomputable def twoBuses : DcNetwork ℝ where
  n := 2
  m := 1
  k := 0
  brFrom _ := 0
  brTo _ := 1
  genBus j := j.elim0
  b _ := -1
  sw _ := 1
  flowOffset _ := 0
  demand _ := 0
  shuntConductance _ := 0
  hvdcInjection := fun i : Fin 2 => if i = 0 then 1 else -1
  allowShed := false
  baseMva := 100
  buses := { ids := fun i => i.val + 1, uids := fun _ => none, sourceRows := fun i => some i.val }
  branches := { ids := fun _ => 1, uids := fun _ => none, sourceRows := fun _ => some 0 }
  generators := { ids := fun _ => 0, uids := fun _ => none, sourceRows := fun _ => none }

/-- The injection of bus 1 is at most 60 MW. -/
noncomputable def band : LinearConstraint ℝ where
  id := "band"
  terms := [{ kind := .busInjection, element := .id 1, coefficient := 1 }]
  lower := none
  upper := some 60

noncomputable def bandRow : LinearRow ℝ 1 0 where
  id := "band"
  flow := [(0, 1)]
  generation := []
  lowerMw := none
  upperMw := some 60

noncomputable def point : Column twoBuses → ℝ
  | .va i => if i.val = 0 then 1 else 0
  | .f _ => 1
  | _ => 0

theorem source_one : twoBuses.buses.source (.id 1) = some (0 : Fin 2) := by decide

theorem finRange_one : List.finRange 1 = [0] := rfl

theorem incident_one : incident twoBuses (0 : Fin 2) = [((0 : Fin 1), 1)] := by
  simp [incident, finRange_one]

theorem band_term : addTerm twoBuses "band" (fun _ => none, fun _ => none)
    { kind := .busInjection, element := .id 1, coefficient := 1 } =
      .ok (fun _ => some 1, fun _ => none) := by
  have hflow : Coefficients.add (fun _ : Fin 1 => none) 0 (1 * 1 : ℝ) = fun _ => some 1 := by
    funext e
    simp [Coefficients.add, Fin.fin_one_eq_zero e]
  have hfinite : ¬ ¬ Binary64.isFinite (1 : ℝ) := fun h => h rfl
  rw [addTerm]
  dsimp only
  rw [if_neg hfinite, source_one]
  dsimp only
  rw [incident_one, List.foldl_cons, List.foldl_nil]
  exact congrArg (fun flow => Except.ok (flow, fun _ => none)) hflow

theorem band_resolved : resolveConstraint twoBuses [] band = .ok bandRow := by
  have hlimits : checkLimits band = .ok () := by
    simp [checkLimits, band, Binary64.isFinite]
  have hterms : band.terms.foldlM (addTerm twoBuses "band") (fun _ => none, fun _ => none) =
      .ok (fun _ => some 1, fun _ => none) := by
    change (addTerm twoBuses "band" _ _ >>= fun combined => pure combined) = _
    rw [band_term]
    rfl
  have hflow : nonzero "band" (fun _ : Fin 1 => some (1 : ℝ)) = .ok [(0, 1)] := by
    simp [nonzero, finRange_one, Binary64.eq, Binary64.isFinite]
  have hgeneration : nonzero "band" (fun _ : Fin 0 => (none : Option ℝ)) = .ok [] := by
    simp [nonzero]
  have hid : ¬ band.id.isEmpty := by
    change ¬ "band".isEmpty
    decide
  rw [resolveConstraint]
  simp only [ite_error_eq_ok, bind_eq_ok, pure_eq_ok]
  refine ⟨hid, List.not_mem_nil, (), hlimits, Bool.false_ne_true, _, hterms, _, hflow, _,
    hgeneration, ?_, rfl⟩
  exact fun h => Bool.false_ne_true h.1

theorem band_accepted : applyLinearConstraints twoBuses [band] = .ok [bandRow] := by
  rw [applyLinearConstraints, resolveConstraints, band_resolved]
  rfl

theorem leaving_point (i : Fin 2) : currentFixedWithdrawal twoBuses i = if i = 0 then -1 else 1 := by
  have hphase : phaseWithdrawal twoBuses i = 0 := by
    rw [phaseWithdrawal_eq]
    simp [currentFlowOffset]
  have hhvdc : twoBuses.hvdcInjection i = if i = 0 then 1 else -1 := rfl
  rw [currentFixedWithdrawal, networkWithdrawal, hphase, hhvdc]
  by_cases hi : i = 0 <;> simp [hi]

theorem point_balanced : Balanced twoBuses [bandRow] point := by
  have hangle : ∀ e : Fin 1, @weight twoBuses e *
      (point (.va (twoBuses.brFrom e)) - point (.va (twoBuses.brTo e))) = 1 := by
    intro e
    simp [weight, point]
  constructor
  case balance =>
    intro i value hvalue
    rw [eq_of_rhs_balance hvalue, rowSum_programEntries point (balance_ne_linear i), rowSum_balance,
      leaving_point, Finset.sum_congr rfl fun e _ => by rw [hangle e]]
    have hshed : shed point i = 0 := by simp [shed, sheddable, shedCap, Binary64.lt]
    have hgeneration : generationAt point i = 0 := by simp [generationAt]
    rw [hshed, hgeneration]
    match i with
    | ⟨0, _⟩ => simp
    | ⟨1, _⟩ => simp
  case flow =>
    intro e value hvalue
    rw [eq_of_rhs_flow hvalue, rowSum_programEntries point (flow_ne_linear e), rowSum_flow, hangle]
    simp [point, currentFlowOffset]

theorem value_point : bandRow.evaluate (fun e => point (.f e)) (fun j => point (.pg j)) = 1 := by
  rw [LinearRow.evaluate, sum_real, sum_real]
  simp [bandRow, point]

/-- The row reads 100 MW where generation less demand and shunt withdrawal is nothing. -/
theorem band_misread : applyLinearConstraints twoBuses [band] = .ok [bandRow] ∧
    Balanced twoBuses [bandRow] point ∧
    twoBuses.baseMva * bandRow.evaluate (fun e => point (.f e)) (fun j => point (.pg j)) ≠
      (band.terms.map fun term => term.coefficient * quantity point term).sum := by
  refine ⟨band_accepted, point_balanced, ?_⟩
  have hquantity : quantity point { kind := .busInjection, element := .id 1, coefficient := 1 } = 0 := by
    rw [quantity]
    dsimp only
    rw [source_one, Option.elim_some]
    simp [busInjection, generationAt]
  rw [value_point]
  simp [band, hquantity]

theorem constraint_value_iff_band :
    (Enforced twoBuses [bandRow] 0 point ↔
      (∀ limit, band.upper = some limit →
        bandRow.evaluate (fun e => point (.f e)) (fun j => point (.pg j)) ≤ limit / 100) ∧
      ∀ limit, band.lower = some limit →
        limit / 100 ≤ bandRow.evaluate (fun e => point (.f e)) (fun j => point (.pg j))) ∧
    (100 * bandRow.evaluate (fun e => point (.f e)) (fun j => point (.pg j)) =
        (band.terms.map fun term => term.coefficient * quantity point term).sum ↔
      (band.terms.map fun term => term.coefficient * surplusOf point term).sum = 0) :=
  (constraint_value_iff band_accepted point_balanced).2 0 band bandRow rfl rfl

end Sample

end Tellegen.Dc
