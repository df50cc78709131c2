import Tellegen.ConicLayout

/-!
What the assembled conic program says of a point, over the reals. A row of the
program is the sum of the calls on that row, because no other row has its number.
-/

set_option linter.unusedSectionVars false

open Binary64 Blocks

namespace Tellegen.Ac

section Exact

variable [DecimalText ℝ]

noncomputable instance Tangent.exactReal : Tangent ℝ := ⟨Real.tan, Real.pi⟩

/-! ### Points of a program -/

def InCone : Cone → (ℕ → ℝ) → Prop
  | .zero dim, s => ∀ i < dim, s i = 0
  | .nonnegative dim, s => ∀ i < dim, 0 ≤ s i
  | .secondOrder dim, s => Real.sqrt (∑ i ∈ Finset.range (dim - 1), s (i + 1) ^ 2) ≤ s 0

def InCones : List Cone → ℕ → (ℕ → ℝ) → Prop
  | [], _, _ => True
  | cone :: rest, start, s => InCone cone (fun i => s (start + i)) ∧ InCones rest (start + cone.dim) s

namespace OpfProgram

/-- What a point leaves of the right-hand side of a row. -/
noncomputable def slack (prog : OpfProgram ℝ) (x : ℕ → ℝ) (row : ℕ) : ℝ :=
  prog.b row - (prog.a.map fun (r, c, v) => if r = row then v * x c else 0).sum

def Feasible (prog : OpfProgram ℝ) (x : ℕ → ℝ) : Prop := InCones prog.cones 0 (prog.slack x)

noncomputable def objective (prog : OpfProgram ℝ) (x : ℕ → ℝ) : ℝ :=
  (prog.p.map fun (i, j, v) => v * x i * x j).sum / 2 + ∑ c ∈ Finset.range prog.nvar, prog.q c * x c

end OpfProgram

theorem inCones_append {first second : List Cone} {start : ℕ} {s : ℕ → ℝ} :
    InCones (first ++ second) start s ↔
      InCones first start s ∧ InCones second (start + (first.map Cone.dim).sum) s := by
  induction first generalizing start with
  | nil => simp [InCones]
  | cons cone rest ih =>
    rw [List.cons_append, InCones, InCones, ih, List.map_cons, List.sum_cons, and_assoc,
      Nat.add_assoc]

theorem inCones_replicate {m d start : ℕ} {s : ℕ → ℝ}
    (h : ∀ e < m, InCone (.secondOrder d) fun i => s (start + d * e + i)) :
    InCones (List.replicate m (.secondOrder d)) start s := by
  induction m generalizing start with
  | zero => trivial
  | succ m ih =>
    rw [List.replicate_succ]
    constructor
    · simpa using h 0 (Nat.succ_pos m)
    · apply ih
      intro e he
      have hnext := h (e + 1) (Nat.succ_lt_succ he)
      have hstart : start + d * (e + 1) = start + d + d * e := by ring
      rw [hstart] at hnext
      exact hnext

/-! ### Calls on a row -/

section Calls

variable {R C : Type}

open Classical in
noncomputable def contribution (row : R) (x : C → ℝ) : Entry R C ℝ → ℝ
  | .a r c v => if r = row then v * x c else 0
  | _ => 0

noncomputable def rowSum (entries : List (Entry R C ℝ)) (row : R) (x : C → ℝ) : ℝ :=
  (entries.map (contribution row x)).sum

noncomputable def price (x : C → ℝ) : Entry R C ℝ → ℝ
  | .quad c v => v * x c * x c / 2
  | .lin c v => v * x c
  | _ => 0

noncomputable def priceSum (entries : List (Entry R C ℝ)) (x : C → ℝ) : ℝ :=
  (entries.map (price x)).sum

@[simp] theorem rowSum_nil (r : R) (x : C → ℝ) : rowSum [] r x = 0 := rfl

@[simp] theorem rowSum_cons (entry : Entry R C ℝ) (rest : List (Entry R C ℝ)) (r : R) (x : C → ℝ) :
    rowSum (entry :: rest) r x = contribution r x entry + rowSum rest r x := by
  rw [rowSum, List.map_cons, List.sum_cons, ← rowSum]

@[simp] theorem rowSum_append (first second : List (Entry R C ℝ)) (r : R) (x : C → ℝ) :
    rowSum (first ++ second) r x = rowSum first r x + rowSum second r x := by
  rw [rowSum, List.map_append, List.sum_append]
  rfl

@[simp] theorem rowSum_flatMap {n : ℕ} (f : Fin n → List (Entry R C ℝ)) (r : R) (x : C → ℝ) :
    rowSum ((List.finRange n).flatMap f) r x = ∑ i, rowSum (f i) r x := by
  rw [Fin.sum_univ_def]
  induction List.finRange n with
  | nil => rfl
  | cons i rest ih => rw [List.flatMap_cons, rowSum_append, ih, List.map_cons, List.sum_cons]

@[simp] theorem rowSum_ite {p : Prop} [Decidable p] (first second : List (Entry R C ℝ)) (r : R)
    (x : C → ℝ) :
    rowSum (if p then first else second) r x = if p then rowSum first r x else rowSum second r x :=
  apply_ite (fun entries => rowSum entries r x) p first second

@[simp] theorem rowSum_dite {p : Prop} [Decidable p] (first : p → List (Entry R C ℝ))
    (second : ¬p → List (Entry R C ℝ)) (r : R) (x : C → ℝ) :
    rowSum (if h : p then first h else second h) r x =
      if h : p then rowSum (first h) r x else rowSum (second h) r x :=
  apply_dite (fun entries => rowSum entries r x) p first second

theorem rowSum_eq_zero {entries : List (Entry R C ℝ)} {r : R} {x : C → ℝ}
    (h : ∀ entry ∈ entries, contribution r x entry = 0) : rowSum entries r x = 0 := by
  apply List.sum_eq_zero
  intro value hvalue
  obtain ⟨entry, hentry, rfl⟩ := List.mem_map.mp hvalue
  exact h entry hentry

@[simp] theorem priceSum_nil (x : C → ℝ) : priceSum ([] : List (Entry R C ℝ)) x = 0 := rfl

@[simp] theorem priceSum_cons (entry : Entry R C ℝ) (rest : List (Entry R C ℝ)) (x : C → ℝ) :
    priceSum (entry :: rest) x = price x entry + priceSum rest x := by
  rw [priceSum, List.map_cons, List.sum_cons, ← priceSum]

@[simp] theorem priceSum_append (first second : List (Entry R C ℝ)) (x : C → ℝ) :
    priceSum (first ++ second) x = priceSum first x + priceSum second x := by
  rw [priceSum, List.map_append, List.sum_append]
  rfl

@[simp] theorem priceSum_flatMap {n : ℕ} (f : Fin n → List (Entry R C ℝ)) (x : C → ℝ) :
    priceSum ((List.finRange n).flatMap f) x = ∑ i, priceSum (f i) x := by
  rw [Fin.sum_univ_def]
  induction List.finRange n with
  | nil => rfl
  | cons i rest ih => rw [List.flatMap_cons, priceSum_append, ih, List.map_cons, List.sum_cons]

@[simp] theorem priceSum_ite {p : Prop} [Decidable p] (first second : List (Entry R C ℝ))
    (x : C → ℝ) :
    priceSum (if p then first else second) x = if p then priceSum first x else priceSum second x :=
  apply_ite (fun entries => priceSum entries x) p first second

@[simp] theorem priceSum_dite {p : Prop} [Decidable p] (first : p → List (Entry R C ℝ))
    (second : ¬p → List (Entry R C ℝ)) (x : C → ℝ) :
    priceSum (if h : p then first h else second h) x =
      if h : p then priceSum (first h) x else priceSum (second h) x :=
  apply_dite (fun entries => priceSum entries x) p first second

variable (row : R → ℕ) (column : C → ℕ)

theorem foldl_add_a (hrow : row.Injective) (x : ℕ → ℝ) (r : R) (entries : List (Entry R C ℝ))
    (builder : ProgramBuilder ℝ) :
    ((entries.foldl (ProgramBuilder.add row column) builder).a.map
        fun (i, c, v) => if i = row r then v * x c else 0).sum =
      (builder.a.map fun (i, c, v) => if i = row r then v * x c else 0).sum +
        rowSum entries r fun c => x (column c) := by
  induction entries generalizing builder with
  | nil => simp [rowSum]
  | cons entry rest ih =>
    rw [List.foldl_cons, ih, rowSum_cons, ← add_assoc]
    congr 1
    cases entry with
    | a i c v =>
      simp only [ProgramBuilder.add, contribution]
      split
      case isTrue hzero =>
        have hv : v = 0 := of_decide_eq_true hzero
        rw [hv]
        simp
      case isFalse =>
        rw [List.map_append, List.sum_append]
        by_cases hi : i = r
        · simp [hi]
        · have hne : row i ≠ row r := fun heq => hi (hrow heq)
          simp [hi, hne]
    | quad c v =>
      simp only [ProgramBuilder.add, contribution]
      split <;> simp
    | lin c v => simp [ProgramBuilder.add, contribution]
    | rhs i v => simp [ProgramBuilder.add, contribution]

theorem foldl_add_b (hrow : row.Injective) {r : R} {value : ℝ} {entries : List (Entry R C ℝ)}
    (hall : ∀ v, .rhs r v ∈ entries → v = value) (builder : ProgramBuilder ℝ)
    (h : .rhs r value ∈ entries ∨ builder.b (row r) = value) :
    (entries.foldl (ProgramBuilder.add row column) builder).b (row r) = value := by
  induction entries generalizing builder with
  | nil => simpa using h
  | cons entry rest ih =>
    rw [List.foldl_cons]
    apply ih fun v hv => hall v (List.mem_cons_of_mem _ hv)
    cases entry with
    | rhs i v =>
      by_cases hi : i = r
      · subst hi
        obtain rfl := hall v List.mem_cons_self
        exact .inr (Function.update_self _ _ _)
      · have hne : row r ≠ row i := fun heq => hi (hrow heq.symm)
        rcases h with hmem | hb
        · rcases List.mem_cons.mp hmem with hhead | htail
          · cases hhead
            exact absurd rfl hi
          · exact .inl htail
        · exact .inr (by rw [← hb]; exact Function.update_of_ne hne _ _)
    | quad c v =>
      rcases h with hmem | hb
      · exact .inl ((List.mem_cons.mp hmem).resolve_left (by simp))
      · refine .inr ?_
        simp only [ProgramBuilder.add]
        split <;> exact hb
    | lin c v =>
      rcases h with hmem | hb
      · exact .inl ((List.mem_cons.mp hmem).resolve_left (by simp))
      · exact .inr hb
    | a i c v =>
      rcases h with hmem | hb
      · exact .inl ((List.mem_cons.mp hmem).resolve_left (by simp))
      · refine .inr ?_
        simp only [ProgramBuilder.add]
        split <;> exact hb

theorem foldl_add_size (entries : List (Entry R C ℝ)) (builder : ProgramBuilder ℝ) :
    (entries.foldl (ProgramBuilder.add row column) builder).nvar = builder.nvar ∧
      (entries.foldl (ProgramBuilder.add row column) builder).ncon = builder.ncon := by
  induction entries generalizing builder with
  | nil => exact ⟨rfl, rfl⟩
  | cons entry rest ih =>
    rw [List.foldl_cons, (ih _).1, (ih _).2]
    cases entry with
    | quad c v | a i c v =>
      simp only [ProgramBuilder.add]
      split <;> exact ⟨rfl, rfl⟩
    | lin c v | rhs i v => exact ⟨rfl, rfl⟩

theorem foldl_add_price (x : ℕ → ℝ) {nvar : ℕ} (hcolumn : ∀ c, column c < nvar)
    (entries : List (Entry R C ℝ)) (builder : ProgramBuilder ℝ) :
    ((entries.foldl (ProgramBuilder.add row column) builder).p.map
        fun (i, j, v) => v * x i * x j).sum / 2 +
        ∑ c ∈ Finset.range nvar, (entries.foldl (ProgramBuilder.add row column) builder).q c * x c =
      (builder.p.map fun (i, j, v) => v * x i * x j).sum / 2 +
        ∑ c ∈ Finset.range nvar, builder.q c * x c + priceSum entries fun c => x (column c) := by
  induction entries generalizing builder with
  | nil => simp [priceSum]
  | cons entry rest ih =>
    rw [List.foldl_cons, ih, priceSum_cons, ← add_assoc]
    congr 1
    cases entry with
    | quad c v =>
      simp only [ProgramBuilder.add, price]
      split
      case isTrue hzero =>
        have hv : v = 0 := of_decide_eq_true hzero
        rw [hv]
        simp
      case isFalse =>
        rw [List.map_append, List.sum_append]
        simp only [List.map_cons, List.map_nil, List.sum_cons, List.sum_nil, add_zero]
        ring
    | lin c v =>
      have hmem : column c ∈ Finset.range nvar := Finset.mem_range.mpr (hcolumn c)
      have hupdate : ∑ i ∈ Finset.range nvar,
          Function.update builder.q (column c) (builder.q (column c) + v) i * x i =
            ∑ i ∈ Finset.range nvar, builder.q i * x i + v * x (column c) := by
        rw [← Finset.add_sum_erase _ _ hmem, ← Finset.add_sum_erase _ _ hmem,
          Function.update_self]
        have hrest : ∑ i ∈ (Finset.range nvar).erase (column c),
            Function.update builder.q (column c) (builder.q (column c) + v) i * x i =
              ∑ i ∈ (Finset.range nvar).erase (column c), builder.q i * x i := by
          apply Finset.sum_congr rfl
          intro i hi
          rw [Function.update_of_ne (Finset.ne_of_mem_erase hi)]
        rw [hrest]
        ring
      simp only [ProgramBuilder.add, price]
      rw [hupdate]
      ring
    | a i c v =>
      simp only [ProgramBuilder.add, price]
      split <;> simp
    | rhs i v => simp [ProgramBuilder.add, price]

end Calls

/-! ### The assembled program -/

open SocWrLayout

section Assembled

variable (net : AcNetwork ℝ)

noncomputable def rhsOf : Row net → ℝ
  | .pbal i => net.pd i
  | .qbal i => net.qd i
  | .wub i => if net.voltageBoundActive i then net.vmMax i * net.vmMax i else 1
  | .wlb i => if net.voltageBoundActive i then -net.vmMin i * net.vmMin i else 1
  | .pgub g => if net.generatorCapabilityActive g then net.pmax g else 1
  | .pglb g => if net.generatorCapabilityActive g then -net.pmin g else 1
  | .qgub g => if net.generatorCapabilityActive g then net.qmax g else 1
  | .qglb g => if net.generatorCapabilityActive g then -net.qmin g else 1
  | .angub e | .anglb e => if conicAngleBoundActive net e then 0 else 1
  | .costSegment g s => -(segment net g s).2
  | .sf e _ part | .st e _ part => if part = 0 then net.rateA e else 0
  | _ => 0

/-- A call that sets a right-hand side sets it to the value of its row. -/
def States : ConicEntry net → Prop
  | .rhs r v => v = rhsOf net r
  | _ => True

theorem states_of_mem : ∀ entry ∈ conicEntries net, States net entry := by
  simp only [conicEntries, List.forall_mem_append, List.forall_mem_flatMap]
  refine ⟨⟨⟨⟨⟨⟨⟨⟨⟨?_, ?_⟩, ?_⟩, ?_⟩, ?_⟩, ?_⟩, ?_⟩, ?_⟩, ?_⟩, ?_⟩
  · intro g _
    rw [objectiveEntries]
    split <;> simp [States]
  · intro i _
    simp [balanceEntries, States, rhsOf]
  · intro g _
    simp [generatorEntries, States]
  · intro e _
    simp [branchEntries, States]
  · intro g _
    rw [costEntries]
    split
    case isTrue h =>
      rw [List.forall_mem_flatMap]
      intro s _
      simp [States, rhsOf]
    case isFalse h => simp
  · intro i _
    rw [voltageEntries]
    split
    case isTrue h => simp [States, rhsOf, h]
    case isFalse h => simp [States, rhsOf, h]
  · intro g _
    rw [capabilityEntries]
    split
    case isTrue h => simp [States, rhsOf, h]
    case isFalse h => simp [States, rhsOf, h]
  · intro e _
    rw [angleEntries]
    split
    case isTrue h => simp [States, rhsOf, h]
    case isFalse h => simp [States, rhsOf, h]
  · intro e _
    simp [jabrEntries, States]
  · intro e _
    rw [thermalEntries]
    split
    case isTrue h => simp [States, rhsOf]
    case isFalse h => simp

theorem isSome_of_segment {g : Fin net.k} (s : Fin (segmentCount net g)) :
    (net.piecewiseCosts g).isSome = true := by
  by_contra h
  have hs := s.isLt
  have hnone := Option.not_isSome_iff_eq_none.mp h
  simp [segmentCount, hnone] at hs

theorem rhsOf_mem (r : Row net) : .rhs r (rhsOf net r) ∈ conicEntries net ∨ rhsOf net r = 0 := by
  simp only [conicEntries, List.mem_append, List.mem_flatMap, List.mem_finRange, true_and]
  cases r with
  | pbal i | qbal i =>
    refine .inl (.inl (.inl (.inl (.inl (.inl (.inl (.inl (.inl (.inr ⟨i, ?_⟩)))))))))
    simp [balanceEntries, rhsOf]
  | ohmPf e | ohmQf e | ohmPt e | ohmQt e | jabr e part => exact .inr rfl
  | wub i | wlb i =>
    refine .inl (.inl (.inl (.inl (.inl (.inr ⟨i, ?_⟩)))))
    by_cases h : net.voltageBoundActive i = true <;> simp [voltageEntries, rhsOf, h]
  | pgub g | pglb g | qgub g | qglb g =>
    refine .inl (.inl (.inl (.inl (.inr ⟨g, ?_⟩))))
    by_cases h : net.generatorCapabilityActive g = true <;> simp [capabilityEntries, rhsOf, h]
  | angub e | anglb e =>
    refine .inl (.inl (.inl (.inr ⟨e, ?_⟩)))
    by_cases h : conicAngleBoundActive net e = true <;> simp [angleEntries, rhsOf, h]
  | costSegment g s =>
    refine .inl (.inl (.inl (.inl (.inl (.inl (.inr ⟨g, ?_⟩))))))
    have hsome := isSome_of_segment net s
    simp [costEntries, hsome, rhsOf]
  | sf e h part | st e h part =>
    by_cases hpart : part = 0
    · refine .inl (.inr ⟨e, ?_⟩)
      simp [thermalEntries, h, rhsOf, hpart]
    · exact .inr (if_neg hpart)

noncomputable def rowSlack (x : Column net → ℝ) (r : Row net) : ℝ :=
  rhsOf net r - rowSum (conicEntries net) r x

theorem slack_index (x : ℕ → ℝ) (r : Row net) :
    (assembleConicOpf net).slack x r.index = rowSlack net (fun c => x c.index) r := by
  have hrow : (Row.index : Row net → ℕ).Injective := (fills_rows net).injective
  have ha := foldl_add_a _ Column.index hrow x r (conicEntries net)
    (ProgramBuilder.new (nvar net) (ncon net))
  have hb : (assembleConicOpf net).b r.index = rhsOf net r := by
    apply foldl_add_b _ _ hrow
    · intro v hv
      exact states_of_mem net _ hv
    · exact (rhsOf_mem net r).imp id Eq.symm
  have hstart : ((ProgramBuilder.new (nvar net) (ncon net)).a.map
      fun (i, c, v) => if i = r.index then v * x c else (0 : ℝ)).sum = 0 := rfl
  rw [hstart, zero_add] at ha
  rw [OpfProgram.slack, rowSlack, hb]
  exact congrArg (rhsOf net r - ·) ha

theorem assembled_nvar : (assembleConicOpf net).nvar = nvar net :=
  (foldl_add_size _ _ (conicEntries net) _).1

theorem assembled_ncon : (assembleConicOpf net).ncon = ncon net :=
  (foldl_add_size _ _ (conicEntries net) _).2

theorem objective_eq (x : ℕ → ℝ) :
    (assembleConicOpf net).objective x = priceSum (conicEntries net) fun c => x c.index := by
  have hprice := foldl_add_price Row.index _ x
    (fun c => ((fills_columns net).within c).2) (conicEntries net)
    (ProgramBuilder.new (nvar net) (ncon net))
  rw [OpfProgram.objective, assembled_nvar]
  refine hprice.trans ?_
  simp [ProgramBuilder.new]

/-! ### What the rows say -/

section Rows

variable (x : Column net → ℝ)

attribute [local simp] rowSlack rhsOf conicEntries objectiveEntries balanceEntries generatorEntries
  branchEntries costEntries voltageEntries capabilityEntries angleEntries jabrEntries thermalEntries
  contribution

theorem rowSlack_pbal (i : Fin net.n) : rowSlack net x (.pbal i) =
    net.pd i + net.gs i * x (.w i) - (∑ g, if net.genBus g = i then x (.pg g) else 0) +
      ∑ e, ((if net.brFrom e = i then x (.pf e) else 0) +
        if net.brTo e = i then x (.pt e) else 0) := by
  have hflow : ∀ (p : Prop) [Decidable p] (a : ℝ),
      (if p then -a else 0) = -(if p then a else 0) := by
    intro p _ a
    split <;> simp
  simp [hflow, Finset.sum_add_distrib]
  ring

theorem rowSlack_qbal (i : Fin net.n) : rowSlack net x (.qbal i) =
    net.qd i - net.bs i * x (.w i) - (∑ g, if net.genBus g = i then x (.qg g) else 0) +
      ∑ e, ((if net.brFrom e = i then x (.qf e) else 0) +
        if net.brTo e = i then x (.qt e) else 0) := by
  have hflow : ∀ (p : Prop) [Decidable p] (a : ℝ),
      (if p then -a else 0) = -(if p then a else 0) := by
    intro p _ a
    split <;> simp
  simp [hflow, Finset.sum_add_distrib]
  ring

/-- The coefficients of the products of the voltages in the Ohm rows, before the division by the
squared tap. -/
noncomputable def ohmAlong (sign : ℝ) (e : Fin net.m) : ℝ :=
  -net.g e * (net.tap e * Libm.cos (net.shift e)) +
    sign * (net.b e * (net.tap e * Libm.sin (net.shift e)))

noncomputable def ohmAcross (sign : ℝ) (e : Fin net.m) : ℝ :=
  -net.b e * (net.tap e * Libm.cos (net.shift e)) -
    sign * (net.g e * (net.tap e * Libm.sin (net.shift e)))

theorem rowSlack_ohmPf (e : Fin net.m) : rowSlack net x (.ohmPf e) =
    ((net.g e + net.gFr e) * x (.w (net.brFrom e)) + ohmAlong net 1 e * x (.wr e) +
      ohmAcross net 1 e * x (.wi e)) / (net.tap e * net.tap e) - x (.pf e) := by
  simp
  rw [Finset.sum_eq_single e (by intro other _ hne; simp [hne]) (by simp), ohmAlong, ohmAcross]
  simp
  ring

theorem rowSlack_ohmQf (e : Fin net.m) : rowSlack net x (.ohmQf e) =
    (-(net.b e + net.bFr e) * x (.w (net.brFrom e)) - ohmAcross net 1 e * x (.wr e) +
      ohmAlong net 1 e * x (.wi e)) / (net.tap e * net.tap e) - x (.qf e) := by
  simp
  rw [Finset.sum_eq_single e (by intro other _ hne; simp [hne]) (by simp), ohmAlong, ohmAcross]
  simp
  ring

theorem rowSlack_ohmPt (e : Fin net.m) : rowSlack net x (.ohmPt e) =
    (net.g e + net.gTo e) * x (.w (net.brTo e)) + (ohmAlong net (-1) e * x (.wr e) -
      ohmAcross net (-1) e * x (.wi e)) / (net.tap e * net.tap e) - x (.pt e) := by
  simp
  rw [Finset.sum_eq_single e (by intro other _ hne; simp [hne]) (by simp), ohmAlong, ohmAcross]
  simp
  ring

theorem rowSlack_ohmQt (e : Fin net.m) : rowSlack net x (.ohmQt e) =
    -(net.b e + net.bTo e) * x (.w (net.brTo e)) - (ohmAcross net (-1) e * x (.wr e) +
      ohmAlong net (-1) e * x (.wi e)) / (net.tap e * net.tap e) - x (.qt e) := by
  simp
  rw [Finset.sum_eq_single e (by intro other _ hne; simp [hne]) (by simp), ohmAlong, ohmAcross]
  simp
  ring

theorem rowSlack_wub (i : Fin net.n) : rowSlack net x (.wub i) =
    if net.voltageBoundActive i then net.vmMax i * net.vmMax i - x (.w i) else 1 := by
  simp
  rw [Finset.sum_eq_single i (by intro other _ hne; simp [hne]) (by simp)]
  split <;> simp

theorem rowSlack_wlb (i : Fin net.n) : rowSlack net x (.wlb i) =
    if net.voltageBoundActive i then x (.w i) - net.vmMin i * net.vmMin i else 1 := by
  simp
  rw [Finset.sum_eq_single i (by intro other _ hne; simp [hne]) (by simp)]
  split
  · simp
    ring
  · simp

theorem rowSlack_pgub (g : Fin net.k) : rowSlack net x (.pgub g) =
    if net.generatorCapabilityActive g then net.pmax g - x (.pg g) else 1 := by
  simp
  rw [Finset.sum_eq_single g (by intro other _ hne; simp [hne]) (by simp)]
  split <;> simp

theorem rowSlack_pglb (g : Fin net.k) : rowSlack net x (.pglb g) =
    if net.generatorCapabilityActive g then x (.pg g) - net.pmin g else 1 := by
  simp
  rw [Finset.sum_eq_single g (by intro other _ hne; simp [hne]) (by simp)]
  split
  · simp
    ring
  · simp

theorem rowSlack_qgub (g : Fin net.k) : rowSlack net x (.qgub g) =
    if net.generatorCapabilityActive g then net.qmax g - x (.qg g) else 1 := by
  simp
  rw [Finset.sum_eq_single g (by intro other _ hne; simp [hne]) (by simp)]
  split <;> simp

theorem rowSlack_qglb (g : Fin net.k) : rowSlack net x (.qglb g) =
    if net.generatorCapabilityActive g then x (.qg g) - net.qmin g else 1 := by
  simp
  rw [Finset.sum_eq_single g (by intro other _ hne; simp [hne]) (by simp)]
  split
  · simp
    ring
  · simp

theorem rowSlack_angub (e : Fin net.m) : rowSlack net x (.angub e) =
    if conicAngleBoundActive net e then
      Tangent.tan (net.angmax e) * x (.wr e) - x (.wi e) else 1 := by
  simp
  rw [Finset.sum_eq_single e (by intro other _ hne; simp [hne]) (by simp)]
  split
  · simp
    ring
  · simp

theorem rowSlack_anglb (e : Fin net.m) : rowSlack net x (.anglb e) =
    if conicAngleBoundActive net e then
      x (.wi e) - Tangent.tan (net.angmin e) * x (.wr e) else 1 := by
  simp
  rw [Finset.sum_eq_single e (by intro other _ hne; simp [hne]) (by simp)]
  split
  · simp
    ring
  · simp

theorem rowSlack_costSegment (g : Fin net.k) (s : Fin (segmentCount net g)) :
    rowSlack net x (.costSegment g s) =
      x (.cost g (isSome_of_segment net s)) - (segment net g s).1 * x (.pg g) -
        (segment net g s).2 := by
  have hother : ∀ {i : Fin net.k} {s' : Fin (segmentCount net i)}, i ≠ g →
      Row.costSegment i s' ≠ Row.costSegment g s := by
    intro i s' hne heq
    exact hne (Row.costSegment.inj heq).1
  have hsame : ∀ s' : Fin (segmentCount net g),
      Row.costSegment g s' = Row.costSegment g s ↔ s' = s := by
    intro s'
    constructor
    · intro heq
      exact eq_of_heq (Row.costSegment.inj heq).2
    · rintro rfl
      rfl
  simp
  rw [Finset.sum_eq_single g (by intro other _ hne; simp [hother hne]) (by simp),
    dif_pos (isSome_of_segment net s),
    Finset.sum_eq_single s (by intro other _ hne; simp [hsame, hne]) (by simp)]
  simp
  ring

theorem rowSlack_jabr (e : Fin net.m) (part : Fin 4) : rowSlack net x (.jabr e part) =
    ![(x (.w (net.brFrom e)) + x (.w (net.brTo e))) / 2, x (.wr e), x (.wi e),
      (x (.w (net.brFrom e)) - x (.w (net.brTo e))) / 2] part := by
  have hhalf : (lit (2⁻¹ : ℚ) : ℝ) = 2⁻¹ := by
    change ((2⁻¹ : ℚ) : ℝ) = 2⁻¹
    norm_num
  simp
  rw [Finset.sum_eq_single e (by intro other _ hne; simp [hne]) (by simp)]
  fin_cases part <;> simp [hhalf] <;> ring

theorem rowSlack_sf (e : Fin net.m) (h : net.thermalLimitActive e = true) (part : Fin 3) :
    rowSlack net x (.sf e h part) = ![net.rateA e, x (.pf e), x (.qf e)] part := by
  simp
  rw [Finset.sum_eq_single e (by intro other _ hne; simp [hne]) (by simp)]
  fin_cases part <;> simp [h]

theorem rowSlack_st (e : Fin net.m) (h : net.thermalLimitActive e = true) (part : Fin 3) :
    rowSlack net x (.st e h part) = ![net.rateA e, x (.pt e), x (.qt e)] part := by
  simp
  rw [Finset.sum_eq_single e (by intro other _ hne; simp [hne]) (by simp)]
  fin_cases part <;> simp [h]

attribute [local simp] price

theorem priceSum_conicEntries : priceSum (conicEntries net) x =
    ∑ g, (net.cq g * x (.pg g) * x (.pg g) + net.cl g * x (.pg g) +
      if h : (net.piecewiseCosts g).isSome = true then x (.cost g h) else 0) := by
  have htwo : (lit (2 : ℚ) : ℝ) = 2 := by
    change ((2 : ℚ) : ℝ) = 2
    norm_num
  simp [htwo]
  apply Finset.sum_congr rfl
  intro g _
  ring

end Rows

end Assembled

end Exact

end Tellegen.Ac
