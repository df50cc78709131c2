import Tellegen.Sensitivity

/-!
One derivative by every route, in exact arithmetic. An exact factorization of
the regularised matrix and of its transpose makes the forward solve, the adjoint
solve and the gradient of a functional read the same inverse.
-/

set_option linter.unusedSectionVars false

open Binary64 Outcome Matrix

namespace Tellegen.Sens

/-! ### Positions of elements -/

theorem foldl_positions (l : List (ℕ × ℕ)) (start : ℕ → Option ℕ) (e pos : ℕ)
    (h : l.foldl (fun position (element, pos) => Function.update position element (some pos))
      start e = some pos) : (e, pos) ∈ l ∨ start e = some pos := by
  induction l generalizing start with
  | nil => exact .inr h
  | cons entry rest ih =>
    obtain ⟨element, other⟩ := entry
    rcases ih _ h with hmem | hstart
    · exact .inl (List.mem_cons_of_mem _ hmem)
    · by_cases he : e = element
      · subst he
        simp only [Function.update_self, Option.some.injEq] at hstart
        exact .inl (by simp [hstart])
      · exact .inr (by simpa [he] using hstart)

theorem positions_eq_some {elements : List ℕ} {e pos : ℕ} (h : positions elements e = some pos) :
    elements[pos]? = some e := by
  rcases foldl_positions _ _ _ _ h with hmem | hnone
  · exact List.mem_zipIdx_iff_getElem?.mp hmem
  · cases hnone

/-- The row of an element; of an element that is reported twice, the last one. -/
def SensitivityMatrix.row {F : Type} (m : SensitivityMatrix F) (element : ℕ) : Option ℕ :=
  positions (m.rows.map RowMeta.index) element

/-- The derivative of an element in one of the columns. -/
def SensitivityMatrix.value {F : Type} [Zero F] (m : SensitivityMatrix F) (element c : ℕ) : F :=
  ((m.row element).bind fun r => m.values[r]?.bind fun row => row[c]?).getD 0

theorem map_eq_of_forall₂ {α β γ : Type} {R : α → β → Prop} {l : List α} {m : List β}
    (h : List.Forall₂ R l m) {f : α → γ} {g : β → γ} (hfg : ∀ a b, R a b → f a = g b) :
    l.map f = m.map g := by
  induction h with
  | nil => rfl
  | cons hhead _ ih => rw [List.map_cons, List.map_cons, hfg _ _ hhead, ih]

theorem mapM_getElem? {α β ε : Type} {f : α → Except ε β} {l : List α} {bs : List β}
    (h : l.mapM f = .ok bs) {c : ℕ} {a : α} (ha : l[c]? = some a) :
    ∃ b, bs[c]? = some b ∧ f a = .ok b := by
  have hforall := forall₂_of_mapM_ok h
  obtain ⟨hlt, hget⟩ := List.getElem?_eq_some_iff.mp ha
  have hlt' : c < bs.length := by
    rw [← hforall.length_eq]
    exact hlt
  refine ⟨bs[c], List.getElem?_eq_getElem hlt', ?_⟩
  rw [← hget]
  exact hforall.get hlt hlt'

theorem mapM_singleton {α β ε : Type} {f : α → Except ε β} {a : α} {b : β} (h : f a = .ok b) :
    [a].mapM f = .ok [b] := by
  rw [List.mapM_cons, h]
  rfl

theorem foldlM_eq_ok {α σ ε : Type} {step : σ → α → Except ε σ} {next : σ → α → σ} {l : List α}
    (h : ∀ s, ∀ a ∈ l, step s a = .ok (next s a)) (s : σ) :
    l.foldlM step s = .ok (l.foldl next s) := by
  induction l generalizing s with
  | nil => rfl
  | cons a rest ih =>
    rw [List.foldlM_cons, h s a List.mem_cons_self]
    exact ih (fun s b hb => h s b (List.mem_cons_of_mem _ hb)) (next s a)

@[simp] theorem orError_eq_ok {α : Type} (failure : SensError) (option : Option α) (a : α) :
    orError failure option = .ok a ↔ option = some a := by
  cases option <;> simp [orError]

theorem gather_scaled {dim : ℕ} (weight : ℝ) (entries : List (Fin dim × ℝ)) :
    Triplets.gather (entries.map fun (entry : Fin dim × ℝ) => (entry.1, weight * entry.2)) =
      weight • Triplets.gather entries := by
  induction entries with
  | nil =>
    change (0 : Fin dim → ℝ) = weight • (0 : Fin dim → ℝ)
    rw [smul_zero]
  | cons entry rest ih =>
    obtain ⟨row, rowWeight⟩ := entry
    have hhead := Triplets.gather_cons row rowWeight rest
    have hscaled := Triplets.gather_cons row (weight * rowWeight)
      (rest.map fun entry => (entry.1, weight * entry.2))
    rw [List.map_cons]
    refine hscaled.trans ?_
    refine Eq.trans ?_ (congrArg (weight • ·) hhead).symm
    simp only [smul_add]
    congr 1
    rw [← Pi.single_smul, smul_eq_mul]

section Exact

variable [DecimalText ℝ] [SparseLu ℝ]

/-! ### The exact solve -/

variable {dim : ℕ}

/-- A factorization that solves the regularised matrix of the entries. -/
def Solves (triplets : List (Fin dim × Fin dim × ℝ)) (eps : ℝ) : Prop :=
  ∃ lu, SparseLu.spLu dim (regularised triplets eps) = .ok lu ∧
    ∀ b, Triplets.matrix (regularised triplets eps) *ᵥ SparseLu.solveInPlace lu b = b

theorem matrix_regularised_transpose (triplets : List (Fin dim × Fin dim × ℝ)) (eps : ℝ) :
    Triplets.matrix (regularised (Triplets.transpose triplets) eps) =
      (Triplets.matrix (regularised triplets eps))ᵀ := by
  rw [← Triplets.matrix_transpose]
  simp only [regularised]
  split
  · rfl
  · simp only [Triplets.transpose, List.map_append, List.map_map]
    rfl

theorem correct_solves {lu : SparseLu.Lu ℝ dim} {reg : List (Fin dim × Fin dim × ℝ)}
    (hlu : ∀ b, Triplets.matrix reg *ᵥ SparseLu.solveInPlace lu b = b) (x rhs : Mat ℝ dim)
    (hlength : x.length = rhs.length) :
    List.Forall₂ (fun x b => Triplets.matrix reg *ᵥ x = b)
      (List.zipWith (fun x r i => x i + r i) x
        ((List.zipWith (Triplets.residual reg) x rhs).map (SparseLu.solveInPlace lu))) rhs := by
  induction x generalizing rhs with
  | nil =>
    obtain rfl := List.eq_nil_of_length_eq_zero hlength.symm
    exact .nil
  | cons x xs ih =>
    cases rhs with
    | nil => cases hlength
    | cons b bs =>
      rw [List.zipWith_cons_cons, List.map_cons, List.zipWith_cons_cons]
      apply List.Forall₂.cons
      · apply Triplets.solves_refined
        rw [hlu]
        exact Triplets.residual_eq reg x b
      · exact ih bs (Nat.succ.inj hlength)

theorem refine_solves {lu : SparseLu.Lu ℝ dim} {reg : List (Fin dim × Fin dim × ℝ)}
    (hlu : ∀ b, Triplets.matrix reg *ᵥ SparseLu.solveInPlace lu b = b) (tol : ℝ)
    (rest : ℕ) (prev : ℝ) {x rhs : Mat ℝ dim}
    (h : List.Forall₂ (fun x b => Triplets.matrix reg *ᵥ x = b) x rhs) :
    List.Forall₂ (fun x b => Triplets.matrix reg *ᵥ x = b)
      (refine lu reg rhs tol rest prev x) rhs := by
  induction rest generalizing prev x with
  | zero => exact h
  | succ rest ih =>
    rw [refine]
    split
    · exact h
    · exact ih _ (correct_solves hlu x rhs h.length_eq)

theorem solveRefined_solves {triplets : List (Fin dim × Fin dim × ℝ)} {spec : SolveSpec ℝ}
    (h : Solves triplets spec.eps) (rhs : Mat ℝ dim) :
    ∃ x, solveRefined triplets rhs spec = .ok x ∧
      List.Forall₂ (fun x b => Triplets.matrix (regularised triplets spec.eps) *ᵥ x = b)
        x rhs := by
  obtain ⟨lu, hlu, hsolve⟩ := h
  simp only [solveRefined, hlu]
  refine ⟨_, rfl, ?_⟩
  apply refine_solves hsolve
  induction rhs with
  | nil => exact .nil
  | cons b rest ih => exact .cons (hsolve b) ih

theorem inverse_mulVec {triplets : List (Fin dim × Fin dim × ℝ)} {eps : ℝ}
    (h : Solves triplets eps) (b : Fin dim → ℝ) :
    Triplets.matrix (regularised triplets eps) *ᵥ
      ((Triplets.matrix (regularised triplets eps))⁻¹ *ᵥ b) = b := by
  obtain ⟨lu, -, hsolve⟩ := h
  have hsurjective : Function.Surjective (Triplets.matrix (regularised triplets eps)).mulVec :=
    fun b => ⟨_, hsolve b⟩
  have hunit : IsUnit (Triplets.matrix (regularised triplets eps)) :=
    Matrix.mulVec_surjective_iff_isUnit.mp hsurjective
  rw [Matrix.mulVec_mulVec,
    Matrix.mul_nonsing_inv _ ((Matrix.isUnit_iff_isUnit_det _).mp hunit), Matrix.one_mulVec]

/-- What a functional of the solution is at a right-hand side. -/
noncomputable def response (triplets : List (Fin dim × Fin dim × ℝ)) (eps : ℝ)
    (s b : Fin dim → ℝ) : ℝ :=
  s ⬝ᵥ ((Triplets.matrix (regularised triplets eps))⁻¹ *ᵥ b)

theorem response_forward {triplets : List (Fin dim × Fin dim × ℝ)} {eps : ℝ}
    (htranspose : Solves (Triplets.transpose triplets) eps) (h : Solves triplets eps)
    {x b : Fin dim → ℝ} (hx : Triplets.matrix (regularised triplets eps) *ᵥ x = b)
    (s : Fin dim → ℝ) : s ⬝ᵥ x = response triplets eps s b := by
  obtain ⟨lu, -, hsolve⟩ := htranspose
  have hy := hsolve s
  rw [matrix_regularised_transpose] at hy
  rw [response, Triplets.functional_eq_adjoint hx hy,
    Triplets.functional_eq_adjoint (inverse_mulVec h b) hy]

theorem response_adjoint {triplets : List (Fin dim × Fin dim × ℝ)} {eps : ℝ}
    (h : Solves triplets eps) {y s : Fin dim → ℝ}
    (hy : Triplets.matrix (regularised (Triplets.transpose triplets) eps) *ᵥ y = s)
    (b : Fin dim → ℝ) : y ⬝ᵥ b = response triplets eps s b := by
  rw [matrix_regularised_transpose] at hy
  rw [response, Triplets.functional_eq_adjoint (inverse_mulVec h b) hy]

theorem gather_nonzeros (b : Fin dim → ℝ) : Triplets.gather (nonzeros b) = b := by
  apply Triplets.gather_nonzero (fun i => !Binary64.eq (b i) 0) b
  intro i hi
  have hzero : Binary64.eq (b i) 0 = true := by simpa using hi
  exact of_decide_eq_true hzero

theorem forwardAdjoint_eq {k : List (Fin dim × Fin dim × ℝ)} {spec : SolveSpec ℝ}
    (h : Solves k spec.eps) (htranspose : Solves (Triplets.transpose k) spec.eps)
    (rhs : Mat ℝ dim) (opMap : List (List (Fin dim × ℝ))) (sign : ℝ) (mode : Mode) :
    forwardAdjoint k rhs opMap sign mode spec =
      .ok (opMap.map fun entries => rhs.map fun b =>
        sign * response k spec.eps (Triplets.gather entries) b) := by
  have hforward : ∃ x, solveRefined k rhs spec = .ok x ∧ ∀ entries : List (Fin dim × ℝ),
      (x.map fun column => sign * Triplets.contract entries column) =
        rhs.map fun b => sign * response k spec.eps (Triplets.gather entries) b := by
    obtain ⟨x, hx, hsolved⟩ := solveRefined_solves h rhs
    refine ⟨x, hx, fun entries => ?_⟩
    apply map_eq_of_forall₂ hsolved
    intro column b hcolumn
    rw [← response_forward htranspose h hcolumn]
    exact congrArg (sign * ·) (Triplets.contract_eq entries column)
  cases mode with
  | auto =>
    obtain ⟨x, hx, hvalues⟩ := hforward
    simp only [forwardAdjoint, hx]
    exact congrArg Except.ok (List.map_congr_left fun entries _ => hvalues entries)
  | forward =>
    obtain ⟨x, hx, hvalues⟩ := hforward
    simp only [forwardAdjoint, hx]
    exact congrArg Except.ok (List.map_congr_left fun entries _ => hvalues entries)
  | adjoint =>
    obtain ⟨y, hy, hsolved⟩ := solveRefined_solves htranspose (opMap.map Triplets.gather)
    simp only [forwardAdjoint, hy]
    apply congrArg Except.ok
    rw [List.forall₂_map_right_iff] at hsolved
    apply map_eq_of_forall₂ hsolved
    intro adjoint entries hadjoint
    apply List.map_congr_left
    intro b _
    rw [← response_adjoint h hadjoint, dotProduct_comm]
    apply congrArg (sign * ·)
    have hcontract := Triplets.contract_eq (nonzeros b) adjoint
    rw [gather_nonzeros] at hcontract
    exact hcontract

/-! ### Requests -/

/-- Each column of a parameter depends on its own index only. -/
def ColumnWise (sys : Differentiable ℝ)
    (column : Parameter → ℕ → Except SensError (Fin sys.dim → ℝ)) : Prop :=
  ∀ parameter len indices, sys.parameterLen parameter = some len → (∀ i ∈ indices, i < len) →
    sys.parameterJacobian parameter indices = indices.mapM (column parameter)

/-- The factorization solves the regularised matrix and its transpose. -/
structure ExactSystem (sys : Differentiable ℝ) : Prop where
  forward : Solves sys.jacobian sys.solveSpec.eps
  adjoint : Solves (Triplets.transpose sys.jacobian) sys.solveSpec.eps

/-- A unit scale is a factor of the operand over one of the parameter. -/
def Separable (sys : Differentiable ℝ) : Prop :=
  ∃ (operandScale : Operand → ℝ) (parameterScale : Parameter → ℝ),
    (∀ o, operandScale o ≠ 0) ∧ (∀ p, parameterScale p ≠ 0) ∧
      ∀ o p, sys.unitScale o p = operandScale o / parameterScale p

variable {sys : Differentiable ℝ} {column : Parameter → ℕ → Except SensError (Fin sys.dim → ℝ)}
  {operand : Operand} {parameter : Parameter} {indices : Option (List ℕ)}

theorem columns_eq_ok {len : ℕ} {cols : List ℕ} (h : columns parameter len indices = .ok cols) :
    (∀ i ∈ cols, i < len) ∧ ∀ ix, indices = some ix → cols = ix := by
  cases indices with
  | none =>
    obtain rfl := Except.ok.inj h
    constructor
    · intro i hi
      exact List.mem_range.mp hi
    · intro ix hix
      cases hix
  | some ix =>
    simp only [columns] at h
    split at h
    case h_1 => cases h
    case h_2 hnone =>
      obtain rfl := Except.ok.inj h
      constructor
      · intro i hi
        have hsmall := List.find?_eq_none.mp hnone i hi
        simpa using hsmall
      · intro other hother
        exact Option.some.inj hother

theorem columns_of_lt {len : ℕ} {ix : List ℕ} (h : ∀ i ∈ ix, i < len) :
    columns parameter len (some ix) = .ok ix := by
  have hnone : (ix.find? fun i => decide (len ≤ i)) = none := by
    rw [List.find?_eq_none]
    intro i hi
    simpa using h i hi
  simp only [columns, hnone]

theorem checkedSelector_eq_ok {opLen : ℕ} {selector : Selector ℝ sys.dim} :
    checkedSelector sys operand opLen = .ok selector ↔
      sys.operandSelector operand = .ok selector ∧ selector.map.length = opLen ∧
        selector.elements.length = opLen := by
  simp only [checkedSelector, bind_eq_ok, ite_error_eq_ok, Except.ok.injEq, not_or, not_not]
  constructor
  · rintro ⟨_, hselector, ⟨hmap, helements⟩, rfl⟩
    exact ⟨hselector, hmap, helements⟩
  · rintro ⟨hselector, hmap, helements⟩
    exact ⟨selector, hselector, ⟨hmap, helements⟩, rfl⟩

theorem resolve_eq_ok {opLen : ℕ} {cols : List ℕ} {selector : Selector ℝ sys.dim} :
    resolve sys operand parameter indices = .ok (opLen, cols, selector) ↔
      sys.operandLen operand = some opLen ∧
        (∃ parLen, sys.parameterLen parameter = some parLen ∧
          columns parameter parLen indices = .ok cols) ∧
        checkedSelector sys operand opLen = .ok selector := by
  simp only [resolve, bind_eq_ok, orError_eq_ok, Except.ok.injEq, Prod.mk.injEq]
  constructor
  · rintro ⟨_, hop, parLen, hpar, _, hcols, _, hselector, rfl, rfl, rfl⟩
    exact ⟨hop, ⟨parLen, hpar, hcols⟩, hselector⟩
  · rintro ⟨hop, ⟨parLen, hpar, hcols⟩, hselector⟩
    exact ⟨opLen, hop, parLen, hpar, cols, hcols, selector, hselector, rfl, rfl, rfl⟩

noncomputable def cell (sys : Differentiable ℝ) (sign : ℝ) (entries : List (Fin sys.dim × ℝ))
    (b : Fin sys.dim → ℝ) : ℝ :=
  -sign * response sys.jacobian sys.solveSpec.eps (Triplets.gather entries) b

theorem solving_forwardAdjoint (hexact : ExactSystem sys) (rhs : Mat ℝ sys.dim)
    (opMap : List (List (Fin sys.dim × ℝ))) (sign : ℝ) (mode : Mode) :
    solving (forwardAdjoint sys.jacobian rhs opMap (-sign) mode sys.solveSpec) =
      .ok (opMap.map fun entries => rhs.map fun b => cell sys sign entries b) := by
  have hvalues := forwardAdjoint_eq hexact.forward hexact.adjoint rhs opMap (-sign) mode
  rw [hvalues]
  rfl

/-- The matrix of an operand and the columns of a parameter. -/
noncomputable def matrixOf (sys : Differentiable ℝ) (operand : Operand) (parameter : Parameter)
    (cols : List ℕ) (selector : Selector ℝ sys.dim) (bs : Mat ℝ sys.dim) : SensitivityMatrix ℝ :=
  { values := selector.map.map fun entries => bs.map fun b => cell sys selector.sign entries b
    rows := selector.elements.map fun index =>
      { operand := operand, element := sys.elementId operand.axis index, index := index }
    cols := cols.map fun c =>
      { parameter := parameter, element := sys.elementId parameter.axis c, index := c }
    units := "per unit" }

theorem jacobian_eq (hcolumn : ColumnWise sys column) {opLen : ℕ} {cols : List ℕ}
    {selector : Selector ℝ sys.dim}
    (h : resolve sys operand parameter indices = .ok (opLen, cols, selector)) :
    sys.parameterJacobian parameter cols = cols.mapM (column parameter) := by
  obtain ⟨-, ⟨parLen, hpar, hcols⟩, -⟩ := resolve_eq_ok.mp h
  exact hcolumn parameter parLen cols hpar (columns_eq_ok hcols).1

theorem sensitivity_eq (hcolumn : ColumnWise sys column) (hexact : ExactSystem sys) (mode : Mode) :
    sensitivity sys operand parameter indices mode =
      resolve sys operand parameter indices >>= fun (_, cols, selector) =>
        cols.mapM (column parameter) >>= fun bs =>
          .ok (matrixOf sys operand parameter cols selector bs) := by
  rw [sensitivity]
  cases hresolve : resolve sys operand parameter indices with
  | error failure => rfl
  | ok resolved =>
    obtain ⟨opLen, cols, selector⟩ := resolved
    change (sys.parameterJacobian parameter cols >>= _) = (cols.mapM (column parameter) >>= _)
    rw [jacobian_eq hcolumn hresolve]
    cases cols.mapM (column parameter) with
    | error failure => rfl
    | ok bs =>
      change (solving (forwardAdjoint sys.jacobian bs selector.map (-selector.sign) _
        sys.solveSpec) >>= _) = _
      rw [solving_forwardAdjoint hexact]
      rfl

theorem sensitivity_eq_ok (hcolumn : ColumnWise sys column) (hexact : ExactSystem sys)
    {mode : Mode} {m : SensitivityMatrix ℝ} :
    sensitivity sys operand parameter indices mode = .ok m ↔
      ∃ opLen cols selector bs, resolve sys operand parameter indices = .ok (opLen, cols, selector) ∧
        cols.mapM (column parameter) = .ok bs ∧
        matrixOf sys operand parameter cols selector bs = m := by
  rw [sensitivity_eq hcolumn hexact]
  simp only [bind_eq_ok, Except.ok.injEq, Prod.exists]
  constructor
  · rintro ⟨opLen, cols, selector, hresolve, bs, hbs, hm⟩
    exact ⟨opLen, cols, selector, bs, hresolve, hbs, hm⟩
  · rintro ⟨opLen, cols, selector, bs, hresolve, hbs, hm⟩
    exact ⟨opLen, cols, selector, hresolve, bs, hbs, hm⟩

theorem row_matrixOf (cols : List ℕ) (selector : Selector ℝ sys.dim) (bs : Mat ℝ sys.dim)
    (element : ℕ) :
    (matrixOf sys operand parameter cols selector bs).row element =
      positions selector.elements element := by
  have hindices : (matrixOf sys operand parameter cols selector bs).rows.map RowMeta.index =
      selector.elements := by
    simp [matrixOf, List.map_map, Function.comp_def]
  rw [SensitivityMatrix.row, hindices]

theorem value_matrixOf {cols : List ℕ} {selector : Selector ℝ sys.dim} {bs : Mat ℝ sys.dim}
    {element pos c : ℕ} {b : Fin sys.dim → ℝ} (hpos : positions selector.elements element = some pos)
    (hlength : selector.map.length = selector.elements.length) (hb : bs[c]? = some b) :
    (matrixOf sys operand parameter cols selector bs).value element c =
      cell sys selector.sign (selector.map.getD pos []) b := by
  obtain ⟨hlt, -⟩ := List.getElem?_eq_some_iff.mp (positions_eq_some hpos)
  have hrow : selector.map[pos]? = some (selector.map.getD pos []) := by
    rw [List.getD_eq_getElem?_getD, List.getElem?_eq_getElem (by omega)]
    rfl
  rw [SensitivityMatrix.value, row_matrixOf, hpos]
  simp only [matrixOf, List.getElem?_map, hrow, hb, Option.bind_some, Option.map_some,
    Option.getD_some]

/-! ### One column -/

theorem resolve_singleton {opLen : ℕ} {cols : List ℕ} {selector : Selector ℝ sys.dim}
    (h : resolve sys operand parameter indices = .ok (opLen, cols, selector)) {i : ℕ}
    (hi : i ∈ cols) :
    resolve sys operand parameter (some [i]) = .ok (opLen, [i], selector) := by
  obtain ⟨hop, ⟨parLen, hpar, hcols⟩, hselector⟩ := resolve_eq_ok.mp h
  have hlt := (columns_eq_ok hcols).1 i hi
  exact resolve_eq_ok.mpr
    ⟨hop, ⟨parLen, hpar, columns_of_lt fun j hj => List.mem_singleton.mp hj ▸ hlt⟩, hselector⟩

theorem column_alone (hcolumn : ColumnWise sys column) (hexact : ExactSystem sys)
    {mode : Mode} {m : SensitivityMatrix ℝ}
    (h : sensitivity sys operand parameter indices mode = .ok m) {c i : ℕ}
    (hi : (m.cols.map ColMeta.index)[c]? = some i) (other : Mode) :
    ∃ alone, sensitivity sys operand parameter (some [i]) other = .ok alone ∧
      alone.rows = m.rows ∧
      alone.values.map (fun row => row[0]?) = m.values.map fun row => row[c]? := by
  obtain ⟨opLen, cols, selector, bs, hresolve, hbs, rfl⟩ :=
    (sensitivity_eq_ok hcolumn hexact).mp h
  have hcols : cols[c]? = some i := by
    simpa [matrixOf, List.map_map, Function.comp_def] using hi
  obtain ⟨b, hb, hcol⟩ := mapM_getElem? hbs hcols
  refine ⟨matrixOf sys operand parameter [i] selector [b],
    (sensitivity_eq_ok hcolumn hexact).mpr ⟨opLen, [i], selector, [b],
      resolve_singleton hresolve (List.mem_of_getElem? hcols), mapM_singleton hcol, rfl⟩, rfl, ?_⟩
  simp [matrixOf, List.map_map, Function.comp_def, hb]

theorem shape (hcolumn : ColumnWise sys column) (hexact : ExactSystem sys)
    {mode : Mode} {m : SensitivityMatrix ℝ}
    (h : sensitivity sys operand parameter indices mode = .ok m) :
    m.values.length = m.rows.length ∧ (∀ row ∈ m.values, row.length = m.cols.length) ∧
      ∀ ix, indices = some ix → m.cols.map ColMeta.index = ix := by
  obtain ⟨opLen, cols, selector, bs, hresolve, hbs, rfl⟩ :=
    (sensitivity_eq_ok hcolumn hexact).mp h
  obtain ⟨-, ⟨parLen, -, hcols⟩, hselector⟩ := resolve_eq_ok.mp hresolve
  obtain ⟨-, hmap, helements⟩ := checkedSelector_eq_ok.mp hselector
  refine ⟨?_, ?_, ?_⟩
  · simp [matrixOf, hmap, helements]
  · intro row hrow
    obtain ⟨entries, -, rfl⟩ := List.mem_map.mp hrow
    simp [matrixOf, (forall₂_of_mapM_ok hbs).length_eq]
  · intro ix hix
    rw [← (columns_eq_ok hcols).2 ix hix]
    simp [matrixOf, List.map_map, Function.comp_def]

/-! ### Weighted sums -/

/-- The functionals of the seeds' elements, each by its weight. -/
def weighted (selector : Selector ℝ dim) (weights : List (ℕ × ℝ)) : List (Fin dim × ℝ) :=
  weights.flatMap fun (element, weight) =>
    (selector.map.getD ((positions selector.elements element).getD 0) []).map
      fun (row, rowWeight) => (row, weight * rowWeight)

theorem foldlM_append_eq_ok {α β ε : Type} {step : List β → α → Except ε (List β)}
    {block : α → List β} {l : List α} (h : ∀ s, ∀ a ∈ l, step s a = .ok (s ++ block a)) :
    l.foldlM step [] = .ok (l.flatMap block) := by
  rw [foldlM_eq_ok h, List.foldl_append_eq_append, List.nil_append, List.flatMap]

theorem weightedFunctional_eq {opLen : ℕ} {selector : Selector ℝ dim} {weights : List (ℕ × ℝ)}
    (h : ∀ w ∈ weights, (positions selector.elements w.1).isSome) :
    weightedFunctional operand opLen selector weights = .ok (weighted selector weights) := by
  apply foldlM_append_eq_ok
  rintro functional ⟨element, weight⟩ hmem
  obtain ⟨pos, hpos⟩ := Option.isSome_iff_exists.mp (h _ hmem)
  simp only at hpos
  simp only [hpos, orError]
  rfl

theorem response_flatMap {α : Type} (triplets : List (Fin dim × Fin dim × ℝ)) (eps : ℝ)
    (l : List α) (f : α → List (Fin dim × ℝ)) (b : Fin dim → ℝ) :
    response triplets eps (Triplets.gather (l.flatMap f)) b =
      (l.map fun a => response triplets eps (Triplets.gather (f a)) b).sum := by
  induction l with
  | nil => exact zero_dotProduct _
  | cons a rest ih =>
    have happend := Triplets.gather_append (f a) (rest.flatMap f)
    rw [List.flatMap_cons, List.map_cons, List.sum_cons, ← ih]
    simp only [response]
    rw [← add_dotProduct]
    exact congrArg (· ⬝ᵥ _) happend

theorem response_scaled (triplets : List (Fin dim × Fin dim × ℝ)) (eps weight : ℝ)
    (entries : List (Fin dim × ℝ)) (b : Fin dim → ℝ) :
    response triplets eps
        (Triplets.gather (entries.map fun (entry : Fin dim × ℝ) =>
          (entry.1, weight * entry.2))) b =
      weight * response triplets eps (Triplets.gather entries) b := by
  rw [gather_scaled, response, smul_dotProduct]
  rfl

theorem cell_weighted (sign : ℝ) (selector : Selector ℝ sys.dim) (weights : List (ℕ × ℝ))
    (b : Fin sys.dim → ℝ) :
    cell sys sign (weighted selector weights) b =
      (weights.map fun w => w.2 *
        cell sys sign (selector.map.getD ((positions selector.elements w.1).getD 0) []) b).sum := by
  rw [cell, weighted, response_flatMap, ← List.sum_map_mul_left]
  apply congrArg List.sum
  apply List.map_congr_left
  intro w _
  rw [response_scaled, cell]
  ring

theorem weightedSensitivity_eq (hcolumn : ColumnWise sys column) (hexact : ExactSystem sys)
    {mode : Mode} {m : SensitivityMatrix ℝ}
    (h : sensitivity sys operand parameter indices mode = .ok m) {weights : List (ℕ × ℝ)}
    (hweights : ∀ w ∈ weights, (m.row w.1).isSome) :
    weightedSensitivity sys operand weights parameter indices =
      .ok ((List.range m.cols.length).map fun c =>
        (weights.map fun w => w.2 * m.value w.1 c).sum) := by
  obtain ⟨opLen, cols, selector, bs, hresolve, hbs, rfl⟩ :=
    (sensitivity_eq_ok hcolumn hexact).mp h
  obtain ⟨-, -, hselector⟩ := resolve_eq_ok.mp hresolve
  obtain ⟨-, hmap, helements⟩ := checkedSelector_eq_ok.mp hselector
  simp only [row_matrixOf] at hweights
  have hvalues := solving_forwardAdjoint hexact bs [weighted selector weights] selector.sign
    .adjoint
  rw [weightedSensitivity]
  simp only [hresolve, weightedFunctional_eq hweights, jacobian_eq hcolumn hresolve, hbs, bind,
    Except.bind, hvalues]
  apply congrArg Except.ok
  have hlength : cols.length = bs.length := (forall₂_of_mapM_ok hbs).length_eq
  apply List.ext_getElem
  · simp [matrixOf, hlength]
  · intro c hc _
    have hlt : c < bs.length := by simpa using hc
    have hb : bs[c]? = some bs[c] := List.getElem?_eq_getElem hlt
    simp only [List.map_cons, List.map_nil, List.headD_cons, List.getElem_map, List.getElem_range]
    rw [cell_weighted]
    apply congrArg List.sum
    apply List.map_congr_left
    intro w hw
    obtain ⟨pos, hpos⟩ := Option.isSome_iff_exists.mp (hweights w hw)
    rw [value_matrixOf hpos (hmap.trans helements.symm) hb, hpos]
    rfl

end Exact

end Tellegen.Sens
