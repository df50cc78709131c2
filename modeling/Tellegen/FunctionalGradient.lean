import Tellegen.Derivatives

/-!
The gradient of a functional of several operands against the sensitivity
matrices, in exact arithmetic. The decisions are grouped by parameter and
visited in batches; every decision is written once, at its own position.
-/

set_option linter.unusedSectionVars false

open Binary64 Outcome Matrix

namespace Tellegen.Sens

/-! ### Groups -/

def decisionsOf (groups : Groups) : List (Parameter × ℕ × ℕ) :=
  groups.flatMap fun (parameter, entries) => entries.map fun entry => (parameter, entry)

theorem mem_decisionsOf_addDecision (parameter : Parameter) (entry : ℕ × ℕ) (groups : Groups)
    (d : Parameter × ℕ × ℕ) :
    d ∈ decisionsOf (addDecision parameter entry groups) ↔
      d ∈ decisionsOf groups ∨ d = (parameter, entry) := by
  induction groups with
  | nil => simp [addDecision, decisionsOf]
  | cons group rest ih =>
    obtain ⟨p, entries⟩ := group
    rw [addDecision]
    split
    case isTrue hp =>
      subst hp
      simp only [decisionsOf, List.flatMap_cons, List.map_append, List.mem_append, List.map_cons,
        List.map_nil, List.mem_singleton]
      tauto
    case isFalse =>
      have hcons : ∀ tail : Groups, d ∈ decisionsOf ((p, entries) :: tail) ↔
          d ∈ entries.map (fun entry => (p, entry)) ∨ d ∈ decisionsOf tail := by
        intro tail
        rw [decisionsOf, List.flatMap_cons, List.mem_append]
        rfl
      rw [hcons, hcons, ih]
      tauto

theorem mem_decisionsOf_foldl (l : List ((Parameter × ℕ) × ℕ)) (groups : Groups)
    (d : Parameter × ℕ × ℕ) :
    d ∈ decisionsOf (l.foldl (fun groups a => addDecision a.1.1 (a.2, a.1.2) groups) groups) ↔
      d ∈ decisionsOf groups ∨ ((d.1, d.2.2), d.2.1) ∈ l := by
  induction l generalizing groups with
  | nil => simp
  | cons a rest ih =>
    obtain ⟨⟨p, i⟩, pos⟩ := a
    obtain ⟨q, other, j⟩ := d
    rw [List.foldl_cons, ih, mem_decisionsOf_addDecision, List.mem_cons]
    simp only [Prod.mk.injEq]
    tauto

theorem addDecision_ne_nil {parameter : Parameter} {entry : ℕ × ℕ} {groups : Groups}
    (h : ∀ group ∈ groups, group.2 ≠ []) :
    ∀ group ∈ addDecision parameter entry groups, group.2 ≠ [] := by
  induction groups with
  | nil => simp [addDecision]
  | cons head rest ih =>
    obtain ⟨p, entries⟩ := head
    obtain ⟨hhead, hrest⟩ := List.forall_mem_cons.mp h
    rw [addDecision]
    split
    case isTrue => exact List.forall_mem_cons.mpr ⟨by simp, hrest⟩
    case isFalse => exact List.forall_mem_cons.mpr ⟨hhead, ih hrest⟩

theorem foldl_addDecision_ne_nil (l : List ((Parameter × ℕ) × ℕ)) {groups : Groups}
    (h : ∀ group ∈ groups, group.2 ≠ []) :
    ∀ group ∈ l.foldl (fun groups a => addDecision a.1.1 (a.2, a.1.2) groups) groups,
      group.2 ≠ [] := by
  induction l generalizing groups with
  | nil => exact h
  | cons a rest ih => exact ih (addDecision_ne_nil h)

section Lists

variable {α : Type}

theorem flatten_chunks {size : ℕ} (hsize : 0 < size) (l : List α) :
    (chunks size l).flatten = l := by
  have hpages := Paging.flatMap_pages size ((l.length + size - 1) / size) l
  rw [List.flatMap] at hpages
  rw [chunks, hpages, List.take_of_length_le]
  have hdiv := Nat.div_add_mod (l.length + size - 1) size
  have hmod := Nat.mod_lt (l.length + size - 1) hsize
  have hcomm := Nat.mul_comm size ((l.length + size - 1) / size)
  omega

theorem foldl_set (val : ℕ → α) (writes : List ℕ) (g : List α) (k : ℕ) :
    (writes.foldl (fun g pos => g.set pos (val pos)) g)[k]? =
      if k ∈ writes ∧ k < g.length then some (val k) else g[k]? := by
  induction writes generalizing g with
  | nil => simp
  | cons pos rest ih =>
    rw [List.foldl_cons, ih, List.length_set, List.getElem?_set]
    simp only [List.mem_cons]
    by_cases hpos : pos = k
    · subst hpos
      by_cases hlt : pos < g.length
      · simp [hlt]
      · simp [hlt]
    · have hne : ¬ k = pos := fun h => hpos h.symm
      simp [hpos, hne]

end Lists

section Exact

variable [DecimalText ℝ] [SparseLu ℝ] {dim : ℕ} {sys : Differentiable ℝ}
  {column : Parameter → ℕ → Except SensError (Fin sys.dim → ℝ)}

/-- The derivative of an element of an operand for one index of a parameter. -/
noncomputable def derivative (sys : Differentiable ℝ) (operand : Operand) (parameter : Parameter)
    (element index : ℕ) : ℝ :=
  match sensitivity sys operand parameter (some [index]) .auto with
  | .ok m => m.value element 0
  | .error _ => 0

/-- The request is one that the formulation answers: the parameters of the decisions are
supported and their indices in range, and each operand of a seed has a sensitivity to each
decision and reports the elements of the seed. -/
structure Answerable (sys : Differentiable ℝ) (seeds : List (Operand × List (ℕ × ℝ)))
    (decisions : List (Parameter × ℕ)) : Prop where
  inRange : ∀ d ∈ decisions, ∃ len, sys.parameterLen d.1 = some len ∧ d.2 < len
  reported : ∀ seed ∈ seeds, ∀ d ∈ decisions, ∃ m,
    sensitivity sys seed.1 d.1 (some [d.2]) .auto = .ok m ∧ ∀ w ∈ seed.2, (m.row w.1).isSome

/-- The sum over the seeds of weight, unit scale and derivative. -/
noncomputable def gradientAt (sys : Differentiable ℝ) (seeds : List (Operand × List (ℕ × ℝ)))
    (d : Parameter × ℕ) : ℝ :=
  (seeds.map fun seed => (seed.2.map fun w =>
    w.2 * sys.unitScale seed.1 d.1 * derivative sys seed.1 d.1 w.1 d.2).sum).sum

/-! ### Seeds -/

structure SeedSelector (sys : Differentiable ℝ) (seed : Operand × List (ℕ × ℝ))
    (selector : Selector ℝ sys.dim) : Prop where
  operandLen : sys.operandLen seed.1 = some selector.elements.length
  operandSelector : sys.operandSelector seed.1 = .ok selector
  length : selector.map.length = selector.elements.length
  reported : ∀ w ∈ seed.2, (positions selector.elements w.1).isSome

/-- The entries of a seed, in units of the reference. -/
noncomputable def seedBlock (sys : Differentiable ℝ) (reference : Parameter)
    (seed : Operand × List (ℕ × ℝ)) (selector : Selector ℝ sys.dim) :
    List (Fin sys.dim × ℝ) :=
  seed.2.flatMap fun w =>
    (selector.map.getD ((positions selector.elements w.1).getD 0) []).map fun entry =>
      (entry.1, w.2 * (sys.unitScale seed.1 reference * selector.sign) * entry.2)

theorem seedEntries_eq {reference : Parameter} {seed : Operand × List (ℕ × ℝ)}
    {selector : Selector ℝ sys.dim} (h : SeedSelector sys seed selector) :
    seedEntries sys reference seed = .ok (seedBlock sys reference seed selector) := by
  obtain ⟨operand, weights⟩ := seed
  have hdims : ¬ (selector.elements.length ≠ selector.elements.length ∨
      selector.map.length ≠ selector.elements.length) := by
    rintro (hne | hne)
    · exact hne rfl
    · exact hne h.length
  have hlen := h.operandLen
  have hselector := h.operandSelector
  simp only at hlen hselector
  simp only [seedEntries, hlen, hselector, orError, bind, Except.bind]
  rw [if_neg hdims]
  apply foldlM_append_eq_ok
  intro entries w hw
  obtain ⟨pos, hpos⟩ := Option.isSome_iff_exists.mp (h.reported w hw)
  have hrow : ¬ ((selector.map.getD pos []).any fun entry =>
      decide (sys.dim ≤ entry.1.val) || !isFinite entry.2) = true := by
    rw [List.any_eq_true]
    rintro ⟨entry, -, hentry⟩
    have hlt := entry.1.isLt
    rcases Bool.or_eq_true_iff.mp hentry with hbig | hinfinite
    · have hle := of_decide_eq_true hbig
      omega
    · cases hinfinite
  have hfinite : ¬ ((!isFinite w.2 ||
      !isFinite (sys.unitScale operand reference * selector.sign)) = true) := Bool.false_ne_true
  rw [if_neg hfinite]
  simp only [hpos, Option.getD_some]
  exact if_neg hrow

theorem functionalRhs_eq (reference : Parameter) {seeds : List (Operand × List (ℕ × ℝ))}
    {selectorOf : Operand → Selector ℝ sys.dim}
    (h : ∀ seed ∈ seeds, SeedSelector sys seed (selectorOf seed.1)) :
    functionalRhs sys reference seeds =
      .ok (seeds.flatMap fun seed => seedBlock sys reference seed (selectorOf seed.1)) := by
  apply foldlM_append_eq_ok
  intro entries seed hseed
  rw [seedEntries_eq (h seed hseed)]
  rfl

theorem response_seeds (reference : Parameter) (seeds : List (Operand × List (ℕ × ℝ)))
    (selectorOf : Operand → Selector ℝ sys.dim) (b : Fin sys.dim → ℝ) :
    response sys.jacobian sys.solveSpec.eps (Triplets.gather
        (seeds.flatMap fun seed => seedBlock sys reference seed (selectorOf seed.1))) b =
      (seeds.map fun seed => (seed.2.map fun w =>
        w.2 * (sys.unitScale seed.1 reference * (selectorOf seed.1).sign) *
          response sys.jacobian sys.solveSpec.eps (Triplets.gather
            ((selectorOf seed.1).map.getD
              ((positions (selectorOf seed.1).elements w.1).getD 0) [])) b).sum).sum := by
  rw [response_flatMap]
  apply congrArg List.sum
  apply List.map_congr_left
  intro seed _
  rw [seedBlock, response_flatMap]
  apply congrArg List.sum
  apply List.map_congr_left
  intro w _
  rw [response_scaled]

/-! ### One decision -/

theorem seedSelector_of_ok (hcolumn : ColumnWise sys column) (hexact : ExactSystem sys)
    {seed : Operand × List (ℕ × ℝ)} {d : Parameter × ℕ} {m : SensitivityMatrix ℝ}
    (h : sensitivity sys seed.1 d.1 (some [d.2]) .auto = .ok m)
    (hreported : ∀ w ∈ seed.2, (m.row w.1).isSome) :
    ∃ selector b, SeedSelector sys seed selector ∧ column d.1 d.2 = .ok b ∧
      ∀ w ∈ seed.2, derivative sys seed.1 d.1 w.1 d.2 =
        cell sys selector.sign
          (selector.map.getD ((positions selector.elements w.1).getD 0) []) b := by
  obtain ⟨opLen, cols, selector, bs, hresolve, hbs, hm⟩ := (sensitivity_eq_ok hcolumn hexact).mp h
  obtain ⟨hop, ⟨parLen, -, hcols⟩, hselector⟩ := resolve_eq_ok.mp hresolve
  obtain ⟨hsel, hmap, helements⟩ := checkedSelector_eq_ok.mp hselector
  obtain rfl := (columns_eq_ok hcols).2 _ rfl
  obtain ⟨b, hb, hcol⟩ := mapM_getElem? (c := 0) hbs rfl
  have hrows : ∀ w ∈ seed.2, (positions selector.elements w.1).isSome := by
    intro w hw
    have hrow := hreported w hw
    rwa [← hm, row_matrixOf] at hrow
  refine ⟨selector, b, ⟨by rw [hop, helements], hsel, hmap.trans helements.symm, hrows⟩, hcol, ?_⟩
  intro w hw
  obtain ⟨pos, hpos⟩ := Option.isSome_iff_exists.mp (hrows w hw)
  simp only [derivative, h]
  rw [← hm, value_matrixOf hpos (hmap.trans helements.symm) hb, hpos]
  rfl

theorem not_far (ratio : ℝ) :
    ¬ lt (lit (1 / 1000000000000) * Binary64.max (Binary64.abs ratio) 1)
      (Binary64.abs (ratio - ratio)) = true := by
  intro hfar
  have hlt : (((1 / 1000000000000 : ℚ) : ℝ) * Binary64.max (Binary64.abs ratio) 1) <
      Binary64.abs (ratio - ratio) := of_decide_eq_true hfar
  have habs : Binary64.abs (ratio - ratio) = 0 := by
    rw [sub_self]
    exact if_neg (lt_irrefl 0)
  have hmax : (0 : ℝ) ≤ Binary64.max (Binary64.abs ratio) 1 := by
    change (0 : ℝ) ≤ if Binary64.abs ratio < 1 then 1 else Binary64.abs ratio
    split
    case isTrue => exact zero_le_one
    case isFalse hge => exact zero_le_one.trans (not_lt.mp hge)
  rw [habs] at hlt
  have hnonneg : (0 : ℝ) ≤ ((1 / 1000000000000 : ℚ) : ℝ) * Binary64.max (Binary64.abs ratio) 1 :=
    mul_nonneg (by norm_num) hmax
  exact absurd hlt (not_lt.mpr hnonneg)

theorem unitRatio_eq (hunits : Separable sys) (first : Operand) (reference parameter : Parameter)
    (seeds : List (Operand × List (ℕ × ℝ))) :
    ∃ ratio, unitRatio sys first reference parameter seeds = .ok ratio ∧
      ∀ o, sys.unitScale o reference * ratio = sys.unitScale o parameter := by
  obtain ⟨operandScale, parameterScale, ho, hp, hscale⟩ := hunits
  have hratio : ∀ o, sys.unitScale o parameter / sys.unitScale o reference =
      parameterScale reference / parameterScale parameter := by
    intro o
    rw [hscale, hscale]
    have ho := ho o
    have hparameter := hp parameter
    have hreference := hp reference
    field_simp
  have hagree : ¬ ((seeds.any fun seed =>
      !isFinite (sys.unitScale seed.1 parameter / sys.unitScale seed.1 reference) ||
        lt (lit (1 / 1000000000000) * Binary64.max
            (Binary64.abs (sys.unitScale first parameter / sys.unitScale first reference)) 1)
          (Binary64.abs (sys.unitScale seed.1 parameter / sys.unitScale seed.1 reference -
            sys.unitScale first parameter / sys.unitScale first reference))) = true) := by
    rw [List.any_eq_true]
    rintro ⟨seed, -, hseed⟩
    rcases Bool.or_eq_true_iff.mp hseed with hinfinite | hfar
    · cases hinfinite
    · rw [hratio, hratio] at hfar
      exact not_far _ hfar
  refine ⟨sys.unitScale first parameter / sys.unitScale first reference, ?_, ?_⟩
  · rw [unitRatio]
    exact if_neg hagree
  · intro o
    rw [hratio, hscale, hscale]
    have hparameter := hp parameter
    have hreference := hp reference
    field_simp

theorem sum_eq_dotProduct (x y : Fin dim → ℝ) :
    Binary64.sum ((List.finRange dim).map fun row => x row * y row) = x ⬝ᵥ y := by
  have hsum : Binary64.sum ((List.finRange dim).map fun row => x row * y row) =
      ((List.finRange dim).map fun row => x row * y row).sum := List.sum_eq_foldl.symm
  rw [hsum, dotProduct, Fin.sum_univ_def]

theorem writeDerivative_eq (adjoint : Fin dim → ℝ) (ratio : ℝ) (gradient : List ℝ) (position : ℕ)
    (b : Fin dim → ℝ) :
    writeDerivative adjoint ratio gradient position b =
      .ok (gradient.set position (-(adjoint ⬝ᵥ b) * ratio)) := by
  rw [← sum_eq_dotProduct]
  rfl

theorem written_eq {reference : Parameter} {seeds : List (Operand × List (ℕ × ℝ))}
    (selectorOf : Operand → Selector ℝ sys.dim) {d : Parameter × ℕ} {b adjoint : Fin sys.dim → ℝ}
    {ratio : ℝ} (hratio : ∀ o, sys.unitScale o reference * ratio = sys.unitScale o d.1)
    (hadjoint : adjoint ⬝ᵥ b = response sys.jacobian sys.solveSpec.eps (Triplets.gather
      (seeds.flatMap fun seed => seedBlock sys reference seed (selectorOf seed.1))) b)
    (hderivative : ∀ seed ∈ seeds, ∀ w ∈ seed.2, derivative sys seed.1 d.1 w.1 d.2 =
      cell sys (selectorOf seed.1).sign ((selectorOf seed.1).map.getD
        ((positions (selectorOf seed.1).elements w.1).getD 0) []) b) :
    -(adjoint ⬝ᵥ b) * ratio = gradientAt sys seeds d := by
  rw [hadjoint, response_seeds, neg_mul, ← mul_neg, ← List.sum_map_mul_right, gradientAt]
  apply congrArg List.sum
  apply List.map_congr_left
  intro seed hseed
  rw [← List.sum_map_mul_right]
  apply congrArg List.sum
  apply List.map_congr_left
  intro w hw
  rw [hderivative seed hseed w hw, ← hratio seed.1, cell]
  ring

/-! ### The passes -/

def write (val : ℕ → ℝ) (writes : List ℕ) (gradient : List ℝ) : List ℝ :=
  writes.foldl (fun gradient pos => gradient.set pos (val pos)) gradient

/-- The entries of a group are decisions whose derivative the adjoint solution gives. -/
def Writes (column : Parameter → ℕ → Except SensError (Fin sys.dim → ℝ))
    (adjoint : Fin sys.dim → ℝ) (ratio : ℝ) (val : ℕ → ℝ) (parameter : Parameter)
    (entries : List (ℕ × ℕ)) : Prop :=
  ∀ e ∈ entries, ∃ b, column parameter e.2 = .ok b ∧ -(adjoint ⬝ᵥ b) * ratio = val e.1

theorem writeBatch_eq (hcolumn : ColumnWise sys column) {adjoint : Fin sys.dim → ℝ} {ratio : ℝ}
    {val : ℕ → ℝ} {parameter : Parameter} {len : ℕ} (hlen : sys.parameterLen parameter = some len)
    {batch : List (ℕ × ℕ)} (hrange : ∀ e ∈ batch, e.2 < len)
    (h : Writes column adjoint ratio val parameter batch) (gradient : List ℝ) :
    writeBatch sys adjoint parameter ratio gradient batch =
      .ok (write val (batch.map Prod.fst) gradient) := by
  have hindices : ∀ i ∈ batch.map Prod.snd, i < len := by
    intro i hi
    obtain ⟨e, he, rfl⟩ := List.mem_map.mp hi
    exact hrange e he
  obtain ⟨bs, hbs⟩ := exists_mapM_ok (batch.map Prod.snd) (column parameter) (by
    intro i hi
    obtain ⟨e, he, rfl⟩ := List.mem_map.mp hi
    obtain ⟨b, hb, -⟩ := h e he
    exact ⟨b, hb⟩)
  have hforall := forall₂_of_mapM_ok hbs
  rw [List.forall₂_map_left_iff] at hforall
  have hlength : bs.length = batch.length := hforall.length_eq.symm
  have hstep : ∀ gradient : List ℝ, ∀ x ∈ batch.zip bs,
      writeDerivative adjoint ratio gradient x.1.1 x.2 =
        .ok (gradient.set x.1.1 (val x.1.1)) := by
    rintro gradient ⟨e, b⟩ hx
    obtain ⟨c, hc, hget⟩ := List.mem_iff_getElem.mp hx
    rw [List.getElem_zip, Prod.mk.injEq] at hget
    obtain ⟨rfl, rfl⟩ := hget
    rw [List.length_zip] at hc
    have hcol := hforall.get (i := c) (by omega) (by omega)
    obtain ⟨b, hb, hval⟩ := h batch[c] (List.getElem_mem _)
    obtain rfl := Except.ok.inj (hb.symm.trans hcol)
    rw [writeDerivative_eq]
    exact congrArg (fun value => Except.ok (gradient.set _ value)) hval
  rw [writeBatch, hcolumn parameter len _ hlen hindices, hbs]
  change (if bs.length ≠ batch.length then _ else _) = _
  rw [if_neg (not_not_intro hlength), foldlM_eq_ok hstep, write, List.foldl_map]
  have hzip : (batch.zip bs).map Prod.fst = batch := List.map_fst_zip (by omega)
  conv_rhs => rw [← hzip, List.foldl_map]

theorem write_append (val : ℕ → ℝ) (first second : List ℕ) (gradient : List ℝ) :
    write val (first ++ second) gradient = write val second (write val first gradient) :=
  List.foldl_append

theorem foldl_write {α : Type} (val : ℕ → ℝ) (l : List α) (f : α → List ℕ) (gradient : List ℝ) :
    l.foldl (fun gradient a => write val (f a) gradient) gradient =
      write val (l.flatMap f) gradient := by
  induction l generalizing gradient with
  | nil => rfl
  | cons a rest ih => rw [List.foldl_cons, ih, List.flatMap_cons, write_append]

theorem writeGroup_eq (hcolumn : ColumnWise sys column) {adjoint : Fin sys.dim → ℝ}
    {first : Operand} {reference : Parameter} {seeds : List (Operand × List (ℕ × ℝ))} {ratio : ℝ}
    {val : ℕ → ℝ} {group : Parameter × List (ℕ × ℕ)} {len : ℕ}
    (hratio : unitRatio sys first reference group.1 seeds = .ok ratio)
    (hlen : sys.parameterLen group.1 = some len) (hrange : ∀ e ∈ group.2, e.2 < len)
    (h : Writes column adjoint ratio val group.1 group.2) (gradient : List ℝ) :
    writeGroup sys adjoint first reference seeds gradient group =
      .ok (write val (group.2.map Prod.fst) gradient) := by
  have hflatten : (chunks 32 group.2).flatten = group.2 := flatten_chunks (by omega) group.2
  have hbatch : ∀ gradient : List ℝ, ∀ batch ∈ chunks 32 group.2,
      writeBatch sys adjoint group.1 ratio gradient batch =
        .ok (write val (batch.map Prod.fst) gradient) := by
    intro gradient batch hbatch
    have hmem : ∀ e ∈ batch, e ∈ group.2 := by
      intro e he
      rw [← hflatten]
      exact List.mem_flatten_of_mem hbatch he
    exact writeBatch_eq hcolumn hlen (fun e he => hrange e (hmem e he))
      (fun e he => h e (hmem e he)) gradient
  simp only [writeGroup, hratio, bind, Except.bind]
  rw [foldlM_eq_ok hbatch, foldl_write]
  apply congrArg (fun writes => Except.ok (write val writes gradient))
  rw [List.flatMap, ← List.map_flatten, hflatten]

/-! ### The decisions -/

theorem groupDecisions_eq {decisions : List (Parameter × ℕ)}
    (h : ∀ d ∈ decisions, ∃ len, sys.parameterLen d.1 = some len ∧ d.2 < len) :
    ∃ groups, groupDecisions sys decisions = .ok groups ∧ (∀ group ∈ groups, group.2 ≠ []) ∧
      ∀ parameter pos index, (parameter, pos, index) ∈ decisionsOf groups ↔
        decisions[pos]? = some (parameter, index) := by
  have hstep : ∀ groups : Groups, ∀ a ∈ decisions.zipIdx,
      (do
        let len ← orError
          (.assembly (sys.formulation ++ " does not differentiate " ++ a.1.1.debug))
          (sys.parameterLen a.1.1)
        if len ≤ a.1.2 then .error (.indexOutOfRange a.1.1.axis a.1.2 len)
        else .ok (addDecision a.1.1 (a.2, a.1.2) groups)) =
        (.ok (addDecision a.1.1 (a.2, a.1.2) groups) : Except SensError Groups) := by
    intro groups a ha
    obtain ⟨len, hlen, hlt⟩ := h a.1 (List.fst_mem_of_mem_zipIdx ha)
    simp only [hlen, orError, bind, Except.bind]
    exact if_neg (by omega)
  refine ⟨_, foldlM_eq_ok hstep [], foldl_addDecision_ne_nil _ (by simp), ?_⟩
  intro parameter pos index
  rw [mem_decisionsOf_foldl, List.mem_zipIdx_iff_getElem?]
  simp [decisionsOf]

theorem mem_decisionsOf {groups : Groups} {group : Parameter × List (ℕ × ℕ)}
    (hgroup : group ∈ groups) {e : ℕ × ℕ} (he : e ∈ group.2) :
    (group.1, e.1, e.2) ∈ decisionsOf groups :=
  List.mem_flatMap.mpr ⟨group, hgroup, List.mem_map.mpr ⟨e, he, rfl⟩⟩

theorem write_all {val : ℕ → ℝ} {writes : List ℕ} {n : ℕ} (h : ∀ k, k < n → k ∈ writes) :
    write val writes (List.replicate n 0) = (List.range n).map val := by
  apply List.ext_getElem?
  intro k
  rw [write, foldl_set, List.length_replicate, List.getElem?_map]
  by_cases hk : k < n
  · simp [hk, h k hk]
  · simp [hk]

theorem foldlM_writeGroup (hcolumn : ColumnWise sys column) (hunits : Separable sys)
    {first : Operand} {reference : Parameter} {seeds : List (Operand × List (ℕ × ℝ))}
    {decisions : List (Parameter × ℕ)} {groups : Groups} {adjoint : Fin sys.dim → ℝ}
    (hrange : ∀ d ∈ decisions, ∃ len, sys.parameterLen d.1 = some len ∧ d.2 < len)
    (hne : ∀ group ∈ groups, group.2 ≠ [])
    (hmem : ∀ parameter pos index, (parameter, pos, index) ∈ decisionsOf groups ↔
      decisions[pos]? = some (parameter, index))
    (hvalue : ∀ d ∈ decisions, ∃ b, column d.1 d.2 = .ok b ∧ ∀ ratio,
      (∀ o, sys.unitScale o reference * ratio = sys.unitScale o d.1) →
        -(adjoint ⬝ᵥ b) * ratio = gradientAt sys seeds d) :
    groups.foldlM (writeGroup sys adjoint first reference seeds)
        (List.replicate decisions.length 0) =
      .ok (decisions.map (gradientAt sys seeds)) := by
  let val : ℕ → ℝ := fun pos => (decisions[pos]?.map (gradientAt sys seeds)).getD 0
  have hgroup : ∀ gradient : List ℝ, ∀ group ∈ groups,
      writeGroup sys adjoint first reference seeds gradient group =
        .ok (write val (group.2.map Prod.fst) gradient) := by
    intro gradient group hgroup
    have hdecision : ∀ e ∈ group.2, decisions[e.1]? = some (group.1, e.2) := fun e he =>
      (hmem _ _ _).mp (mem_decisionsOf hgroup he)
    obtain ⟨e₀, he₀⟩ := List.exists_mem_of_ne_nil _ (hne group hgroup)
    obtain ⟨len, hlen, -⟩ := hrange _ (List.mem_of_getElem? (hdecision e₀ he₀))
    obtain ⟨ratio, hratio, hscale⟩ := unitRatio_eq hunits first reference group.1 seeds
    apply writeGroup_eq hcolumn hratio hlen
    · intro e he
      obtain ⟨other, hother, hlt⟩ := hrange _ (List.mem_of_getElem? (hdecision e he))
      obtain rfl := Option.some.inj (hlen.symm.trans hother)
      exact hlt
    · intro e he
      obtain ⟨b, hb, hwritten⟩ := hvalue _ (List.mem_of_getElem? (hdecision e he))
      refine ⟨b, hb, ?_⟩
      simp only [val, hdecision e he, Option.map_some, Option.getD_some]
      exact hwritten ratio hscale
  have hall : ∀ k, k < decisions.length →
      k ∈ groups.flatMap fun group => group.2.map Prod.fst := by
    intro k hk
    have hget : decisions[k]? = some (decisions[k].1, decisions[k].2) :=
      List.getElem?_eq_getElem hk
    obtain ⟨group, hgroup, hentry⟩ := List.mem_flatMap.mp ((hmem _ _ _).mpr hget)
    obtain ⟨e, he, heq⟩ := List.mem_map.mp hentry
    rw [Prod.mk.injEq] at heq
    exact List.mem_flatMap.mpr ⟨group, hgroup, List.mem_map.mpr ⟨e, he, by rw [heq.2]⟩⟩
  rw [foldlM_eq_ok hgroup, foldl_write, write_all hall]
  apply congrArg Except.ok
  apply List.ext_getElem
  · simp
  · intro k hk _
    have hlt : k < decisions.length := by simpa using hk
    simp [val, hlt]

theorem functionalGradient_eq (hcolumn : ColumnWise sys column) (hexact : ExactSystem sys)
    (hunits : Separable sys) {seeds : List (Operand × List (ℕ × ℝ))}
    {decisions : List (Parameter × ℕ)} (h : Answerable sys seeds decisions) :
    functionalGradient sys seeds decisions = .ok (decisions.map (gradientAt sys seeds)) := by
  cases decisions with
  | nil => rfl
  | cons d₀ rest =>
    obtain ⟨reference, index₀⟩ := d₀
    obtain ⟨groups, hgroups, hne, hmem⟩ := groupDecisions_eq h.inRange
    have hfirst : (reference, index₀) ∈ (reference, index₀) :: rest := List.mem_cons_self
    let selectorOf : Operand → Selector ℝ sys.dim := fun operand =>
      match sys.operandSelector operand with
      | .ok selector => selector
      | .error _ => ⟨[], [], 0⟩
    have hseeds : ∀ seed ∈ seeds, ∀ d ∈ (reference, index₀) :: rest,
        SeedSelector sys seed (selectorOf seed.1) ∧ ∃ b, column d.1 d.2 = .ok b ∧
          ∀ w ∈ seed.2, derivative sys seed.1 d.1 w.1 d.2 =
            cell sys (selectorOf seed.1).sign ((selectorOf seed.1).map.getD
              ((positions (selectorOf seed.1).elements w.1).getD 0) []) b := by
      intro seed hseed d hd
      obtain ⟨m, hm, hreported⟩ := h.reported seed hseed d hd
      obtain ⟨selector, b, hselector, hb, hderivative⟩ :=
        seedSelector_of_ok hcolumn hexact hm hreported
      have hsame : selectorOf seed.1 = selector := by
        simp only [selectorOf, hselector.operandSelector]
      rw [hsame]
      exact ⟨hselector, b, hb, hderivative⟩
    have hrhs := functionalRhs_eq reference fun seed hseed => (hseeds seed hseed _ hfirst).1
    rw [functionalGradient]
    simp only [hgroups, hrhs, bind, Except.bind]
    cases seeds with
    | nil =>
      have hzero : gradientAt sys [] = fun _ => 0 := rfl
      rw [hzero, List.map_const']
    | cons seed₀ others =>
      obtain ⟨ys, hys, hsolved⟩ := solveRefined_solves hexact.adjoint [Triplets.gather
        ((seed₀ :: others).flatMap fun seed =>
          seedBlock sys reference seed (selectorOf seed.1))]
      obtain ⟨y, tail, hy, htail, rfl⟩ := List.forall₂_cons_right_iff.mp hsolved
      simp only [hys, solving]
      apply foldlM_writeGroup hcolumn hunits h.inRange hne hmem
      intro d hd
      obtain ⟨-, b, hb, -⟩ := hseeds seed₀ List.mem_cons_self d hd
      refine ⟨b, hb, fun ratio hratio => ?_⟩
      apply written_eq selectorOf hratio
      · exact response_adjoint hexact.forward hy b
      · intro seed hseed w hw
        obtain ⟨-, other, hother, hderivative⟩ := hseeds seed hseed d hd
        obtain rfl := Except.ok.inj (hb.symm.trans hother)
        exact hderivative w hw

structure OneDerivative (sys : Differentiable ℝ) : Prop where
  /-- The direction of the solve does not matter. -/
  mode : ∀ operand parameter indices mode other,
    sensitivity sys operand parameter indices mode =
      sensitivity sys operand parameter indices other
  /-- The columns of the matrix are the requested ones, one value for each row. -/
  columns : ∀ operand parameter indices mode m,
    sensitivity sys operand parameter indices mode = .ok m →
      m.values.length = m.rows.length ∧ (∀ row ∈ m.values, row.length = m.cols.length) ∧
        ∀ ix, indices = some ix → m.cols.map ColMeta.index = ix
  /-- Every column is the one of its index alone, wherever it stands in the request. -/
  alone : ∀ operand parameter indices mode m,
    sensitivity sys operand parameter indices mode = .ok m →
      ∀ c i : ℕ, (m.cols.map ColMeta.index)[c]? = some i → ∀ other, ∃ alone,
        sensitivity sys operand parameter (some [i]) other = .ok alone ∧
          alone.rows = m.rows ∧ alone.values.map (fun row => row[0]?) =
            m.values.map fun row => row[c]?
  weighted : ∀ operand parameter indices mode m,
    sensitivity sys operand parameter indices mode = .ok m →
      ∀ weights : List (ℕ × ℝ), (∀ w ∈ weights, (m.row w.1).isSome) →
        weightedSensitivity sys operand weights parameter indices =
          .ok ((List.range m.cols.length).map fun c =>
            (weights.map fun w => w.2 * m.value w.1 c).sum)
  gradient : ∀ seeds decisions, Answerable sys seeds decisions →
    functionalGradient sys seeds decisions = .ok (decisions.map (gradientAt sys seeds))

/-- A solver that is exact and columns that are separable give one derivative, whichever of the three drivers
is asked and in whichever direction. What rounding and refinement leave of it is not said. -/
theorem one_derivative (sys : Differentiable ℝ)
    (column : Parameter → ℕ → Except SensError (Fin sys.dim → ℝ)) (hcolumn : ColumnWise sys column)
    (hexact : ExactSystem sys) (hunits : Separable sys) : OneDerivative sys := by
  constructor
  case mode =>
    intro operand parameter indices mode other
    rw [sensitivity_eq hcolumn hexact, sensitivity_eq hcolumn hexact]
  case columns =>
    intro operand parameter indices mode m h
    exact shape hcolumn hexact h
  case alone =>
    intro operand parameter indices mode m h c i hi other
    exact column_alone hcolumn hexact h hi other
  case weighted =>
    intro operand parameter indices mode m h weights hweights
    exact weightedSensitivity_eq hcolumn hexact h hweights
  case gradient =>
    intro seeds decisions h
    exact functionalGradient_eq hcolumn hexact hunits h

end Exact

/-! ### A system of two variables -/

section Witness

@[reducible] local instance plainText : DecimalText ℝ := ⟨fun _ => ""⟩

open Classical in
/-- The inverse of the matrix, where it has one. -/
@[reducible] noncomputable local instance inverseLu : SparseLu ℝ where
  Lu dim := Matrix (Fin dim) (Fin dim) ℝ
  spLu _ triplets :=
    if IsUnit (Triplets.matrix triplets).det then .ok (Triplets.matrix triplets)⁻¹
    else .error "singular"
  solveInPlace lu b := lu *ᵥ b

theorem solves_of_isUnit {dim : ℕ} {triplets : List (Fin dim × Fin dim × ℝ)} {eps : ℝ}
    (h : IsUnit (Triplets.matrix (regularised triplets eps)).det) : Solves triplets eps := by
  let inverse : Matrix (Fin dim) (Fin dim) ℝ := (Triplets.matrix (regularised triplets eps))⁻¹
  refine ⟨inverse, if_pos h, fun b => ?_⟩
  change _ *ᵥ ((Triplets.matrix (regularised triplets eps))⁻¹ *ᵥ b) = b
  rw [Matrix.mulVec_mulVec, Matrix.mul_nonsing_inv _ h, Matrix.one_mulVec]

/-- The prices are the negated variables, all else is their weighted sum. -/
noncomputable def pairSelector : Operand → Selector ℝ 2
  | .price _ => ⟨[[(0, 1)], [(1, 1)]], [0, 1], -1⟩
  | _ => ⟨[[(0, 1), (1, 2)]], [0], 1⟩

noncomputable def pairScale : Operand → ℝ
  | .price _ => 1
  | _ => 100

/-- `2 y + z + p = 0` and `4 z + q = 0` for the parameters `p` and `q` of either index. -/
noncomputable def twoVariables : Differentiable ℝ where
  formulation := "dc"
  dim := 2
  jacobian := [(0, 0, 2), (0, 1, 1), (1, 1, 4)]
  parameterLen _ := some 2
  parameterJacobian _ indices := .ok (indices.map fun i row => if row.val = i then 1 else 0)
  operandLen operand := some (pairSelector operand).elements.length
  operandSelector operand := .ok (pairSelector operand)
  solveSpec := ⟨0, 2, 1⟩
  elementId _ index := .bus index
  unitScale operand _ := pairScale operand

theorem twoVariables_solves {i j : Fin 2} (hij : i ≠ j) : Solves [(0, 0, 2), (i, j, 1), (1, 1, 4)] (0 : ℝ) := by
  have hplain : regularised [(0, 0, 2), (i, j, 1), (1, 1, 4)] (0 : ℝ) = [(0, 0, 2), (i, j, 1), (1, 1, 4)] :=
    if_pos (decide_eq_true rfl)
  apply solves_of_isUnit
  rw [hplain, Triplets.matrix_cons, Triplets.matrix_cons, Triplets.matrix_cons, Triplets.matrix_nil,
    Matrix.det_fin_two, isUnit_iff_ne_zero]
  fin_cases i <;> fin_cases j <;> first | exact absurd rfl hij | norm_num [Matrix.single_apply]

/-- A price seed with both rows and a flow seed, at decisions in the reverse order of their indices. -/
theorem one_derivative_twoVariables :
    let seeds := [(Operand.price .active, [(0, (3 : ℝ)), (1, -1)]), (.flow .active .from, [(0, 1)])]
    let decisions := [(Parameter.demand .active, 1), (.demand .active, 0)]
    OneDerivative twoVariables ∧
      functionalGradient twoVariables seeds decisions = .ok (decisions.map (gradientAt twoVariables seeds)) := by
  intro seeds decisions
  have hcolumn : ColumnWise twoVariables fun _ i => .ok fun row => if row.val = i then 1 else 0 := by
    intro parameter len indices _ _
    exact (List.mapM_pure (m := Except SensError)).symm
  have hexact : ExactSystem twoVariables :=
    ⟨twoVariables_solves Fin.zero_ne_one, twoVariables_solves Fin.zero_ne_one.symm⟩
  have hunits : Separable twoVariables := by
    refine ⟨pairScale, fun _ => 1, ?_, fun _ => one_ne_zero, fun _ _ => (div_one _).symm⟩
    intro operand
    cases operand <;> norm_num [pairScale]
  have hone := one_derivative twoVariables _ hcolumn hexact hunits
  refine ⟨hone, hone.gradient seeds decisions ⟨?_, ?_⟩⟩
  · intro d hd
    rcases List.mem_pair.mp hd with rfl | rfl
    · exact ⟨2, rfl, one_lt_two⟩
    · exact ⟨2, rfl, two_pos⟩
  · intro seed hseed d hd
    have hresolve : resolve twoVariables seed.1 d.1 (some [d.2]) =
        .ok ((pairSelector seed.1).elements.length, [d.2], pairSelector seed.1) := by
      rcases List.mem_pair.mp hseed with rfl | rfl <;> rcases List.mem_pair.mp hd with rfl | rfl <;> rfl
    refine ⟨_, (sensitivity_eq_ok hcolumn hexact).mpr ⟨_, _, _, _, hresolve, rfl, rfl⟩, fun w hw => ?_⟩
    apply (congrArg Option.isSome (row_matrixOf _ _ _ _)).trans
    rcases List.mem_pair.mp hseed with rfl | rfl
    · rcases List.mem_pair.mp hw with rfl | rfl <;> rfl
    · rw [List.mem_singleton.mp hw]
      rfl

end Witness

end Tellegen.Sens
