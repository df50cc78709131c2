import Tellegen.Derivatives
import Tellegen.PreviewNets

/-!
The order of the two kinds of change in a preview. The columns of an operand have the same rows and
the same served unit for either kind, so that their sum does not depend on the order. An order decides
which group fails first, and so the text of an error.
-/

set_option linter.unusedSectionVars false

open Binary64 Std Grouping

namespace Tellegen.Sens

/-! ### Served units -/

/-- A prediction carries the unit of its operand, whichever kind of change it is for. -/
theorem operandUnit_servedUnitsLabel (operand : Operand) (kind : EditKind) :
    operandUnit (servedUnitsLabel operand (parameterOf kind)) = operand.unit := by
  cases kind with
  | demand =>
    cases operand with
    | price power => cases power <;> rfl
    | dispatch power => cases power <;> rfl
    | flow power side => cases power <;> cases side <;> rfl
    | voltage kind => cases kind <;> rfl
  | lineLimit =>
    cases operand with
    | price power => cases power <;> rfl
    | dispatch power => cases power <;> rfl
    | flow power side => cases power <;> cases side <;> rfl
    | voltage kind => cases kind <;> rfl

/-! ### Rows -/

section

variable {F : Type} [Libm F] [SparseLu F] {dim : ℕ}

theorem length_refine (lu : SparseLu.Lu F dim) (reg : List (Fin dim × Fin dim × F)) (rhs : Mat F dim)
    (tol : F) (fuel : ℕ) (prev : F) (x : Mat F dim) (hlength : x.length = rhs.length) :
    (refine lu reg rhs tol fuel prev x).length = rhs.length := by
  induction fuel generalizing prev x with
  | zero => exact hlength
  | succ fuel ih =>
    rw [refine]
    split
    case isTrue => exact hlength
    case isFalse =>
      apply ih
      rw [List.length_zipWith, List.length_map, List.length_zipWith, hlength, Nat.min_self,
        Nat.min_self]

theorem length_solveRefined {triplets : List (Fin dim × Fin dim × F)} {rhs x : Mat F dim}
    {spec : SolveSpec F} (h : solveRefined triplets rhs spec = .ok x) : x.length = rhs.length := by
  rw [solveRefined, Outcome.bind_eq_ok] at h
  obtain ⟨lu, _, h⟩ := h
  cases h
  exact length_refine _ _ _ _ _ _ _ (List.length_map ..)

theorem length_forwardAdjoint {k : List (Fin dim × Fin dim × F)} {rhs : Mat F dim}
    {opMap : List (List (Fin dim × F))} {sign : F} {mode : Mode} {spec : SolveSpec F}
    {values : List (List F)} (h : forwardAdjoint k rhs opMap sign mode spec = .ok values) :
    values.length = opMap.length := by
  have hforward : (do
      let x ← solveRefined k rhs spec
      .ok (opMap.map fun entries => x.map fun column => sign * Triplets.contract entries column) :
        Except String (List (List F))) = .ok values → values.length = opMap.length := by
    intro h
    rw [Outcome.bind_eq_ok] at h
    obtain ⟨x, _, h⟩ := h
    cases h
    exact List.length_map ..
  cases mode with
  | auto => exact hforward h
  | forward => exact hforward h
  | adjoint =>
    rw [forwardAdjoint, Outcome.bind_eq_ok] at h
    obtain ⟨y, hy, h⟩ := h
    cases h
    rw [List.length_map, length_solveRefined hy, List.length_map]

/-- The rows that an operand has in every matrix. -/
def operandRows (sys : Differentiable F) (operand : Operand) : List (ElementId × ℕ) :=
  match sys.operandSelector operand with
  | .ok selector => selector.elements.map fun index => (sys.elementId operand.axis index, index)
  | .error _ => []

theorem rows_of_runCell {sys : Differentiable F} {operand : Operand} {parameter : Parameter}
    {indices : List ℕ} {m : SensitivityMatrix F} (h : runCell sys operand parameter indices = .ok m) :
    m.values.length = m.rows.length ∧
      m.rows.map (fun position => (position.element, position.index)) = operandRows sys operand ∧
      m.units = servedUnitsLabel operand parameter := by
  rw [runCell] at h
  cases hmatrix : sensitivity sys operand parameter (some indices) .auto with
  | error failure =>
    rw [hmatrix] at h
    cases h
  | ok matrix =>
    rw [hmatrix] at h
    cases h
    rw [sensitivity, Outcome.bind_eq_ok] at hmatrix
    obtain ⟨⟨opLen, cols, selector⟩, hresolve, hmatrix⟩ := hmatrix
    simp only [Outcome.bind_eq_ok] at hmatrix
    obtain ⟨dkdp, _, values, hvalues, hmatrix⟩ := hmatrix
    cases hmatrix
    simp only [resolve, Outcome.bind_eq_ok] at hresolve
    obtain ⟨_, _, _, _, _, _, found, hselector, hresolve⟩ := hresolve
    cases hresolve
    rw [checkedSelector, Outcome.bind_eq_ok] at hselector
    obtain ⟨same, hoperand, hlengths⟩ := hselector
    rw [Outcome.ite_error_eq_ok] at hlengths
    obtain ⟨hlengths, hsame⟩ := hlengths
    cases hsame
    rw [not_or, not_not, not_not] at hlengths
    have hcount : values.length = selector.map.length := by
      cases hforward : forwardAdjoint sys.jacobian dkdp selector.map (-selector.sign)
          (Mode.auto.direction cols.length selector.map.length) sys.solveSpec with
      | error failure =>
        rw [hforward] at hvalues
        cases hvalues
      | ok found =>
        rw [hforward] at hvalues
        cases hvalues
        exact length_forwardAdjoint hforward
    refine ⟨?_, ?_, rfl⟩
    · rw [rescaleToServed]
      dsimp only
      rw [List.length_map, hlengths.2]
      split
      case isTrue => rw [List.length_map, hcount, hlengths.1]
      case isFalse => rw [hcount, hlengths.1]
    · rw [operandRows, hoperand, rescaleToServed]
      dsimp only
      rw [List.map_map]
      rfl

end

/-! ### Columns -/

/-- A column of an operand: the rows and the unit that the operand has, if there are values. -/
structure ColumnOf {F : Type} (sys : Differentiable F) (operand : Operand)
    (column : PreviewColumn F) : Prop where
  watches : column.operand = operand
  rows : column.values ≠ [] →
    column.values.map (fun value => (value.element, value.index)) = operandRows sys operand ∧
      column.units = operand.unit

theorem zipWith_right_of_length {α β γ : Type} {f : β → γ} {as : List α} {bs : List β}
    (hlength : as.length = bs.length) : List.zipWith (fun _ b => f b) as bs = bs.map f := by
  induction as generalizing bs with
  | nil =>
    rw [List.eq_nil_of_length_eq_zero hlength.symm]
    rfl
  | cons a as ih =>
    cases bs with
    | nil => cases hlength
    | cons b bs => rw [List.zipWith_cons_cons, List.map_cons, ih (Nat.succ.inj hlength)]

theorem columnOf_previewColumn {F : Type} [Libm F] {sys : Differentiable F} {operand : Operand}
    {kind : EditKind} {m : SensitivityMatrix F} {magnitudes : List F}
    (hlength : m.values.length = m.rows.length)
    (hrows : m.rows.map (fun position => (position.element, position.index)) =
      operandRows sys operand)
    (hunits : m.units = servedUnitsLabel operand (parameterOf kind)) :
    ColumnOf sys operand (previewColumn operand magnitudes m) where
  watches := rfl
  rows := by
    intro _
    constructor
    · rw [← hrows, previewColumn]
      dsimp only
      rw [List.map_zipWith]
      exact zipWith_right_of_length (f := fun position : RowMeta => (position.element, position.index))
        hlength
    · rw [previewColumn, hunits]
      exact operandUnit_servedUnitsLabel operand kind

theorem columnOf_previewColumns {F : Type} [Libm F] [SparseLu F] {sys : Differentiable F}
    {kind : EditKind} {entries : List (ℕ × F)} {watched : List Operand}
    {columns : List (PreviewColumn F)}
    (h : previewColumns sys (parameterOf kind) entries watched = .ok columns) :
    List.Forall₂ (ColumnOf sys) watched columns := by
  rw [previewColumns] at h
  split at h
  case isTrue =>
    cases h
    rw [List.forall₂_map_right_iff, List.forall₂_same]
    exact fun operand _ => ⟨rfl, fun hne => absurd rfl hne⟩
  case isFalse =>
    rw [Outcome.bind_eq_ok] at h
    obtain ⟨mats, hmats, h⟩ := h
    cases h
    have hcells := Outcome.forall₂_of_mapM_ok hmats
    clear hmats
    induction hcells with
    | nil => exact .nil
    | cons hcell _ ih =>
      obtain ⟨hlength, hrows, hunits⟩ := rows_of_runCell hcell
      exact .cons (columnOf_previewColumn hlength hrows hunits) ih

section Exact

variable [DecimalText ℝ] {T : Type}

/-- Two columns with one prediction. A column without values has no rows that its unit is for. -/
structure PreviewColumn.Agrees (a b : PreviewColumn ℝ) : Prop where
  operand : a.operand = b.operand
  values : a.values = b.values
  units : a.values ≠ [] → a.units = b.units

structure Preview.Agrees (a b : Preview ℝ) : Prop where
  operands : List.Forall₂ PreviewColumn.Agrees a.operands b.operands
  objectiveDelta : a.objectiveDelta = b.objectiveDelta
  localOnly : a.localOnly = b.localOnly

/-- Both succeed with related values, or both fail. -/
def SameOutcome {α : Type} (related : α → α → Prop) : Except String α → Except String α → Prop
  | .ok a, .ok b => related a b
  | .error _, .error _ => True
  | _, _ => False

theorem zipWith_add_comm {values others : List (PreviewValue ℝ)}
    (h : values.map (fun value => (value.element, value.index)) =
      others.map fun value => (value.element, value.index)) :
    List.zipWith (fun av ov => { av with value := av.value + ov.value }) values others =
      List.zipWith (fun av ov => { av with value := av.value + ov.value }) others values := by
  induction values generalizing others with
  | nil => rw [List.zipWith_nil_left, List.zipWith_nil_right]
  | cons value rest ih =>
    cases others with
    | nil => rfl
    | cons other others =>
      rw [List.map_cons, List.map_cons, List.cons.injEq, Prod.mk.injEq] at h
      obtain ⟨⟨helement, hindex⟩, hrest⟩ := h
      rw [List.zipWith_cons_cons, List.zipWith_cons_cons, ih hrest, helement, hindex,
        add_comm value.value]

variable {sys : Differentiable ℝ}

theorem mergeColumn_comm {operand : Operand} {a o : PreviewColumn ℝ} (ha : ColumnOf sys operand a)
    (ho : ColumnOf sys operand o) :
    ∃ c d, mergeColumn a o = .ok c ∧ mergeColumn o a = .ok d ∧ c.Agrees d := by
  by_cases hanil : a.values = []
  · by_cases honil : o.values = []
    · refine ⟨o, a, if_pos hanil, if_pos honil, ?_, ?_, ?_⟩
      · rw [ha.watches, ho.watches]
      · rw [hanil, honil]
      · exact fun hne => absurd honil hne
    · refine ⟨o, o, if_pos hanil, ?_, rfl, rfl, fun _ => rfl⟩
      rw [mergeColumn, if_neg honil, if_pos hanil]
  · by_cases honil : o.values = []
    · refine ⟨a, a, ?_, if_pos honil, rfl, rfl, fun _ => rfl⟩
      rw [mergeColumn, if_neg hanil, if_pos honil]
    · obtain ⟨harows, haunits⟩ := ha.rows hanil
      obtain ⟨horows, hounits⟩ := ho.rows honil
      have hrows := harows.trans horows.symm
      have hlength : a.values.length = o.values.length := by
        have hmap := congrArg List.length hrows
        rw [List.length_map, List.length_map] at hmap
        exact hmap
      let sum (av ov : PreviewValue ℝ) : PreviewValue ℝ := { av with value := av.value + ov.value }
      refine ⟨{ a with values := List.zipWith sum a.values o.values },
        { o with values := List.zipWith sum o.values a.values }, ?_, ?_, ?_⟩
      · rw [mergeColumn, if_neg hanil, if_neg honil, if_neg (not_not.mpr hlength)]
      · rw [mergeColumn, if_neg honil, if_neg hanil, if_neg (not_not.mpr hlength.symm)]
      · constructor
        case operand => exact ha.watches.trans ho.watches.symm
        case values => exact zipWith_add_comm hrows
        case units => exact fun _ => haunits.trans hounits.symm

theorem mergePreviewColumns_comm {watched : List Operand} {acc other : List (PreviewColumn ℝ)}
    (hacc : List.Forall₂ (ColumnOf sys) watched acc)
    (hother : List.Forall₂ (ColumnOf sys) watched other) :
    ∃ cs ds, mergePreviewColumns acc other = .ok cs ∧ mergePreviewColumns other acc = .ok ds ∧
      List.Forall₂ PreviewColumn.Agrees cs ds := by
  have hlength := hacc.length_eq.symm.trans hother.length_eq
  rw [mergePreviewColumns, mergePreviewColumns, if_neg (not_not.mpr hlength),
    if_neg (not_not.mpr hlength.symm)]
  clear hlength
  induction hacc generalizing other with
  | nil =>
    cases hother
    exact ⟨[], [], rfl, rfl, .nil⟩
  | cons ha _ ih =>
    cases hother with
    | cons ho hothers =>
      obtain ⟨c, d, hc, hd, hagree⟩ := mergeColumn_comm ha ho
      obtain ⟨cs, ds, hcs, hds, hrest⟩ := ih hothers
      refine ⟨c :: cs, d :: ds, ?_, ?_, .cons hagree hrest⟩
      · rw [List.zip_cons_cons, List.mapM_cons]
        dsimp only
        rw [hc, hcs]
        rfl
      · rw [List.zip_cons_cons, List.mapM_cons]
        dsimp only
        rw [hd, hds]
        rfl

variable [SparseLu ℝ]

theorem mergedColumns_pair (watched : List Operand) (g h : EditKind × List (ℕ × ℝ)) :
    mergedColumns sys watched [g, h] = (do
      let acc ← previewColumns sys (parameterOf g.1) g.2 watched
      let other ← previewColumns sys (parameterOf h.1) h.2 watched
      mergePreviewColumns acc other) := by
  rw [mergedColumns, List.foldlM_cons]
  cases previewColumns sys (parameterOf g.1) g.2 watched with
  | error failure => rfl
  | ok acc =>
    cases hother : previewColumns sys (parameterOf h.1) h.2 watched with
    | error failure =>
      simp only [List.foldlM_cons, hother]
      rfl
    | ok other =>
      simp only [List.foldlM_cons, List.foldlM_nil, Outcome.ok_bind, hother, pure_bind]
      cases mergePreviewColumns acc other with
      | error failure => rfl
      | ok merged => rfl

theorem mergedColumns_swap (watched : List Operand) (g h : EditKind × List (ℕ × ℝ)) :
    SameOutcome (List.Forall₂ PreviewColumn.Agrees) (mergedColumns sys watched [g, h])
      (mergedColumns sys watched [h, g]) := by
  rw [mergedColumns_pair, mergedColumns_pair]
  cases hg : previewColumns sys (parameterOf g.1) g.2 watched with
  | error failure =>
    cases previewColumns sys (parameterOf h.1) h.2 watched with
    | error failure => trivial
    | ok other => trivial
  | ok acc =>
    cases hh : previewColumns sys (parameterOf h.1) h.2 watched with
    | error failure => trivial
    | ok other =>
      obtain ⟨cs, ds, hcs, hds, hagree⟩ :=
        mergePreviewColumns_comm (columnOf_previewColumns hg) (columnOf_previewColumns hh)
      simp only [Outcome.ok_bind, hcs, hds]
      exact hagree

theorem objectiveDelta_swap (point : CommittedPoint ℝ T) (g h : EditKind × List (ℕ × ℝ)) :
    point.objectiveDelta [g, h] = point.objectiveDelta [h, g] := by
  rw [CommittedPoint.objectiveDelta, CommittedPoint.objectiveDelta]
  simp only [List.foldl_cons, List.foldl_nil]
  cases point.contribution g with
  | none => cases point.contribution h <;> rfl
  | some x =>
    cases point.contribution h with
    | none => rfl
    | some y => exact congrArg some (add_right_comm 0 x y)

/-! ### Previews -/

theorem PreviewColumn.agrees_refl (a : PreviewColumn ℝ) : a.Agrees a := ⟨rfl, rfl, fun _ => rfl⟩

theorem sameOutcome_refl {α : Type} {related : α → α → Prop} (h : ∀ a, related a a)
    (x : Except String α) : SameOutcome related x x := by
  cases x with
  | error failure => trivial
  | ok a => exact h a

section

variable {point : CommittedPoint ℝ T} {rows : EditKind → List (Option ℕ)}
  (hpoint : AlignedPoint point rows) {edits others : List (NetworkEdit ℝ)}
  (hedits : validateNetworkEdits point.base edits = .ok ())
  (hothers : validateNetworkEdits point.base others = .ok ())
  (hnets : SameNets point.base edits others)

include hpoint hedits hothers hnets

/-- Edit lists of the same nets have one preview, if their kinds of change appear in one order. -/
theorem preview_congr
    (hkinds : firstKeys (edits.map NetworkEdit.kind) = firstKeys (others.map NetworkEdit.kind))
    (watched : List Operand) : preview point edits watched = preview point others watched := by
  rw [preview, preview, hedits, hothers, resolved_congr hpoint hedits hothers hnets hkinds]

theorem sameOutcome_preview (watched : List Operand) :
    SameOutcome Preview.Agrees (preview point edits watched) (preview point others watched) := by
  have hrefl : ∀ prediction : Preview ℝ, prediction.Agrees prediction := by
    intro prediction
    refine ⟨?_, rfl, rfl⟩
    rw [List.forall₂_same]
    exact fun column _ => column.agrees_refl
  rcases eq_or_swapped (nodup_firstKeys _) (nodup_firstKeys _)
    (mem_kinds_congr hedits hothers hnets) with hsame | ⟨a, b, hab, hba⟩
  · rw [preview_congr hpoint hedits hothers hnets hsame watched]
    exact sameOutcome_refl hrefl _
  · have hnonempty : ∀ {list : List (NetworkEdit ℝ)} {a b : EditKind},
        firstKeys (list.map NetworkEdit.kind) = [a, b] → list ≠ [] := by
      rintro list a b hkinds rfl
      cases hkinds
    have hresolved : point.resolved edits = [point.columnsOf others a, point.columnsOf others b] := by
      rw [resolved_eq, if_neg (hnonempty hab), hab, columnsOf_congr hpoint hedits hothers hnets]
      rfl
    have hresolved' : point.resolved others = [point.columnsOf others b, point.columnsOf others a] := by
      rw [resolved_eq, if_neg (hnonempty hba), hba]
      rfl
    rw [preview, preview, hedits, hothers, Outcome.ok_bind, Outcome.ok_bind]
    split
    case isTrue => trivial
    case isFalse =>
      cases point.system with
      | error failure => trivial
      | ok sys =>
        rw [Outcome.ok_bind, Outcome.ok_bind, hresolved, hresolved', objectiveDelta_swap]
        have hswap : SameOutcome (List.Forall₂ PreviewColumn.Agrees)
            (mergedColumns sys watched [point.columnsOf others a, point.columnsOf others b])
            (mergedColumns sys watched [point.columnsOf others b, point.columnsOf others a]) :=
          mergedColumns_swap watched _ _
        cases hfirst : mergedColumns sys watched
            [point.columnsOf others a, point.columnsOf others b] with
        | error failure =>
          rw [hfirst] at hswap
          cases hsecond : mergedColumns sys watched
              [point.columnsOf others b, point.columnsOf others a] with
          | error failure => trivial
          | ok columns =>
            rw [hsecond] at hswap
            exact hswap.elim
        | ok columns =>
          rw [hfirst] at hswap
          cases hsecond : mergedColumns sys watched
              [point.columnsOf others b, point.columnsOf others a] with
          | error failure =>
            rw [hsecond] at hswap
            exact hswap.elim
          | ok columns' =>
            rw [hsecond] at hswap
            exact ⟨hswap, rfl, rfl⟩

end

/-- The lists use the same keys for the same kinds of change. -/
def SameKeys (edits others : List (NetworkEdit ℝ)) : Prop :=
  ∀ kind key, (∃ edit ∈ edits, edit.kind = kind ∧ edit.elementKey = key) ↔
    ∃ edit ∈ others, edit.kind = kind ∧ edit.elementKey = key

/-- The step to a target leads to the nets of the target, under every key and of every element,
without an edit of nothing and without two edits of one key. A preview depends on the nets of the
addressed elements and on the order in which the two kinds of change appear first; of this order only
the text of an error depends. -/
theorem edits_by_nets {point : CommittedPoint ℝ T} {rows : EditKind → List (Option ℕ)}
    (hpoint : AlignedPoint point rows) (current target : List (NetworkEdit ℝ)) :
    (∀ kind key, ((fold (current ++ replacementStep current target)).of kind).getD key 0 =
      ((fold target).of kind).getD key 0) ∧
    (∀ kind row, elementNet point.base kind row (current ++ replacementStep current target) =
      elementNet point.base kind row target) ∧
    (∀ edit ∈ replacementStep current target, edit.magnitudeMw ≠ 0) ∧
    ((replacementStep current target).map fun edit => (edit.kind, edit.elementKey)).Nodup ∧
    ∀ edits others : List (NetworkEdit ℝ),
      (SameKeys edits others →
        validateNetworkEdits point.base edits = validateNetworkEdits point.base others) ∧
      (validateNetworkEdits point.base edits = .ok () →
        validateNetworkEdits point.base others = .ok () → SameNets point.base edits others →
        ∀ watched,
          (firstKeys (edits.map NetworkEdit.kind) = firstKeys (others.map NetworkEdit.kind) →
            preview point edits watched = preview point others watched) ∧
          SameOutcome Preview.Agrees (preview point edits watched)
            (preview point others watched)) := by
  refine ⟨?_, ?_, ?_, nodup_replacementStep current target, ?_⟩
  · intro kind key
    rw [getD_fold, getD_fold, netMw_replacement]
  · exact fun kind row => netMw_replacement kind _ current target
  · exact fun edit hedit => magnitude_ne_zero hedit
  · intro edits others
    constructor
    · exact fun hkeys => validate_congr hkeys
    · intro hedits hothers hnets watched
      constructor
      · exact fun hkinds => preview_congr hpoint hedits hothers hnets hkinds watched
      · exact sameOutcome_preview hpoint hedits hothers hnets watched

end Exact

/-- The first watched operand that the formulation does not offer decides the error of a group. -/
theorem previewColumns_unsupported {F : Type} [Libm F] [SparseLu F] {sys : Differentiable F}
    {parameter : Parameter} {entries : List (ℕ × F)} {operand : Operand} {watched : List Operand}
    (hentries : entries ≠ []) (hoperand : sys.operandLen operand = none) :
    previewColumns sys parameter entries (operand :: watched) =
      .error (SensError.unsupported sys.formulation operand parameter).display := by
  have hcell : runCell sys operand parameter (entries.map (·.1)) =
      .error (SensError.unsupported sys.formulation operand parameter).display := by
    rw [runCell, sensitivity, resolve]
    dsimp only
    rw [hoperand]
    rfl
  rw [previewColumns, if_neg hentries, List.mapM_cons, hcell]
  rfl

/-! ### A point of two buses -/

namespace Sample

@[reducible] local instance previewText : DecimalText ℝ := ⟨fun _ => ""⟩

@[reducible] noncomputable local instance previewLu : SparseLu ℝ where
  Lu _ := Unit
  spLu _ _ := .ok ()
  solveInPlace _ rhs := rhs

def previewNetwork : BalancedNetwork ℝ Unit where
  buses := [{ id := 1, uid := some "west", kind := .connected },
    { id := 2, uid := some "east", kind := .connected }]
  loads := []
  branches := [{ uid := some "line", source := 1, target := 2, r := 0, x := 1, rateA := 100
                 inService := true }]
  generators := []
  baseMva := 100
  isNormalized := false
  tables := ()

/-- A system of two variables that offers both kinds of change and the prices alone. -/
noncomputable def previewSystem : Differentiable ℝ where
  formulation := "dc"
  dim := 2
  jacobian := [(0, 0, 1), (1, 1, 1)]
  parameterLen
    | .demand .active => some 2
    | .lineLimit => some 1
    | _ => none
  parameterJacobian _ indices := .ok (indices.map fun i row => if row.val = i then 1 else 0)
  operandLen
    | .price .active => some 2
    | _ => none
  operandSelector _ := .ok { map := [[(0, 1)], [(1, 1)]], elements := [0, 1], sign := 1 }
  solveSpec := { eps := 0, refineIters := 0, tolFactor := 0 }
  elementId _ index := .bus index
  unitScale _ _ := 1

noncomputable def previewPoint : CommittedPoint ℝ Unit where
  base := previewNetwork
  hasEconomicObjective := true
  system := .ok previewSystem
  busAxis := { ids := [1, 2], uids := [some "west", some "east"] }
  branchAxis := { ids := [1], uids := [some "line"] }
  lmp := some fun _ => 20
  lineShadowPrices := some fun _ => 3

def previewRows : EditKind → List (Option ℕ)
  | .demand => [some 0, some 1]
  | .lineLimit => [some 0]

theorem alignedPoint_preview : AlignedPoint previewPoint previewRows where
  axis := by
    intro kind
    cases kind with
    | demand =>
      refine ⟨?_, ?_, rfl, rfl⟩
      · intro i row hi
        match i with
        | 0 =>
          cases hi
          exact ⟨1, some "west", rfl, rfl, rfl, rfl⟩
        | 1 =>
          cases hi
          exact ⟨2, some "east", rfl, rfl, rfl, rfl⟩
        | _ + 2 => cases hi
      · intro i hi
        match i with
        | 0 => cases hi
        | 1 => cases hi
        | _ + 2 => cases hi
    | lineLimit =>
      refine ⟨?_, ?_, rfl, rfl⟩
      · intro i row hi
        match i with
        | 0 =>
          cases hi
          exact ⟨1, some "line", rfl, rfl, rfl, rfl⟩
        | _ + 1 => cases hi
      · intro i hi
        match i with
        | 0 => cases hi
        | _ + 1 => cases hi
  numbers := by decide

theorem validate_preview (edits : List (NetworkEdit ℝ))
    (h : ∀ edit ∈ edits, (edit.kind, edit.elementKey) ∈
      [(EditKind.demand, ElementKey.id 1), (.demand, .uid "west"), (.lineLimit, .id 1)]) :
    validateNetworkEdits previewPoint.base edits = .ok () := by
  have hkeys : ∀ kind (entry : ElementKey × ℝ), entry ∈ ((fold edits).of kind).toList →
      (kind, entry.1) ∈
        [(EditKind.demand, ElementKey.id 1), (.demand, .uid "west"), (.lineLimit, .id 1)] := by
    intro kind entry hentry
    have hmem : entry.1 ∈ (fold edits).of kind := by
      rw [← ExtTreeMap.isSome_getElem?_iff_mem, ExtTreeMap.mem_toList_iff_getElem?_eq_some.mp hentry]
      rfl
    obtain ⟨edit, hedit, rfl, hkey⟩ := (mem_fold _ _ _).mp hmem
    rw [← hkey]
    exact h edit hedit
  rw [validateNetworkEdits, validateCanonicalEdits, Outcome.bind_eq_ok]
  refine ⟨(), by rfl, ?_⟩
  rw [Outcome.bind_eq_ok]
  refine ⟨(), ?_, ?_⟩
  · rw [Outcome.forM_eq_ok]
    rintro ⟨key, mw⟩ hentry
    have hkey := hkeys .demand _ hentry
    simp only [List.mem_cons, Prod.mk.injEq, List.not_mem_nil, reduceCtorEq, false_and, or_false,
      true_and] at hkey
    rcases hkey with rfl | rfl <;> rfl
  · rw [Outcome.forM_eq_ok]
    rintro ⟨key, mw⟩ hentry
    have hkey := hkeys .lineLimit _ hentry
    simp only [List.mem_cons, Prod.mk.injEq, List.not_mem_nil, reduceCtorEq, false_and, or_false,
      false_or, true_and] at hkey
    subst hkey
    simp [validateRatingDelta, validateRatingDelta.target, canonicalBranch, endpointIsEditable,
      busById, toUsize, previewPoint, previewNetwork, Binary64.isFinite, Binary64.eq]

theorem row_west : (sourceTable previewNetwork .demand).row (.id 1) = some 0 ∧
    (sourceTable previewNetwork .demand).row (.uid "west") = some 0 ∧
    (sourceTable previewNetwork .lineLimit).row (.id 1) = some 0 := ⟨by rfl, by rfl, by rfl⟩

theorem sameNets_split : SameNets previewPoint.base
    [.addLoad (.id 1) 5, .addLoad (.uid "west") 3] [.addLoad (.uid "west") 8] where
  addressed := by
    obtain ⟨hid, huid, _⟩ := row_west
    intro kind row
    cases kind with
    | demand =>
      simp [Addressed, NetworkEdit.kind, NetworkEdit.elementKey, previewPoint, hid, huid]
    | lineLimit => simp [Addressed, NetworkEdit.kind]
  net := by
    obtain ⟨hid, huid, _⟩ := row_west
    intro kind row
    cases kind with
    | demand =>
      simp only [elementNet, netMw, changes, previewPoint, List.filter_cons, NetworkEdit.kind,
        decide_true, if_true, List.filter_nil, List.map_cons, List.map_nil,
        NetworkEdit.elementKey, NetworkEdit.magnitudeMw, KeyedSums.listTotal_cons,
        KeyedSums.listTotal_nil, hid, huid]
      split
      · norm_num
      · norm_num
    | lineLimit => rfl

theorem previewSystem_solves : Solves previewSystem.jacobian previewSystem.solveSpec.eps := by
  have hplain : regularised previewSystem.jacobian (0 : ℝ) = previewSystem.jacobian := if_pos (decide_eq_true rfl)
  have hone : Triplets.matrix previewSystem.jacobian = 1 := by
    change Triplets.matrix [((0 : Fin 2), (0 : Fin 2), (1 : ℝ)), (1, 1, 1)] = 1
    rw [Triplets.matrix_cons, Triplets.matrix_cons, Triplets.matrix_nil]
    ext i j
    fin_cases i <;> fin_cases j <;> simp
  refine ⟨(), rfl, fun b => ?_⟩
  change Matrix.mulVec (Triplets.matrix (regularised previewSystem.jacobian 0)) b = b
  rw [hplain, hone, Matrix.one_mulVec]

/-- The step at bus 1 has a preview. -/
theorem preview_west : ∃ ahead, preview previewPoint [.addLoad (.uid "west") 8] [.price .active] = .ok ahead := by
  have hcolumn : ColumnWise previewSystem fun _ i => .ok fun row => if row.val = i then 1 else 0 := by
    intro parameter len indices _ _
    exact (List.mapM_pure (m := Except SensError)).symm
  have hcols : (previewPoint.columnsOf [.addLoad (.uid "west") 8] .demand).2.map (·.1) = [0] := by rfl
  have hne : (previewPoint.columnsOf [.addLoad (.uid "west") 8] .demand).2 ≠ [] := by
    intro h
    rw [h] at hcols
    cases hcols
  obtain ⟨m, hm⟩ : ∃ m, sensitivity previewSystem (.price .active) (.demand .active) (some [0]) .auto = .ok m :=
    ⟨_, (sensitivity_eq_ok hcolumn ⟨previewSystem_solves, previewSystem_solves⟩).mpr ⟨_, _, _, _, rfl, rfl, rfl⟩⟩
  have hvalid := validate_preview [.addLoad (.uid "west") 8] (by simp [NetworkEdit.kind, NetworkEdit.elementKey])
  have hprice : ¬ ((!previewPoint.hasEconomicObjective) = true ∧ [Operand.price .active].any Operand.isPrice = true) :=
    fun h => Bool.false_ne_true h.1
  have hsystem : previewPoint.system = .ok previewSystem := rfl
  have hkinds : firstKeys ([NetworkEdit.addLoad (.uid "west") (8 : ℝ)].map NetworkEdit.kind) = [.demand] := by rfl
  have hcolumns : ∃ columns, previewColumns previewSystem (parameterOf .demand)
      (previewPoint.columnsOf [.addLoad (.uid "west") 8] .demand).2 [.price .active] = .ok columns := by
    rw [previewColumns, if_neg hne, hcols, List.mapM_cons, runCell, parameterOf, hm]
    exact ⟨_, rfl⟩
  obtain ⟨columns, hcolumns⟩ := hcolumns
  rw [preview, hvalid, Outcome.ok_bind, if_neg hprice, hsystem, Outcome.ok_bind, resolved_eq,
    if_neg (List.cons_ne_nil _ _), hkinds, List.map_singleton, mergedColumns, List.foldlM_cons]
  have hfirst : (previewPoint.columnsOf [.addLoad (.uid "west") 8] .demand).1 = .demand := rfl
  rw [hfirst, hcolumns]
  exact ⟨_, rfl⟩

/-- Bus 1 is raised by 5 MW under its number and by 3 MW under its uid, or by 8 MW at once. -/
theorem edits_by_nets_split :
    elementNet previewPoint.base .demand 0
        ([.addLoad (.id 1) 2] ++ replacementStep [.addLoad (.id 1) 2] [.addLoad (.id 1) 9]) =
      elementNet previewPoint.base .demand 0 [.addLoad (.id 1) 9] ∧
    preview previewPoint [.addLoad (.id 1) 5, .addLoad (.uid "west") 3] [.price .active] =
      preview previewPoint [.addLoad (.uid "west") 8] [.price .active] ∧
    ∃ ahead, preview previewPoint [.addLoad (.uid "west") 8] [.price .active] = .ok ahead := by
  obtain ⟨_, hnets, _, _, hpreview⟩ :=
    edits_by_nets alignedPoint_preview [.addLoad (.id 1) 2] [.addLoad (.id 1) 9]
  obtain ⟨_, hsame⟩ :=
    hpreview [.addLoad (.id 1) 5, .addLoad (.uid "west") 3] [.addLoad (.uid "west") 8]
  have hsplit := validate_preview [.addLoad (.id 1) 5, .addLoad (.uid "west") 3]
    (by simp [NetworkEdit.kind, NetworkEdit.elementKey])
  have hjoined := validate_preview [.addLoad (.uid "west") 8]
    (by simp [NetworkEdit.kind, NetworkEdit.elementKey])
  exact ⟨hnets .demand 0, (hsame hsplit hjoined sameNets_split [.price .active]).1 (by rfl), preview_west⟩

theorem columnsOf_ne_nil (edits : List (NetworkEdit ℝ)) (kind : EditKind)
    (h : ∃ edit ∈ edits, edit.kind = kind ∧ (previewPoint.axis kind).get edit.elementKey = some 0) :
    (previewPoint.columnsOf edits kind).2 ≠ [] := by
  have hmem := (mem_denseCols (previewPoint.axis kind) kind edits 0).mpr h
  rw [← ExtTreeMap.isSome_getElem?_iff_mem, Option.isSome_iff_exists] at hmem
  obtain ⟨mw, hmw⟩ := hmem
  exact List.ne_nil_of_mem (ExtTreeMap.mem_toList_iff_getElem?_eq_some.mpr hmw)

theorem preview_unsupported {edits : List (NetworkEdit ℝ)} {a b : EditKind}
    (hvalid : validateNetworkEdits previewPoint.base edits = .ok ())
    (hkinds : firstKeys (edits.map NetworkEdit.kind) = [a, b])
    (hne : (previewPoint.columnsOf edits a).2 ≠ []) :
    preview previewPoint edits [.voltage .magnitude] =
      .error (SensError.unsupported "dc" (.voltage .magnitude) (parameterOf a)).display := by
  have hnonempty : edits ≠ [] := by
    rintro rfl
    cases hkinds
  have hprice : ¬ ((!previewPoint.hasEconomicObjective) = true ∧
      [Operand.voltage .magnitude].any Operand.isPrice = true) := by
    rintro ⟨h, _⟩
    cases h
  have hcolumns : previewColumns previewSystem (parameterOf a) (previewPoint.columnsOf edits a).2
      [.voltage .magnitude] =
        .error (SensError.unsupported "dc" (.voltage .magnitude) (parameterOf a)).display :=
    previewColumns_unsupported hne rfl
  have hsystem : previewPoint.system = .ok previewSystem := rfl
  have hfirst : (previewPoint.columnsOf edits a).1 = a := rfl
  rw [preview, hvalid, Outcome.ok_bind, if_neg hprice, hsystem, Outcome.ok_bind, resolved_eq,
    if_neg hnonempty, hkinds, List.map_cons, List.map_cons, List.map_nil, mergedColumns_pair, hfirst,
    hcolumns]
  rfl

/-- A demand step and a rating step, in either order: the voltage magnitude cannot be predicted for
either, and the error names the kind that comes first. -/
theorem preview_names_the_first_kind :
    let raised : NetworkEdit ℝ := .addLoad (.id 1) 5
    let widened : NetworkEdit ℝ := .adjustBranchRating (.id 1) 10
    AlignedPoint previewPoint previewRows ∧
      validateNetworkEdits previewPoint.base [raised, widened] = .ok () ∧
      validateNetworkEdits previewPoint.base [widened, raised] = .ok () ∧
      SameNets previewPoint.base [raised, widened] [widened, raised] ∧
      preview previewPoint [raised, widened] [.voltage .magnitude] =
        .error "dc does not support d(Voltage(Magnitude))/d(Demand(Active))" ∧
      preview previewPoint [widened, raised] [.voltage .magnitude] =
        .error "dc does not support d(Voltage(Magnitude))/d(LineLimit)" := by
  intro raised widened
  have hvalid := validate_preview [raised, widened]
    (by simp [raised, widened, NetworkEdit.kind, NetworkEdit.elementKey])
  have hvalid' := validate_preview [widened, raised]
    (by simp [raised, widened, NetworkEdit.kind, NetworkEdit.elementKey])
  refine ⟨alignedPoint_preview, hvalid, hvalid', ?_, ?_, ?_⟩
  · constructor
    case addressed =>
      intro kind row
      simp only [Addressed, List.mem_cons, List.not_mem_nil, or_false]
      constructor
      · rintro ⟨edit, h | h, hedit⟩
        · exact ⟨edit, .inr h, hedit⟩
        · exact ⟨edit, .inl h, hedit⟩
      · rintro ⟨edit, h | h, hedit⟩
        · exact ⟨edit, .inr h, hedit⟩
        · exact ⟨edit, .inl h, hedit⟩
    case net =>
      intro kind row
      cases kind with
      | demand => rfl
      | lineLimit => rfl
  · have hne := columnsOf_ne_nil [raised, widened] .demand ⟨raised, List.mem_cons_self, rfl, by rfl⟩
    exact preview_unsupported (b := .lineLimit) hvalid (by rfl) hne
  · have hne := columnsOf_ne_nil [widened, raised] .lineLimit
      ⟨widened, List.mem_cons_self, rfl, by rfl⟩
    exact preview_unsupported (b := .demand) hvalid' (by rfl) hne

end Sample

end Tellegen.Sens
