import Tellegen.Stamping

/-!
The reference admittance is added to both sides of the iteration, and it
cancels: the fixed points of a step are the voltages at which the currents
balance, whatever loads the reference was taken from.
-/

set_option linter.unusedSectionVars false

open Binary64 Outcome

namespace Tellegen.Multiconductor

/-! ### Later loads -/

section Edits

variable {F : Type} [Libm F] [SparseLu F]

/-- Replaces the powers of one load of a prepared network. -/
def replaceLoad (prepared : PreparedNetwork F) (edit : ℕ × List (Complex64 F)) :
    Except String (PreparedNetwork F) :=
  match prepared.loads[edit.1]? with
  | none => .ok prepared
  | some load => do
      let replaced ← load.replacePower edit.2
      .ok { prepared with loads := prepared.loads.set edit.1 replaced }

def replaceLoads (prepared : PreparedNetwork F) (edits : List (ℕ × List (Complex64 F))) :
    Except String (PreparedNetwork F) := edits.foldlM replaceLoad prepared

theorem replaceLoads_eq_ok {base prepared : PreparedNetwork F}
    {edits : List (ℕ × List (Complex64 F))} (h : replaceLoads base edits = .ok prepared) :
    ∃ loads, prepared = { base with loads := loads } := by
  induction edits generalizing base with
  | nil =>
    simp only [replaceLoads, List.foldlM_nil, pure_eq_ok] at h
    exact ⟨base.loads, h.symm⟩
  | cons edit rest ih =>
    simp only [replaceLoads, List.foldlM_cons, bind_eq_ok] at h
    obtain ⟨next, hnext, hrest⟩ := h
    obtain ⟨loads, rfl⟩ := ih hrest
    unfold replaceLoad at hnext
    split at hnext
    · obtain rfl := Except.ok.inj hnext
      exact ⟨loads, rfl⟩
    · simp only [bind_eq_ok, Except.ok.injEq] at hnext
      obtain ⟨_, _, rfl⟩ := hnext
      exact ⟨loads, rfl⟩

end Edits

section Exact

variable [DecimalText ℝ] [SparseLu ℝ]

/-! ### Steps and balance -/

/-- One step of the iteration from a voltage, and the largest change it makes. -/
noncomputable def stepChange (prepared : PreparedNetwork ℝ) (options : McPfOptions ℝ)
    (voltage : Voltage ℝ prepared.index.size) :
    Except String (Voltage ℝ prepared.index.size × ℝ) := do
  let it ← iterateOnce prepared options
    ⟨holdFixed prepared voltage, fun _ => 0, none, Libm.infinity, 0⟩
  .ok (it.voltage, it.finalChange)

noncomputable def step (prepared : PreparedNetwork ℝ) (options : McPfOptions ℝ)
    (voltage : Voltage ℝ prepared.index.size) : Except String (Voltage ℝ prepared.index.size) := do
  let (next, _) ← stepChange prepared options voltage
  .ok next

def HoldsFixed (prepared : PreparedNetwork ℝ) (voltage : Voltage ℝ prepared.index.size) : Prop :=
  ∀ i value, prepared.fixed i = some value → voltage i = value

/-- No current is left over at any unknown terminal. -/
def Balanced (prepared : PreparedNetwork ℝ) (options : McPfOptions ℝ)
    (voltage : Voltage ℝ prepared.index.size) : Prop :=
  ∃ current, totalLoadCurrent prepared voltage options = .ok current ∧
    ∀ i, prepared.fixed i = none → passiveCurrent prepared voltage i + current i = 0

/-- What an accepted operating point promises. -/
structure Converged (prepared : PreparedNetwork ℝ) (options : McPfOptions ℝ)
    (point : FixedPoint ℝ prepared.index.size) : Prop where
  holdsFixed : HoldsFixed prepared point.voltage
  loadCurrent : totalLoadCurrent prepared point.voltage options = .ok point.loadCurrent
  metrics : kclMetrics prepared point.voltage point.loadCurrent options =
    (point.physicalKclResidual, point.scaledKclResidual)
  lastStep : ∃ previous, stepChange prepared options previous =
      .ok (point.voltage, point.voltageChange) ∧
    ∀ i, (point.voltage i - previous i).norm ≤ point.voltageChange
  tolerance : point.voltageChange ≤ options.tolerance
  scaled : point.scaledKclResidual ≤ 1
  iterations : point.iterations ≤ options.maxIterations

/-- A factorization of exact arithmetic solves the matrix that it was given. -/
def ExactLu : Prop :=
  ∀ (dim : ℕ) (triplets : List (Entry ℝ dim)) (lu : SparseLu.Lu ℝ dim),
    SparseLu.spLu dim triplets = .ok lu → ∀ rhs r,
      ∑ c, total triplets r c * SparseLu.solveInPlace lu rhs c = rhs r

/-! ### Relaxation -/

theorem le_max_left (a b : ℝ) : a ≤ Binary64.max a b := by
  change a ≤ if a < b then b else a
  split
  case isTrue h => exact h.le
  case isFalse => exact le_rfl

theorem le_max_right (a b : ℝ) : b ≤ Binary64.max a b := by
  change b ≤ if a < b then b else a
  split
  case isTrue => exact le_rfl
  case isFalse h => exact not_lt.mp h

/-- The pass of `relax` over some of the unknown terminals. -/
noncomputable def relaxOver {m n : ℕ} (damping : ℝ) (places : Fin m → Fin n)
    (solved : Fin m → Complex64 ℝ) (us : List (Fin m)) (state : Voltage ℝ n × ℝ) :
    Voltage ℝ n × ℝ :=
  us.foldl
    (fun (voltage, change) u =>
      let next := voltage (places u) +
        Complex64.scale damping (solved u - voltage (places u))
      (Function.update voltage (places u) next,
        Binary64.max change (next - voltage (places u)).norm)) state

/-- Each terminal is moved once, from the value it had. -/
structure Relaxed {m n : ℕ} (damping : ℝ) (places : Fin m → Fin n) (solved : Fin m → Complex64 ℝ)
    (us : List (Fin m)) (state next : Voltage ℝ n × ℝ) : Prop where
  moved : ∀ u ∈ us, next.1 (places u) =
    state.1 (places u) + Complex64.scale damping (solved u - state.1 (places u))
  kept : ∀ i, (∀ u ∈ us, places u ≠ i) → next.1 i = state.1 i
  grows : state.2 ≤ next.2
  bounds : ∀ u ∈ us, (next.1 (places u) - state.1 (places u)).norm ≤ next.2

theorem relaxOver_relaxed {m n : ℕ} {places : Fin m → Fin n} (hplaces : places.Injective)
    (damping : ℝ) (solved : Fin m → Complex64 ℝ) (us : List (Fin m)) (hus : us.Nodup)
    (state : Voltage ℝ n × ℝ) :
    Relaxed damping places solved us state (relaxOver damping places solved us state) := by
  induction us generalizing state with
  | nil => exact ⟨nofun, fun _ _ => rfl, le_rfl, nofun⟩
  | cons u rest ih =>
    obtain ⟨voltage, change⟩ := state
    rw [List.nodup_cons] at hus
    have hrest := ih hus.2
      (Function.update voltage (places u)
        (voltage (places u) + Complex64.scale damping (solved u - voltage (places u))),
        Binary64.max change (voltage (places u) +
          Complex64.scale damping (solved u - voltage (places u)) - voltage (places u)).norm)
    have hfirst : ∀ other ∈ rest, places other ≠ places u := by
      intro other hother heq
      exact hus.1 (hplaces heq ▸ hother)
    have hothers : ∀ other ∈ rest, Function.update voltage (places u)
        (voltage (places u) + Complex64.scale damping (solved u - voltage (places u)))
          (places other) = voltage (places other) := by
      intro other hother
      exact Function.update_of_ne (hfirst other hother) _ _
    have hhead := (hrest.kept (places u) hfirst).trans (Function.update_self _ _ _)
    constructor
    case moved =>
      intro other hother
      rcases List.mem_cons.mp hother with rfl | hother
      · exact hhead
      · have hmoved := hrest.moved other hother
        dsimp only at hmoved
        rw [hothers other hother] at hmoved
        exact hmoved
    case kept =>
      intro i hi
      have hkept := hrest.kept i fun other hother => hi other (List.mem_cons_of_mem _ hother)
      exact hkept.trans (Function.update_of_ne (hi u List.mem_cons_self).symm _ _)
    case grows => exact (le_max_left _ _).trans hrest.grows
    case bounds =>
      intro other hother
      rcases List.mem_cons.mp hother with rfl | hother
      · exact (congrArg (fun z => (z - voltage (places other)).norm) hhead).le.trans
          ((le_max_right _ _).trans hrest.grows)
      · have hbound := hrest.bounds other hother
        dsimp only at hbound
        rw [hothers other hother] at hbound
        exact hbound

theorem relax_relaxed {prepared : PreparedNetwork ℝ} (hunknown : prepared.unknown.Nodup)
    (options : McPfOptions ℝ) (solved : Fin prepared.unknown.length → Complex64 ℝ)
    (voltage : Voltage ℝ prepared.index.size) :
    Relaxed options.damping prepared.unknown.get solved (List.finRange prepared.unknown.length)
      (voltage, 0) (relax prepared options solved voltage) :=
  relaxOver_relaxed (List.nodup_iff_injective_get.mp hunknown) _ _ _ (List.nodup_finRange _) _

/-! ### The retained matrix -/

theorem sum_cells {k : ℕ} (f : Fin k × Fin k → Complex64 ℝ) :
    ((cells k).map f).sum = ∑ i, ∑ j, f (i, j) := by
  rw [cells, List.map_flatMap, List.flatMap_def, List.sum_flatten, List.map_map, Fin.sum_univ_def]
  congr 1
  apply List.map_congr_left
  intro i _
  rw [Function.comp_apply, List.map_map, Fin.sum_univ_def]
  rfl

theorem total_filterMap {α : Type} {n : ℕ} (l : List α) (f : α → Option (Entry ℝ n)) (i j : Fin n) :
    total (l.filterMap f) i j =
      (l.map fun a => match f a with
        | some (r, c, value) => if i = r ∧ j = c then value else 0
        | none => 0).sum := by
  induction l with
  | nil => rfl
  | cons a rest ih =>
    rw [List.filterMap_cons, List.map_cons, List.sum_cons]
    cases hentry : f a with
    | none => rw [ih, zero_add]
    | some entry =>
      obtain ⟨r, c, value⟩ := entry
      rw [total_cons, ih]

theorem finIdxOf?_get {n : ℕ} {unknown : List (Fin n)} (h : unknown.Nodup) (i : Fin n)
    (r : Fin unknown.length) : unknown.finIdxOf? i = some r ↔ unknown.get r = i := by
  rw [List.finIdxOf?_eq_some_iff]
  constructor
  · intro hr
    exact hr.1
  · intro hr
    refine ⟨hr, ?_⟩
    intro j hlt heq
    exact hlt.ne (List.nodup_iff_injective_get.mp h (heq.trans hr.symm))

theorem retainedValue_getD {n : ℕ} (passive yref : StampedMatrix ℝ n) (i j : Fin n) :
    (retainedValue passive yref i j).getD 0 = passive.get i j + yref.get i j := by
  unfold retainedValue StampedMatrix.get
  cases passive.values i j <;> cases yref.values i j <;> simp

theorem triplet_share {n dim : ℕ} (passive yref : StampedMatrix ℝ n)
    (position : Fin n → Option (Fin dim)) (r c : Fin dim) (i j : Fin n) :
    (match triplet passive yref position (i, j) with
      | some (r', c', value) => if r = r' ∧ c = c' then value else 0
      | none => 0) =
    if position i = some r ∧ position j = some c then passive.get i j + yref.get i j else 0 := by
  rw [← retainedValue_getD]
  unfold triplet
  cases position i with
  | none => simp
  | some r' =>
    cases position j with
    | none => simp
    | some c' =>
      cases retainedValue passive yref i j with
      | none => simp
      | some value =>
        dsimp only
        by_cases hpositive : lt 0 value.norm
        · simp only [hpositive, if_true, Option.some.injEq, Option.getD_some, eq_comm]
        · have hzero : value = 0 := by
            rw [← Complex64.norm_eq_zero]
            apply le_antisymm _ (Real.sqrt_nonneg _)
            exact not_lt.mp fun hlt => hpositive (decide_eq_true hlt)
          rw [if_neg hpositive, hzero]
          simp

theorem total_triplets {n : ℕ} (passive yref : StampedMatrix ℝ n) {unknown : List (Fin n)}
    (h : unknown.Nodup) (r c : Fin unknown.length) :
    total (triplets passive yref fun i => unknown.finIdxOf? i) r c =
      passive.get (unknown.get r) (unknown.get c) + yref.get (unknown.get r) (unknown.get c) := by
  rw [triplets, total_filterMap, sum_cells]
  simp only [triplet_share, finIdxOf?_get h]
  rw [Finset.sum_eq_single (unknown.get r), Finset.sum_eq_single (unknown.get c)]
  · simp
  · intro j _ hne
    exact if_neg fun hplace => hne hplace.2.symm
  · intro hmem
    exact absurd (Finset.mem_univ _) hmem
  · intro i _ hne
    exact Finset.sum_eq_zero fun j _ => if_neg fun hplace => hne hplace.1.symm
  · intro hmem
    exact absurd (Finset.mem_univ _) hmem

/-! ### What preparation retains -/

/-- The value of the retained matrix between two unknown terminals. -/
noncomputable def retained (prepared : PreparedNetwork ℝ) (u w : Fin prepared.unknown.length) :
    Complex64 ℝ :=
  prepared.passive.entry (prepared.unknown.get u) (prepared.unknown.get w) +
    prepared.yref.entry (prepared.unknown.get u) (prepared.unknown.get w)

structure Retained (prepared : PreparedNetwork ℝ) : Prop where
  unknown : ∀ i, i ∈ prepared.unknown ↔ prepared.fixed i = none
  nodup : prepared.unknown.Nodup
  passive : ∃ y, prepared.passive = .fromStamped y
  yref : ∃ y, prepared.yref = .fromStamped y
  sourceRhs : ∀ u, sourceRhsAt prepared (prepared.unknown.get u) =
    -(prepared.passive.rowFixedMul (prepared.unknown.get u) prepared.fixed +
      prepared.yref.rowFixedMul (prepared.unknown.get u) prepared.fixed)
  solves : ∀ rhs, ∃ solved, solveCompensated prepared rhs = .ok solved ∧
    ∀ u, ∑ w, retained prepared u w * solved w = rhs u

theorem solveInto_exact {dim : ℕ} (factor : RetainedComplexLu ℝ dim) (rhs : Fin dim → Complex64 ℝ) :
    factor.solveInto rhs = .ok (SparseLu.solveInPlace factor.lu rhs) := by
  rw [RetainedComplexLu.solveInto, if_neg (by simp), if_neg (by simp)]

variable {T : Type} [DeviceModels ℝ T]

theorem factorRetained_solves (hexact : ExactLu) {n : ℕ} {passive yref : StampedMatrix ℝ n}
    {unknown : List (Fin n)} (h : unknown.Nodup)
    {factor : Option (RetainedComplexLu ℝ unknown.length)}
    (hfactor : factorRetained passive yref unknown = .ok factor)
    (rhs : Fin unknown.length → Complex64 ℝ) :
    ∃ solved, (factor.elim (.ok fun _ => 0) fun factor => factor.solveInto rhs) = .ok solved ∧
      ∀ u, ∑ w, (passive.get (unknown.get u) (unknown.get w) +
        yref.get (unknown.get u) (unknown.get w)) * solved w = rhs u := by
  unfold factorRetained at hfactor
  split at hfactor
  case isTrue hempty =>
    subst hempty
    obtain rfl := Except.ok.inj hfactor
    exact ⟨_, rfl, nofun⟩
  case isFalse =>
    simp only [bind_eq_ok, Except.ok.injEq] at hfactor
    obtain ⟨lu, hlu, rfl⟩ := hfactor
    rw [RetainedComplexLu.factor] at hlu
    split at hlu
    · cases hlu
    · split at hlu
      · cases hlu
      · simp only [bind_eq_ok, Except.ok.injEq] at hlu
        obtain ⟨inner, hinner, rfl⟩ := hlu
        refine ⟨_, solveInto_exact _ _, ?_⟩
        intro u
        rw [← hexact _ _ _ hinner rhs u]
        apply Finset.sum_congr rfl
        intro w _
        rw [total_triplets _ _ h]

theorem retained_of_prepare (hexact : ExactLu) {inst : McAcPfInstance ℝ T}
    {prepared : PreparedNetwork ℝ} (h : prepare inst = .ok prepared) : Retained prepared := by
  obtain ⟨index, assembly, terminals, factor, _, _, _, hfactor, rfl⟩ := prepare_eq_ok h
  have hnodup : assembly.unknown.Nodup := (List.nodup_finRange _).filter _
  constructor
  case unknown =>
    exact Assembly.mem_unknown
  case nodup => exact hnodup
  case passive => exact ⟨_, rfl⟩
  case yref => exact ⟨_, rfl⟩
  case sourceRhs =>
    intro u
    exact sourceRhsAt_of_pos ((finIdxOf?_get hnodup (assembly.unknown.get u) u).mpr rfl)
  case solves =>
    intro rhs
    obtain ⟨solved, hsolved, hsum⟩ := factorRetained_solves hexact hnodup hfactor rhs
    refine ⟨solved, hsolved, ?_⟩
    intro u
    rw [← hsum u]
    apply Finset.sum_congr rfl
    intro w _
    rw [← CsrMatrix.entry_fromStamped, ← CsrMatrix.entry_fromStamped]
    rfl

/-! ### Fixed points -/

namespace Retained

variable {prepared : PreparedNetwork ℝ}

theorem withLoads (h : Retained prepared)
    (loads : List (BranchLoad ℝ prepared.index.size)) :
    Retained { prepared with loads := loads } :=
  ⟨h.unknown, h.nodup, h.passive, h.yref, h.sourceRhs, h.solves⟩

theorem injective (h : Retained prepared) {x y : Fin prepared.unknown.length → Complex64 ℝ}
    (heq : ∀ u, ∑ w, retained prepared u w * x w = ∑ w, retained prepared u w * y w) : x = y := by
  let K : Matrix (Fin prepared.unknown.length) (Fin prepared.unknown.length) (Complex64 ℝ) :=
    retained prepared
  choose solved _ hsolved using h.solves
  let X : Matrix (Fin prepared.unknown.length) (Fin prepared.unknown.length) (Complex64 ℝ) :=
    fun w c => solved (fun u => if u = c then 1 else 0) w
  have hright : K * X = 1 := by
    ext1 u c
    rw [Matrix.mul_apply, Matrix.one_apply]
    exact hsolved (fun u => if u = c then 1 else 0) u
  have hleft : X * K = 1 := mul_eq_one_comm.mp hright
  have himage : K.mulVec x = K.mulVec y := funext heq
  calc x = (X * K).mulVec x := by rw [hleft, Matrix.one_mulVec]
    _ = X.mulVec (K.mulVec x) := (Matrix.mulVec_mulVec _ _ _).symm
    _ = X.mulVec (K.mulVec y) := by rw [himage]
    _ = (X * K).mulVec y := Matrix.mulVec_mulVec _ _ _
    _ = y := by rw [hleft, Matrix.one_mulVec]

theorem sum_split (h : Retained prepared) {f : prepared.Terminals → Complex64 ℝ}
    {v : Voltage ℝ prepared.index.size} (hv : HoldsFixed prepared v) :
    ∑ j, f j * v j = ∑ w, f (prepared.unknown.get w) * v (prepared.unknown.get w) +
      ∑ j, f j * (prepared.fixed j).getD 0 := by
  have hunknown : ∑ w, f (prepared.unknown.get w) * v (prepared.unknown.get w) =
      ∑ j, if j ∈ prepared.unknown then f j * v j else 0 := by
    rw [← Finset.sum_filter]
    apply Finset.sum_bij (fun w _ => prepared.unknown.get w)
    · intro w _
      exact Finset.mem_filter.mpr ⟨Finset.mem_univ _, List.get_mem _ _⟩
    · intro u _ w _ huw
      exact List.nodup_iff_injective_get.mp h.nodup huw
    · intro j hj
      obtain ⟨w, hw⟩ := List.mem_iff_get.mp (Finset.mem_filter.mp hj).2
      exact ⟨w, Finset.mem_univ _, hw⟩
    · intro w _
      rfl
  rw [hunknown, ← Finset.sum_add_distrib]
  apply Finset.sum_congr rfl
  intro j _
  cases hfixed : prepared.fixed j with
  | none => simp [(h.unknown j).mpr hfixed]
  | some value =>
    have hmem : j ∉ prepared.unknown := fun hj => by
      rw [(h.unknown j).mp hj] at hfixed
      cases hfixed
    simp [hmem, hv j value hfixed]

theorem rowMul_split (h : Retained prepared) {v : Voltage ℝ prepared.index.size}
    (hv : HoldsFixed prepared v) (y : StampedMatrix ℝ prepared.index.size)
    (i : prepared.Terminals) :
    (CsrMatrix.fromStamped y).rowMul i v =
      ∑ w, y.get i (prepared.unknown.get w) * v (prepared.unknown.get w) +
        (CsrMatrix.fromStamped y).rowFixedMul i prepared.fixed := by
  rw [CsrMatrix.rowMul_fromStamped, CsrMatrix.rowFixedMul_fromStamped]
  exact h.sum_split hv

/-- The right-hand side differs from the matrix at the voltage itself by the current balance: the
reference and the fixed terminals cancel. -/
theorem compensated_eq (h : Retained prepared) {v : Voltage ℝ prepared.index.size}
    (hv : HoldsFixed prepared v) (current : Voltage ℝ prepared.index.size)
    (u : Fin prepared.unknown.length) :
    ∑ w, retained prepared u w * v (prepared.unknown.get w) =
      compensated prepared v current u +
        (passiveCurrent prepared v (prepared.unknown.get u) + current (prepared.unknown.get u)) := by
  obtain ⟨passive, hpassive⟩ := h.passive
  obtain ⟨yref, hyref⟩ := h.yref
  have hsum : ∑ w, retained prepared u w * v (prepared.unknown.get w) =
      ∑ w, passive.get (prepared.unknown.get u) (prepared.unknown.get w) *
          v (prepared.unknown.get w) +
        ∑ w, yref.get (prepared.unknown.get u) (prepared.unknown.get w) *
          v (prepared.unknown.get w) := by
    rw [← Finset.sum_add_distrib]
    apply Finset.sum_congr rfl
    intro w _
    rw [retained, hpassive, hyref, CsrMatrix.entry_fromStamped, CsrMatrix.entry_fromStamped,
      add_mul]
  have hrhs := h.sourceRhs u
  rw [hpassive, hyref] at hrhs
  rw [hsum, compensated, hrhs, passiveCurrent, hpassive, hyref, h.rowMul_split hv,
    h.rowMul_split hv]
  ring

theorem holdsFixed_holdFixed (v : Voltage ℝ prepared.index.size) :
    HoldsFixed prepared (holdFixed prepared v) := by
  intro i value hvalue
  rw [holdFixed, hvalue, Option.getD_some]

theorem holdFixed_of_holdsFixed {v : Voltage ℝ prepared.index.size} (h : HoldsFixed prepared v) :
    holdFixed prepared v = v := by
  funext i
  rw [holdFixed]
  cases hvalue : prepared.fixed i with
  | none => rfl
  | some value => exact (h i value hvalue).symm

theorem relax_holdsFixed (h : Retained prepared) {options : McPfOptions ℝ}
    {solved : Fin prepared.unknown.length → Complex64 ℝ} {v : Voltage ℝ prepared.index.size}
    (hv : HoldsFixed prepared v) : HoldsFixed prepared (relax prepared options solved v).1 := by
  intro i value hvalue
  apply ((relax_relaxed h.nodup options solved v).kept i _).trans (hv i value hvalue)
  intro u _ heq
  have hmem := (h.unknown i).mp (heq ▸ List.get_mem _ _)
  rw [hmem] at hvalue
  cases hvalue

theorem scale_eq_zero {x : ℝ} (hx : x ≠ 0) {z : Complex64 ℝ} (h : Complex64.scale x z = 0) :
    z = 0 := by
  have hre : x * z.re = 0 := congrArg Complex64.re h
  have him : x * z.im = 0 := congrArg Complex64.im h
  ext
  · exact (mul_eq_zero.mp hre).resolve_left hx
  · exact (mul_eq_zero.mp him).resolve_left hx

theorem relax_eq_self (h : Retained prepared) {options : McPfOptions ℝ} (hd : options.damping ≠ 0)
    {solved : Fin prepared.unknown.length → Complex64 ℝ} {v : Voltage ℝ prepared.index.size} :
    (relax prepared options solved v).1 = v ↔ solved = v ∘ prepared.unknown.get := by
  have hrelaxed := relax_relaxed h.nodup options solved v
  constructor
  · intro hsame
    funext u
    have hmoved := hrelaxed.moved u (List.mem_finRange u)
    rw [hsame] at hmoved
    exact sub_eq_zero.mp (scale_eq_zero hd (left_eq_add.mp hmoved))
  · intro hsolved
    funext i
    by_cases hi : i ∈ prepared.unknown
    · obtain ⟨u, rfl⟩ := List.mem_iff_get.mp hi
      rw [hrelaxed.moved u (List.mem_finRange u), hsolved, Function.comp_apply, sub_self]
      ext <;> simp
    · apply hrelaxed.kept
      intro u _ heq
      exact hi (heq ▸ List.get_mem _ _)

theorem solved_eq_iff (h : Retained prepared) {v : Voltage ℝ prepared.index.size}
    (hv : HoldsFixed prepared v) {current : Voltage ℝ prepared.index.size}
    {solved : Fin prepared.unknown.length → Complex64 ℝ}
    (hsolved : ∀ u, ∑ w, retained prepared u w * solved w = compensated prepared v current u) :
    solved = v ∘ prepared.unknown.get ↔
      ∀ i, prepared.fixed i = none → passiveCurrent prepared v i + current i = 0 := by
  constructor
  · intro heq i hi
    obtain ⟨u, rfl⟩ := List.mem_iff_get.mp ((h.unknown i).mpr hi)
    have hsum := h.compensated_eq hv current u
    rw [← hsolved u, heq] at hsum
    exact left_eq_add.mp hsum
  · intro hbalance
    apply h.injective
    intro u
    have hsum := h.compensated_eq hv current u
    rw [hbalance _ ((h.unknown _).mp (List.get_mem _ _)), add_zero] at hsum
    exact (hsolved u).trans hsum.symm

theorem exact_solution (h : Retained prepared) {rhs solved : Fin prepared.unknown.length → Complex64 ℝ}
    (hsolved : solveCompensated prepared rhs = .ok solved) :
    ∀ u, ∑ w, retained prepared u w * solved w = rhs u := by
  obtain ⟨other, hother, hsum⟩ := h.solves rhs
  rw [hsolved, Except.ok.injEq] at hother
  exact hother ▸ hsum

theorem step_eq_ok {options : McPfOptions ℝ} {v next : Voltage ℝ prepared.index.size} :
    step prepared options v = .ok next ↔ ∃ it, it.voltage = next ∧ PassTo prepared options
      ⟨holdFixed prepared v, fun _ => 0, none, Libm.infinity, 0⟩ it := by
  simp only [step, stepChange, bind_eq_ok, Except.ok.injEq, iterateOnce_eq_ok]
  constructor
  · rintro ⟨_, ⟨it, hit, rfl⟩, rfl⟩
    exact ⟨it, rfl, hit⟩
  · rintro ⟨it, rfl, hit⟩
    exact ⟨_, ⟨it, hit, rfl⟩, rfl⟩

theorem step_eq_self_iff (h : Retained prepared) {options : McPfOptions ℝ}
    (hd : options.damping ≠ 0) (v : Voltage ℝ prepared.index.size) :
    step prepared options v = .ok v ↔
      HoldsFixed prepared v ∧ Balanced prepared options v := by
  rw [step_eq_ok]
  constructor
  · rintro ⟨it, rfl, current, solved, hcurrent, hsolved, hvoltage, -, -, -⟩
    have hfixed : HoldsFixed prepared it.voltage := by
      rw [hvoltage]
      exact h.relax_holdsFixed (holdsFixed_holdFixed _)
    rw [holdFixed_of_holdsFixed hfixed] at hcurrent hsolved hvoltage
    have hsame := (h.relax_eq_self hd).mp hvoltage.symm
    exact ⟨hfixed, current, hcurrent, (h.solved_eq_iff hfixed (h.exact_solution hsolved)).mp hsame⟩
  · rintro ⟨hfixed, current, hcurrent, hbalance⟩
    rw [holdFixed_of_holdsFixed hfixed]
    obtain ⟨solved, hsolved, hsum⟩ := h.solves (compensated prepared v current)
    have hsame := (h.solved_eq_iff hfixed hsum).mpr hbalance
    have hrelax := (h.relax_eq_self hd).mpr hsame
    by_cases hle : le (relax prepared options solved v).2 options.tolerance
    · refine ⟨⟨v, current, some (kclMetrics prepared v current options),
        (relax prepared options solved v).2, 1⟩, rfl, current, solved, hcurrent, hsolved,
        hrelax.symm, rfl, rfl, ?_⟩
      rw [if_pos hle]
      exact ⟨hcurrent, rfl⟩
    · refine ⟨⟨v, current, none, (relax prepared options solved v).2, 1⟩, rfl, current, solved,
        hcurrent, hsolved, hrelax.symm, rfl, rfl, ?_⟩
      rw [if_neg hle]
      exact ⟨rfl, rfl⟩

/-! ### Runs -/

/-- The last step was taken from a voltage that it moved by at most the recorded change. -/
def LastStep (options : McPfOptions ℝ) (it : Iteration ℝ prepared.index.size) : Prop :=
  ∃ previous, stepChange prepared options previous = .ok (it.voltage, it.finalChange) ∧
    ∀ i, (it.voltage i - previous i).norm ≤ it.finalChange

/-- What every state of the loop keeps: metrics that are there belong to the voltage. -/
structure Tracks (options : McPfOptions ℝ) (it : Iteration ℝ prepared.index.size) : Prop where
  holdsFixed : HoldsFixed prepared it.voltage
  evaluated : ∀ metrics, it.evaluated = some metrics →
    totalLoadCurrent prepared it.voltage options = .ok it.loadCurrent ∧
      kclMetrics prepared it.voltage it.loadCurrent options = metrics

theorem Tracks.currentOf {options : McPfOptions ℝ} {it : Iteration ℝ prepared.index.size}
    (h : Tracks options it) :
    currentOf prepared options it = totalLoadCurrent prepared it.voltage options := by
  unfold Multiconductor.currentOf
  cases hevaluated : it.evaluated with
  | none => rfl
  | some metrics => exact (h.evaluated metrics hevaluated).1.symm

theorem relax_bounds (h : Retained prepared) (options : McPfOptions ℝ)
    (solved : Fin prepared.unknown.length → Complex64 ℝ) (v : Voltage ℝ prepared.index.size)
    (i : prepared.Terminals) :
    ((relax prepared options solved v).1 i - v i).norm ≤ (relax prepared options solved v).2 := by
  have hrelaxed := relax_relaxed h.nodup options solved v
  by_cases hi : i ∈ prepared.unknown
  · obtain ⟨u, rfl⟩ := List.mem_iff_get.mp hi
    exact hrelaxed.bounds u (List.mem_finRange u)
  · have hkept : (relax prepared options solved v).1 i = v i :=
      hrelaxed.kept i fun u _ heq => hi (heq ▸ List.get_mem _ _)
    rw [hkept, sub_self, (Complex64.norm_eq_zero 0).mpr rfl]
    exact hrelaxed.grows

theorem tracks_passTo (h : Retained prepared) {options : McPfOptions ℝ}
    {it next : Iteration ℝ prepared.index.size} (htracks : Tracks options it)
    (hpass : PassTo prepared options it next) : Tracks options next ∧ LastStep options next := by
  have hcopy := hpass
  obtain ⟨current, solved, hcurrent, hsolved, hvoltage, hchange, -, hrest⟩ := hpass
  constructor
  · constructor
    case holdsFixed =>
      rw [hvoltage]
      exact h.relax_holdsFixed htracks.holdsFixed
    case evaluated =>
      intro metrics hmetrics
      split at hrest
      case isTrue =>
        rw [hrest.2, Option.some.injEq] at hmetrics
        exact ⟨hrest.1, hmetrics⟩
      case isFalse =>
        rw [hrest.2] at hmetrics
        cases hmetrics
  · refine ⟨it.voltage, ?_, ?_⟩
    · have hfresh : PassTo prepared options
          ⟨holdFixed prepared it.voltage, fun _ => 0, none, Libm.infinity, 0⟩
          { next with iterations := 1 } := by
        rw [holdFixed_of_holdsFixed htracks.holdsFixed]
        exact ⟨current, solved, htracks.currentOf.symm.trans hcurrent, hsolved, hvoltage, hchange,
          rfl, hrest⟩
      rw [stepChange, (iterateOnce_eq_ok _).mpr hfresh]
      rfl
    · intro i
      rw [hvoltage, hchange]
      exact h.relax_bounds options solved it.voltage i

theorem tracks_iterateLoop (h : Retained prepared) {options : McPfOptions ℝ} {rest : ℕ}
    {it result : Iteration ℝ prepared.index.size} (htracks : Tracks options it)
    (hrun : iterateLoop prepared options rest it = .ok result) :
    Tracks options result ∧ result.iterations ≤ it.iterations + rest ∧
      (rest ≠ 0 → LastStep options result) := by
  induction rest generalizing it with
  | zero =>
    obtain rfl := Except.ok.inj hrun
    exact ⟨htracks, le_rfl, fun hzero => absurd rfl hzero⟩
  | succ rest ih =>
    simp only [iterateLoop, bind_eq_ok] at hrun
    obtain ⟨next, hnext, hrun⟩ := hrun
    have hpass := (iterateOnce_eq_ok _).mp hnext
    obtain ⟨htracks', hlast⟩ := h.tracks_passTo htracks hpass
    obtain ⟨-, -, -, -, -, -, hiterations, -⟩ := hpass
    split at hrun
    case isTrue =>
      obtain rfl := Except.ok.inj hrun
      exact ⟨htracks', by omega, fun _ => hlast⟩
    case isFalse =>
      obtain ⟨htracks'', hbound, hlast'⟩ := ih htracks' hrun
      refine ⟨htracks'', by omega, fun _ => ?_⟩
      by_cases hrest : rest = 0
      · subst hrest
        obtain rfl := Except.ok.inj hrun
        exact hlast
      · exact hlast' hrest

theorem placeUnknown_holdsFixed (h : Retained prepared) {v : Voltage ℝ prepared.index.size}
    (hv : HoldsFixed prepared v) (solved : Fin prepared.unknown.length → Complex64 ℝ) :
    HoldsFixed prepared (placeUnknown prepared v solved) := by
  unfold placeUnknown
  induction List.finRange prepared.unknown.length generalizing v with
  | nil => exact hv
  | cons u rest ih =>
    apply ih
    intro i value hvalue
    have hne : i ≠ prepared.unknown.get u := by
      rintro rfl
      rw [(h.unknown _).mp (List.get_mem _ _)] at hvalue
      cases hvalue
    exact (Function.update_of_ne hne _ _).trans (hv i value hvalue)

theorem initialVoltage_holdsFixed (h : Retained prepared)
    {initial : Option (Voltage ℝ prepared.index.size)} {v : Voltage ℝ prepared.index.size}
    (hv : initialVoltage prepared initial = .ok v) : HoldsFixed prepared v := by
  unfold initialVoltage at hv
  split at hv
  case h_1 =>
    split at hv
    · cases hv
    · obtain rfl := Except.ok.inj hv
      exact holdsFixed_holdFixed _
  case h_2 =>
    dsimp only at hv
    split at hv
    · obtain rfl := Except.ok.inj hv
      exact holdsFixed_holdFixed _
    · simp only [bind_eq_ok, Except.ok.injEq] at hv
      obtain ⟨solved, _, rfl⟩ := hv
      exact h.placeUnknown_holdsFixed (holdsFixed_holdFixed _) solved

theorem validateOptions_eq_ok {options : McPfOptions ℝ} {u : Unit}
    (h : validateOptions options = .ok u) : options.maxIterations ≠ 0 ∧ options.damping ≠ 0 := by
  rw [validateOptions, ite_error_eq_ok] at h
  have hvalid := h.1
  simp only [Bool.or_eq_true, not_or, decide_eq_true_eq] at hvalid
  have hdamping : ¬ le options.damping 0 = true := by tauto
  refine ⟨by tauto, fun hzero => hdamping ?_⟩
  exact decide_eq_true hzero.le

theorem finalMetrics_eq_ok {options : McPfOptions ℝ} {it : Iteration ℝ prepared.index.size}
    (htracks : Tracks options it) {loadCurrent : Voltage ℝ prepared.index.size} {metrics : ℝ × ℝ}
    (h : finalMetrics prepared options it = .ok (loadCurrent, metrics)) :
    totalLoadCurrent prepared it.voltage options = .ok loadCurrent ∧
      kclMetrics prepared it.voltage loadCurrent options = metrics := by
  unfold finalMetrics at h
  split at h
  case h_1 evaluated hevaluated =>
    obtain ⟨rfl, rfl⟩ := Prod.mk.inj (Except.ok.inj h)
    exact htracks.evaluated _ hevaluated
  case h_2 =>
    simp only [bind_eq_ok, Except.ok.injEq, Prod.mk.injEq] at h
    obtain ⟨current, hcurrent, rfl, rfl⟩ := h
    exact ⟨hcurrent, rfl⟩

theorem iterate_converged (h : Retained prepared) {options : McPfOptions ℝ}
    {initial : Option (Voltage ℝ prepared.index.size)}
    {point : FixedPoint ℝ prepared.index.size}
    (hpoint : iterate prepared options initial = .ok point) : Converged prepared options point := by
  simp only [iterate, bind_eq_ok] at hpoint
  obtain ⟨_, hoptions, voltage, hvoltage, it, hrun, ⟨loadCurrent, residual, scaled⟩, hmetrics,
    hpoint⟩ := hpoint
  split at hpoint
  · cases hpoint
  split at hpoint
  · cases hpoint
  case isFalse hbounds =>
    obtain rfl := Except.ok.inj hpoint
    have hstart : Tracks options ⟨voltage, fun _ => 0, none, Libm.infinity, 0⟩ :=
      ⟨h.initialVoltage_holdsFixed hvoltage, by simp⟩
    obtain ⟨htracks, hiterations, hlast⟩ := h.tracks_iterateLoop hstart hrun
    obtain ⟨hcurrent, hkcl⟩ := finalMetrics_eq_ok htracks hmetrics
    simp only [Bool.or_eq_true, not_or] at hbounds
    constructor
    case holdsFixed => exact htracks.holdsFixed
    case loadCurrent => exact hcurrent
    case metrics => exact hkcl
    case lastStep => exact hlast (validateOptions_eq_ok hoptions).1
    case tolerance => exact not_lt.mp fun hlt => hbounds.1 (decide_eq_true hlt)
    case scaled => exact not_lt.mp fun hlt => hbounds.2 (decide_eq_true hlt)
    case iterations =>
      rw [zero_add] at hiterations
      exact hiterations

end Retained

/-- On every prepared network, whatever loads have been replaced since, the fixed points of a step
are the voltages that hold the fixed terminals and balance the currents at the unknown ones, and
an accepted operating point keeps all that it promises. -/
theorem reference_does_not_matter (hexact : ExactLu) {T : Type} [DeviceModels ℝ T]
    (inst : McAcPfInstance ℝ T) (base prepared : PreparedNetwork ℝ)
    (edits : List (ℕ × List (Complex64 ℝ))) (options : McPfOptions ℝ)
    (hbase : prepare inst = .ok base) (hprepared : replaceLoads base edits = .ok prepared)
    (hoptions : validateOptions options = .ok ()) :
    (∀ v, step prepared options v = .ok v ↔
      HoldsFixed prepared v ∧ Balanced prepared options v) ∧
    (∀ initial point, iterate prepared options initial = .ok point →
      Converged prepared options point) := by
  obtain ⟨loads, rfl⟩ := replaceLoads_eq_ok hprepared
  have hretained := (retained_of_prepare hexact hbase).withLoads loads
  exact ⟨hretained.step_eq_self_iff (Retained.validateOptions_eq_ok hoptions).2,
    fun _ _ => hretained.iterate_converged⟩

end Exact

/-! ### A feeder with one lamp -/

section Feeder

variable {F : Type} [Libm F]

/-- A lamp of one watt at a nominal volt. -/
def lamp (name bus : String) (terminals : List String) : DistLoad F Unit :=
  { name, bus
    configuration := .singlePhase
    terminalMap := terminals
    pNom := [1]
    qNom := [0]
    voltageModel := .constantImpedance [1]
    neutralTerminal := none
    rest := () }

/-- A source at the terminal `a`, a conductor from there to `b`, and a lamp from `b` to the ground. -/
def feederNetwork (others : List DistBus) (spares : List (DistLoad F Unit)) :
    MulticonductorNetwork F Unit :=
  { buses := ⟨"bus", ["a", "b", "n"], ["n"]⟩ :: others
    lineCodes := []
    lines := []
    switches := []
    transformers := []
    loads := lamp "lamp" "bus" ["b", "n"] :: spares
    generators := []
    ibrs := []
    shunts := [⟨"conductor", "bus", ["a", "b"], [[1, -1], [-1, 1]], [[0, 0], [0, 0]]⟩]
    capacitors := []
    sources := [⟨"grid", "bus", ["a"], []⟩]
    componentLocations := []
    untypedObjects := [] }

def prescribed (row : DistLoad F Unit) : PrescribedLoad F :=
  ⟨row.name, row.terminalMap, row.pNom, row.qNom, row.voltageModel⟩

/-- A network with one volt at its source, and the powers of its rows. -/
def feederInstance (network : MulticonductorNetwork F Unit) : McAcPfInstance F Unit :=
  { network
    isolatedTerminals := []
    controlModes := []
    sources := [⟨"grid", ["a"], [1], [0]⟩]
    loads := network.loads.map prescribed }

@[reducible] def plainDevices : DeviceModels F Unit where
  prepareTransformer _ := .error "no transformer"
  inferMissingLoadVoltages _ := .ok fun _ => none

end Feeder

section Witness

attribute [local instance] plainDevices noText

noncomputable def denseMatrix {d : ℕ} (triplets : List (Entry ℝ d)) :
    Matrix (Fin d) (Fin d) (Complex64 ℝ) := total triplets

open Classical in
@[reducible] noncomputable def inverseLu : SparseLu ℝ where
  Lu dim := Matrix (Fin dim) (Fin dim) (Complex64 ℝ)
  spLu _ triplets :=
    if IsUnit (denseMatrix triplets).det then .ok (denseMatrix triplets)⁻¹
    else .error "complex sparse LU failed"
  solveInPlace lu rhs := lu.mulVec rhs

attribute [local instance] inverseLu

theorem inverseLu_exact : ExactLu := by
  intro dim triplets lu hlu rhs r
  dsimp only [SparseLu.spLu] at hlu
  split at hlu
  case isFalse => cases hlu
  case isTrue hunit =>
    obtain rfl := Except.ok.inj hlu
    have hinverse : (denseMatrix triplets).mulVec ((denseMatrix triplets)⁻¹.mulVec rhs) = rhs := by
      rw [Matrix.mulVec_mulVec, Matrix.mul_nonsing_inv _ hunit, Matrix.one_mulVec]
    exact congrFun hinverse r

theorem exists_factor {dim : ℕ} (hdim : dim ≠ 0) {triplets : List (Entry ℝ dim)}
    (hunit : IsUnit (denseMatrix triplets).det) :
    ∃ factor, RetainedComplexLu.factor triplets = .ok factor := by
  rw [RetainedComplexLu.factor, if_neg hdim, if_neg (by simp)]
  simp only [SparseLu.spLu, if_pos hunit]
  exact ⟨_, rfl⟩

noncomputable def unitOptions : McPfOptions ℝ :=
  { tolerance := 1
    maxIterations := 1
    damping := 1
    zeroVoltageTolerance := 1
    absoluteKclTolerance := 1
    relativeKclTolerance := 1
    voltageEnvelope := true
    vLowPu := 1
    vMinPu := 2
    vMaxPu := 3 }

theorem validate_unitOptions : validateOptions unitOptions = .ok () := by
  have hpositive : le (1 : ℝ) 0 = false := decide_eq_false (by norm_num)
  have hnonneg : lt (1 : ℝ) 0 = false := decide_eq_false (by norm_num)
  have hdamping : lt (1 : ℝ) 1 = false := decide_eq_false (by norm_num)
  have hmin : le (2 : ℝ) 1 = false := decide_eq_false (by norm_num)
  have hmax : le (3 : ℝ) 2 = false := decide_eq_false (by norm_num)
  apply if_neg
  simp only [unitOptions, hpositive, hnonneg, hdamping, hmin, hmax]
  decide

@[reducible] noncomputable def feeder : McAcPfInstance ℝ Unit :=
  feederInstance (feederNetwork [] [])

def feederIndex : NetworkIndex :=
  { terminalIds := [("bus", "a"), ("bus", "b"), ("bus", "n")]
    positions := [("bus", [("a", 0), ("b", 1), ("n", 2)])]
    inRange := by decide }

def feederTerminal (i : Fin 3) : Fin feederIndex.size := i

theorem last_terminal : (0 : Fin 3) ≠ 2 ∧ (2 : Fin 3) ≠ 0 ∧ (2 : Fin 3) ≠ 1 := by decide

theorem feederTerminal_eq_iff {i j : Fin 3} : feederTerminal i = feederTerminal j ↔ i = j := Iff.rfl

noncomputable def feederGround : Fixed ℝ feederIndex.size :=
  Function.update (fun _ => none) (feederTerminal 2) (some 0)

noncomputable def feederFixed : Fixed ℝ feederIndex.size :=
  Function.update feederGround (feederTerminal 0) (some (Complex64.fromPolar 1 0))

/-- The lamp at a power, with the reference admittance of the first one. -/
noncomputable def feederLoad (p : ℝ) : BranchLoad ℝ feederIndex.size :=
  { name := "lamp"
    bus := "bus"
    branches := 1
    incidence := fun _ => incidenceOf (feederTerminal 1) (feederTerminal 2)
    power := fun _ => ⟨p, 0⟩
    nominalAdmittance := fun _ => BranchLoad.admittanceOf ⟨p, 0⟩ 1
    referenceAdmittance := fun _ => BranchLoad.admittanceOf ⟨1, 0⟩ 1
    nominalVoltage := fun _ => 1
    model := .constantImpedance }

theorem admittanceOf_one (p : ℝ) : BranchLoad.admittanceOf ⟨p, 0⟩ 1 = ⟨p, 0⟩ := by
  ext <;> simp [BranchLoad.admittanceOf, Complex64.divReal, Complex64.conj]

theorem onlyBranch {α : Type} (f : Fin 1 → α) : f = fun _ => f 0 := by
  funext branch
  rw [Subsingleton.elim branch 0]

theorem prepareLoad_feeder :
    prepareLoad (lamp "lamp" "bus" ["b", "n"]) (feederIndex.resolve "bus") none =
      .ok (feederLoad 1) := by
  let row : DistLoad ℝ Unit := lamp "lamp" "bus" ["b", "n"]
  have hequal : row.pNom.length = row.qNom.length := rfl
  have hsome : row.pNom ≠ [] := List.cons_ne_nil 1 []
  have hfinite : ¬ (row.pNom ++ row.qNom).any (fun value => !isFinite value) = true :=
    Bool.false_ne_true
  have hincidence : connectionIncidence row (feederIndex.resolve "bus") =
      .ok [incidenceOf (feederTerminal 1) (feederTerminal 2)] := rfl
  have hvoltage : nominalVoltages row none = .ok fun _ => (1 : ℝ) := by
    have hread : nominalVoltages row none =
        coefficients "lamp" "v_nom" [(1 : ℝ)] row.pNom.length := rfl
    have hlength : [(1 : ℝ)].length = 1 ∨ [(1 : ℝ)].length = row.pNom.length := Or.inl rfl
    rw [hread, coefficients, dif_pos hlength]
    rfl
  have hpositive : ¬ (List.finRange row.pNom.length).any (fun _ => le (1 : ℝ) 0) = true := by
    have hle : le (1 : ℝ) 0 = false := decide_eq_false (by norm_num)
    rw [hle]
    exact Bool.false_ne_true
  have hcount : row.pNom.length =
      [incidenceOf (F := ℝ) (feederTerminal 1) (feederTerminal 2)].length := rfl
  unfold prepareLoad
  rw [dif_pos hequal, if_neg hsome, if_neg hfinite, hincidence]
  simp only [bind, Except.bind]
  rw [dif_pos hcount, hvoltage]
  dsimp only
  rw [if_neg hpositive]
  refine congrArg Except.ok
    (?_ : (⟨"lamp", "bus", 1, _, _, _, _, _, _⟩ : BranchLoad ℝ feederIndex.size) = feederLoad 1)
  unfold feederLoad
  congr 1 <;> exact onlyBranch _

theorem replacePower_feeder (p q : ℝ) :
    (feederLoad p).replacePower [⟨q, 0⟩] = .ok (feederLoad q) := by
  refine congrArg Except.ok
    (?_ : (⟨"lamp", "bus", 1, _, _, _, _, _, _⟩ : BranchLoad ℝ feederIndex.size) = feederLoad q)
  unfold feederLoad
  congr 1 <;> exact onlyBranch _

theorem branchCurrent_feeder {p : ℝ} (hp : p ≠ 0) {v : Voltage ℝ feederIndex.size}
    (hv : v (feederTerminal 1) - v (feederTerminal 2) ≠ 0) (branch : Fin (feederLoad p).branches) :
    (feederLoad p).branchCurrent branch v unitOptions =
      .ok (⟨p, 0⟩ * (v (feederTerminal 1) - v (feederTerminal 2))) := by
  have hvoltage : (feederLoad p).branchVoltage branch v =
      v (feederTerminal 1) - v (feederTerminal 2) := by
    unfold BranchLoad.branchVoltage
    rw [Complex64.sum_eq]
    simp [feederLoad, incidenceOf, sub_eq_add_neg]
  have hpower : ((feederLoad p).power branch).isZero = false := by
    rw [← Bool.not_eq_true, Complex64.isZero_iff]
    exact fun h => hp (congrArg Complex64.re h)
  have hnorm : eq (v (feederTerminal 1) - v (feederTerminal 2)).norm 0 = false := by
    apply decide_eq_false
    rw [Complex64.norm_eq_zero]
    exact hv
  have henveloped : ∀ u magnitude, (feederLoad p).envelopedCurrent branch u magnitude unitOptions =
      ⟨p, 0⟩ * u := by
    intro u magnitude
    rw [← admittanceOf_one p]
    rfl
  have henvelope : unitOptions.voltageEnvelope = true := rfl
  unfold BranchLoad.branchCurrent
  dsimp only
  rw [hvoltage, hpower, hnorm, henvelope, henveloped]
  rfl

theorem prescribe_feeder : feeder.sources.foldlM (prescribeSource feederIndex feeder.network)
    ⟨feederGround, []⟩ = .ok ⟨feederFixed, [feederTerminal 0]⟩ := by
  have hrow : sourceRow feeder.network "grid" = some ⟨"grid", "bus", ["a"], []⟩ := rfl
  have ha : feederIndex.resolve "bus" "a" = .ok (feederTerminal 0) := rfl
  have hnext : prescribeTerminal feederIndex feeder.network "grid" ⟨feederGround, []⟩ "a" 1 0 =
      .ok ⟨feederFixed, [feederTerminal 0]⟩ :=
    prescribeTerminal_eq (by norm_num) hrow rfl ha (by simp) rfl
  change (prescribeTerminal feederIndex feeder.network "grid" ⟨feederGround, []⟩ "a" 1 0 >>=
    pure) >>= pure = _
  rw [hnext]
  rfl

theorem stamp_feeder : ∃ stamp, feeder.network.shunts.mapM (stampShunt feederIndex) = .ok [stamp] ∧
    stamp.entries =
      [(feederTerminal 0, feederTerminal 0, ⟨1, 0⟩), (feederTerminal 0, feederTerminal 1, ⟨-1, 0⟩),
        (feederTerminal 1, feederTerminal 0, ⟨-1, 0⟩), (feederTerminal 1, feederTerminal 1, ⟨1, 0⟩)] :=
  ⟨_, rfl, rfl⟩

noncomputable def feederAssembly (stamp : Stamp ℝ feederIndex.size) : Assembly ℝ feederIndex.size :=
  ⟨feederFixed, [stamp], [feederLoad 1]⟩

theorem assemble_feeder {stamp : Stamp ℝ feederIndex.size}
    (hstamp : feeder.network.shunts.mapM (stampShunt feederIndex) = .ok [stamp]) :
    assemble feederIndex feeder = .ok (feederAssembly stamp) := by
  have hground : groundTerminals feederIndex feeder.network = .ok feederGround := rfl
  have hlines : feeder.network.lines.mapM (stampNetworkLine feederIndex feeder.network) =
      .ok [] := rfl
  have hswitches : feeder.network.switches.forM refuseClosed = .ok () := rfl
  have hcapacitors : feeder.network.capacitors.mapM (stampCapacitor feederIndex) = .ok [] := rfl
  have hload : feeder.loads.mapM (prepareInstanceLoad feederIndex feeder.network fun _ => none) =
      .ok [feederLoad 1] := by
    change (prepareLoad (lamp "lamp" "bus" ["b", "n"]) (feederIndex.resolve "bus") none >>= _) = _
    rw [prepareLoad_feeder]
    rfl
  simp only [assemble, hground, prescribe_feeder, hlines, hswitches, hstamp, hcapacitors, lift,
    bind, Except.bind]
  change (lift (feeder.loads.mapM
    (prepareInstanceLoad feederIndex feeder.network fun _ => none)) >>= _) = _
  rw [hload]
  rfl

theorem yref_feeder : total (feederLoad 1).yrefEntries (feederTerminal 1) (feederTerminal 1) = 1 := by
  have hone : (feederLoad 1).referenceAdmittance = fun _ => 1 := funext fun _ => admittanceOf_one 1
  have hentries : (feederLoad 1).yrefEntries =
      [(feederTerminal 1, feederTerminal 1, (1 : Complex64 ℝ).conj * 1 * 1),
        (feederTerminal 1, feederTerminal 2, (1 : Complex64 ℝ).conj * 1 * -1),
        (feederTerminal 2, feederTerminal 1, (-1 : Complex64 ℝ).conj * 1 * 1),
        (feederTerminal 2, feederTerminal 2, (-1 : Complex64 ℝ).conj * 1 * -1)] := by
    unfold BranchLoad.yrefEntries
    rw [hone]
    rfl
  rw [hentries]
  ext <;> simp [total_cons, feederTerminal_eq_iff, Complex64.conj]

/-- The retained matrix is the one admittance at the lamp, of the conductor and of the reference. -/
theorem exists_factor_feeder {stamp : Stamp ℝ feederIndex.size}
    (hpassive : (feederAssembly stamp).passive.get (feederTerminal 1) (feederTerminal 1) = 1) :
    ∃ factor, factorRetained (feederAssembly stamp).passive (feederAssembly stamp).yref
      (feederAssembly stamp).unknown = .ok factor := by
  let assembly := feederAssembly stamp
  have hunknown : assembly.unknown = [feederTerminal 1] := rfl
  have hlength : assembly.unknown.length = 1 := rfl
  let only : Fin assembly.unknown.length := ⟨0, by rw [hlength]; exact one_pos⟩
  have htotal : denseMatrix (triplets assembly.passive assembly.yref fun i =>
      assembly.unknown.finIdxOf? i) only only = ⟨2, 0⟩ := by
    have honly : assembly.unknown.get only = feederTerminal 1 := rfl
    have hyref : assembly.yref.get (feederTerminal 1) (feederTerminal 1) = 1 := by
      rw [Assembly.yref, StampedMatrix.addAll_get]
      exact (zero_add _).trans yref_feeder
    have hnodup : assembly.unknown.Nodup := (List.nodup_finRange _).filter _
    rw [denseMatrix, total_triplets _ _ hnodup, honly, hyref, hpassive]
    exact Complex64.ext one_add_one_eq_two (add_zero 0)
  obtain ⟨factor, hfactor⟩ := exists_factor (hlength ▸ one_ne_zero)
    (by
      rw [Matrix.det_eq_elem_of_card_eq_one (by rw [Fintype.card_fin, hlength]) only, htotal]
      exact isUnit_iff_exists_inv.mpr ⟨⟨1 / 2, 0⟩, by ext <;> norm_num⟩)
  refine ⟨some factor, ?_⟩
  rw [factorRetained, if_neg (by rw [hunknown]; exact List.cons_ne_nil _ _), hfactor]
  rfl

theorem passive_feeder {stamp : Stamp ℝ feederIndex.size} (hentries : stamp.entries =
      [(feederTerminal 0, feederTerminal 0, ⟨1, 0⟩), (feederTerminal 0, feederTerminal 1, ⟨-1, 0⟩),
        (feederTerminal 1, feederTerminal 0, ⟨-1, 0⟩), (feederTerminal 1, feederTerminal 1, ⟨1, 0⟩)])
    (j : Fin 3) : (feederAssembly stamp).passive.get (feederTerminal 1) (feederTerminal j) =
      if j = 0 then -1 else if j = 1 then 1 else 0 := by
  have hpassive : (feederAssembly stamp).passive.get (feederTerminal 1) (feederTerminal j) =
      total stamp.entries (feederTerminal 1) (feederTerminal j) := by
    rw [Assembly.passive, StampedMatrix.addAll_get]
    exact (zero_add _).trans (congrArg (fun entries => total entries _ _) (List.append_nil _))
  rw [hpassive, hentries]
  fin_cases j <;> ext <;> simp [total_cons, feederTerminal_eq_iff]

noncomputable def feederBase (stamp : Stamp ℝ feederIndex.size)
    (factor : Option (RetainedComplexLu ℝ (feederAssembly stamp).unknown.length)) :
    PreparedNetwork ℝ :=
  (feederAssembly stamp).prepared [⟨"grid", "a", feederTerminal 0⟩] factor

/-- The feeder after its lamp is set to two watts. The reference is still that of one watt. -/
noncomputable def feederEdited (stamp : Stamp ℝ feederIndex.size)
    (factor : Option (RetainedComplexLu ℝ (feederAssembly stamp).unknown.length)) :
    PreparedNetwork ℝ :=
  { feederBase stamp factor with loads := [feederLoad 2] }

theorem exists_prepare_feeder : ∃ stamp factor, prepare feeder = .ok (feederBase stamp factor) ∧
    replaceLoads (feederBase stamp factor) [(0, [⟨2, 0⟩])] = .ok (feederEdited stamp factor) ∧
    ∀ j, (feederAssembly stamp).passive.get (feederTerminal 1) (feederTerminal j) =
      if j = 0 then -1 else if j = 1 then 1 else 0 := by
  obtain ⟨stamp, hstamp, hentries⟩ := stamp_feeder
  have hpassive := passive_feeder hentries
  obtain ⟨factor, hfactor⟩ := exists_factor_feeder (hpassive 1)
  refine ⟨stamp, factor, ?_, ?_, hpassive⟩
  · have hnew : NetworkIndex.new feeder.network = .ok feederIndex := rfl
    have hsource : sourceTerminals feederIndex feeder = .ok [⟨"grid", "a", feederTerminal 0⟩] := rfl
    rw [prepare_of_assemble rfl hnew, assemble_feeder hstamp, hsource]
    change (lift (factorRetained (feederAssembly stamp).passive (feederAssembly stamp).yref
      (feederAssembly stamp).unknown) >>= _) = _
    rw [hfactor]
    rfl
  · change (((feederLoad 1).replacePower [⟨2, 0⟩] >>= _) >>= pure) = _
    rw [replacePower_feeder]
    rfl

/-- One volt at the source, and what the conductor leaves of it at a lamp of two watts. -/
noncomputable def feederVoltage : Voltage ℝ feederIndex.size :=
  fun i => if i = feederTerminal 0 then 1 else if i = feederTerminal 1 then ⟨1 / 3, 0⟩ else 0

theorem feederVoltage_holdsFixed (i : Fin 3) (value : Complex64 ℝ)
    (hvalue : feederFixed (feederTerminal i) = some value) : feederVoltage (feederTerminal i) = value := by
  have hone : (Complex64.fromPolar 1 0 : Complex64 ℝ) = 1 := by
    ext <;> simp [Complex64.fromPolar, Libm.cos, Libm.sin]
  fin_cases i <;>
    simp [feederFixed, feederGround, feederTerminal_eq_iff, hone] at hvalue <;>
    simp [feederVoltage, feederTerminal_eq_iff, ← hvalue]

theorem addBranch_incidenceOf {n : ℕ} {i j : Fin n} (hne : i ≠ j) (current : Complex64 ℝ) :
    BranchLoad.addBranch (fun _ => 0) (incidenceOf i j) current = fun k =>
      if k = i then current else if k = j then -current else 0 := by
  have hone : (1 : Complex64 ℝ).conj = 1 := by ext <;> simp [Complex64.conj]
  have hneg : (-1 : Complex64 ℝ).conj = -1 := by ext <;> simp [Complex64.conj]
  funext k
  simp only [BranchLoad.addBranch, incidenceOf, List.foldl_cons, List.foldl_nil, hone, hneg,
    one_mul, neg_one_mul, zero_add, Function.update_apply]
  by_cases hki : k = i
  · simp [hki, hne]
  · by_cases hkj : k = j <;> simp [hki, hkj, hne.symm]

theorem ofFn_feederVoltage : List.ofFn feederVoltage = [1, ⟨1 / 3, 0⟩, 0] := by
  change [feederVoltage (feederTerminal 0), feederVoltage (feederTerminal 1),
    feederVoltage (feederTerminal 2)] = _
  simp [feederVoltage, feederTerminal_eq_iff]

theorem feederVoltage_lamp :
    feederVoltage (feederTerminal 1) - feederVoltage (feederTerminal 2) = ⟨1 / 3, 0⟩ := by
  ext <;> simp [feederVoltage, feederTerminal_eq_iff]

theorem branchCurrent_feederVoltage (branch : Fin (feederLoad 2).branches) :
    (feederLoad 2).branchCurrent branch feederVoltage unitOptions = .ok ⟨2 / 3, 0⟩ := by
  rw [branchCurrent_feeder two_ne_zero, feederVoltage_lamp]
  · exact congrArg Except.ok (Complex64.ext (by norm_num) (by norm_num))
  · rw [feederVoltage_lamp]
    exact fun h => absurd (congrArg Complex64.re h) (by norm_num)

/-- What the lamp takes at `b` it returns at the ground. -/
noncomputable def feederCurrent : Voltage ℝ feederIndex.size := fun i =>
  if i = feederTerminal 1 then ⟨2 / 3, 0⟩ else if i = feederTerminal 2 then -⟨2 / 3, 0⟩ else 0

section Balanced

variable {stamp : Stamp ℝ feederIndex.size}
  {factor : Option (RetainedComplexLu ℝ (feederAssembly stamp).unknown.length)}

theorem totalLoadCurrent_feeder :
    totalLoadCurrent (feederEdited stamp factor) feederVoltage unitOptions = .ok feederCurrent := by
  change ((do
    let current ← (feederLoad 2).branchCurrent (0 : Fin 1) feederVoltage unitOptions
    .ok (BranchLoad.addBranch (fun _ => 0) (incidenceOf (feederTerminal 1) (feederTerminal 2))
      current)) >>= pure) >>= pure = _
  have hcurrent := branchCurrent_feederVoltage (0 : Fin 1)
  rw [hcurrent]
  exact congrArg Except.ok (addBranch_incidenceOf (by decide) _)

theorem sum_feeder (f : Fin feederIndex.size → Complex64 ℝ) :
    ∑ j, f j = f (feederTerminal 0) + f (feederTerminal 1) + f (feederTerminal 2) :=
  Fin.sum_univ_three f

theorem balanced_feeder (hpassive : ∀ j,
    (feederAssembly stamp).passive.get (feederTerminal 1) (feederTerminal j) =
      if j = 0 then -1 else if j = 1 then 1 else 0) :
    Balanced (feederEdited stamp factor) unitOptions feederVoltage := by
  refine ⟨feederCurrent, totalLoadCurrent_feeder, ?_⟩
  intro (i : Fin 3) (hi : feederFixed (feederTerminal i) = none)
  obtain rfl : i = 1 := by
    fin_cases i <;> simp_all [feederFixed, feederGround, feederTerminal_eq_iff]
  change (CsrMatrix.fromStamped (feederAssembly stamp).passive).rowMul (feederTerminal 1)
    feederVoltage + feederCurrent (feederTerminal 1) = 0
  rw [CsrMatrix.rowMul_fromStamped, sum_feeder, hpassive, hpassive, hpassive]
  ext
  · simp [feederVoltage, feederCurrent, feederTerminal_eq_iff, last_terminal]
    norm_num
  · simp [feederVoltage, feederCurrent, feederTerminal_eq_iff, last_terminal]

end Balanced

theorem reference_does_not_matter_feeder :
    ∃ base prepared, prepare feeder = .ok base ∧
      replaceLoads base [(0, [⟨2, 0⟩])] = .ok prepared ∧
      (∃ load ∈ prepared.loads, ∀ branch, load.referenceAdmittance branch = 1 ∧
        load.nominalAdmittance branch = ⟨2, 0⟩) ∧
      (∃ v, List.ofFn v = [1, ⟨1 / 3, 0⟩, 0] ∧ step prepared unitOptions v = .ok v) ∧
      (∀ initial point, iterate prepared unitOptions initial = .ok point →
        Converged prepared unitOptions point) := by
  obtain ⟨stamp, factor, hbase, hedits, hpassive⟩ := exists_prepare_feeder
  obtain ⟨hfixed, hconverged⟩ := reference_does_not_matter inverseLu_exact feeder _ _
    [(0, [⟨2, 0⟩])] unitOptions hbase hedits validate_unitOptions
  have hlamp : ∀ branch, (feederLoad 2).referenceAdmittance branch = 1 ∧
      (feederLoad 2).nominalAdmittance branch = ⟨2, 0⟩ :=
    fun _ => ⟨admittanceOf_one 1, admittanceOf_one 2⟩
  exact ⟨_, _, hbase, hedits, ⟨feederLoad 2, List.mem_singleton_self _, hlamp⟩,
    ⟨feederVoltage, ofFn_feederVoltage, (hfixed feederVoltage).mpr
      ⟨feederVoltage_holdsFixed, balanced_feeder hpassive⟩⟩, hconverged⟩

end Witness

end Tellegen.Multiconductor
