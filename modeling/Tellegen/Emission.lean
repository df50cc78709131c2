import Tellegen.ConstraintRows
import Tellegen.Lib.Buckets
import Tellegen.Lib.Scatter
import Tellegen.Osm.Draft

/-!
The portable solution of a solved DC OPF: the columns of the model are written to the rows of the source
network, in its units. A row that the model leaves out states no value, which PowerIO spells as NaN.
-/

set_option linter.unusedSectionVars false

open Binary64

namespace Tellegen.Dc

open Osm (Drafting)
open Scatter (scatter)

structure SourceNetwork where
  buses : ℕ
  branches : ℕ
  generators : ℕ
  transformers3w : ℕ
  branchFrom : Fin branches → Fin buses
  branchTo : Fin branches → Fin buses
  terminal : Fin transformers3w → Fin 3 → Fin buses

/-- Where a branch column comes from: the branch table, or a winding of a transformer. -/
inductive AnalysisBranchSource (source : SourceNetwork) where
  | branch (row : Fin source.branches)
  | threeWindingTransformerWinding (transformerRow : Fin source.transformers3w) (winding : Fin 3)

inductive PreparedObjective where
  | feasibility
  | networkGeneratorCost
  deriving DecidableEq

/-- A network with the maps of its columns to the rows of the source. -/
structure SourcedNetwork (F : Type) (source : SourceNetwork) extends DcNetwork F where
  busSourceRows : Fin n → Option (Fin source.buses)
  branchSources : Fin m → AnalysisBranchSource source
  genSourceRows : Fin k → Option (Fin source.generators)
  objective : PreparedObjective

/-- A lowered winding has no row in the branch table. -/
def AnalysisBranchSource.branchRow {source : SourceNetwork} :
    AnalysisBranchSource source → Option (Fin source.branches)
  | .branch row => some row
  | .threeWindingTransformerWinding _ _ => none

def AnalysisBranchSource.windingRow {source : SourceNetwork} :
    AnalysisBranchSource source → Option (Fin source.transformers3w × Fin 3)
  | .branch _ => none
  | .threeWindingTransformerWinding transformerRow winding => some (transformerRow, winding)

structure DcOpfSolution (n m k : ℕ) (F : Type) where
  va : Fin n → F
  pg : Fin k → F
  f : Fin m → F
  psh : Fin n → F
  lamUb : Fin m → F
  lamLb : Fin m → F
  nuBal : Fin n → F

structure EconomicColumns (source : SourceNetwork) (F : Type) where
  busMarginal : Fin source.buses → Option F
  branchFromLimitMultiplier : Fin source.branches → F
  branchToLimitMultiplier : Fin source.branches → F

/-- The columns of the portable solution. `none` is a value that is not stated; the terminal powers start
from the default of PowerIO, and the limit multipliers from zero. -/
structure EmittedColumns (source : SourceNetwork) (F : Type) where
  busVoltageAngle : Fin source.buses → Option F
  busActiveInjection : Fin source.buses → Option F
  economic : Option (EconomicColumns source F)
  branchFromActiveFlow : Fin source.branches → Option F
  branchToActiveFlow : Fin source.branches → Option F
  generatorActivePower : Fin source.generators → Option F
  terminalActivePower : Fin source.transformers3w × Fin 3 → Option F

section

variable {F : Type} [Drafting F] {source : SourceNetwork}

def toDegrees (x : F) : F := x * (lit 180 / Drafting.pi)

/-- A bus without a shedding variable sheds nothing. -/
def readDcSolution (dc : DcNetwork F) (x : Column dc → F) (lamUb lamLb : Fin dc.m → F) (nuBal : Fin dc.n → F) :
    DcOpfSolution dc.n dc.m dc.k F :=
  { va := fun i => x (.va i)
    pg := fun j => x (.pg j)
    f := fun e => x (.f e)
    psh := fun i => if sheddable dc i then x (.psh i) else 0
    lamUb := lamUb
    lamLb := lamLb
    nuBal := nuBal }

def nodalMarginalValues {n m k : ℕ} (sol : DcOpfSolution n m k F) (baseMva : F) (i : Fin n) : F :=
  sol.nuBal i / baseMva

variable (dc : SourcedNetwork F source) (sol : DcOpfSolution dc.n dc.m dc.k F)

/-- Generation less served demand and shunt withdrawal, and the HVDC injection. -/
def emittedInjection (i : Fin dc.n) : F :=
  let generation : Fin dc.n → F := (List.finRange dc.k).foldl (fun injection j =>
    Function.update injection (dc.genBus j) (injection (dc.genBus j) + sol.pg j)) fun _ => 0
  generation i - ((dc.demand i - sol.psh i) + dc.shuntConductance i - dc.hvdcInjection i)

def branchSourceRows (e : Fin dc.m) : Option (Fin source.branches) := (dc.branchSources e).branchRow

def emitDcOpfSolution : EmittedColumns source F :=
  let base := dc.baseMva
  { busVoltageAngle := scatter none dc.busSourceRows fun i => some (toDegrees (sol.va i))
    busActiveInjection := scatter none dc.busSourceRows fun i => some (emittedInjection dc sol i * base)
    economic :=
      if dc.objective = .networkGeneratorCost then
        some
          { busMarginal := scatter none dc.busSourceRows fun i => some (nodalMarginalValues sol base i)
            branchFromLimitMultiplier := scatter 0 (branchSourceRows dc) fun e => sol.lamUb e / base
            branchToLimitMultiplier := scatter 0 (branchSourceRows dc) fun e => sol.lamLb e / base }
      else none
    branchFromActiveFlow := scatter none (branchSourceRows dc) fun e => some (sol.f e * base)
    branchToActiveFlow := scatter none (branchSourceRows dc) fun e => some (-(sol.f e * base))
    generatorActivePower := scatter none dc.genSourceRows fun j => some (sol.pg j * base)
    terminalActivePower := scatter none (fun e => (dc.branchSources e).windingRow) fun e => some (sol.f e * base) }

end

/-! ### Columns and rows -/

section Columns

variable {F : Type} [Drafting F] {source : SourceNetwork} (dc : SourcedNetwork F source)

/-- What PowerIO promises of its maps: no two columns have one row, the ends of a branch column are those of
its branch, and a winding runs from its terminal to the star bus, which is in no table. -/
structure Aligned : Prop where
  buses : Scatter.Injective dc.busSourceRows
  branches : ∀ e e', dc.branchSources e = dc.branchSources e' → e = e'
  generators : Scatter.Injective dc.genSourceRows
  ends : ∀ e row, dc.branchSources e = .branch row →
    dc.busSourceRows (dc.brFrom e) = some (source.branchFrom row) ∧
      dc.busSourceRows (dc.brTo e) = some (source.branchTo row)
  windings : ∀ e t w, dc.branchSources e = .threeWindingTransformerWinding t w →
    dc.busSourceRows (dc.brFrom e) = some (source.terminal t w) ∧ dc.busSourceRows (dc.brTo e) = none

/-- An array in the order of a table: what the column of a row makes of it, and `blank` elsewhere. -/
structure Writes {n : ℕ} {R β : Type} (rows : Fin n → Option R) (value : Fin n → β) (blank : β) (out : R → β) :
    Prop where
  kept : ∀ k r, rows k = some r → out r = value k
  blank : ∀ r, (∀ k, rows k ≠ some r) → out r = blank

theorem writes_scatter {n : ℕ} {R β : Type} [DecidableEq R] {rows : Fin n → Option R} {value : Fin n → β}
    {blank : β} (hrows : Scatter.Injective rows) : Writes rows value blank (scatter blank rows value) :=
  { kept := fun _ _ hk => Scatter.scatter_of_some hrows hk
    blank := fun _ habsent => Scatter.scatter_of_absent habsent }

/-- Each row of the source holds what its own column has, and states nothing where it has none. -/
structure WritesColumns (sol : DcOpfSolution dc.n dc.m dc.k F) (out : EmittedColumns source F) : Prop where
  angle : Writes dc.busSourceRows (fun i => some (toDegrees (sol.va i))) none out.busVoltageAngle
  injection : Writes dc.busSourceRows (fun i => some (emittedInjection dc sol i * dc.baseMva)) none
    out.busActiveInjection
  economic : out.economic.isSome ↔ dc.objective = .networkGeneratorCost
  marginal : ∀ economic ∈ out.economic,
    Writes dc.busSourceRows (fun i => some (nodalMarginalValues sol dc.baseMva i)) none economic.busMarginal
  fromMultiplier : ∀ economic ∈ out.economic,
    Writes (branchSourceRows dc) (fun e => sol.lamUb e / dc.baseMva) 0 economic.branchFromLimitMultiplier
  toMultiplier : ∀ economic ∈ out.economic,
    Writes (branchSourceRows dc) (fun e => sol.lamLb e / dc.baseMva) 0 economic.branchToLimitMultiplier
  fromFlow : Writes (branchSourceRows dc) (fun e => some (sol.f e * dc.baseMva)) none out.branchFromActiveFlow
  toFlow : Writes (branchSourceRows dc) (fun e => some (-(sol.f e * dc.baseMva))) none out.branchToActiveFlow
  generation : Writes dc.genSourceRows (fun j => some (sol.pg j * dc.baseMva)) none out.generatorActivePower
  terminal : Writes (fun e => (dc.branchSources e).windingRow) (fun e => some (sol.f e * dc.baseMva)) none
    out.terminalActivePower

variable {dc}

theorem Aligned.branchRows (h : Aligned dc) : Scatter.Injective (branchSourceRows dc) := by
  intro e e' row he he'
  apply h.branches
  rw [branchSourceRows] at he he'
  cases hsource : dc.branchSources e with
  | branch row' =>
    cases hsource' : dc.branchSources e' with
    | branch row'' =>
      rw [hsource] at he
      rw [hsource'] at he'
      exact congrArg _ ((Option.some.inj he).trans (Option.some.inj he').symm)
    | threeWindingTransformerWinding t w =>
      rw [hsource'] at he'
      exact nomatch he'
  | threeWindingTransformerWinding t w =>
    rw [hsource] at he
    exact nomatch he

theorem Aligned.windingRows (h : Aligned dc) : Scatter.Injective fun e => (dc.branchSources e).windingRow := by
  intro e e' row he he'
  apply h.branches
  dsimp only at he he'
  cases hsource : dc.branchSources e with
  | branch row' =>
    rw [hsource] at he
    exact nomatch he
  | threeWindingTransformerWinding t w =>
    cases hsource' : dc.branchSources e' with
    | branch row' =>
      rw [hsource'] at he'
      exact nomatch he'
    | threeWindingTransformerWinding t' w' =>
      rw [hsource] at he
      rw [hsource'] at he'
      have hsame := (Option.some.inj he).trans (Option.some.inj he').symm
      obtain ⟨rfl, rfl⟩ := Prod.mk.inj hsame
      rfl

theorem emitDcOpfSolution_writes (h : Aligned dc) (sol : DcOpfSolution dc.n dc.m dc.k F) :
    WritesColumns dc sol (emitDcOpfSolution dc sol) := by
  have heconomic : ∀ economic ∈ (emitDcOpfSolution dc sol).economic, economic =
      { busMarginal := scatter none dc.busSourceRows fun i => some (nodalMarginalValues sol dc.baseMva i)
        branchFromLimitMultiplier := scatter 0 (branchSourceRows dc) fun e => sol.lamUb e / dc.baseMva
        branchToLimitMultiplier := scatter 0 (branchSourceRows dc) fun e => sol.lamLb e / dc.baseMva } := by
    intro economic hmem
    rw [emitDcOpfSolution] at hmem
    dsimp only at hmem
    split at hmem
    · exact (Option.some.inj hmem).symm
    · exact nomatch hmem
  constructor
  case economic =>
    rw [emitDcOpfSolution]
    dsimp only
    split
    case isTrue hobjective => exact ⟨fun _ => hobjective, fun _ => rfl⟩
    case isFalse hother => exact ⟨fun hsome => (nomatch hsome), fun hobjective => absurd hobjective hother⟩
  case marginal =>
    intro economic hmem
    rw [heconomic economic hmem]
    exact writes_scatter h.buses
  case fromMultiplier =>
    intro economic hmem
    rw [heconomic economic hmem]
    exact writes_scatter h.branchRows
  case toMultiplier =>
    intro economic hmem
    rw [heconomic economic hmem]
    exact writes_scatter h.branchRows
  case angle => exact writes_scatter h.buses
  case injection => exact writes_scatter h.buses
  case fromFlow => exact writes_scatter h.branchRows
  case toFlow => exact writes_scatter h.branchRows
  case generation => exact writes_scatter h.generators
  case terminal => exact writes_scatter h.windingRows

end Columns

/-! ### Balance -/

section Balance

variable [DecimalText ℝ] {source : SourceNetwork}

/-- The emitted flows and terminal powers at a bus of the source. A value that is not stated adds nothing. -/
noncomputable def emittedOutflow (out : EmittedColumns source ℝ) (bus : Fin source.buses) : ℝ :=
  ∑ row, (if source.branchFrom row = bus then (out.branchFromActiveFlow row).getD 0 else 0) +
    ∑ row, (if source.branchTo row = bus then (out.branchToActiveFlow row).getD 0 else 0) +
    ∑ winding : Fin source.transformers3w × Fin 3,
      if source.terminal winding.1 winding.2 = bus then (out.terminalActivePower winding).getD 0 else 0

variable (dc : SourcedNetwork ℝ source)

theorem emittedInjection_eq (x : Column dc.toDcNetwork → ℝ) (lamUb lamLb : Fin dc.m → ℝ)
    (nuBal : Fin dc.n → ℝ) (i : Fin dc.n) :
    emittedInjection dc (readDcSolution dc.toDcNetwork x lamUb lamLb nuBal) i =
      busInjection x i + surplus x i := by
  have hgeneration := Buckets.foldl_update_apply dc.genBus (fun j => x (.pg j)) (List.finRange dc.k)
    (fun _ => 0) i
  rw [zero_add, ← Fin.sum_univ_def] at hgeneration
  rw [emittedInjection]
  dsimp only [readDcSolution]
  rw [hgeneration, busInjection, surplus, generationAt, shed]
  ring

variable {dc}

/-- What the emission states of one branch column at a bus: its flow where it leaves, less it where it ends. -/
theorem column_outflow (h : Aligned dc) {i : Fin dc.n} {bus : Fin source.buses}
    (hi : dc.busSourceRows i = some bus) (e : Fin dc.m) (mw : ℝ) :
    ((dc.branchSources e).branchRow.elim 0 fun row => if source.branchFrom row = bus then mw else 0) +
        ((dc.branchSources e).branchRow.elim 0 fun row => if source.branchTo row = bus then -mw else 0) +
        ((dc.branchSources e).windingRow.elim 0 fun winding =>
          if source.terminal winding.1 winding.2 = bus then mw else 0) =
      (if dc.brFrom e = i then mw else 0) - if dc.brTo e = i then mw else 0 := by
  have hbus : ∀ {j : Fin dc.n} {row : Fin source.buses}, dc.busSourceRows j = some row →
      (row = bus ↔ j = i) := by
    intro j row hj
    constructor
    · rintro rfl
      exact h.buses j i row hj hi
    · rintro rfl
      exact Option.some.inj (hj.symm.trans hi)
  cases hsource : dc.branchSources e with
  | branch row =>
    obtain ⟨hfrom, hto⟩ := h.ends e row hsource
    simp only [AnalysisBranchSource.branchRow, AnalysisBranchSource.windingRow, Option.elim_some,
      Option.elim_none, hbus hfrom, hbus hto]
    by_cases hi : dc.brTo e = i
    · rw [if_pos hi, if_pos hi, add_zero, sub_eq_add_neg]
    · rw [if_neg hi, if_neg hi, add_zero, add_zero, sub_zero]
  | threeWindingTransformerWinding t w =>
    obtain ⟨hfrom, hstar⟩ := h.windings e t w hsource
    have hto : dc.brTo e ≠ i := by
      rintro rfl
      exact nomatch hstar.symm.trans hi
    simp only [AnalysisBranchSource.branchRow, AnalysisBranchSource.windingRow, Option.elim_some,
      Option.elim_none, hbus hfrom, if_neg hto]
    ring

theorem sum_stated {n : ℕ} {R : Type} [Fintype R] [DecidableEq R] {rows : Fin n → Option R}
    (hrows : Scatter.Injective rows) (p : R → Prop) [DecidablePred p] (value : Fin n → ℝ) :
    ∑ r, (if p r then (scatter none rows (fun k => some (value k)) r).getD 0 else 0) =
      ∑ k, (rows k).elim 0 fun r => if p r then value k else 0 :=
  Scatter.sum_scatter hrows (fun r (v : Option ℝ) => if p r then v.getD 0 else 0) fun _ => ite_self _

theorem emittedOutflow_eq (h : Aligned dc) (sol : DcOpfSolution dc.n dc.m dc.k ℝ) {i : Fin dc.n}
    {bus : Fin source.buses} (hi : dc.busSourceRows i = some bus) :
    emittedOutflow (emitDcOpfSolution dc sol) bus = ∑ e,
      ((if dc.brFrom e = i then sol.f e * dc.baseMva else 0) -
        if dc.brTo e = i then sol.f e * dc.baseMva else 0) := by
  have hfrom := sum_stated h.branchRows (fun row => source.branchFrom row = bus) fun e => sol.f e * dc.baseMva
  have hto := sum_stated h.branchRows (fun row => source.branchTo row = bus) fun e => -(sol.f e * dc.baseMva)
  have hwinding := sum_stated h.windingRows (fun winding => source.terminal winding.1 winding.2 = bus)
    fun e => sol.f e * dc.baseMva
  rw [emittedOutflow]
  dsimp only [emitDcOpfSolution]
  rw [hfrom, hto, hwinding, ← Finset.sum_add_distrib, ← Finset.sum_add_distrib]
  exact Finset.sum_congr rfl fun e _ => column_outflow h hi e (sol.f e * dc.baseMva)

end Balance

/-- The emitted solution of a point of the program: every row of the source holds its own column, and at every
bus of the source in the model the injection is what the flows and terminal powers there take away. -/
theorem emitDcOpfSolution_balances [DecimalText ℝ] {source : SourceNetwork} {dc : SourcedNetwork ℝ source}
    (h : Aligned dc) {rows : List (LinearRow ℝ dc.m dc.k)} {x : Column dc.toDcNetwork → ℝ}
    (hx : Balanced dc.toDcNetwork rows x) (lamUb lamLb : Fin dc.m → ℝ) (nuBal : Fin dc.n → ℝ) :
    WritesColumns dc (readDcSolution dc.toDcNetwork x lamUb lamLb nuBal)
        (emitDcOpfSolution dc (readDcSolution dc.toDcNetwork x lamUb lamLb nuBal)) ∧
      ∀ i bus, dc.busSourceRows i = some bus →
        (emitDcOpfSolution dc (readDcSolution dc.toDcNetwork x lamUb lamLb nuBal)).busActiveInjection bus =
          some (emittedOutflow
            (emitDcOpfSolution dc (readDcSolution dc.toDcNetwork x lamUb lamLb nuBal)) bus) := by
  set sol := readDcSolution dc.toDcNetwork x lamUb lamLb nuBal
  have hwrites := emitDcOpfSolution_writes h sol
  refine ⟨hwrites, fun i bus hi => ?_⟩
  rw [hwrites.injection.kept i bus hi, emittedOutflow_eq h sol hi, emittedInjection_eq, ← leaving_eq x hx i,
    leaving, Finset.sum_mul]
  congr 1
  apply Finset.sum_congr rfl
  intro e _
  rw [sub_mul, ite_mul, ite_mul, zero_mul]
  rfl

namespace Sample

attribute [local instance] constraintText

/-- The bus, branch and generator with the number 1, 0 and 0 are out of service. -/
@[reducible] def windingSource : SourceNetwork where
  buses := 3
  branches := 2
  generators := 2
  transformers3w := 1
  branchFrom _ := 0
  branchTo _ := 2
  terminal _ := ![0, 2, 1]

/-- A generator at the first bus feeds the second over a line and two windings with the star between them. -/
@[reducible] noncomputable def starred : SourcedNetwork ℝ windingSource where
  n := 3
  m := 3
  k := 1
  brFrom := ![0, 0, 1]
  brTo := ![1, 2, 2]
  genBus _ := 0
  b _ := -1
  sw _ := 1
  flowOffset _ := 0
  demand := ![0, 3, 0]
  shuntConductance _ := 0
  hvdcInjection _ := 0
  allowShed := false
  baseMva := 100
  buses := { ids := fun i => i.val + 1, uids := fun _ => none, sourceRows := fun i => some i.val }
  branches := { ids := fun e => e.val + 1, uids := fun _ => none, sourceRows := fun e => some e.val }
  generators := { ids := fun _ => 1, uids := fun _ => none, sourceRows := fun _ => some 1 }
  busSourceRows := ![some 0, some 2, none]
  branchSources := ![.branch 1, .threeWindingTransformerWinding 0 0, .threeWindingTransformerWinding 0 1]
  genSourceRows _ := some 1
  objective := .networkGeneratorCost

theorem starred_aligned : Aligned starred where
  buses := by
    change ∀ i j : Fin 3, ∀ r, ![some 0, some 2, none] i = some r → ![some 0, some 2, none] j = some r → i = j
    decide
  branches := by
    intro e e' h
    fin_cases e <;> fin_cases e' <;> first | rfl | simp at h
  generators := fun _ _ _ _ _ => Subsingleton.elim (α := Fin 1) _ _
  ends := by
    intro e row h
    fin_cases e
    · obtain rfl := AnalysisBranchSource.branch.inj h
      exact ⟨rfl, rfl⟩
    · simp at h
    · simp at h
  windings := by
    intro e t w h
    fin_cases e
    · simp at h
    · obtain ⟨rfl, rfl⟩ := AnalysisBranchSource.threeWindingTransformerWinding.inj h
      exact ⟨rfl, rfl⟩
    · obtain ⟨rfl, rfl⟩ := AnalysisBranchSource.threeWindingTransformerWinding.inj h
      exact ⟨rfl, rfl⟩

noncomputable def starredPoint : Column starred.toDcNetwork → ℝ
  | .va i => (![1, -1, 0] : Fin 3 → ℝ) i
  | .pg _ => 3
  | .f e => (![2, 1, -1] : Fin 3 → ℝ) e
  | .psh _ => 0

theorem starredPoint_balanced : Balanced starred.toDcNetwork [] starredPoint := by
  have hangle : ∀ e : Fin 3, @weight starred.toDcNetwork e *
      (starredPoint (.va (starred.brFrom e)) - starredPoint (.va (starred.brTo e))) = (![2, 1, -1] : Fin 3 → ℝ) e := by
    rw [Fin.forall_fin_succ, Fin.forall_fin_two]
    simp [weight, starredPoint]
    norm_num
  constructor
  case balance =>
    intro i value hvalue
    have hwithdrawal : currentFixedWithdrawal starred.toDcNetwork i = (![0, 3, 0] : Fin 3 → ℝ) i := by
      rw [currentFixedWithdrawal, networkWithdrawal, phaseWithdrawal_eq]
      simp [currentFlowOffset]
    have hshed : shed starredPoint i = 0 := by simp [shed, sheddable, shedCap, Binary64.lt]
    have hgeneration : generationAt starredPoint i = if (0 : Fin 3) = i then 3 else 0 :=
      Fin.sum_univ_one _
    have hbranches : ∑ e, ((if starred.brTo e = i then @weight starred.toDcNetwork e *
        (starredPoint (.va (starred.brFrom e)) - starredPoint (.va (starred.brTo e))) else 0) -
        if starred.brFrom e = i then @weight starred.toDcNetwork e *
          (starredPoint (.va (starred.brFrom e)) - starredPoint (.va (starred.brTo e))) else 0) =
        ∑ e : Fin 3, ((if (![1, 2, 2] : Fin 3 → Fin 3) e = i then (![2, 1, -1] : Fin 3 → ℝ) e else 0) -
          if (![0, 0, 1] : Fin 3 → Fin 3) e = i then (![2, 1, -1] : Fin 3 → ℝ) e else 0) :=
      Finset.sum_congr rfl fun e _ => by rw [hangle e]
    rw [eq_of_rhs_balance hvalue, rowSum_programEntries starredPoint (balance_ne_linear i), rowSum_balance,
      hwithdrawal, hshed, hgeneration, hbranches, Fin.sum_univ_three]
    fin_cases i <;> simp <;> norm_num
  case flow =>
    intro e value hvalue
    rw [eq_of_rhs_flow hvalue, rowSum_programEntries starredPoint (flow_ne_linear e), rowSum_flow, hangle]
    simp [currentFlowOffset, starredPoint]

theorem emitDcOpfSolution_balances_starred :
    let sol := readDcSolution starred.toDcNetwork starredPoint (fun _ => 0) (fun _ => 0) fun _ => 0
    WritesColumns starred sol (emitDcOpfSolution starred sol) ∧
      (∀ i bus, starred.busSourceRows i = some bus → (emitDcOpfSolution starred sol).busActiveInjection bus =
        some (emittedOutflow (emitDcOpfSolution starred sol) bus)) ∧
      (emitDcOpfSolution starred sol).busActiveInjection 1 = none := by
  obtain ⟨hwrites, hbalances⟩ :=
    emitDcOpfSolution_balances starred_aligned starredPoint_balanced (fun _ => 0) (fun _ => 0) fun _ => 0
  refine ⟨hwrites, hbalances, hwrites.injection.blank 1 ?_⟩
  change ∀ i : Fin 3, ![some 0, some 2, none] i ≠ some 1
  decide

end Sample

end Tellegen.Dc
