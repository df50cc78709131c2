import Tellegen.PreparedNetwork

/-!
The fixed-point current-injection iteration on a prepared network. Loads enter
the right-hand side as currents, compensated by a frozen reference admittance
that the retained matrix contains.
-/

open Binary64 Outcome

namespace Tellegen.Multiconductor

variable {F : Type} [Libm F] [SparseLu F]

/-! ### Currents -/

def PreparedElement.portVoltages {n : ℕ} (element : PreparedElement F n) (voltage : Voltage F n) :
    Fin element.arity → Complex64 F := fun row => voltage (element.terminals row)

def elementPortCurrent {n : ℕ} (element : PreparedElement F n) (row : Fin element.arity)
    (portVoltages : Fin element.arity → Complex64 F) : Complex64 F :=
  Complex64.sum <| (List.finRange element.arity).map fun c => element.yprim row c * portVoltages c

def accumulate {α : Type} [Add α] {n : ℕ} (zero : α) (parts : List (Fin n × α)) : Fin n → α :=
  parts.foldl (fun total (i, x) => Function.update total i (total i + x)) fun _ => zero

variable (prepared : PreparedNetwork F)

abbrev PreparedNetwork.Terminals := Fin prepared.index.size

def passiveCurrent (voltage : Voltage F prepared.index.size) (row : prepared.Terminals) :
    Complex64 F := prepared.passive.rowMul row voltage

def totalLoadCurrent (voltage : Voltage F prepared.index.size) (options : McPfOptions F) :
    Except String (Voltage F prepared.index.size) :=
  prepared.loads.foldlM (fun current load => load.addCurrent voltage options current) fun _ => 0

/-! ### Convergence -/

/-- The magnitudes of the currents that meet at each terminal. -/
def incidentCurrents (voltage : Voltage F prepared.index.size) (options : McPfOptions F) :
    prepared.Terminals → F :=
  let ports := prepared.elements.flatMap fun element =>
    (List.finRange element.arity).map fun row =>
      (element.terminals row,
        (elementPortCurrent element row (element.portVoltages voltage)).norm)
  let branches := prepared.loads.flatMap fun load =>
    (List.finRange load.branches).flatMap fun branch =>
      let current :=
        match load.branchCurrent branch voltage options with
        | .ok current => current.norm
        | .error _ => Libm.infinity
      (load.incidence branch).map fun (terminal, _) => (terminal, current)
  accumulate 0 (ports ++ branches)

/-- The largest current residual at an unknown terminal, as it is and scaled. -/
def kclMetrics (voltage load : Voltage F prepared.index.size) (options : McPfOptions F) : F × F :=
  let incident := incidentCurrents prepared voltage options
  prepared.unknown.foldl
    (fun (raw, scaled) i =>
      let residual := (passiveCurrent prepared voltage i + load i).norm
      let scale := Binary64.max (incident i) (load i).norm
      (Binary64.max raw residual,
        Binary64.max scaled
          (residual / (options.absoluteKclTolerance + options.relativeKclTolerance * scale))))
    (0, 0)

structure FixedPoint (F : Type) (n : ℕ) where
  voltage : Voltage F n
  loadCurrent : Voltage F n
  iterations : ℕ
  voltageChange : F
  physicalKclResidual : F
  scaledKclResidual : F

def validateOptions (options : McPfOptions F) : Except String Unit :=
  if !isFinite options.tolerance || le options.tolerance 0 ||
      decide (options.maxIterations = 0) ||
      !isFinite options.damping || le options.damping 0 || lt 1 options.damping ||
      !isFinite options.zeroVoltageTolerance || le options.zeroVoltageTolerance 0 ||
      !isFinite options.absoluteKclTolerance || le options.absoluteKclTolerance 0 ||
      !isFinite options.relativeKclTolerance || lt options.relativeKclTolerance 0 ||
      !isFinite options.vLowPu || !isFinite options.vMinPu || !isFinite options.vMaxPu ||
      le options.vLowPu 0 || le options.vMinPu options.vLowPu ||
      le options.vMaxPu options.vMinPu then
    .error "invalid multiconductor PF options"
  else .ok ()

/-! ### Iterating -/

/-- The state of the iteration. `evaluated` holds the metrics of the load current, when both
describe the voltage. -/
structure Iteration (F : Type) (n : ℕ) where
  voltage : Voltage F n
  loadCurrent : Voltage F n
  evaluated : Option (F × F)
  finalChange : F
  iterations : ℕ

def fixedVoltageVector : Voltage F prepared.index.size := fun i => (prepared.fixed i).getD 0

/-- Fixed terminals hold their prescribed values. -/
def holdFixed (voltage : Voltage F prepared.index.size) : Voltage F prepared.index.size :=
  fun i => (prepared.fixed i).getD (voltage i)

/-- The unknown terminals take the values of a solution. -/
def placeUnknown (voltage : Voltage F prepared.index.size)
    (solved : Fin prepared.unknown.length → Complex64 F) : Voltage F prepared.index.size :=
  (List.finRange prepared.unknown.length).foldl
    (fun voltage u => Function.update voltage (prepared.unknown.get u) (solved u)) voltage

def initialVoltage :
    Option (Voltage F prepared.index.size) → Except String (Voltage F prepared.index.size)
  | some initial =>
    if (List.finRange prepared.index.size).any fun i => !(initial i).isFinite then
      .error "initial voltage contains a non-finite phasor"
    else .ok (holdFixed prepared initial)
  | none =>
    let voltage := holdFixed prepared (fixedVoltageVector prepared)
    match prepared.factor with
    | none => .ok voltage
    | some factor => do
        let solved ← factor.solveInto prepared.sourceRhs
        .ok (placeUnknown prepared voltage solved)

/-- An unknown terminal has a position. -/
def sourceRhsAt (i : prepared.Terminals) : Complex64 F :=
  (prepared.unknownPos i).elim 0 prepared.sourceRhs

theorem sourceRhsAt_of_pos {prepared : PreparedNetwork F} {i : prepared.Terminals}
    {position : Fin prepared.unknown.length} (h : prepared.unknownPos i = some position) :
    sourceRhsAt prepared i = prepared.sourceRhs position := by
  rw [sourceRhsAt, h, Option.elim_some]

def compensated (voltage loadCurrent : Voltage F prepared.index.size)
    (u : Fin prepared.unknown.length) : Complex64 F :=
  let i := prepared.unknown.get u
  sourceRhsAt prepared i + prepared.yref.rowMul i voltage - loadCurrent i

def solveCompensated (rhs : Fin prepared.unknown.length → Complex64 F) :
    Except String (Fin prepared.unknown.length → Complex64 F) :=
  prepared.factor.elim (.ok fun _ => 0) fun factor => factor.solveInto rhs

/-- Moves each unknown terminal towards its solved value, and returns the largest change. -/
def relax (options : McPfOptions F) (solved : Fin prepared.unknown.length → Complex64 F)
    (voltage : Voltage F prepared.index.size) : Voltage F prepared.index.size × F :=
  (List.finRange prepared.unknown.length).foldl
    (fun (voltage, change) u =>
      let i := prepared.unknown.get u
      let next := voltage i + Complex64.scale options.damping (solved u - voltage i)
      (Function.update voltage i next, Binary64.max change (next - voltage i).norm))
    (voltage, 0)

def accepts (metrics : F × F) : Bool := le metrics.2 1

/-- The load current of the voltage, unless the last check has left it. -/
def currentOf (options : McPfOptions F) (it : Iteration F prepared.index.size) :
    Except String (Voltage F prepared.index.size) :=
  match it.evaluated with
  | none => totalLoadCurrent prepared it.voltage options
  | some _ => .ok it.loadCurrent

def iterateOnce (options : McPfOptions F) (it : Iteration F prepared.index.size) :
    Except String (Iteration F prepared.index.size) := do
  let loadCurrent ← currentOf prepared options it
  let solved ← solveCompensated prepared (compensated prepared it.voltage loadCurrent)
  let (voltage, change) := relax prepared options solved it.voltage
  let iterations := it.iterations + 1
  if le change options.tolerance then
    let loadCurrent ← totalLoadCurrent prepared voltage options
    let metrics := kclMetrics prepared voltage loadCurrent options
    .ok ⟨voltage, loadCurrent, some metrics, change, iterations⟩
  else .ok ⟨voltage, loadCurrent, none, change, iterations⟩

/-- A pass from one state to the next, by the current and the solution that it finds. -/
def PassTo (options : McPfOptions F) (it next : Iteration F prepared.index.size) : Prop :=
  ∃ current solved, currentOf prepared options it = .ok current ∧
    solveCompensated prepared (compensated prepared it.voltage current) = .ok solved ∧
    next.voltage = (relax prepared options solved it.voltage).1 ∧
    next.finalChange = (relax prepared options solved it.voltage).2 ∧
    next.iterations = it.iterations + 1 ∧
    if le next.finalChange options.tolerance then
      totalLoadCurrent prepared next.voltage options = .ok next.loadCurrent ∧
        next.evaluated = some (kclMetrics prepared next.voltage next.loadCurrent options)
    else next.loadCurrent = current ∧ next.evaluated = none

theorem iterateOnce_eq_ok {options : McPfOptions F}
    {it next : Iteration F prepared.index.size} :
    iterateOnce prepared options it = .ok next ↔ PassTo prepared options it next := by
  simp only [iterateOnce, bind_eq_ok]
  constructor
  · rintro ⟨current, hcurrent, solved, hsolved, hnext⟩
    refine ⟨current, solved, hcurrent, hsolved, ?_⟩
    split at hnext
    case isTrue hle =>
      simp only [bind_eq_ok, Except.ok.injEq] at hnext
      obtain ⟨after, hafter, rfl⟩ := hnext
      refine ⟨rfl, rfl, rfl, ?_⟩
      rw [if_pos hle]
      exact ⟨hafter, rfl⟩
    case isFalse hle =>
      obtain rfl := Except.ok.inj hnext
      refine ⟨rfl, rfl, rfl, ?_⟩
      rw [if_neg hle]
      exact ⟨rfl, rfl⟩
  · rintro ⟨current, solved, hcurrent, hsolved, hvoltage, hchange, hiterations, hrest⟩
    refine ⟨current, hcurrent, solved, hsolved, ?_⟩
    obtain ⟨voltage, loadCurrent, evaluated, finalChange, iterations⟩ := next
    dsimp only at hvoltage hchange hiterations hrest
    subst hvoltage hchange hiterations
    split at hrest
    case isTrue hle =>
      rw [if_pos hle, hrest.1, hrest.2]
      rfl
    case isFalse hle =>
      rw [if_neg hle, hrest.1, hrest.2]

/-- The passes that are left, until a check accepts. -/
def iterateLoop (options : McPfOptions F) :
    ℕ → Iteration F prepared.index.size → Except String (Iteration F prepared.index.size)
  | 0, it => .ok it
  | rest + 1, it => do
      let it ← iterateOnce prepared options it
      if it.evaluated.any accepts then .ok it else iterateLoop options rest it

/-- The load current and the metrics of the final voltage. -/
def finalMetrics (options : McPfOptions F) (it : Iteration F prepared.index.size) :
    Except String (Voltage F prepared.index.size × F × F) :=
  match it.evaluated with
  | some metrics => .ok (it.loadCurrent, metrics)
  | none => do
      let loadCurrent ← totalLoadCurrent prepared it.voltage options
      .ok (loadCurrent, kclMetrics prepared it.voltage loadCurrent options)

def iterate (options : McPfOptions F) (initial : Option (Voltage F prepared.index.size)) :
    Except String (FixedPoint F prepared.index.size) := do
  validateOptions options
  let voltage ← initialVoltage prepared initial
  let it ← iterateLoop prepared options options.maxIterations
    ⟨voltage, fun _ => 0, none, Libm.infinity, 0⟩
  let (loadCurrent, residual, scaledResidual) ← finalMetrics prepared options it
  if !isFinite it.finalChange || !isFinite residual || !isFinite scaledResidual then
    .error "fixed-point iteration produced a non-finite residual"
  else if lt options.tolerance it.finalChange || lt 1 scaledResidual then
    .error ("multiconductor PF did not converge after " ++ toString it.iterations ++
      " iterations (voltage change " ++ Libm.displayExp it.finalChange ++ ", KCL residual " ++
      Libm.displayExp residual ++ ")")
  else
    .ok
      { voltage := it.voltage
        loadCurrent
        iterations := it.iterations
        voltageChange := it.finalChange
        physicalKclResidual := residual
        scaledKclResidual := scaledResidual }

end Tellegen.Multiconductor
