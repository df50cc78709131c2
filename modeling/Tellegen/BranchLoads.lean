import Tellegen.Lib.Complex64
import Tellegen.Lib.Outcome
import Tellegen.Multiconductor

/-!
Voltage-dependent branch laws of the loads of a multiconductor network, and
their nominal admittance. A network has `n` terminals; every vector over its
terminals has that length, and every vector over the branches of a load the
number of its branches.
-/

open Binary64 Outcome

namespace Tellegen.Multiconductor

structure McPfOptions (F : Type) where
  tolerance : F
  maxIterations : ℕ
  damping : F
  zeroVoltageTolerance : F
  absoluteKclTolerance : F
  relativeKclTolerance : F
  voltageEnvelope : Bool
  vLowPu : F
  vMinPu : F
  vMaxPu : F

def McPfOptions.default {F : Type} [Libm F] : McPfOptions F :=
  { tolerance := lit (1 / 10 ^ 4)
    maxIterations := 100
    damping := 1
    zeroVoltageTolerance := lit (1 / 10 ^ 9)
    absoluteKclTolerance := lit (1 / 10 ^ 4)
    relativeKclTolerance := lit (1 / 10 ^ 5)
    voltageEnvelope := true
    vLowPu := lit (1 / 2)
    vMinPu := lit (85 / 100)
    vMaxPu := lit (115 / 100) }

inductive BranchVoltageModel (F : Type) (branches : ℕ) where
  | constantPower
  | constantCurrent
  | constantImpedance
  | zip (alphaZ alphaI alphaP betaZ betaI betaP : Fin branches → F)
  | exponential (gammaP gammaQ : Fin branches → F)

/-- The signed incidence of a branch: its voltage is the sum of the coefficients times the
terminal voltages. -/
abbrev Incidence (F : Type) (n : ℕ) := List (Fin n × Complex64 F)

structure BranchLoad (F : Type) (n : ℕ) where
  name : String
  bus : String
  branches : ℕ
  incidence : Fin branches → Incidence F n
  power : Fin branches → Complex64 F
  /-- Implied by the current prescribed power. -/
  nominalAdmittance : Fin branches → Complex64 F
  /-- Stamped into the retained matrix, and never edited. -/
  referenceAdmittance : Fin branches → Complex64 F
  nominalVoltage : Fin branches → F
  model : BranchVoltageModel F branches

abbrev Voltage (F : Type) (n : ℕ) := Fin n → Complex64 F

variable {F : Type} [Libm F] {n : ℕ}

def square (x : F) : F := x * x

namespace BranchLoad

variable (load : BranchLoad F n)

/-! ### The current of a branch -/

def branchVoltage (branch : Fin load.branches) (voltage : Voltage F n) : Complex64 F :=
  Complex64.sum <| (load.incidence branch).map fun (i, c) => c * voltage i

def zeroCurrentAtZeroVoltage (branch : Fin load.branches) (magnitude zeroTol : F) : Bool :=
  if lt zeroTol magnitude then false
  else
    let s := load.power branch
    match load.model with
    | .constantImpedance => true
    | .constantPower | .constantCurrent => s.isZero
    | .zip _ alphaI alphaP _ betaI betaP =>
      eq (s.re * alphaP branch) 0 && eq (s.im * betaP branch) 0 &&
        eq (s.re * alphaI branch) 0 && eq (s.im * betaI branch) 0
    | .exponential gammaP gammaQ =>
      (eq s.re 0 || lt 1 (gammaP branch)) && (eq s.im 0 || lt 1 (gammaQ branch))

def nearZeroLawIsSafe (branch : Fin load.branches) : Bool :=
  let s := load.power branch
  match load.model with
  | .constantImpedance | .constantCurrent => true
  | .zip _ _ alphaP _ _ betaP => eq (s.re * alphaP branch) 0 && eq (s.im * betaP branch) 0
  | .exponential gammaP gammaQ =>
    (eq s.re 0 || le 1 (gammaP branch)) && (eq s.im 0 || le 1 (gammaQ branch))
  | .constantPower => false

/-- A part of a polynomial law. The inverse term is left out where it has no share. -/
def zipPart (s vNom ratio z i p : F) : F :=
  if eq s 0 then 0
  else s / vNom * (z * ratio + i + (if eq p 0 then 0 else p / ratio))

def exponentialPart (s vNom ratio gamma : F) : F :=
  if eq s 0 then 0 else s / vNom * Libm.powf ratio (gamma - 1)

def currentAtVoltage (branch : Fin load.branches) (u : Complex64 F) (magnitude : F) :
    Complex64 F :=
  let phase := u.divReal magnitude
  let s := load.power branch
  let vNom := load.nominalVoltage branch
  let ratio := magnitude / vNom
  match load.model with
  | .constantPower => s.conj * phase.divReal magnitude
  | .constantCurrent => s.conj * phase.divReal vNom
  | .constantImpedance => load.nominalAdmittance branch * u
  | .zip alphaZ alphaI alphaP betaZ betaI betaP =>
    let p := zipPart s.re vNom ratio (alphaZ branch) (alphaI branch) (alphaP branch)
    let q := zipPart s.im vNom ratio (betaZ branch) (betaI branch) (betaP branch)
    phase * ⟨p, -q⟩
  | .exponential gammaP gammaQ =>
    ⟨exponentialPart s.re vNom ratio (gammaP branch),
      if eq s.im 0 then 0 else -s.im / vNom * Libm.powf ratio (gammaQ branch - 1)⟩ * phase

/-- The bounded-voltage law: the nominal impedance below the low voltage, from there a linear
transition to the current at the minimum, and above the maximum an impedance again. -/
def envelopedCurrent (branch : Fin load.branches) (u : Complex64 F) (magnitude : F)
    (options : McPfOptions F) : Complex64 F :=
  let vNom := load.nominalVoltage branch
  let ratio := magnitude / vNom
  let y := load.nominalAdmittance branch
  let impedance := match load.model with
    | .constantImpedance => true
    | _ => false
  if impedance then y * u
  else if le ratio options.vLowPu then y * u
  else if le ratio options.vMinPu then
    let low := Complex64.scale (vNom * options.vLowPu) y
    let atMin := Complex64.scale (vNom / options.vMinPu) y
    let fraction := (ratio - options.vLowPu) / (options.vMinPu - options.vLowPu)
    u.divReal magnitude * (low + Complex64.scale fraction (atMin - low))
  else if lt options.vMaxPu ratio then y.divReal (square options.vMaxPu) * u
  else load.currentAtVoltage branch u magnitude

def branchError (branch : Fin load.branches) (text : String) : String :=
  "load `" ++ load.name ++ "` branch " ++ toString branch.val ++ " " ++ text

def branchCurrent (branch : Fin load.branches) (voltage : Voltage F n)
    (options : McPfOptions F) : Except String (Complex64 F) :=
  let u := load.branchVoltage branch voltage
  if (load.power branch).isZero then .ok 0
  else
    let magnitude := u.norm
    if eq magnitude 0 then
      if options.voltageEnvelope ||
          load.zeroCurrentAtZeroVoltage branch magnitude options.zeroVoltageTolerance then .ok 0
      else .error (load.branchError branch "has near-zero voltage")
    else if !options.voltageEnvelope && le magnitude options.zeroVoltageTolerance &&
        !load.nearZeroLawIsSafe branch then
      .error (load.branchError branch "has near-zero voltage")
    else
      let current :=
        if options.voltageEnvelope then load.envelopedCurrent branch u magnitude options
        else load.currentAtVoltage branch u magnitude
      if !current.isFinite then
        .error (load.branchError branch "produced a non-finite current")
      else if !(u * current.conj).isFinite then
        .error (load.branchError branch "produced a non-finite absorbed power")
      else .ok current

/-- The current of one branch, added at its terminals. -/
def addBranch (result : Voltage F n) (incidence : Incidence F n) (current : Complex64 F) :
    Voltage F n :=
  incidence.foldl
    (fun result (i, c) => Function.update result i (result i + c.conj * current)) result

def addCurrent (voltage : Voltage F n) (options : McPfOptions F) (result : Voltage F n) :
    Except String (Voltage F n) :=
  (List.finRange load.branches).foldlM (fun result branch => do
    let current ← load.branchCurrent branch voltage options
    .ok (addBranch result (load.incidence branch) current)) result

/-! ### Editing -/

def admittanceOf (power : Complex64 F) (vNom : F) : Complex64 F :=
  power.conj.divReal (vNom * vNom)

def replacePower (power : List (Complex64 F)) : Except String (BranchLoad F n) :=
  if h : power.length = load.branches then
    if power.any fun value => !value.isFinite then
      .error ("load `" ++ load.name ++ "` received a non-finite prescribed power")
    else
      let replaced := fun branch : Fin load.branches => power.get (branch.cast h.symm)
      let nominalAdmittance := fun branch =>
        admittanceOf (replaced branch) (load.nominalVoltage branch)
      if (List.finRange load.branches).any fun branch => !(nominalAdmittance branch).isFinite then
        .error ("load `" ++ load.name ++ "` produced a non-finite nominal admittance")
      else .ok { load with power := replaced, nominalAdmittance }
  else
    .error ("load `" ++ load.name ++ "` received " ++ toString power.length ++
      " branch powers; expected " ++ toString load.branches)

end BranchLoad

/-! ### Preparing a load -/

section Prepare

variable {T : Type}

/-- A coefficient of each branch: one for all of them, or one for each. -/
def coefficients (name field : String) (values : List F) (branches : ℕ) :
    Except String (Fin branches → F) :=
  if h : values.length = 1 ∨ values.length = branches then
    if values.any fun value => !isFinite value then
      .error ("load `" ++ name ++ "` " ++ field ++ " contains a non-finite value")
    else
      .ok fun branch =>
        values.get ⟨if values.length = 1 then 0 else branch, by
          have := branch.isLt
          split <;> omega⟩
  else
    .error ("load `" ++ name ++ "` " ++ field ++ " has length " ++ toString values.length ++
      "; expected 1 or " ++ toString branches)

/-- `values.chunks_exact(2)` -/
def pairs {α : Type} : List α → List (α × α)
  | a :: b :: rest => (a, b) :: pairs rest
  | _ => []

def incidenceOf (i j : Fin n) : Incidence F n := [(i, 1), (j, -1)]

/-- The branches between terminals, by the connection of the load. -/
def connectionIncidence (load : DistLoad F T)
    (terminal : String → Except String (Fin n)) : Except String (List (Incidence F n)) :=
  match load.configuration with
  | .wye =>
    if load.terminalMap.length = load.pNom.length + 1 then do
      let neutral := load.neutralTerminal.getD (load.terminalMap.getLastD "")
      let phases := load.terminalMap.filter (· ≠ neutral)
      if phases.length ≠ load.pNom.length then
        .error ("wye load `" ++ load.name ++
          "` has an explicit neutral that does not leave one branch per power")
      else phases.mapM fun phase => do
        let i ← terminal phase
        let j ← terminal neutral
        .ok (incidenceOf i j)
    else if load.terminalMap.length = load.pNom.length then
      load.terminalMap.mapM fun phase => do
        let i ← terminal phase
        .ok [(i, 1)]
    else
      .error ("wye load `" ++ load.name ++ "` terminal/power dimensions are inconsistent")
  | .delta =>
    if load.terminalMap.length = 2 * load.pNom.length then
      (pairs load.terminalMap).mapM fun (a, b) => do
        let i ← terminal a
        let j ← terminal b
        .ok (incidenceOf i j)
    else if load.terminalMap.length = load.pNom.length then do
      let nodes ← load.terminalMap.mapM terminal
      .ok ((nodes.zip (nodes.rotate 1)).map fun (i, j) => incidenceOf i j)
    else
      .error ("delta load `" ++ load.name ++ "` terminal/power dimensions are inconsistent")
  | .singlePhase =>
    match load.terminalMap, load.pNom with
    | [a, b], [_] => do
        let i ← terminal a
        let j ← terminal b
        .ok [incidenceOf i j]
    | _, _ =>
      .error ("single-phase load `" ++ load.name ++ "` requires two terminals and one power")
  | .other =>
    .error ("load `" ++ load.name ++ "` uses an unsupported connection configuration")

def branchVoltageModel (load : DistLoad F T) :
    Except String (BranchVoltageModel F load.pNom.length) :=
  let read := fun field values => coefficients load.name field values load.pNom.length
  match load.voltageModel with
  | .constantPower _ => .ok .constantPower
  | .constantCurrent _ => .ok .constantCurrent
  | .constantImpedance _ => .ok .constantImpedance
  | .zip _ alphaZ alphaI alphaP betaZ betaI betaP => do
      let alphaZ ← read "alpha_z" alphaZ
      let alphaI ← read "alpha_i" alphaI
      let alphaP ← read "alpha_p" alphaP
      let betaZ ← read "beta_z" betaZ
      let betaI ← read "beta_i" betaI
      let betaP ← read "beta_p" betaP
      .ok (.zip alphaZ alphaI alphaP betaZ betaI betaP)
  | .exponential _ gammaP gammaQ => do
      let gammaP ← read "gamma_p" gammaP
      let gammaQ ← read "gamma_q" gammaQ
      .ok (.exponential gammaP gammaQ)
  | .other _ => .error ("load `" ++ load.name ++ "` uses an unsupported voltage model")

def DistLoadVoltageModel.isConstantPower : DistLoadVoltageModel F → Bool
  | .constantPower _ => true
  | _ => false

/-- The nominal voltage of each branch: that of the voltage model, or the inferred one for a load
of constant power that states none. -/
def nominalVoltages (load : DistLoad F T) (inferred : Option (List F)) :
    Except String (Fin load.pNom.length → F) :=
  let raw := load.voltageModel.vNom
  if raw = [] then
    if load.voltageModel.isConstantPower then
      match inferred with
      | some values => coefficients load.name "inferred v_nom" values load.pNom.length
      | none =>
        .error ("load `" ++ load.name ++ "` omits nominal branch voltage and its bus voltage" ++
          " base could not be inferred")
    else
      .error ("load `" ++ load.name ++ "` omits nominal branch voltage required by its" ++
        " voltage-dependent model")
  else coefficients load.name "v_nom" raw load.pNom.length

def prepareLoad (load : DistLoad F T) (terminal : String → Except String (Fin n))
    (inferred : Option (List F)) : Except String (BranchLoad F n) :=
  if hq : load.pNom.length = load.qNom.length then
    if load.pNom = [] then .error ("load `" ++ load.name ++ "` has no branch powers")
    else if (load.pNom ++ load.qNom).any fun value => !isFinite value then
      .error ("load `" ++ load.name ++ "` has a non-finite prescribed power")
    else do
      let incidence ← connectionIncidence load terminal
      if hi : load.pNom.length = incidence.length then
        let nominalVoltage ← nominalVoltages load inferred
        if (List.finRange load.pNom.length).any fun branch => le (nominalVoltage branch) 0 then
          .error ("load `" ++ load.name ++ "` has invalid nominal branch voltages")
        else
          let power := fun branch : Fin load.pNom.length =>
            (⟨load.pNom.get branch, load.qNom.get (branch.cast hq)⟩ : Complex64 F)
          let nominalAdmittance := fun branch =>
            BranchLoad.admittanceOf (power branch) (nominalVoltage branch)
          if (List.finRange load.pNom.length).any fun branch =>
              !(nominalAdmittance branch).isFinite then
            .error ("load `" ++ load.name ++ "` produced a non-finite nominal admittance")
          else
            let model ← branchVoltageModel load
            .ok
              { name := load.name
                bus := load.bus
                branches := load.pNom.length
                incidence := fun branch => incidence.get (branch.cast hi)
                power
                nominalAdmittance
                referenceAdmittance := nominalAdmittance
                nominalVoltage
                model }
      else
        .error ("load `" ++ load.name ++ "` branch map has " ++ toString incidence.length ++
          " rows for " ++ toString load.pNom.length ++ " powers")
  else .error ("load `" ++ load.name ++ "` has mismatched p_nom/q_nom lengths")

end Prepare

end Tellegen.Multiconductor
