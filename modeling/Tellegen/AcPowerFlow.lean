import Tellegen.AcNetwork

/-!
AC power flow: a damped Newton iteration in polar coordinates under slack, PV
and PQ typing, inside a loop that moves generator buses between PV and PQ at
their reactive limits, tried from several starts.
-/

open Binary64

namespace Tellegen.Ac

variable {F : Type} [Libm F] {n : ℕ}

/-- The convergence tolerance on the largest mismatch. -/
def tol : F := lit (1 / 100000000)

def maxIters : ℕ := 50

def restarts : ℕ := 4

inductive AcStart where
  | flat
  | caseState
  deriving DecidableEq

inductive BusKind where
  | slack
  | pv
  | pq
  deriving DecidableEq

def isNan (x : F) : Bool := !eq x x

/-! ### Layout -/

/-- The columns and rows of the reduced system, angles and active mismatches first. -/
structure AcPfLayout (n : ℕ) where
  vaOf : Fin n → Option ℕ
  vmOf : Fin n → Option ℕ
  pOf : Fin n → Option ℕ
  qOf : Fin n → Option ℕ
  dim : ℕ

def defaultKinds (net : AcNetwork F) (bus : Fin net.n) : BusKind :=
  if bus ∈ net.slacks then .slack else if net.pfPv bus then .pv else .pq

/-- Numbers for the selected buses, from `next` on, in order. -/
def number (select : Fin n → Bool) (next : ℕ) : Fin n → Option ℕ := fun bus =>
  if select bus then some (next + (((List.finRange n).take bus).filter select).length) else none

def count (select : Fin n → Bool) : ℕ := ((List.finRange n).filter select).length

def nonSlack (kinds : Fin n → BusKind) (bus : Fin n) : Bool := decide (kinds bus ≠ .slack)

def isPq (kinds : Fin n → BusKind) (bus : Fin n) : Bool := decide (kinds bus = .pq)

def AcPfLayout.withKinds (kinds : Fin n → BusKind) : AcPfLayout n where
  vaOf := number (nonSlack kinds) 0
  vmOf := number (isPq kinds) (count (nonSlack kinds))
  pOf := number (nonSlack kinds) 0
  qOf := number (isPq kinds) (count (nonSlack kinds))
  dim := count (nonSlack kinds) + count (isPq kinds)

/-- The scheduled injection less the calculated one, at the rows of the layout. -/
def AcPfLayout.residual (net : AcNetwork F) (layout : AcPfLayout net.n)
    (pg qg pCalc qCalc : Fin net.n → F) : List F :=
  (List.finRange net.n).foldl
    (fun r b =>
      let r := match layout.pOf b with
        | some row => r.set row ((pg b - net.pd b) - pCalc b)
        | none => r
      match layout.qOf b with
      | some row => r.set row ((qg b - net.qd b) - qCalc b)
      | none => r)
    (List.replicate layout.dim 0)

/-! ### The polar physics -/

structure Injections (F : Type) (n : ℕ) where
  p : Fin n → F
  q : Fin n → F
  iBus : Fin n → Complex64 F

abbrev Ybus (F : Type) (n : ℕ) := List (Fin n × Fin n × Complex64 F)

def acInjections (ybus : Ybus F n) (vm va : Fin n → F) : Injections F n :=
  let v := fun i => Complex64.fromPolar (vm i) (va i)
  let iBus := ybus.foldl
    (fun (iBus : Fin n → Complex64 F) (i, k, y) => Function.update iBus i (iBus i + y * v k))
    fun _ => 0
  let s := fun i => v i * (iBus i).conj
  { p := fun i => (s i).re, q := fun i => (s i).im, iBus := iBus }

def acJacobian (ybus : Ybus F n) (vm va : Fin n → F) (iBus : Fin n → Complex64 F)
    (layout : AcPfLayout n) : List (ℕ × ℕ × F) :=
  let v := fun i => Complex64.fromPolar (vm i) (va i)
  let j : Complex64 F := ⟨0, 1⟩
  ybus.flatMap fun (i, k, y) =>
    let vnorm := Complex64.fromPolar 1 (va k)
    let dsDva :=
      if i = k then j * v i * (iBus i - y * v i).conj else -j * v i * (y * v k).conj
    let dsDvm :=
      if i = k then v i * y.conj * vnorm.conj + (iBus i).conj * vnorm
      else v i * y.conj * vnorm.conj
    let entries := fun (row : Option ℕ) (part : Complex64 F → F) =>
      row.toList.flatMap fun r =>
        ((layout.vaOf k).toList.map fun c => (r, c, part dsDva)) ++
          (layout.vmOf k).toList.map fun c => (r, c, part dsDvm)
    entries (layout.pOf i) Complex64.re ++ entries (layout.qOf i) Complex64.im

structure AcPfFormulation (F : Type) where
  injections : {n : ℕ} → Ybus F n → (Fin n → F) → (Fin n → F) → Injections F n
  jacobian : {n : ℕ} → Ybus F n → (Fin n → F) → (Fin n → F) → (Fin n → Complex64 F) →
    AcPfLayout n → List (ℕ × ℕ × F)

def acPolar : AcPfFormulation F where
  injections := acInjections
  jacobian := acJacobian

/-- The sparse solve of a reduced system, which fails or returns a vector. -/
class LinearSolver (F : Type) where
  solveSparse : ℕ → List (ℕ × ℕ × F) → List F → Except String (ℕ → F)

def normFrom (norm : F) : List F → F
  | [] => norm
  | x :: rest => if isNan x then x else normFrom (Binary64.max norm (Binary64.abs x)) rest

/-- The largest magnitude; an entry that is not a number is the norm. -/
def infNorm (v : List F) : F := normFrom 0 v

/-! ### Newton -/

def takeStep (vm va : Fin n → F) (dx : ℕ → F) (layout : AcPfLayout n) (alpha : F) :
    (Fin n → F) × (Fin n → F) :=
  (fun b => match layout.vmOf b with
    | some c => vm b + alpha * dx c
    | none => vm b,
   fun b => match layout.vaOf b with
    | some c => va b + alpha * dx c
    | none => va b)

section Solve

variable (f : AcPfFormulation F) (net : AcNetwork F)

/-- The current iterate, with the mismatch and the currents measured there. -/
structure Iterate (F : Type) (n : ℕ) where
  vm : Fin n → F
  va : Fin n → F
  iBus : Fin n → Complex64 F
  r : List F
  residual : F

def measure (layout : AcPfLayout net.n) (pg qg vm va : Fin net.n → F) : Iterate F net.n :=
  let flows := f.injections net.ybus vm va
  let r := layout.residual net pg qg flows.p flows.q
  { vm := vm, va := va, iBus := flows.iBus, r := r, residual := infNorm r }

/-- The largest of the remaining steps that keeps the magnitudes positive and reduces the
mismatch. -/
def backtrack (layout : AcPfLayout net.n) (pg qg : Fin net.n → F) (current : Iterate F net.n)
    (dx : ℕ → F) : ℕ → F → Option (Iterate F net.n)
  | 0, _ => none
  | rest + 1, alpha =>
    let (tvm, tva) := takeStep current.vm current.va dx layout alpha
    if ((List.finRange net.n).any fun b => isNan (tvm b) || le (tvm b) 0) ||
        ((List.finRange net.n).any fun b => isNan (tva b)) then
      backtrack layout pg qg current dx rest (alpha * lit (1 / 2))
    else
      let trial := measure f net layout pg qg tvm tva
      if lt trial.residual current.residual then some trial
      else backtrack layout pg qg current dx rest (alpha * lit (1 / 2))

variable [LinearSolver F]

/-- The iterations that are left; `it` is the number of the next one. -/
def newtonLoop (layout : AcPfLayout net.n) (pg qg : Fin net.n → F) :
    ℕ → ℕ → Iterate F net.n → Iterate F net.n × ℕ
  | 0, it, current => (current, it - 1)
  | rest + 1, it, current =>
    if lt current.residual tol then (current, it)
    else
      let jac := f.jacobian net.ybus current.vm current.va current.iBus layout
      match LinearSolver.solveSparse layout.dim jac current.r with
      | .error _ => (current, it)
      | .ok dx =>
        match backtrack f net layout pg qg current dx 12 1 with
        | none => (current, it)
        | some next => newtonLoop layout pg qg rest (it + 1) next

def newton (layout : AcPfLayout net.n) (pg qg vm va : Fin net.n → F) : Iterate F net.n × ℕ :=
  newtonLoop f net layout pg qg maxIters 0 (measure f net layout pg qg vm va)

/-! ### Reactive limits -/

/-- The aggregate of a limit over the generators of a bus. -/
def aggregate (limit : Fin net.k → F) (bus : Fin net.n) : F :=
  (List.finRange net.k).foldl (fun total g => if net.genBus g = bus then total + limit g else total)
    0

def hasGen (bus : Fin net.n) : Bool := (List.finRange net.k).any fun g => net.genBus g = bus

def qTol : F := lit (1 / 1000000)

def vBack : F := lit (1 / 1000000)

def maxOuter : ℕ := 12

/-- What the outer loop keeps of a bus: its typing and schedule, the limit it is fixed at (`1` the
upper, `-1` the lower, `0` none), whether it has spent its one reversal, and its magnitude. -/
structure BusState (F : Type) where
  kind : BusKind
  qsched : F
  converted : ℤ
  reverted : Bool
  vm : F

/-- One bus of a switching round, and whether it changed. A bus reads and writes its own entries
only. -/
def switchBus (qCalc : Fin net.n → F) (bus : Fin net.n) (state : BusState F) : BusState F × Bool :=
  if state.kind = .slack ∨ hasGen net bus = false then (state, false)
  else if state.kind = .pv then
    let qg := qCalc bus + net.qd bus
    if lt (aggregate net net.qmax bus + qTol) qg then
      ({ state with kind := .pq, qsched := aggregate net net.qmax bus, converted := 1 }, true)
    else if lt qg (aggregate net net.qmin bus - qTol) then
      ({ state with kind := .pq, qsched := aggregate net net.qmin bus, converted := -1 }, true)
    else (state, false)
  else if state.converted ≠ 0 ∧ state.reverted = false then
    if (state.converted = 1 ∧ lt (net.vmSet bus + vBack) state.vm = true) ∨
        (state.converted = -1 ∧ lt state.vm (net.vmSet bus - vBack) = true) then
      ({ kind := .pv, qsched := net.qg bus, converted := 0, reverted := true,
         vm := net.vmSet bus }, true)
    else (state, false)
  else (state, false)

/-- A regulating bus is set to the magnitude that it holds. -/
def pin (bus : Fin net.n) (state : BusState F) : BusState F :=
  if state.kind ≠ .pq then { state with vm := net.vmSet bus } else state

structure QlimSolve (F : Type) (n : ℕ) where
  vm : Fin n → F
  va : Fin n → F
  kinds : Fin n → BusKind
  iterations : ℕ
  residual : F

/-- The rounds that are left, and whether the loop reached a settled verdict. -/
def qlimLoop : ℕ → (Fin net.n → BusState F) → (Fin net.n → F) → QlimSolve F net.n →
    QlimSolve F net.n × Bool
  | 0, _, _, result => (result, false)
  | rest + 1, buses, va, _ =>
    let kinds := fun b => (buses b).kind
    let (point, iters) := newton f net (AcPfLayout.withKinds kinds) net.pg
      (fun b => (buses b).qsched) (fun b => (buses b).vm) va
    let result : QlimSolve F net.n :=
      { vm := point.vm, va := point.va, kinds := kinds, iterations := iters,
        residual := point.residual }
    if le tol point.residual then (result, true)
    else
      let qCalc := (f.injections net.ybus point.vm point.va).q
      let switched := fun b => switchBus net qCalc b { buses b with vm := point.vm b }
      if (List.finRange net.n).any fun b => (switched b).2 then
        qlimLoop rest (fun b => pin net b (switched b).1) point.va result
      else (result, true)

def startBuses (vm : Fin net.n → F) (b : Fin net.n) : BusState F :=
  pin net b
    { kind := defaultKinds net b, qsched := net.qg b, converted := 0, reverted := false,
      vm := vm b }

/-- The solve from one start. A loop that runs out of rounds with a switch pending has not
converged. -/
def solveQlim (vm va : Fin net.n → F) : QlimSolve F net.n :=
  let buses := startBuses net vm
  let (result, settled) := qlimLoop f net maxOuter buses va
    { vm := fun b => (buses b).vm, va := va, kinds := fun b => (buses b).kind, iterations := 0,
      residual := Libm.infinity }
  if settled then result else { result with residual := Libm.infinity }

/-! ### Starts -/

/-- A deterministic value in `[-1, 1]`. -/
def mix (a b : UInt64) : F :=
  let x := (a * 0x9E3779B97F4A7C15) ^^^ (b * 0xD1B54A32D192ED03)
  let x := x ^^^ (x >>> 33)
  let x := x * 0xFF51AFD7ED558CCD
  let x := x ^^^ (x >>> 33)
  (lit x.toNat / lit (2 ^ 64 - 1)) * lit 2 - 1

/-- Each bus's island slack and its reference angle. -/
def islandReferences : Fin net.n → Option (Fin net.n) × F :=
  let island := denseIslands net.brFrom net.brTo
  let reference := (net.slacks.zip net.vaSlacks).foldl
    (fun reference (slack, va) => Function.update reference (island slack) (some slack, va))
    fun _ => (none, 0)
  fun bus => reference (island bus)

def finiteOr (value fallback : F) : F := if isFinite value then value else fallback

/-- The stored case state, its angles shifted to the reference of their island. -/
def caseStart : (Fin net.n → F) × (Fin net.n → F) :=
  (fun b => if isFinite (net.vmCase b) && lt 0 (net.vmCase b) then net.vmCase b else net.vmSet b,
   fun b =>
    let (slack, reference) := islandReferences net b
    let slackVa := match slack with
      | some slack => finiteOr (net.vaCase slack) 0
      | none => 0
    reference + finiteOr (net.vaCase b - slackVa) 0)

def flatStart : (Fin net.n → F) × (Fin net.n → F) :=
  (net.vmSet, fun b => (islandReferences net b).2)

def perturbed (restart : ℕ) : (Fin net.n → F) × (Fin net.n → F) :=
  (fun b =>
    if b ∈ net.slacks then net.vmSet b
    else
      net.vmSet b * (1 + lit (3 / 100) * mix (UInt64.ofNat b) (UInt64.ofNat (restart + 1000))),
   fun b =>
    if b ∈ net.slacks then (islandReferences net b).2
    else
      (islandReferences net b).2 +
        lit (1 / 10) * mix (UInt64.ofNat b) (UInt64.ofNat restart))

def starts (start : AcStart) : List ((Fin net.n → F) × (Fin net.n → F)) :=
  (if start = .caseState then [caseStart net] else []) ++ flatStart net ::
    (List.range restarts).map fun restart => perturbed net (restart + 1)

/-- A result replaces the best one where that is not a number, or is worse. -/
def better (best : Option (QlimSolve F n)) (res : QlimSolve F n) : QlimSolve F n :=
  match best with
  | none => res
  | some b =>
    if !isNan res.residual && (isNan b.residual || lt res.residual b.residual) then res else b

def bestOf (best : Option (QlimSolve F net.n)) :
    List ((Fin net.n → F) × (Fin net.n → F)) → Option (QlimSolve F net.n)
  | [] => best
  | (vm, va) :: rest =>
    let best := better best (solveQlim f net vm va)
    if lt best.residual tol then some best else bestOf (some best) rest

structure AcPfSolution (F : Type) (n : ℕ) where
  vm : Fin n → F
  va : Fin n → F
  p : Fin n → F
  q : Fin n → F
  iterations : ℕ
  residual : F
  kinds : Fin n → BusKind

/-- The first start that converges, or the best one that does not as an error. There is always the
flat start. -/
def acPfWithStart (start : AcStart) : Except String (AcPfSolution F net.n) :=
  match bestOf f net none (starts net start) with
  | none => .error "at least the flat start ran"
  | some best =>
    if isNan best.residual || le tol best.residual then
      .error ("AC power flow did not converge: best mismatch " ++
        Libm.displayExp best.residual ++ " over " ++
        toString (starts net start).length ++ " starts")
    else
      let flows := f.injections net.ybus best.vm best.va
      .ok
        { vm := best.vm, va := best.va, p := flows.p, q := flows.q,
          iterations := best.iterations, residual := best.residual, kinds := best.kinds }

end Solve

end Tellegen.Ac
