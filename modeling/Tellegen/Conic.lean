import Tellegen.AcNetwork
import Tellegen.Lib.Blocks

/-!
The second-order cone program of AC OPF: its variables and rows one block after
another, the entries that each bus, generator and branch writes, and the cones
over the rows.
-/

open Binary64 Blocks

namespace Tellegen.Ac

variable {F : Type} [Libm F]

/-- The tangent, and the constant next to half a turn. -/
class Tangent (F : Type) where
  tan : F → F
  pi : F

/-! ### Programs -/

inductive Cone where
  | zero (dim : ℕ)
  | nonnegative (dim : ℕ)
  | secondOrder (dim : ℕ)
  deriving DecidableEq

def Cone.dim : Cone → ℕ
  | .zero dim | .nonnegative dim | .secondOrder dim => dim

/-- `min x' P x / 2 + q' x` over `A x + s = b`, with `s` in the cones. -/
structure OpfProgram (F : Type) where
  nvar : ℕ
  ncon : ℕ
  p : List (ℕ × ℕ × F)
  q : ℕ → F
  a : List (ℕ × ℕ × F)
  b : ℕ → F
  cones : List Cone

structure ProgramBuilder (F : Type) where
  nvar : ℕ
  ncon : ℕ
  p : List (ℕ × ℕ × F)
  q : ℕ → F
  a : List (ℕ × ℕ × F)
  b : ℕ → F

/-- One call of the builder. -/
inductive Entry (R C F : Type) where
  | quad (column : C) (value : F)
  | lin (column : C) (value : F)
  | a (row : R) (column : C) (value : F)
  | rhs (row : R) (value : F)

namespace ProgramBuilder

def new (nvar ncon : ℕ) : ProgramBuilder F :=
  { nvar := nvar, ncon := ncon, p := [], q := fun _ => 0, a := [], b := fun _ => 0 }

/-- Zeros of the matrices are dropped; entries at one place add up when the matrices are built. -/
def add {R C : Type} (row : R → ℕ) (column : C → ℕ) (builder : ProgramBuilder F) :
    Entry R C F → ProgramBuilder F
  | .quad c v =>
    if eq v 0 then builder else { builder with p := builder.p ++ [(column c, column c, v)] }
  | .lin c v =>
    { builder with q := Function.update builder.q (column c) (builder.q (column c) + v) }
  | .a r c v =>
    if eq v 0 then builder else { builder with a := builder.a ++ [(row r, column c, v)] }
  | .rhs r v => { builder with b := Function.update builder.b (row r) v }

def finish (builder : ProgramBuilder F) (cones : List Cone) : OpfProgram F :=
  { nvar := builder.nvar, ncon := builder.ncon, p := builder.p, q := builder.q, a := builder.a,
    b := builder.b, cones := cones }

end ProgramBuilder

/-! ### Layout -/

namespace SocWrLayout

variable (net : AcNetwork F)

def segmentCount (g : Fin net.k) : ℕ :=
  match net.piecewiseCosts g with
  | some cost => cost.segments.length
  | none => 0

/-- A piecewise cost takes one column. -/
def costWidth (g : Fin net.k) : ℕ := if (net.piecewiseCosts g).isSome then 1 else 0

/-- An active thermal limit takes a cone of three rows at either end. -/
def thermalHeight (e : Fin net.m) : ℕ := if net.thermalLimitActive e then 6 else 0

def nEq : ℕ := 2 * net.n + 4 * net.m

def baseIneq : ℕ := 2 * net.n + 4 * net.k + 2 * net.m

def baseNvar : ℕ := 2 * net.k + net.n + 6 * net.m

def nvar : ℕ := startAt (baseNvar net) (costWidth net) net.k

def nIneq : ℕ := startAt (nEq net + baseIneq net) (segmentCount net) net.k - nEq net

def socBase : ℕ := nEq net + nIneq net

def thermalBase : ℕ := socBase net + 4 * net.m

def ncon : ℕ := startAt (thermalBase net) (thermalHeight net) net.m

inductive Column where
  | pg (g : Fin net.k)
  | qg (g : Fin net.k)
  | w (i : Fin net.n)
  | wr (e : Fin net.m)
  | wi (e : Fin net.m)
  | pf (e : Fin net.m)
  | pt (e : Fin net.m)
  | qf (e : Fin net.m)
  | qt (e : Fin net.m)
  | cost (g : Fin net.k) (h : (net.piecewiseCosts g).isSome = true)

inductive Row where
  | pbal (i : Fin net.n)
  | qbal (i : Fin net.n)
  | ohmPf (e : Fin net.m)
  | ohmQf (e : Fin net.m)
  | ohmPt (e : Fin net.m)
  | ohmQt (e : Fin net.m)
  | wub (i : Fin net.n)
  | wlb (i : Fin net.n)
  | pgub (g : Fin net.k)
  | pglb (g : Fin net.k)
  | qgub (g : Fin net.k)
  | qglb (g : Fin net.k)
  | angub (e : Fin net.m)
  | anglb (e : Fin net.m)
  | costSegment (g : Fin net.k) (segment : Fin (segmentCount net g))
  | jabr (e : Fin net.m) (part : Fin 4)
  | sf (e : Fin net.m) (h : net.thermalLimitActive e = true) (part : Fin 3)
  | st (e : Fin net.m) (h : net.thermalLimitActive e = true) (part : Fin 3)

variable {net}

def Column.index : Column net → ℕ
  | .pg g => g
  | .qg g => net.k + g
  | .w i => 2 * net.k + i
  | .wr e => 2 * net.k + net.n + e
  | .wi e => 2 * net.k + net.n + net.m + e
  | .pf e => 2 * net.k + net.n + 2 * net.m + e
  | .pt e => 2 * net.k + net.n + 3 * net.m + e
  | .qf e => 2 * net.k + net.n + 4 * net.m + e
  | .qt e => 2 * net.k + net.n + 5 * net.m + e
  | .cost g _ => startAt (baseNvar net) (costWidth net) g

def Row.index : Row net → ℕ
  | .pbal i => i
  | .qbal i => net.n + i
  | .ohmPf e => 2 * net.n + e
  | .ohmQf e => 2 * net.n + net.m + e
  | .ohmPt e => 2 * net.n + 2 * net.m + e
  | .ohmQt e => 2 * net.n + 3 * net.m + e
  | .wub i => nEq net + i
  | .wlb i => nEq net + net.n + i
  | .pgub g => nEq net + 2 * net.n + g
  | .pglb g => nEq net + 2 * net.n + net.k + g
  | .qgub g => nEq net + 2 * net.n + 2 * net.k + g
  | .qglb g => nEq net + 2 * net.n + 3 * net.k + g
  | .angub e => nEq net + 2 * net.n + 4 * net.k + e
  | .anglb e => nEq net + 2 * net.n + 4 * net.k + net.m + e
  | .costSegment g segment => startAt (nEq net + baseIneq net) (segmentCount net) g + segment
  | .jabr e part => socBase net + 4 * e + part
  | .sf e _ part => startAt (thermalBase net) (thermalHeight net) e + part
  | .st e _ part => startAt (thermalBase net) (thermalHeight net) e + 3 + part

variable (net)

def cones : List Cone :=
  .zero (nEq net) :: .nonnegative (nIneq net) :: List.replicate net.m (.secondOrder 4) ++
    ((List.finRange net.m).filter net.thermalLimitActive).flatMap fun _ =>
      [.secondOrder 3, .secondOrder 3]

end SocWrLayout

/-! ### Assembly -/

open SocWrLayout

section Assembly

variable [Tangent F] (net : AcNetwork F)

abbrev ConicEntry := Entry (Row net) (Column net) F

/-- Whether an active angle window leaves a row in the program. One that covers the whole circle
does not. -/
def conicAngleBoundActive (e : Fin net.m) : Bool :=
  net.angleBoundActive e &&
    !(le (net.angmin e) (-Tangent.pi) && le Tangent.pi (net.angmax e))

/-- What construction lets through: a window that is active covers the circle, or is open to
neither side of half of it. -/
def angleWindowSupported (e : Fin net.m) : Bool :=
  !net.angleBoundActive e ||
    (le (net.angmin e) (-Tangent.pi) && le Tangent.pi (net.angmax e)) ||
    !(le (net.angmin e) (-(Tangent.pi / lit 2)) || le (Tangent.pi / lit 2) (net.angmax e))

def objectiveEntries (g : Fin net.k) : List (ConicEntry net) :=
  [.quad (.pg g) (lit 2 * net.cq g), .lin (.pg g) (net.cl g)] ++
    if h : (net.piecewiseCosts g).isSome = true then [.lin (.cost g h) 1] else []

def balanceEntries (i : Fin net.n) : List (ConicEntry net) :=
  [.a (.pbal i) (.w i) (-net.gs i), .rhs (.pbal i) (net.pd i),
    .a (.qbal i) (.w i) (net.bs i), .rhs (.qbal i) (net.qd i)]

def generatorEntries (g : Fin net.k) : List (ConicEntry net) :=
  [.a (.pbal (net.genBus g)) (.pg g) 1, .a (.qbal (net.genBus g)) (.qg g) 1]

/-- The flows of a branch in the balances of its ends, and the four Ohm rows. -/
def branchEntries (e : Fin net.m) : List (ConicEntry net) :=
  let f := net.brFrom e
  let t := net.brTo e
  let g := net.g e
  let bb := net.b e
  let gfr := net.gFr e
  let bfr := net.bFr e
  let gto := net.gTo e
  let bto := net.bTo e
  let tr := net.tap e * Libm.cos (net.shift e)
  let ti := net.tap e * Libm.sin (net.shift e)
  let tm2 := net.tap e * net.tap e
  [.a (.pbal f) (.pf e) (-1), .a (.pbal t) (.pt e) (-1),
    .a (.qbal f) (.qf e) (-1), .a (.qbal t) (.qt e) (-1),
    .a (.ohmPf e) (.pf e) 1,
    .a (.ohmPf e) (.w f) (-(g + gfr) / tm2),
    .a (.ohmPf e) (.wr e) (-(-g * tr + bb * ti) / tm2),
    .a (.ohmPf e) (.wi e) (-(-bb * tr - g * ti) / tm2),
    .a (.ohmQf e) (.qf e) 1,
    .a (.ohmQf e) (.w f) ((bb + bfr) / tm2),
    .a (.ohmQf e) (.wr e) ((-bb * tr - g * ti) / tm2),
    .a (.ohmQf e) (.wi e) (-(-g * tr + bb * ti) / tm2),
    .a (.ohmPt e) (.pt e) 1,
    .a (.ohmPt e) (.w t) (-(g + gto)),
    .a (.ohmPt e) (.wr e) (-(-g * tr - bb * ti) / tm2),
    .a (.ohmPt e) (.wi e) ((-bb * tr + g * ti) / tm2),
    .a (.ohmQt e) (.qt e) 1,
    .a (.ohmQt e) (.w t) (bb + bto),
    .a (.ohmQt e) (.wr e) ((-bb * tr + g * ti) / tm2),
    .a (.ohmQt e) (.wi e) ((-g * tr - bb * ti) / tm2)]

def segment (g : Fin net.k) (s : Fin (segmentCount net g)) : F × F :=
  match hcost : net.piecewiseCosts g with
  | some cost => cost.segments.get ⟨s, by
      have hs := s.isLt
      simpa [segmentCount, hcost] using hs⟩
  | none => (0, 0)

def costEntries (g : Fin net.k) : List (ConicEntry net) :=
  if h : (net.piecewiseCosts g).isSome = true then
    (List.finRange (segmentCount net g)).flatMap fun s =>
      [.a (.costSegment g s) (.pg g) (segment net g s).1, .a (.costSegment g s) (.cost g h) (-1),
        .rhs (.costSegment g s) (-(segment net g s).2)]
  else []

def voltageEntries (i : Fin net.n) : List (ConicEntry net) :=
  if net.voltageBoundActive i then
    [.a (.wub i) (.w i) 1, .rhs (.wub i) (net.vmMax i * net.vmMax i),
      .a (.wlb i) (.w i) (-1), .rhs (.wlb i) (-net.vmMin i * net.vmMin i)]
  else [.rhs (.wub i) 1, .rhs (.wlb i) 1]

def capabilityEntries (g : Fin net.k) : List (ConicEntry net) :=
  if net.generatorCapabilityActive g then
    [.a (.pgub g) (.pg g) 1, .rhs (.pgub g) (net.pmax g),
      .a (.pglb g) (.pg g) (-1), .rhs (.pglb g) (-net.pmin g),
      .a (.qgub g) (.qg g) 1, .rhs (.qgub g) (net.qmax g),
      .a (.qglb g) (.qg g) (-1), .rhs (.qglb g) (-net.qmin g)]
  else [.rhs (.pgub g) 1, .rhs (.pglb g) 1, .rhs (.qgub g) 1, .rhs (.qglb g) 1]

def angleEntries (e : Fin net.m) : List (ConicEntry net) :=
  if conicAngleBoundActive net e then
    [.a (.angub e) (.wi e) 1, .a (.angub e) (.wr e) (-Tangent.tan (net.angmax e)),
      .rhs (.angub e) 0,
      .a (.anglb e) (.wi e) (-1), .a (.anglb e) (.wr e) (Tangent.tan (net.angmin e)),
      .rhs (.anglb e) 0]
  else [.rhs (.angub e) 1, .rhs (.anglb e) 1]

def jabrEntries (e : Fin net.m) : List (ConicEntry net) :=
  let f := net.brFrom e
  let t := net.brTo e
  [.a (.jabr e 0) (.w f) (-lit (1 / 2)), .a (.jabr e 0) (.w t) (-lit (1 / 2)),
    .a (.jabr e 1) (.wr e) (-1), .a (.jabr e 2) (.wi e) (-1),
    .a (.jabr e 3) (.w f) (-lit (1 / 2)), .a (.jabr e 3) (.w t) (lit (1 / 2))]

def thermalEntries (e : Fin net.m) : List (ConicEntry net) :=
  if h : net.thermalLimitActive e = true then
    [.rhs (.sf e h 0) (net.rateA e), .a (.sf e h 1) (.pf e) (-1), .a (.sf e h 2) (.qf e) (-1),
      .rhs (.st e h 0) (net.rateA e), .a (.st e h 1) (.pt e) (-1), .a (.st e h 2) (.qt e) (-1)]
  else []

def conicEntries : List (ConicEntry net) :=
  (List.finRange net.k).flatMap (objectiveEntries net) ++
    (List.finRange net.n).flatMap (balanceEntries net) ++
    (List.finRange net.k).flatMap (generatorEntries net) ++
    (List.finRange net.m).flatMap (branchEntries net) ++
    (List.finRange net.k).flatMap (costEntries net) ++
    (List.finRange net.n).flatMap (voltageEntries net) ++
    (List.finRange net.k).flatMap (capabilityEntries net) ++
    (List.finRange net.m).flatMap (angleEntries net) ++
    (List.finRange net.m).flatMap (jabrEntries net) ++
    (List.finRange net.m).flatMap (thermalEntries net)

def assembleConicOpf : OpfProgram F :=
  ((conicEntries net).foldl (ProgramBuilder.add Row.index Column.index)
    (ProgramBuilder.new (nvar net) (ncon net))).finish (cones net)

end Assembly

end Tellegen.Ac
