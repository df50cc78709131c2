import Mathlib.Data.List.Fold
import Tellegen.Lib.Complex64
import Tellegen.Lib.UnionFind

/-!
The network of an AC problem in the pi-model admittance form, with its islands
and the admittance of its branches and buses.
-/

open Binary64

namespace Tellegen.Ac

variable {F : Type}

/-- The roots of the buses in order of first appearance. -/
def islandRoots {n : ℕ} (uf : UnionFind (Fin n)) : List (Fin n) :=
  (List.finRange n).foldl
    (fun labels bus =>
      let root := (uf.find bus).2
      if root ∈ labels then labels else labels ++ [root]) []

/-- Each bus's island label, numbered in order of each island's first bus. A search only shortens
paths, so that every search may start from the joined forest. -/
def denseIslands {n m : ℕ} (brFrom brTo : Fin m → Fin n) : Fin n → ℕ :=
  let uf := (UnionFind.new (Fin n)).unions ((List.finRange m).map fun e => (brFrom e, brTo e))
  fun bus => (islandRoots uf).idxOf (uf.find bus).2

/-- One slack per island, the first of the references in it, in order of the islands; and the
references that come later in theirs. -/
def islandSlacks {n : ℕ} (island : Fin n → ℕ) (references : List (Fin n)) :
    List (Fin n) × List (Fin n) :=
  let found := references.foldl
    (fun (slackOf, extra) bus =>
      match slackOf (island bus) with
      | some _ => (slackOf, extra ++ [bus])
      | none => (Function.update slackOf (island bus) (some bus), extra))
    ((fun _ => none : ℕ → Option (Fin n)), ([] : List (Fin n)))
  let count := ((List.finRange n).map fun bus => island bus + 1).foldl Max.max 0
  ((List.range count).filterMap found.1, found.2)

/-- The slack of an island is the first of the references in it, and the slacks come in the order of the islands.
An island without a reference has none. -/
theorem islandSlacks_spec {n : ℕ} (island : Fin n → ℕ) (references : List (Fin n)) :
    (islandSlacks island references).1.Pairwise (fun a c => island a < island c) ∧
      ∀ bus, bus ∈ (islandSlacks island references).1 ↔
        references.find? (fun other => island other = island bus) = some bus := by
  have hfound : ∀ (l : List (Fin n)) (state : (ℕ → Option (Fin n)) × List (Fin n)) (i : ℕ),
      (l.foldl
        (fun (slackOf, extra) bus =>
          match slackOf (island bus) with
          | some _ => (slackOf, extra ++ [bus])
          | none => (Function.update slackOf (island bus) (some bus), extra)) state).1 i =
        (state.1 i).or (l.find? fun bus => island bus = i) := by
    intro l
    induction l with
    | nil => exact fun _ _ => Option.or_none.symm
    | cons first rest ih =>
      rintro ⟨slackOf, extra⟩ i
      rw [List.foldl_cons, ih, List.find?_cons]
      cases hslot : slackOf (island first) with
      | some other =>
        by_cases hi : island first = i
        · simp [← hi, hslot]
        · simp [hi, hslot]
      | none =>
        by_cases hi : island first = i
        · simp [← hi, hslot]
        · simp [Function.update_of_ne (Ne.symm hi), hi, hslot]
  have hmem : ∀ i bus, references.find? (fun other => island other = i) = some bus → island bus = i :=
    fun i bus h => by simpa using List.find?_some h
  have hslot := hfound references (fun _ => none, [])
  unfold islandSlacks
  constructor
  · rw [List.pairwise_filterMap]
    apply List.pairwise_lt_range.imp
    intro i j hlt a ha c hc
    rwa [hmem i a ((hslot i).symm.trans ha), hmem j c ((hslot j).symm.trans hc)]
  · intro bus
    rw [List.mem_filterMap]
    constructor
    · rintro ⟨i, -, hi⟩
      have hfind := (hslot i).symm.trans hi
      rwa [hmem i bus hfind]
    · intro hfind
      have hnumber : island bus + 1 ∈ (List.finRange n).map fun bus => island bus + 1 :=
        List.mem_map_of_mem (List.mem_finRange bus)
      refine ⟨island bus, List.mem_range.mpr ?_, (hslot _).trans hfind⟩
      rw [List.foldl_eq_foldr]
      exact List.le_max_of_le hnumber le_rfl

/-- One convex piecewise linear cost as the slope and intercept of each segment. -/
structure PiecewiseCost (F : Type) where
  segments : List (F × F)

/-- The largest line at a power. The search starts at the negative infinity, which the first line
replaces. -/
def PiecewiseCost.evaluate [Libm F] (cost : PiecewiseCost F) (power : F) : F :=
  match cost.segments.map fun (slope, intercept) => slope * power + intercept with
  | [] => -Libm.infinity
  | first :: rest => rest.foldl Binary64.max first

/-- The data of an AC problem per bus, branch and generator, in per unit. -/
structure AcNetwork (F : Type) [Binary64 F] where
  n : ℕ
  m : ℕ
  brFrom : Fin m → Fin n
  brTo : Fin m → Fin n
  g : Fin m → F
  b : Fin m → F
  gFr : Fin m → F
  bFr : Fin m → F
  gTo : Fin m → F
  bTo : Fin m → F
  tap : Fin m → F
  shift : Fin m → F
  rateA : Fin m → F
  angmin : Fin m → F
  angmax : Fin m → F
  /-- The switching state of a branch, one when it is closed. -/
  sw : Fin m → F
  gs : Fin n → F
  bs : Fin n → F
  pd : Fin n → F
  qd : Fin n → F
  /-- The scheduled generation of each bus. -/
  pg : Fin n → F
  qg : Fin n → F
  k : ℕ
  genBus : Fin k → Fin n
  pmin : Fin k → F
  pmax : Fin k → F
  qmin : Fin k → F
  qmax : Fin k → F
  cq : Fin k → F
  cl : Fin k → F
  cc : Fin k → F
  piecewiseCosts : Fin k → Option (PiecewiseCost F)
  vmMin : Fin n → F
  vmMax : Fin n → F
  /-- The magnitude that a regulating bus holds. -/
  vmSet : Fin n → F
  slacks : List (Fin n)
  /-- The reference angle of each slack, in order. -/
  vaSlacks : List F
  vmCase : Fin n → F
  vaCase : Fin n → F
  /-- The buses whose magnitude is prescribed. The references are the slacks. -/
  pfPv : Fin n → Bool
  voltageBoundActive : Fin n → Bool
  generatorCapabilityActive : Fin k → Bool
  thermalLimitActive : Fin m → Bool
  angleBoundActive : Fin m → Bool
  /-- A cost is quadratic, or it is piecewise and has no quadratic part. -/
  distinctCosts : ∀ g, (piecewiseCosts g).isSome = true → cq g = 0 ∧ cl g = 0
  /-- Every island has one slack. -/
  separate : slacks.Pairwise fun a c => denseIslands brFrom brTo a ≠ denseIslands brFrom brTo c
  anglesStated : vaSlacks.length = slacks.length
  anglesFinite : ∀ va ∈ vaSlacks, isFinite va = true

namespace AcNetwork

variable [Libm F]

/-- The admittances of a branch at its ends, `yff`, `yft`, `ytf` and `ytt`. -/
structure BranchAdmittance (F : Type) where
  yff : Complex64 F
  yft : Complex64 F
  ytf : Complex64 F
  ytt : Complex64 F

def branchAdmittance (net : AcNetwork F) (e : Fin net.m) : BranchAdmittance F :=
  let y : Complex64 F := ⟨net.g e, net.b e⟩
  let tapc := Complex64.fromPolar (net.tap e) (net.shift e)
  let yFr : Complex64 F := ⟨net.gFr e, net.bFr e⟩
  let yTo : Complex64 F := ⟨net.gTo e, net.bTo e⟩
  let tap2 := net.tap e * net.tap e
  { yff := Complex64.scale (net.sw e) (Complex64.divReal (y + yFr) tap2)
    yft := Complex64.scale (net.sw e) (-y / tapc.conj)
    ytf := Complex64.scale (net.sw e) (-y / tapc)
    ytt := Complex64.scale (net.sw e) (y + yTo) }

def generatorCost (net : AcNetwork F) (g : Fin net.k) (power : F) : F :=
  match net.piecewiseCosts g with
  | some cost => cost.evaluate power
  | none => net.cq g * power * power + net.cl g * power + net.cc g

/-- The shares of the buses and of the closed branches, in the order they are added. -/
def shares (net : AcNetwork F) : List (Fin net.n × Fin net.n × Complex64 F) :=
  ((List.finRange net.n).map fun i => (i, i, ⟨net.gs i, net.bs i⟩)) ++
    ((List.finRange net.m).filter fun e => !eq (net.sw e) 0).flatMap fun e =>
      let y := net.branchAdmittance e
      let f := net.brFrom e
      let t := net.brTo e
      [(f, f, y.yff), (f, t, y.yft), (t, f, y.ytf), (t, t, y.ytt)]

/-- The bus admittance matrix, its entries in order of rows and columns. -/
def ybus (net : AcNetwork F) : List (Fin net.n × Fin net.n × Complex64 F) :=
  let acc := net.shares.foldl
    (fun acc (i, j, y) => Function.update acc i
      (Function.update (acc i) j (some ((acc i j).getD 0 + y))))
    fun _ _ => (none : Option (Complex64 F))
  (List.finRange net.n).flatMap fun i => (List.finRange net.n).filterMap fun j =>
    (acc i j).map fun y => (i, j, y)

end AcNetwork

end Tellegen.Ac
