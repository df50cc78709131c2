import Tellegen.Lib.Complex64

/-!
The sparse, threshold row-pivoted and twice-reorthogonalized QR that audits the rank of an active Jacobian. Rows,
their norms, a queue, an index by length and the rows of each column are updated as coefficients come and go,
and every visit is charged against a limit.
-/

open Binary64 hiding max min

namespace Tellegen.McOpf

inductive McOpfRankOutcome where
  | complete | fillLimit | workLimit | nonfinite
  deriving DecidableEq

structure McOpfRankDiagnostics (F : Type) where
  outcome : McOpfRankOutcome
  tolerance : F
  inputNonzeros : ℕ
  /-- Peak live coefficients, the pivot being applied among them. -/
  peakNonzeros : ℕ
  /-- Visits of coefficients, of incidences and of candidates. -/
  work : ℕ
  nonzeroLimit : ℕ
  workLimit : ℕ
  acceptedPivots : ℕ
  smallestAcceptedPivot : Option F

structure SparseRow (F : Type) where
  columns : Finset ℕ
  value : ℕ → F

namespace SparseRow

variable {F : Type}

section Operations

variable [Binary64 F]

def empty : SparseRow F := ⟨∅, fun _ => 0⟩

def len (row : SparseRow F) : ℕ := row.columns.card

/-- `row.get(&c).copied()` -/
def get? (row : SparseRow F) (c : ℕ) : Option F := if c ∈ row.columns then some (row.value c) else none

def get (row : SparseRow F) (c : ℕ) : F := (row.get? c).getD 0

def insert (row : SparseRow F) (c : ℕ) (v : F) : SparseRow F :=
  ⟨Insert.insert c row.columns, Function.update row.value c v⟩

def remove (row : SparseRow F) (c : ℕ) : SparseRow F := ⟨row.columns.erase c, row.value⟩

/-- `for v in row.values_mut() { *v /= x }` -/
def divide (row : SparseRow F) (x : F) : SparseRow F := ⟨row.columns, fun c => row.value c / x⟩

def values (row : SparseRow F) : List F := row.columns.sort.map row.value

/-- The products with the shorter of two rows, added up. -/
def dot (a b : SparseRow F) : F :=
  let (short, long) := if a.len < b.len then (a, b) else (b, a)
  Binary64.sum (short.columns.sort.map fun c => short.value c * long.get c)

end Operations

/-- `row.values().fold(0.0, f64::hypot)` -/
def norm [Libm F] (row : SparseRow F) : F := row.values.foldl Libm.hypot 0

end SparseRow

/-- A set of norms and rows: the greatest norm is last, and of equal norms the last row. -/
abbrev RankQueue (F : Type) := List (F × ℕ)

namespace RankQueue

variable {F : Type} [Binary64 F]

def remove (queue : RankQueue F) (norm : F) (i : ℕ) : RankQueue F :=
  queue.filter fun entry => !(eq entry.1 norm && entry.2 == i)

def insert (queue : RankQueue F) (norm : F) (i : ℕ) : RankQueue F := (norm, i) :: queue.remove norm i

def later (a b : F × ℕ) : F × ℕ := if lt a.1 b.1 || (eq a.1 b.1 && decide (a.2 < b.2)) then b else a

def last : RankQueue F → Option (F × ℕ)
  | [] => none
  | entry :: rest => some (rest.foldl later entry)

end RankQueue

/-- `pivots` are the rows accepted so far, with their places. The program lets them go once they are applied. -/
structure RankState (F : Type) where
  d : McOpfRankDiagnostics F
  live : ℕ
  rows : ℕ → SparseRow F
  norms : ℕ → F
  incidence : ℕ → Finset ℕ
  queue : RankQueue F
  sparsity : Finset (ℕ ×ₗ ℕ)
  pivots : List (ℕ × SparseRow F)

/-- A refusal with the diagnostics so far, or a count that goes below zero. -/
inductive RankStop (F : Type) where
  | refused (outcome : McOpfRankOutcome) (d : McOpfRankDiagnostics F)
  | underflow

abbrev Audited (F α : Type) := Except (RankStop F) α

namespace RankState

variable {F : Type} [Libm F]

def refuse {α : Type} (s : RankState F) (outcome : McOpfRankOutcome) : Audited F α :=
  .error (.refused outcome s.d)

def charge (s : RankState F) (work : ℕ) : Audited F (RankState F) :=
  if s.d.workLimit - s.d.work < work then s.refuse .workLimit
  else .ok { s with d := { s.d with work := s.d.work + work } }

def release (s : RankState F) (count : ℕ) : Audited F (RankState F) :=
  if s.live < count then .error .underflow else .ok { s with live := s.live - count }

def setRow (s : RankState F) (i : ℕ) (row : SparseRow F) : RankState F :=
  { s with rows := Function.update s.rows i row }

def enqueue (preferSparse : Bool) (i : ℕ) (s : RankState F) : RankState F :=
  { s with
    queue := s.queue.insert (s.norms i) i
    sparsity := if preferSparse then insert (toLex ((s.rows i).len, i)) s.sparsity else s.sparsity }

def dequeue (preferSparse : Bool) (i : ℕ) (s : RankState F) : RankState F :=
  { s with
    queue := s.queue.remove (s.norms i) i
    sparsity := if preferSparse then s.sparsity.erase (toLex ((s.rows i).len, i)) else s.sparsity }

/-! ### Reading the rows -/

def addIncidence (s : RankState F) (i : ℕ) (columns : Finset ℕ) : ℕ → Finset ℕ :=
  fun c => if c ∈ columns then insert i (s.incidence c) else s.incidence c

/-- Normalizes a row that is not zero, and lists it under its columns. -/
def enterRow (n : ℕ) (preferSparse : Bool) (s : RankState F) (i : ℕ) : Audited F (RankState F) := do
  let row := s.rows i
  let s ← s.charge row.len
  let norm := row.norm
  if ¬ isFinite norm ∨ ∃ c ∈ row.columns, n ≤ c then s.refuse .nonfinite
  else
    let s := if lt 0 norm then
        let scaled := row.divide norm
        { s.setRow i scaled with
          incidence := s.addIncidence i row.columns
          norms := Function.update s.norms i scaled.norm }
      else s
    .ok (s.enqueue preferSparse i)

def initial (rows : List (SparseRow F)) (nonzeroLimit workLimit : ℕ) (tolerance : F) : RankState F :=
  let live := (rows.map SparseRow.len).sum
  { d :=
      { outcome := .complete
        tolerance
        inputNonzeros := live
        peakNonzeros := live
        work := 0
        nonzeroLimit
        workLimit
        acceptedPivots := 0
        smallestAcceptedPivot := none }
    live
    rows := fun i => rows.getD i .empty
    norms := fun _ => 0
    incidence := fun _ => ∅
    queue := []
    sparsity := ∅
    pivots := [] }

def setup (rows : List (SparseRow F)) (n nonzeroLimit workLimit : ℕ) (preferSparse : Bool)
    (tolerance : F) : Audited F (RankState F) :=
  let s := initial rows nonzeroLimit workLimit tolerance
  if nonzeroLimit < s.live then s.refuse .fillLimit
  else (List.range rows.length).foldlM (enterRow n preferSparse) s

/-! ### Taking a pivot -/

/-- The sparsest row within a factor two of the largest residual. -/
def chooseSparse (largestNorm : F) : List (ℕ ×ₗ ℕ) → RankState F → Audited F (Option ℕ × RankState F)
  | [], s => .ok (none, s)
  | candidate :: rest, s => do
      let i := (ofLex candidate).2
      let s ← s.charge 1
      if le (lit (1 / 2) * largestNorm) (s.norms i) && lt s.d.tolerance (s.norms i) then .ok (some i, s)
      else chooseSparse largestNorm rest s

/-- Takes the pivot out of a column, and notes the rows that share the column. -/
def leaveColumn (pivot : ℕ) (acc : Finset ℕ × RankState F) (c : ℕ) :
    Audited F (Finset ℕ × RankState F) := do
  let (affected, s) := acc
  let others := (s.incidence c).erase pivot
  let s ← { s with incidence := Function.update s.incidence c others }.charge others.card
  .ok (affected ∪ others, s)

def choosePivot (preferSparse : Bool) (largest : F × ℕ) (s : RankState F) : Audited F (ℕ × RankState F) :=
  if preferSparse then do
    let (chosen, s) ← chooseSparse largest.1 s.sparsity.sort s
    .ok (chosen.getD largest.2, s)
  else .ok (largest.2, s)

/-- Takes a row out, and scales it to length one. -/
def takeRow (preferSparse : Bool) (pivot : ℕ) (s : RankState F) :
    Audited F (SparseRow F × Finset ℕ × RankState F) := do
  let norm := s.norms pivot
  let basis := s.rows pivot
  let s ← ((s.dequeue preferSparse pivot).setRow pivot .empty).charge basis.len
  let (affected, s) ← basis.columns.sort.foldlM (leaveColumn pivot) (∅, s)
  let unit := basis.divide norm
  let smallest := s.d.smallestAcceptedPivot.elim norm fun v => Binary64.min v norm
  .ok (unit, affected,
    { s with
      d := { s.d with acceptedPivots := s.d.acceptedPivots + 1, smallestAcceptedPivot := some smallest }
      pivots := s.pivots ++ [(pivot, unit)] })

/-- The pivot to apply, the rows it affects and the state without it; none at the end of the audit. -/
def takePivot (preferSparse : Bool) (s : RankState F) :
    Audited F (Option (SparseRow F × Finset ℕ × RankState F)) :=
  match s.queue.last with
  | none => .ok none
  | some largest =>
    if le largest.1 s.d.tolerance then .ok none
    else do
      let (pivot, s) ← choosePivot preferSparse largest s
      let taken ← takeRow preferSparse pivot s
      .ok (some taken)

/-! ### Applying it -/

/-- Subtracts the pivot's part from one coefficient of a row. -/
def subtractAt (basis : SparseRow F) (i : ℕ) (dot : F) (s : RankState F) (c : ℕ) :
    Audited F (RankState F) :=
  let row := s.rows i
  let value := (row.get? c).getD 0 - dot * basis.value c
  if ¬ isFinite value then s.refuse .nonfinite
  else if eq value 0 then
    if c ∈ row.columns then
      { s.setRow i (row.remove c) with
        incidence := Function.update s.incidence c ((s.incidence c).erase i) }.release 1
    else .ok s
  else if c ∈ row.columns then .ok (s.setRow i (row.insert c value))
  else if s.d.nonzeroLimit ≤ s.live then s.refuse .fillLimit
  else
    .ok { s.setRow i (row.insert c value) with
      live := s.live + 1
      d := { s.d with peakNonzeros := Nat.max s.d.peakNonzeros (s.live + 1) }
      incidence := Function.update s.incidence c (insert i (s.incidence c)) }

/-- The product with the pivot, unless it is zero. -/
def beginPass (basis : SparseRow F) (i : ℕ) (s : RankState F) : Audited F (Option F × RankState F) := do
  let row := s.rows i
  let s ← s.charge (Nat.min row.len basis.len)
  let dot := row.dot basis
  if ¬ isFinite dot then s.refuse .nonfinite
  else if eq dot 0 then .ok (none, s)
  else do
    let s ← s.charge basis.len
    .ok (some dot, s)

def pass (basis : SparseRow F) (i : ℕ) (s : RankState F) : Audited F (RankState F) := do
  let (dot, s) ← beginPass basis i s
  match dot with
  | none => .ok s
  | some dot => basis.columns.sort.foldlM (subtractAt basis i dot) s

/-- Makes a row orthogonal to the pivot, in two passes. -/
def applyRow (preferSparse : Bool) (basis : SparseRow F) (s : RankState F) (i : ℕ) :
    Audited F (RankState F) := do
  let s ← pass basis i (s.dequeue preferSparse i)
  let s ← pass basis i s
  let s ← s.charge (s.rows i).len
  let norm := (s.rows i).norm
  let s := { s with norms := Function.update s.norms i norm }
  if ¬ isFinite norm then s.refuse .nonfinite else .ok (s.enqueue preferSparse i)

def pivotStep (preferSparse : Bool) (s : RankState F) : Audited F (Option (RankState F)) := do
  match ← takePivot preferSparse s with
  | none => .ok none
  | some (basis, affected, s) =>
    let s ← affected.sort.foldlM (applyRow preferSparse basis) s
    let s ← s.release basis.len
    .ok (some s)

/-- None where the fuel does not last. -/
def pivotLoop (preferSparse : Bool) : ℕ → RankState F → Option (Audited F (RankState F))
  | 0, _ => none
  | fuel + 1, s =>
    match pivotStep preferSparse s with
    | .error stop => some (.error stop)
    | .ok none => some (.ok s)
    | .ok (some s) => pivotLoop preferSparse fuel s

end RankState

open RankState

section Audit

variable {F : Type} [Libm F]

inductive AuditEnd (F : Type) where
  | ended (rank : Option ℕ) (d : McOpfRankDiagnostics F)
  | underflow

def endOf : Audited F (RankState F) → AuditEnd F
  | .ok s => .ended (some s.d.acceptedPivots) s.d
  | .error (.refused outcome d) => .ended none { d with outcome }
  | .error .underflow => .underflow

/-- None where the fuel does not last. -/
def auditWithLimits (fuel : ℕ) (rows : List (SparseRow F)) (n nonzeroLimit workLimit : ℕ)
    (preferSparse : Bool) (tolerance : F) : Option (AuditEnd F) :=
  match setup rows n nonzeroLimit workLimit preferSparse tolerance with
  | .error stop => some (endOf (.error stop))
  | .ok s => (pivotLoop preferSparse fuel s).map endOf

def rankTolerance : F := lit (1 / 10 ^ 9)

end Audit

end Tellegen.McOpf
