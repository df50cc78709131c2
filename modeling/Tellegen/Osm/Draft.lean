import Tellegen.Lib.Double

/-!
The drafts that a mapped grid is built from: buses, corridors and HVDC links, and distances on the globe.
-/

open Binary64

namespace Tellegen.Osm

/-- What the drafts take from the host. -/
class Drafting (F : Type) extends Libm F where
  pi : F
  asin : F → F
  ln : F → F
  /-- A cast to `i64`: toward zero and saturating. -/
  asI64 : F → ℤ
  /-- No decimals. -/
  displayWhole : F → String

inductive BusKind where
  | load | substation | generator | converter | tap
  deriving DecidableEq

inductive ElementSource where
  | synthetic | osm | makeup | interconnect
  deriving DecidableEq

structure DraftBus (F : Type) where
  lon : F
  lat : F
  name : String
  baseKv : F
  kind : BusKind
  /-- The electrical island of the bus. -/
  island : ℕ
  source : ElementSource
  loadMw : F
  annotation : String
  /-- The bus that stands for its substation. -/
  site : ℕ

inductive CorridorRole where
  | internal | tieLine | interconnect
  deriving DecidableEq

structure Corridor (F : Type) where
  a : ℕ
  b : ℕ
  kv : F
  lengthKm : F
  role : CorridorRole
  circuits : ℕ
  route : List (F × F)
  isDelaunay : Bool

structure DraftHvdc (F : Type) where
  source : ℕ
  target : ℕ
  ratingMw : F
  setpointMw : F
  circuits : ℕ
  osmIds : List ℤ

/-- Distances in exact arithmetic. -/
noncomputable instance Drafting.exactReal [DecimalText ℝ] : Drafting ℝ where
  pi := Real.pi
  asin := Real.arcsin
  ln := Real.log
  asI64 x := Max.max (-2 ^ 63) (Min.min (2 ^ 63 - 1) (if x < 0 then ⌈x⌉ else ⌊x⌋))
  displayWhole x := DecimalText.text (Binary64.round x)

instance Drafting.double : Drafting Float where
  pi := 3.14159265358979323846
  asin := Float.asin
  ln := Float.log
  asI64 x := if x < 0 then -Nat.min (2 ^ 63) (-x).toUInt64.toNat else Nat.min (2 ^ 63 - 1) x.toUInt64.toNat
  displayWhole x := (Binary64.round x).toString

variable {F : Type} [Drafting F]

def earthRadiusKm : F := lit 6371

def toRadians (degrees : F) : F := degrees * (Drafting.pi / lit 180)

/-- Great-circle distance in km between two longitude and latitude points. -/
def haversineKm (lon1 lat1 lon2 lat2 : F) : F :=
  let p1 := toRadians lat1
  let p2 := toRadians lat2
  let dp := p2 - p1
  let dl := toRadians (lon2 - lon1)
  let sp := Libm.sin (dp / lit 2)
  let sl := Libm.sin (dl / lit 2)
  let a := sp * sp + Libm.cos p1 * Libm.cos p2 * (sl * sl)
  lit 2 * earthRadiusKm * Drafting.asin (Binary64.min (Libm.sqrt a) 1)

/-! ### Ordered sets -/

/-- The elements of a `BTreeSet`. -/
def ascending {α : Type} [LinearOrder α] (values : List α) : List α :=
  (values.mergeSort fun a b => a ≤ b).dedup

theorem mem_ascending {α : Type} [LinearOrder α] {values : List α} {a : α} :
    a ∈ ascending values ↔ a ∈ values := by
  rw [ascending, List.mem_dedup, List.mem_mergeSort]

theorem pairwise_ascending {α : Type} [LinearOrder α] (values : List α) :
    (ascending values).Pairwise (· < ·) := by
  have hle : (values.mergeSort fun a b => a ≤ b).Pairwise fun a b => decide (a ≤ b) = true := by
    apply List.pairwise_mergeSort
    · intro a b c hab hbc
      exact decide_eq_true (le_trans (of_decide_eq_true hab) (of_decide_eq_true hbc))
    · intro a b
      rw [Bool.or_eq_true, decide_eq_true_eq, decide_eq_true_eq]
      exact le_total a b
  have hdedup := hle.sublist (List.dedup_sublist _)
  refine (List.Pairwise.and hdedup (List.nodup_dedup _)).imp ?_
  rintro a b ⟨hab, hne⟩
  exact lt_of_le_of_ne (of_decide_eq_true hab) hne

theorem ascending_eq {α : Type} [LinearOrder α] {values expected : List α}
    (hsorted : expected.Pairwise (· < ·)) (hmem : ∀ a, a ∈ values ↔ a ∈ expected) :
    ascending values = expected := by
  apply List.SortedLT.eq_of_mem_iff
  · exact (pairwise_ascending values).sortedLT
  · exact hsorted.sortedLT
  · intro a
    rw [mem_ascending]
    exact hmem a

end Tellegen.Osm
