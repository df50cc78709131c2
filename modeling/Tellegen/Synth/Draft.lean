import Tellegen.Osm.Generators

/-!
The drafts that a synthetic grid is built from, and the constants its design is tuned by.
-/

open Binary64
open Tellegen.Osm (BusKind ElementSource)

namespace Tellegen.Synth

/-- What the stages take from the host beyond the drafts. -/
class Planning (F : Type) extends Osm.Drafting F where
  exp : F → F
  acos : F → F
  tan : F → F
  /-- A cast to `usize`: toward zero and saturating. -/
  asUsize : F → ℕ

noncomputable instance Planning.exactReal [DecimalText ℝ] : Planning ℝ where
  exp := Real.exp
  acos := Real.arccos
  tan := Real.tan
  asUsize x := Nat.min (2 ^ 64 - 1) ⌊x⌋₊

instance Planning.double : Planning Float where
  exp := Float.exp
  acos := Float.acos
  tan := Float.tan
  asUsize x := x.toUInt64.toNat

structure DraftBus (F : Type) where
  lon : F
  lat : F
  name : String
  place : Option String
  /-- The level of the bus, the highest voltage first. -/
  tier : ℕ
  baseKv : F
  kind : BusKind
  confidence : F
  polygon : ℕ
  /-- The electrical island of the bus. -/
  island : ℕ
  source : ElementSource
  populationWeight : F
  loadMw : F
  loadMvar : F
  annotation : String
  site : ℕ

structure Tuning (F : Type) where
  levelShares4 : List F
  levelShares3 : List F
  levelShares2 : List F
  stepDown : List F
  stepSkip : List F
  levelSpacing : List F
  tapShare : F
  tapMinSavingKm : F
  tapAtSiteShare : F
  tapSpurKm : F
  tapStraightShare : F
  fillBandwidthKm : F
  fillFloor : F
  fillGamma : F
  siteOffsetKm : F
  voltageSupportKm : F

/-- What every caller gets that overrides none of them. -/
def Tuning.standard {F : Type} [Binary64 F] : Tuning F where
  levelShares4 := [lit (15 / 1000), lit (12 / 100), lit (24 / 100), lit (625 / 1000)]
  levelShares3 := [lit (8 / 100), lit (29 / 100), lit (63 / 100)]
  levelShares2 := [lit (12 / 100), lit (88 / 100)]
  stepDown := [lit (1 / 2), lit (1 / 4), lit (18 / 100)]
  stepSkip := [lit (3 / 100), lit (12 / 100)]
  levelSpacing := [lit (8 / 10), lit (45 / 100)]
  tapShare := lit (85 / 100)
  tapMinSavingKm := lit (3 / 10)
  tapAtSiteShare := lit (95 / 100)
  tapSpurKm := lit (15 / 100)
  tapStraightShare := lit (6 / 10)
  fillBandwidthKm := lit 24
  fillFloor := lit (5 / 1000)
  fillGamma := lit (75 / 100)
  siteOffsetKm := lit (8 / 100)
  voltageSupportKm := lit 100

/-! ### Corridors between points -/

/-- An undirected edge between point indices, the smaller first. -/
abbrev Edge := ℕ ×ₗ ℕ

instance : IsTrans Edge fun a b => a ≤ b := inferInstance

instance : Std.Antisymm fun a b : Edge => a ≤ b := inferInstance

instance : Std.Total fun a b : Edge => a ≤ b := inferInstance

namespace Edge

def new (a b : ℕ) : Edge := if a < b then toLex (a, b) else toLex (b, a)

theorem new_comm (a b : ℕ) : new a b = new b a := by
  unfold new
  rcases Nat.lt_trichotomy a b with h | rfl | h
  · rw [if_pos h, if_neg (by omega)]
  · rfl
  · rw [if_neg (by omega), if_pos h]

theorem new_eq_iff {a b c d : ℕ} : new a b = new c d ↔ (a = c ∧ b = d) ∨ (a = d ∧ b = c) := by
  unfold new
  split <;> split <;> simp only [toLex_inj, Prod.mk.injEq] <;> omega

theorem new_lt {a b : ℕ} (h : a ≠ b) : (ofLex (new a b)).1 < (ofLex (new a b)).2 := by
  unfold new
  split
  case isTrue hlt => exact hlt
  case isFalse hge => exact Nat.lt_of_le_of_ne (Nat.le_of_not_lt hge) h.symm

theorem new_snd (a b : ℕ) : (ofLex (new a b)).2 = Nat.max a b := by
  unfold new
  split
  case isTrue hlt => exact (Nat.max_eq_right (Nat.le_of_lt hlt)).symm
  case isFalse hge => exact (Nat.max_eq_left (Nat.le_of_not_lt hge)).symm

theorem new_of_lt {e : Edge} (h : (ofLex e).1 < (ofLex e).2) : new (ofLex e).1 (ofLex e).2 = e := by
  rw [new, if_pos h]
  rfl

end Edge

section Geometry

variable {F : Type} [Libm F]

def dist (a b : F × F) : F := Libm.hypot (a.1 - b.1) (a.2 - b.2)

def pointAt (points : List (F × F)) (i : ℕ) : F × F := points[i]?.getD (0, 0)

end Geometry

section Exact

variable [DecimalText ℝ]

theorem real_lt_iff (a b : ℝ) : lt a b = true ↔ a < b := decide_eq_true_iff

theorem real_le_iff (a b : ℝ) : le a b = true ↔ a ≤ b := decide_eq_true_iff

end Exact

end Tellegen.Synth
