import Tellegen.Lib.Apportionment
import Tellegen.Synth.Draft

/-!
How many buses each level of a ladder gets: its share rounded down, the largest remainders up, and one bus
for every level while there are enough. In exact arithmetic the counts add up.
-/

open Binary64 hiding max min

namespace Tellegen.Synth

/-- A subtraction of unsigned integers; there is none below zero. -/
def checkedSub (a b : ℕ) : Option ℕ := if b ≤ a then some (a - b) else none

theorem checkedSub_of_le {a b : ℕ} (h : b ≤ a) : checkedSub a b = some (a - b) := if_pos h

section Model

variable {F : Type} [Planning F] (t : Tuning F)

/-! ### Shares -/

/-- Deeper ladders extend the profile of four levels geometrically. -/
def extendShares (depth : ℕ) (shares : List F) : List F :=
  (List.range (depth - shares.length)).foldl
    (fun v _ => v ++ [(v.getLast?).getD 1 * lit (15 / 10)]) shares

def rawShares (depth : ℕ) : List F :=
  match depth with
  | 0 => []
  | 1 => [1]
  | 2 => t.levelShares2
  | 3 => t.levelShares3
  | 4 => t.levelShares4
  | depth => extendShares depth t.levelShares4

/-- Shares for a ladder, normalised, highest first. -/
def levelShares (depth : ℕ) : List F :=
  let raw := ((rawShares t depth).take depth).map fun s => Binary64.max s 0
  let total := Binary64.sum raw
  if raw.length ≠ depth ∨ le total 0 then List.replicate depth (1 / Binary64.ofNat depth)
  else raw.map (· / total)

/-- The entry of a level, or the last one beyond the list. -/
def perLevel (list : List F) (k : ℕ) : F := ((list[k]?).or list.getLast?).getD 0

/-! ### Counts -/

/-- One more for each level in turn while some are missing. -/
def giveRest (counts : List ℕ) (missing : ℕ) : List ℕ → List ℕ
  | [] => counts
  | k :: rest => if missing = 0 then counts else giveRest (counts.modify k (· + 1)) (missing - 1) rest

/-- The level with most buses, the deepest of them. -/
def fullest (counts : List ℕ) : Option ℕ :=
  (List.range counts.length).foldl (fun best j =>
    match best with
    | some b => if counts.getD b 0 ≤ counts.getD j 0 then some j else best
    | none => some j) none

/-- A level without a bus takes one from the fullest level that can spare it. -/
def donate (counts : List ℕ) (k : ℕ) : List ℕ :=
  if counts.getD k 0 = 0 then
    match (fullest counts).filter fun j => 1 < counts.getD j 0 with
    | some donor => (counts.modify donor (· - 1)).modify k (· + 1)
    | none => counts
  else counts

def remainderOrder (shares : List F) (counts : List ℕ) (n : ℕ) : List ℕ :=
  let rest := shares.zipIdx.map fun (s, k) =>
    (s * Binary64.ofNat n - Binary64.ofNat (counts.getD k 0), k)
  (rest.mergeSort fun a b => ((totalCmp b.1 a.1).then (compare b.2 a.2)).isLE).map (·.2)

def levelCounts (n depth : ℕ) : Option (List ℕ) :=
  let shares := levelShares t depth
  let counts := shares.map fun s => Planning.asUsize (Binary64.floor (s * Binary64.ofNat n))
  (checkedSub n counts.sum).map fun missing =>
    (List.range depth).foldl donate (giveRest counts missing (remainderOrder shares counts n))

end Model

/-! ### Sums -/

theorem sum_modify_pred {counts : List ℕ} {k : ℕ} (h : 0 < counts.getD k 0) :
    (counts.modify k (· - 1)).sum + 1 = counts.sum := by
  induction counts generalizing k with
  | nil => exact absurd h (Nat.lt_irrefl 0)
  | cons a rest ih =>
    cases k with
    | zero =>
      rw [List.getD_cons_zero] at h
      rw [List.modify_zero_cons, List.sum_cons, List.sum_cons]
      omega
    | succ k =>
      rw [List.getD_cons_succ] at h
      have hrest := ih h
      rw [List.modify_succ_cons, List.sum_cons, List.sum_cons]
      omega

theorem getD_modify (counts : List ℕ) (f : ℕ → ℕ) (i j : ℕ) (hj : j < counts.length) :
    (counts.modify i f).getD j 0 = if i = j then f (counts.getD j 0) else counts.getD j 0 := by
  rw [List.getD_eq_getElem?_getD, List.getD_eq_getElem?_getD]
  split
  case isTrue heq =>
    subst heq
    rw [List.getElem?_modify_eq, List.getElem?_eq_getElem hj]
    rfl
  case isFalse hne => rw [List.getElem?_modify_ne _ _ hne]

theorem giveRest_eq (counts : List ℕ) (missing : ℕ) (rest : List ℕ) : giveRest counts missing rest =
    (rest.take missing).foldl (fun counts k => counts.modify k (· + 1)) counts := by
  induction rest generalizing counts missing with
  | nil => rw [giveRest, List.take_nil, List.foldl_nil]
  | cons k rest ih =>
    cases missing with
    | zero => rfl
    | succ missing =>
      rw [List.take_succ_cons, List.foldl_cons, ← ih]
      rfl

theorem length_giveRest (counts : List ℕ) (missing : ℕ) (rest : List ℕ) :
    (giveRest counts missing rest).length = counts.length := by
  rw [giveRest_eq, Apportionment.length_raise]

theorem sum_giveRest {counts : List ℕ} {missing : ℕ} {rest : List ℕ} (hmissing : missing ≤ rest.length)
    (hrest : ∀ k ∈ rest, k < counts.length) : (giveRest counts missing rest).sum = counts.sum + missing := by
  rw [giveRest_eq, Apportionment.sum_raise counts fun k hk => hrest k (List.mem_of_mem_take hk),
    List.length_take_of_le hmissing]

/-! ### Donors -/

theorem fullest_spec {counts : List ℕ} (h : 0 < counts.length) :
    ∃ b < counts.length, fullest counts = some b ∧ ∀ j < counts.length, counts.getD j 0 ≤ counts.getD b 0 := by
  have hrange : ∀ n, 0 < n → n ≤ counts.length →
      ∃ b < counts.length, (List.range n).foldl (fun best j =>
        match best with
        | some b => if counts.getD b 0 ≤ counts.getD j 0 then some j else best
        | none => some j) none = some b ∧ ∀ j < n, counts.getD j 0 ≤ counts.getD b 0 := by
    intro n
    induction n with
    | zero => exact fun h => absurd h (Nat.lt_irrefl 0)
    | succ n ih =>
      intro _ hn
      rw [List.range_succ, List.foldl_append]
      rcases Nat.eq_zero_or_pos n with rfl | hpos
      · refine ⟨0, h, rfl, fun j hj => ?_⟩
        obtain rfl : j = 0 := by omega
        exact Nat.le_refl _
      · obtain ⟨b, hb, hfold, hmost⟩ := ih hpos (by omega)
        rw [hfold, List.foldl_cons, List.foldl_nil]
        dsimp only
        split
        case isTrue hle =>
          refine ⟨n, by omega, rfl, fun j hj => ?_⟩
          rcases Nat.lt_succ_iff_lt_or_eq.mp hj with hj | rfl
          · exact (hmost j hj).trans hle
          · exact Nat.le_refl _
        case isFalse hgt =>
          refine ⟨b, hb, rfl, fun j hj => ?_⟩
          rcases Nat.lt_succ_iff_lt_or_eq.mp hj with hj | rfl
          · exact hmost j hj
          · omega
  exact hrange counts.length h (Nat.le_refl _)

/-- What a step does to the counts: nothing, or one bus moves from a level with several to an empty one. -/
theorem donate_cases (counts : List ℕ) {k : ℕ} (hk : k < counts.length) :
    (donate counts k = counts ∧ (0 < counts.getD k 0 ∨ ∀ j < counts.length, counts.getD j 0 ≤ 1)) ∨
      ∃ donor < counts.length, counts.getD k 0 = 0 ∧ 1 < counts.getD donor 0 ∧
        donate counts k = (counts.modify donor (· - 1)).modify k (· + 1) := by
  unfold donate
  split
  case isTrue hzero =>
    obtain ⟨b, hb, hfullest, hmost⟩ := fullest_spec (Nat.lt_of_le_of_lt (Nat.zero_le k) hk)
    rw [hfullest, Option.filter_some]
    by_cases hspare : 1 < counts.getD b 0
    · rw [if_pos (decide_eq_true hspare)]
      exact .inr ⟨b, hb, hzero, hspare, rfl⟩
    · rw [if_neg (by rwa [decide_eq_true_eq])]
      refine .inl ⟨rfl, .inr fun j hj => ?_⟩
      have hle := hmost j hj
      omega
  case isFalse hpos => exact .inl ⟨rfl, .inl (Nat.pos_of_ne_zero hpos)⟩

theorem length_donate (counts : List ℕ) (k : ℕ) : (donate counts k).length = counts.length := by
  unfold donate
  split
  · split
    · rw [List.length_modify, List.length_modify]
    · rfl
  · rfl

theorem sum_donate {counts : List ℕ} {k : ℕ} (hk : k < counts.length) :
    (donate counts k).sum = counts.sum := by
  rcases donate_cases counts hk with ⟨heq, -⟩ | ⟨donor, hdonor, -, hspare, heq⟩
  · rw [heq]
  · have hgiven : (counts.modify donor (· - 1)).sum + 1 = counts.sum := sum_modify_pred (by omega)
    rw [heq, Apportionment.sum_modify (by rwa [List.length_modify]), hgiven]

theorem sum_le_length {counts : List ℕ} (h : ∀ j < counts.length, counts.getD j 0 ≤ 1) :
    counts.sum ≤ counts.length := by
  have hle := List.sum_le_card_nsmul counts 1 fun a ha => by
    obtain ⟨j, hj, rfl⟩ := List.getElem_of_mem ha
    rw [← List.getD_eq_getElem counts 0 hj]
    exact h j hj
  simpa using hle

/-- With as many buses as levels, a step leaves its level with a bus and takes no level its last one. -/
theorem pos_donate {counts : List ℕ} {k : ℕ} (hk : k < counts.length) (henough : counts.length ≤ counts.sum) :
    0 < (donate counts k).getD k 0 ∧
      ∀ j < counts.length, 0 < counts.getD j 0 → 0 < (donate counts k).getD j 0 := by
  rcases donate_cases counts hk with ⟨heq, hor⟩ | ⟨donor, hdonor, hzero, hspare, heq⟩
  · rw [heq]
    refine ⟨?_, fun _ _ hpos => hpos⟩
    rcases hor with hpos | hones
    · exact hpos
    · -- an empty level would leave fewer buses than levels
      by_contra hnone
      have hmore : (counts.modify k (· + 1)).sum ≤ (counts.modify k (· + 1)).length := by
        apply sum_le_length
        intro j hj
        rw [List.length_modify] at hj
        rw [getD_modify _ _ _ _ hj]
        have hle := hones j hj
        split
        case isTrue heq => subst heq; omega
        case isFalse => exact hle
      rw [Apportionment.sum_modify hk, List.length_modify] at hmore
      omega
  · rw [heq]
    have hget : ∀ j < counts.length, ((counts.modify donor (· - 1)).modify k (· + 1)).getD j 0 =
        if k = j then counts.getD j 0 + 1 else if donor = j then counts.getD j 0 - 1 else counts.getD j 0 := by
      intro j hj
      rw [getD_modify _ _ _ _ (by rwa [List.length_modify]), getD_modify _ _ _ _ hj]
      by_cases hkj : k = j
      · subst hkj
        have hne : donor ≠ k := by
          rintro rfl
          omega
        rw [if_pos rfl, if_pos rfl, if_neg hne]
      · rw [if_neg hkj, if_neg hkj]
    refine ⟨?_, fun j hj hpos => ?_⟩
    · rw [hget k hk, if_pos rfl]
      exact Nat.succ_pos _
    · rw [hget j hj]
      split
      · exact Nat.succ_pos _
      · split
        case isTrue hj' => subst hj'; omega
        case isFalse => exact hpos

/-- All steps together: the sum stays, and with as many buses as levels no level is empty. -/
theorem donateAll_spec (counts : List ℕ) :
    ((List.range counts.length).foldl donate counts).length = counts.length ∧
      ((List.range counts.length).foldl donate counts).sum = counts.sum ∧
      (counts.length ≤ counts.sum → ∀ j < counts.length,
        0 < ((List.range counts.length).foldl donate counts).getD j 0) := by
  have hrange : ∀ n ≤ counts.length,
      ((List.range n).foldl donate counts).length = counts.length ∧
      ((List.range n).foldl donate counts).sum = counts.sum ∧
      (counts.length ≤ counts.sum → ∀ j < n, 0 < ((List.range n).foldl donate counts).getD j 0) := by
    intro n
    induction n with
    | zero => exact fun _ => ⟨rfl, rfl, fun _ j hj => absurd hj (Nat.not_lt_zero j)⟩
    | succ n ih =>
      intro hn
      obtain ⟨hlength, hsum, hpos⟩ := ih (by omega)
      rw [List.range_succ, List.foldl_append, List.foldl_cons, List.foldl_nil]
      set before := (List.range n).foldl donate counts
      have hk : n < before.length := by omega
      refine ⟨by rw [length_donate, hlength], by rw [sum_donate hk, hsum], fun henough j hj => ?_⟩
      obtain ⟨hself, hkept⟩ := pos_donate hk (by omega)
      rcases Nat.lt_succ_iff_lt_or_eq.mp hj with hj | rfl
      · exact hkept j (by omega) (hpos henough j hj)
      · exact hself
  exact hrange counts.length (Nat.le_refl _)

/-! ### Exact arithmetic -/

section Exact

variable [DecimalText ℝ] (t : Tuning ℝ)

theorem levelShares_spec {depth : ℕ} (hdepth : 0 < depth) :
    (levelShares t depth).length = depth ∧ (∀ s ∈ levelShares t depth, 0 ≤ s) ∧
      (levelShares t depth).sum = 1 := by
  have hcast : (Binary64.ofNat depth : ℝ) = depth := by
    change ((depth : ℚ) : ℝ) = depth
    exact Rat.cast_natCast depth
  have hpos : (0 : ℝ) < depth := Nat.cast_pos.mpr hdepth
  unfold levelShares
  dsimp only
  split
  case isTrue =>
    refine ⟨List.length_replicate, fun s hs => ?_, ?_⟩
    · rw [List.eq_of_mem_replicate hs, hcast]
      positivity
    · rw [List.sum_replicate, hcast, nsmul_eq_mul]
      field_simp
  case isFalse hnot =>
    obtain ⟨hlength, htotal⟩ := not_or.mp hnot
    rw [not_not] at hlength
    rw [real_le_iff, not_le, sum_real] at htotal
    set raw := ((rawShares t depth).take depth).map fun s => Binary64.max s 0
    refine ⟨by rw [List.length_map, hlength], fun s hs => ?_, ?_⟩
    · obtain ⟨a, ha, rfl⟩ := List.mem_map.mp hs
      obtain ⟨b, -, rfl⟩ := List.mem_map.mp ha
      rw [sum_real, max_real]
      exact div_nonneg (le_max_right _ _) htotal.le
    · rw [sum_real]
      simp only [div_eq_mul_inv]
      rw [List.sum_map_mul_right, List.map_id']
      exact mul_inv_cancel₀ htotal.ne'

theorem ofNat_real (n : ℕ) : (Binary64.ofNat n : ℝ) = n := Rat.cast_natCast n

/-- Rounded down, the shares take no more than there is, and leave less than one bus for each level. -/
theorem sum_floors {n : ℕ} (hn : n < 2 ^ 32) {shares : List ℝ} (hshares : ∀ s ∈ shares, 0 ≤ s)
    (hle : shares.sum ≤ 1) :
    ((shares.map fun s => Planning.asUsize (Binary64.floor (s * Binary64.ofNat n))).sum : ℝ) ≤ shares.sum * n ∧
      shares.sum * n ≤
        (shares.map fun s => Planning.asUsize (Binary64.floor (s * Binary64.ofNat n))).sum + shares.length := by
  induction shares with
  | nil => simp
  | cons s rest ih =>
    have hs := hshares s List.mem_cons_self
    have hrest : ∀ a ∈ rest, 0 ≤ a := fun a ha => hshares a (List.mem_cons_of_mem _ ha)
    have hnonneg := List.sum_nonneg hrest
    rw [List.sum_cons] at hle
    obtain ⟨hlow, hhigh⟩ := ih hrest (by linarith)
    have hone : Planning.asUsize (Binary64.floor (s * Binary64.ofNat n)) = ⌊s * n⌋₊ := by
      have hx : (0 : ℝ) ≤ s * n := by positivity
      have hfloor : ⌊(⌊s * (n : ℝ)⌋ : ℝ)⌋₊ = ⌊s * n⌋₊ := by
        rw [← natCast_floor_eq_intCast_floor hx, Nat.floor_natCast]
      have hsmall : ⌊s * (n : ℝ)⌋₊ ≤ n := by
        apply Nat.floor_le_of_le
        have hs1 : s ≤ 1 := by linarith
        exact mul_le_of_le_one_left (Nat.cast_nonneg n) hs1
      rw [ofNat_real]
      change Nat.min (2 ^ 64 - 1) ⌊(⌊s * (n : ℝ)⌋ : ℝ)⌋₊ = _
      rw [hfloor]
      exact Nat.min_eq_right (by omega)
    rw [List.map_cons, List.sum_cons, List.sum_cons, List.length_cons, hone]
    have hdown : (⌊s * (n : ℝ)⌋₊ : ℝ) ≤ s * n := Nat.floor_le (by positivity)
    have hup : s * (n : ℝ) < ⌊s * (n : ℝ)⌋₊ + 1 := Nat.lt_floor_add_one _
    rw [add_mul, Nat.cast_add, Nat.cast_add, Nat.cast_one]
    constructor <;> linarith

/-- The counts of a ladder add up to the target, and with as many buses as levels each has one. -/
theorem levelCounts_spec {n depth : ℕ} (hn : n < 2 ^ 32) (hdepth : 0 < depth) :
    ∃ counts, levelCounts t n depth = some counts ∧ counts.length = depth ∧ counts.sum = n ∧
      (depth ≤ n → ∀ k < depth, 0 < counts.getD k 0) := by
  obtain ⟨hlength, hnonneg, hsum⟩ := levelShares_spec t hdepth
  obtain ⟨hlow, hhigh⟩ := sum_floors hn hnonneg hsum.le
  rw [hsum, one_mul] at hlow hhigh
  rw [hlength] at hhigh
  unfold levelCounts
  dsimp only
  set shares := levelShares t depth
  set counts := shares.map fun s => Planning.asUsize (Binary64.floor (s * Binary64.ofNat n)) with hcounts
  have hcountsLength : counts.length = depth := by rw [hcounts, List.length_map, hlength]
  have hle : counts.sum ≤ n := by exact_mod_cast hlow
  have hmissing : n - counts.sum ≤ depth := by
    have hup : n ≤ counts.sum + depth := by exact_mod_cast hhigh
    omega
  have horder : (remainderOrder shares counts n).Perm (List.range depth) := by
    unfold remainderOrder
    refine ((List.mergeSort_perm _ _).map _).trans ?_
    rw [List.map_map]
    have hsnd : shares.zipIdx.map (·.2) = List.range depth := by
      rw [List.zipIdx_map_snd, hlength, List.range_eq_range']
    exact .of_eq hsnd
  have hgiven : (giveRest counts (n - counts.sum) (remainderOrder shares counts n)).sum = n := by
    rw [sum_giveRest]
    · omega
    · rwa [horder.length_eq, List.length_range]
    · intro k hk
      rw [hcountsLength]
      exact List.mem_range.mp (horder.mem_iff.mp hk)
  rw [checkedSub_of_le hle, Option.map_some]
  set given := giveRest counts (n - counts.sum) (remainderOrder shares counts n)
  have hgivenLength : given.length = depth := by rw [length_giveRest, hcountsLength]
  obtain ⟨hlast, hlastSum, hpos⟩ := donateAll_spec given
  rw [hgivenLength] at hlast hlastSum hpos
  exact ⟨_, rfl, hlast, hlastSum.trans hgiven, fun h => hpos (by omega)⟩

end Exact

end Tellegen.Synth
