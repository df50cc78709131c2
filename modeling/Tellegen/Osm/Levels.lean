import Tellegen.Bundle
import Tellegen.Lib.Apportionment
import Tellegen.Lib.Binary64

/-!
The voltage levels of a mapped line. A voltage tag names one voltage per circuit, so the circuits of a
way are shared among the levels it lists by largest remainders. A document is at most 256 MiB, so no
count of listed voltages overflows 32 bits, not even twelvefold.
-/

set_option linter.unusedSectionVars false

open Binary64

namespace Tellegen.Osm

variable {F : Type} [Binary64 F]

/-! ### Numbers in tags -/

def trim (text : List Char) : List Char :=
  ((text.dropWhile isWhitespace).reverse.dropWhile isWhitespace).reverse

/-- `str::parse::<u32>`. -/
def parseU32 (text : List Char) : Option ℕ :=
  let digits := match text with
    | '+' :: rest => rest
    | _ => text
  if digits = [] ∨ ¬ digits.all Char.isDigit then none
  else
    let value := digits.foldl (fun value c => value * 10 + (c.toNat - '0'.toNat)) 0
    if value < 2 ^ 32 then some value else none

/-- A cast to `u32`: rounded down and saturating. -/
def asU32 (x : F) : ℕ :=
  (List.range 32).reverse.foldl (fun value bit =>
    if le (Binary64.ofNat (value + 2 ^ bit)) x then value + 2 ^ bit else value) 0

def clamp (low x high : ℕ) : ℕ := if x < low then low else if high < x then high else x

section Parsing

-- `str::parse::<f64>`
variable (parseF64 : List Char → Option F)

def voltageValues (tag : String) : List F :=
  ((tag.toList.splitOnP fun c => c = ';' ∨ c = ',' ∨ c = '/' ∨ c = ' ').filterMap fun part =>
    parseF64 (trim part)).filter fun v => isFinite v && lt 0 v

def maxOsmCircuits : ℕ := 12

def taggedCircuits (circuits cables : String) : Option ℕ :=
  match parseU32 (trim circuits.toList) with
  | some c => some (clamp 1 c maxOsmCircuits)
  | none =>
    match parseF64 (trim cables.toList) with
    | some c =>
      if isFinite c then some (clamp 1 (asU32 (round (c / lit 3))) maxOsmCircuits) else none
    | none => none

def parseCircuits (circuits cables : String) : ℕ := (taggedCircuits parseF64 circuits cables).getD 1

/-- One listed voltage, in descending order: again the last level, or a new one. -/
def listVoltage (listed : List (F × ℕ)) (kv : F) : List (F × ℕ) :=
  match listed.getLast? with
  | some (last, times) =>
    if lt (Binary64.abs (last - kv)) (lit (1 / 10 ^ 9)) then listed.dropLast ++ [(last, times + 1)]
    else listed ++ [(kv, 1)]
  | none => [(kv, 1)]

/-- The levels of a tag and how often each is listed. -/
def listedLevels (voltage : String) : List (F × ℕ) :=
  (((voltageValues parseF64 voltage).map (· / lit 1000)).mergeSort fun a b => !lt a b).foldl
    listVoltage []

/-- The levels of a line, highest first, with the circuits the way carries at each. -/
def parseLevels (voltage circuits cables : String) : List (F × ℕ) :=
  let listed := listedLevels parseF64 voltage
  if listed.length < 2 then
    let c := parseCircuits parseF64 circuits cables
    listed.map fun (kv, _) => (kv, c)
  else
    let n := (listed.map (·.2)).sum
    let total := min ((taggedCircuits parseF64 circuits cables).getD n) maxOsmCircuits
    ((listed.zip (Apportionment.shares total (listed.map (·.2)))).filter fun (_, c) => 0 < c).map
      fun ((kv, _), c) => (kv, c)

end Parsing

/-- What the levels take from the numbers: thousandths of a finite number are finite, and numbers that no
comparison tells apart are close. Both hold of doubles. -/
class LawfulVolts (F : Type) [Binary64 F] : Prop extends LawfulBinary64 F where
  isFinite_kilo {v : F} : isFinite v → isFinite (v / lit 1000)
  close_of_tied {a b : F} : isFinite a → isFinite b → ¬ lt a b → ¬ lt b a →
    lt (Binary64.abs (a - b)) (lit (1 / 10 ^ 9))

section Listing

variable [LawfulVolts F]

open LawfulBinary64

/-- The higher of two finite numbers first. -/
def higherFirst (F : Type) [Binary64 F] [LawfulVolts F] : Collation { v : F // isFinite v = true } where
  le a b := !lt a.1 b.1
  trans a b c hab hbc := by
    rw [Bool.not_eq_true', Bool.eq_false_iff] at *
    intro hac
    exact hab (lt_of_lt_of_le hac (le_of_not_lt b.2 c.2 hbc))
  total a b := by
    rw [Bool.or_eq_true, Bool.not_eq_true', Bool.not_eq_true']
    cases hab : lt a.1 b.1 with
    | false => exact .inl rfl
    | true =>
      right
      rw [Bool.eq_false_iff]
      intro hba
      exact lt_irrefl _ (lt_trans hab hba)

theorem sort_descending {values : List F} (hfinite : ∀ v ∈ values, isFinite v = true) :
    (values.mergeSort fun a b => !lt a b).Pairwise fun a b => ¬ lt a b := by
  have hsort : ((higherFirst F).sort (values.attachWith _ hfinite)).map Subtype.val =
      values.mergeSort fun a b => !lt a b := by
    have hmap := List.map_mergeSort (r := (higherFirst F).le) (s := fun a b : F => !lt a b)
      (f := Subtype.val) (l := values.attachWith _ hfinite) fun _ _ _ _ => rfl
    rw [Collation.sort, hmap]
    congr 1
    exact List.attachWith_map_subtype_val hfinite
  rw [← hsort, List.pairwise_map]
  refine ((higherFirst F).sort_pairwise _).imp ?_
  intro a b hab hlt
  change (!lt a.1 b.1) = true at hab
  rw [hlt] at hab
  cases hab

/-- Levels so far, in descending order, and the voltages still to come. -/
structure Listing (listed : List (F × ℕ)) (rest : List F) : Prop where
  descending : listed.Pairwise fun a b => lt b.1 a.1
  positive : ∀ level ∈ listed, 0 < level.2
  finite : ∀ level ∈ listed, isFinite level.1 = true
  above : ∀ level ∈ listed, ∀ kv ∈ rest, ¬ lt level.1 kv

theorem Listing.new {listed : List (F × ℕ)} {kv : F} {rest : List F}
    (h : Listing listed (kv :: rest)) (hkv : isFinite kv = true) (hrest : ∀ v ∈ rest, ¬ lt kv v)
    (hbelow : ∀ level ∈ listed, lt kv level.1) : Listing (listed ++ [(kv, 1)]) rest where
  descending := by
    rw [List.pairwise_append]
    refine ⟨h.descending, List.pairwise_singleton _ _, ?_⟩
    intro level hlevel new hnew
    rw [List.mem_singleton.mp hnew]
    exact hbelow level hlevel
  positive := by
    intro level hlevel
    rcases List.mem_append.mp hlevel with hold | hnew
    · exact h.positive level hold
    · rw [List.mem_singleton.mp hnew]
      exact Nat.one_pos
  finite := by
    intro level hlevel
    rcases List.mem_append.mp hlevel with hold | hnew
    · exact h.finite level hold
    · rw [List.mem_singleton.mp hnew]
      exact hkv
  above := by
    intro level hlevel v hv
    rcases List.mem_append.mp hlevel with hold | hnew
    · exact h.above level hold v (List.mem_cons_of_mem _ hv)
    · rw [List.mem_singleton.mp hnew]
      exact hrest v hv

theorem Listing.again {levels : List (F × ℕ)} {last kv : F} {times : ℕ} {rest : List F}
    (h : Listing (levels ++ [(last, times)]) (kv :: rest)) :
    Listing (levels ++ [(last, times + 1)]) rest where
  descending := by
    have hdescending := h.descending
    rw [List.pairwise_append] at hdescending ⊢
    refine ⟨hdescending.1, List.pairwise_singleton _ _, ?_⟩
    intro level hlevel new hnew
    rw [List.mem_singleton.mp hnew]
    exact hdescending.2.2 level hlevel (last, times) (List.mem_singleton.mpr rfl)
  positive := by
    intro level hlevel
    rcases List.mem_append.mp hlevel with hold | hnew
    · exact h.positive level (List.mem_append_left _ hold)
    · rw [List.mem_singleton.mp hnew]
      exact Nat.succ_pos _
  finite := by
    intro level hlevel
    rcases List.mem_append.mp hlevel with hold | hnew
    · exact h.finite level (List.mem_append_left _ hold)
    · rw [List.mem_singleton.mp hnew]
      exact h.finite (last, times) (List.mem_append_right _ (List.mem_singleton.mpr rfl))
  above := by
    intro level hlevel v hv
    rcases List.mem_append.mp hlevel with hold | hnew
    · exact h.above level (List.mem_append_left _ hold) v (List.mem_cons_of_mem _ hv)
    · rw [List.mem_singleton.mp hnew]
      exact h.above (last, times) (List.mem_append_right _ (List.mem_singleton.mpr rfl)) v
        (List.mem_cons_of_mem _ hv)

theorem Listing.step {listed : List (F × ℕ)} {kv : F} {rest : List F}
    (h : Listing listed (kv :: rest)) (hkv : isFinite kv = true) (hrest : ∀ v ∈ rest, ¬ lt kv v) :
    Listing (listVoltage listed kv) rest := by
  rw [listVoltage]
  cases hlast : listed.getLast? with
  | none =>
    rw [List.getLast?_eq_none_iff] at hlast
    rw [hlast] at h
    exact h.new hkv hrest fun _ hlevel => absurd hlevel List.not_mem_nil
  | some level =>
    obtain ⟨last, times⟩ := level
    obtain ⟨levels, rfl⟩ := List.getLast?_eq_some_iff.mp hlast
    have hmem : (last, times) ∈ levels ++ [(last, times)] :=
      List.mem_append_right _ (List.mem_singleton.mpr rfl)
    dsimp only
    split
    case isTrue =>
      rw [List.dropLast_concat]
      exact h.again
    case isFalse hapart =>
      have hbelow : lt kv last = true := by
        by_contra hnot
        exact hapart (LawfulVolts.close_of_tied (h.finite _ hmem) hkv
          (h.above _ hmem kv List.mem_cons_self) hnot)
      refine h.new hkv hrest ?_
      intro level hlevel
      rcases List.mem_append.mp hlevel with hold | hnew
      · have hdescending := (List.pairwise_append.mp h.descending).2.2 level hold (last, times)
          (List.mem_singleton.mpr rfl)
        exact lt_trans hbelow hdescending
      · rw [List.mem_singleton.mp hnew]
        exact hbelow

theorem Listing.run {rest : List F} {listed : List (F × ℕ)} (h : Listing listed rest)
    (hfinite : ∀ v ∈ rest, isFinite v = true) (hsorted : rest.Pairwise fun a b => ¬ lt a b) :
    Listing (rest.foldl listVoltage listed) [] := by
  induction rest generalizing listed with
  | nil => exact h
  | cons kv rest ih =>
    rw [List.pairwise_cons] at hsorted
    rw [List.foldl_cons]
    apply ih
    · exact h.step (hfinite kv List.mem_cons_self) hsorted.1
    · exact fun v hv => hfinite v (List.mem_cons_of_mem _ hv)
    · exact hsorted.2

variable (parseF64 : List Char → Option F)

theorem listing_levels (voltage : String) : Listing (listedLevels parseF64 voltage) [] := by
  have hfinite : ∀ v ∈ (voltageValues parseF64 voltage).map (· / lit 1000), isFinite v = true := by
    intro v hv
    obtain ⟨volts, hvolts, rfl⟩ := List.mem_map.mp hv
    have hkept := (List.mem_filter.mp hvolts).2
    rw [Bool.and_eq_true] at hkept
    exact LawfulVolts.isFinite_kilo hkept.1
  apply Listing.run
  · exact ⟨List.Pairwise.nil, fun _ h => absurd h List.not_mem_nil,
      fun _ h => absurd h List.not_mem_nil, fun _ h => absurd h List.not_mem_nil⟩
  · intro v hv
    exact hfinite v (List.mem_mergeSort.mp hv)
  · exact sort_descending hfinite

end Listing

/-! ### Circuits of a way -/

section Circuits

variable (parseF64 : List Char → Option F)

/-- The circuits that a way carries: as tagged, or one per listed voltage. -/
def wayCircuits (voltage circuits cables : String) : ℕ :=
  let listed := listedLevels parseF64 voltage
  (taggedCircuits parseF64 circuits cables).getD
    (if listed.length < 2 then 1 else min (listed.map (·.2)).sum maxOsmCircuits)

/-- How often the levels are listed. -/
def timesListed (voltage : String) : List ℕ := (listedLevels parseF64 voltage).map (·.2)

/-- The circuits at every listed level. -/
def levelShares (voltage circuits cables : String) : List ℕ :=
  Apportionment.shares (wayCircuits parseF64 voltage circuits cables) (timesListed parseF64 voltage)

theorem clamp_bounds {low high : ℕ} (h : low ≤ high) (x : ℕ) :
    low ≤ clamp low x high ∧ clamp low x high ≤ high := by
  rw [clamp]
  split
  case isTrue => exact ⟨Nat.le_refl _, h⟩
  case isFalse =>
    split
    case isTrue => exact ⟨h, Nat.le_refl _⟩
    case isFalse => omega

theorem taggedCircuits_bounds {circuits cables : String} {c : ℕ}
    (h : taggedCircuits parseF64 circuits cables = some c) : 1 ≤ c ∧ c ≤ maxOsmCircuits := by
  have hbounds : ∀ x, 1 ≤ clamp 1 x maxOsmCircuits ∧ clamp 1 x maxOsmCircuits ≤ maxOsmCircuits :=
    clamp_bounds (by decide)
  rw [taggedCircuits] at h
  cases hcircuits : parseU32 (trim circuits.toList) with
  | some tagged =>
    rw [hcircuits] at h
    cases h
    exact hbounds _
  | none =>
    rw [hcircuits] at h
    cases hcables : parseF64 (trim cables.toList) with
    | none =>
      rw [hcables] at h
      cases h
    | some tagged =>
      rw [hcables] at h
      dsimp only at h
      split at h
      case isTrue =>
        cases h
        exact hbounds _
      case isFalse => cases h

theorem wayCircuits_pos [LawfulVolts F] (voltage circuits cables : String) :
    0 < wayCircuits parseF64 voltage circuits cables := by
  rw [wayCircuits]
  cases htagged : taggedCircuits parseF64 circuits cables with
  | some c => exact (taggedCircuits_bounds parseF64 htagged).1
  | none =>
    rw [Option.getD_none]
    split
    case isTrue => exact Nat.one_pos
    case isFalse hmany =>
      apply Nat.lt_min.mpr
      refine ⟨?_, by decide⟩
      cases hlisted : listedLevels parseF64 voltage with
      | nil =>
        rw [hlisted] at hmany
        exact absurd Nat.two_pos hmany
      | cons level rest =>
        have hpos := (listing_levels parseF64 voltage).positive level
        rw [hlisted] at hpos
        rw [List.map_cons, List.sum_cons]
        exact Nat.add_pos_left (hpos List.mem_cons_self) _

theorem sum_timesListed_pos [LawfulVolts F] {voltage : String}
    (h : listedLevels parseF64 voltage ≠ []) : 0 < (timesListed parseF64 voltage).sum := by
  have hpositive := (listing_levels parseF64 voltage).positive
  rw [timesListed]
  cases hlisted : listedLevels parseF64 voltage with
  | nil => exact absurd hlisted h
  | cons level rest =>
    rw [hlisted] at hpositive
    rw [List.map_cons, List.sum_cons]
    exact Nat.add_pos_left (hpositive level List.mem_cons_self) _

theorem shares_singleton (total : ℕ) {times : ℕ} (h : 0 < times) :
    Apportionment.shares total [times] = [total] := by
  have hweights : 0 < [times].sum := by
    rw [List.sum_singleton]
    exact h
  have hsum := Apportionment.sum_shares total hweights
  have hlength := Apportionment.length_shares total [times]
  obtain ⟨share, hshare⟩ := List.length_eq_one_iff.mp hlength
  rw [hshare, List.sum_singleton] at hsum
  rw [hshare, hsum]

theorem parseLevels_eq [LawfulVolts F] (voltage circuits cables : String) :
    parseLevels parseF64 voltage circuits cables =
      (((listedLevels parseF64 voltage).zip (levelShares parseF64 voltage circuits cables)).filter
        fun (_, c) => 0 < c).map fun ((kv, _), c) => (kv, c) := by
  have hpos := wayCircuits_pos parseF64 voltage circuits cables
  rw [parseLevels, levelShares, timesListed]
  dsimp only
  split
  case isTrue hfew =>
    have hcount : parseCircuits parseF64 circuits cables =
        wayCircuits parseF64 voltage circuits cables := by
      rw [parseCircuits, wayCircuits, if_pos hfew]
    have hpositive := (listing_levels parseF64 voltage).positive
    rw [hcount]
    match hlisted : listedLevels parseF64 voltage with
    | [] => rfl
    | [(kv, times)] =>
      rw [hlisted] at hpositive
      rw [List.map_singleton, List.map_singleton,
        shares_singleton _ (hpositive (kv, times) List.mem_cons_self), List.zip_cons_cons,
        List.filter_cons, if_pos (decide_eq_true hpos)]
      rfl
    | _ :: _ :: _ =>
      rw [hlisted, List.length_cons, List.length_cons] at hfew
      omega
  case isFalse hmany =>
    have hcount : min ((taggedCircuits parseF64 circuits cables).getD
        ((listedLevels parseF64 voltage).map (·.2)).sum) maxOsmCircuits =
          wayCircuits parseF64 voltage circuits cables := by
      rw [wayCircuits]
      cases htagged : taggedCircuits parseF64 circuits cables with
      | none => rw [Option.getD_none, Option.getD_none, if_neg hmany]
      | some c =>
        rw [Option.getD_some, Option.getD_some]
        exact Nat.min_eq_left (taggedCircuits_bounds parseF64 htagged).2
    rw [hcount]

theorem sum_filter_pos {α : Type} (l : List (α × ℕ)) :
    ((l.filter fun entry => 0 < entry.2).map (·.2)).sum = (l.map (·.2)).sum := by
  induction l with
  | nil => rfl
  | cons entry rest ih =>
    rw [List.filter_cons]
    split
    case isTrue => rw [List.map_cons, List.sum_cons, ih, List.map_cons, List.sum_cons]
    case isFalse hzero =>
      rw [decide_eq_true_eq] at hzero
      rw [ih, List.map_cons, List.sum_cons]
      omega

/-- The levels of a way are distinct, highest first, with positive circuits. Where the tag lists a
voltage they carry the circuits of the way, every level its share rounded down or up, and of two levels
the higher is rounded up first unless the lower has the larger remainder. -/
theorem levels_share_circuits [LawfulVolts F] (voltage circuits cables : String) :
    let listed := listedLevels parseF64 voltage
    let n := (timesListed parseF64 voltage).sum
    let count := wayCircuits parseF64 voltage circuits cables
    let shares := levelShares parseF64 voltage circuits cables
    let levels := parseLevels parseF64 voltage circuits cables
    levels.Pairwise (fun a b => lt b.1 a.1) ∧
    (∀ level ∈ levels, 0 < level.2) ∧
    (listed ≠ [] → (levels.map (·.2)).sum = count) ∧
    (shares.length = listed.length ∧
      levels = ((listed.zip shares).filter fun (_, c) => 0 < c).map fun ((kv, _), c) => (kv, c)) ∧
    (∀ entry ∈ listed.zip shares,
      entry.2 = count * entry.1.2 / n ∨ entry.2 = count * entry.1.2 ⌈/⌉ n) ∧
    (∀ high ∈ listed.zip shares, ∀ low ∈ listed.zip shares, lt low.1.1 high.1.1 →
      count * low.1.2 % n ≤ count * high.1.2 % n → low.2 = count * low.1.2 / n + 1 →
        high.2 = count * high.1.2 / n + 1) := by
  intro listed n count shares levels
  have hlisting := listing_levels parseF64 voltage
  have hlength : shares.length = listed.length := by
    change (levelShares parseF64 voltage circuits cables).length = _
    rw [levelShares, Apportionment.length_shares, timesListed, List.length_map]
  have hlevels : levels =
      ((listed.zip shares).filter fun (_, c) => 0 < c).map fun ((kv, _), c) => (kv, c) :=
    parseLevels_eq parseF64 voltage circuits cables
  have hdescending : (listed.zip shares).Pairwise fun a b => lt b.1.1 a.1.1 := by
    apply List.Pairwise.of_map Prod.fst (S := fun a b : F × ℕ => lt b.1 a.1) fun _ _ h => h
    rw [List.map_fst_zip hlength.symm.le]
    exact hlisting.descending
  have hn : ∀ entry ∈ listed.zip shares, 0 < n := by
    intro entry hentry
    apply sum_timesListed_pos
    intro hnil
    have hnone : listed.zip shares = [] := by
      change (listedLevels parseF64 voltage).zip shares = []
      rw [hnil, List.zip_nil_left]
    rw [hnone] at hentry
    cases hentry
  -- the entry at a position of the list
  have hat : ∀ {k : ℕ} {entry : (F × ℕ) × ℕ}, (listed.zip shares)[k]? = some entry →
      listed[k]? = some entry.1 ∧ (timesListed parseF64 voltage)[k]? = some entry.1.2 ∧
        shares[k]? = some entry.2 := by
    intro k entry hentry
    obtain ⟨hlevel, hshare⟩ := List.getElem?_zip_eq_some.mp hentry
    refine ⟨hlevel, ?_, hshare⟩
    rw [timesListed, List.getElem?_map]
    change listed[k]?.map _ = _
    rw [hlevel]
    rfl
  refine ⟨?_, ?_, ?_, ⟨hlength, hlevels⟩, ?_, ?_⟩
  · rw [hlevels, List.pairwise_map]
    exact hdescending.filter _
  · intro level hlevel
    rw [hlevels] at hlevel
    obtain ⟨entry, hentry, rfl⟩ := List.mem_map.mp hlevel
    exact of_decide_eq_true (List.mem_filter.mp hentry).2
  · intro hne
    rw [hlevels, List.map_map]
    change (((listed.zip shares).filter fun entry => 0 < entry.2).map (·.2)).sum = count
    rw [sum_filter_pos, List.map_snd_zip hlength.le]
    exact Apportionment.sum_shares _ (sum_timesListed_pos parseF64 hne)
  · intro entry hentry
    obtain ⟨k, hk⟩ := List.mem_iff_getElem?.mp hentry
    obtain ⟨_, htimes, hshare⟩ := hat hk
    exact Apportionment.share_rounds (hn entry hentry) htimes hshare
  · intro high hhigh low hlow hlt hremainder hraised
    obtain ⟨j, hj⟩ := List.mem_iff_getElem?.mp hhigh
    obtain ⟨k, hk⟩ := List.mem_iff_getElem?.mp hlow
    obtain ⟨hjlevel, hjtimes, hjshare⟩ := hat hj
    obtain ⟨hklevel, hktimes, hkshare⟩ := hat hk
    have hjk : j < k := by
      by_contra hnot
      rcases Nat.lt_or_eq_of_le (Nat.le_of_not_lt hnot) with hkj | rfl
      · obtain ⟨hjlength, hjat⟩ := List.getElem?_eq_some_iff.mp hjlevel
        obtain ⟨hklength, hkat⟩ := List.getElem?_eq_some_iff.mp hklevel
        have hreverse := List.pairwise_iff_getElem.mp hlisting.descending k j hklength hjlength hkj
        rw [hjat, hkat] at hreverse
        exact LawfulBinary64.lt_irrefl _ (LawfulBinary64.lt_trans hlt hreverse)
      · rw [hjlevel, Option.some.injEq] at hklevel
        rw [hklevel] at hlt
        exact LawfulBinary64.lt_irrefl _ hlt
    have hremainders : ∀ {i times : ℕ}, (timesListed parseF64 voltage)[i]? = some times →
        Apportionment.remainder count (timesListed parseF64 voltage) i = count * times % n := by
      intro i times htimes
      rw [Apportionment.remainder, List.getD_eq_getElem?_getD, htimes, Option.getD_some]
    have hkraised := (Apportionment.mem_raised_iff hktimes hkshare).mpr hraised
    apply (Apportionment.mem_raised_iff hjtimes hjshare).mp
    apply Apportionment.raised_of_precedes (List.getElem?_eq_some_iff.mp hjtimes).1 hkraised
    rw [hremainders hjtimes, hremainders hktimes]
    rcases Nat.lt_or_eq_of_le hremainder with hless | hequal
    · exact .inl hless
    · exact .inr ⟨hequal, hjk⟩

section Sample

@[reducible] local instance levelNumbers : Binary64 ℚ := exact fun _ => ""

local instance levelVolts : LawfulVolts ℚ where
  toLawfulBinary64 := exact_lawful _
  isFinite_kilo := fun _ => rfl
  close_of_tied := by
    intro a b _ _ hab hba
    have heq : a = b := by
      apply le_antisymm
      · exact not_lt.mp fun h => hba (decide_eq_true h)
      · exact not_lt.mp fun h => hab (decide_eq_true h)
    rw [heq]
    apply decide_eq_true
    rw [exact_abs, sub_self, abs_zero, exact_lit]
    norm_num

def tagNumber (text : List Char) : Option ℚ :=
  if text = "400000".toList then some 400000
  else if text = "220000".toList then some 220000
  else none

/-- A tag without a voltage has no level, whatever its circuits. -/
theorem untagged_carries_none :
    ¬ ∀ voltage circuits cables : String,
      (parseLevels tagNumber voltage circuits cables).length ≤
        parseCircuits tagNumber circuits cables →
      ((parseLevels tagNumber voltage circuits cables).map (·.2)).sum =
        parseCircuits tagNumber circuits cables := by
  intro h
  have hlevels : parseLevels tagNumber "" "2" "" = [] := by
    have hlisted : listedLevels tagNumber "" = [] := by
      have hvalues : voltageValues tagNumber "" = [] := by decide
      rw [listedLevels, hvalues, List.map_nil, List.mergeSort_nil, List.foldl_nil]
    rw [parseLevels, hlisted]
    rfl
  have hcircuits : parseCircuits tagNumber "2" "" = 2 := by decide
  have hsum := h "" "2" ""
  rw [hlevels, hcircuits] at hsum
  exact absurd (hsum (Nat.zero_le _)) (by decide)

/-- One system at 220 kV and two at 400 kV. -/
def towers : String := "220000;400000;400000"

theorem listedLevels_towers : listedLevels tagNumber towers = [(400, 2), (220, 1)] := by
  have hvalues : (voltageValues tagNumber towers).map (· / lit 1000) = [220, 400, 400] := by
    decide +kernel
  have hsorted : [(220 : ℚ), 400, 400].mergeSort (fun a b => !lt a b) = [400, 400, 220] := by
    have hlt : (lt (220 : ℚ) 400 = true ∧ lt (400 : ℚ) 400 = false) ∧ lt (400 : ℚ) 220 = false := by
      decide +kernel
    simp [List.mergeSort, List.MergeSort.Internal.splitInTwo, hlt]
  rw [listedLevels, hvalues, hsorted]
  decide +kernel

/-- Four circuits: two or three of them at 400 kV, and one or two at 220 kV. -/
theorem levels_share_circuits_towers :
    let levels := parseLevels tagNumber towers "4" ""
    (levels.map (·.2)).sum = 4 ∧ levels.Pairwise (fun a b => lt b.1 a.1) ∧
      ∀ entry ∈ [((400 : ℚ), 2), (220, 1)].zip (levelShares tagNumber towers "4" ""),
        entry.2 = 4 * entry.1.2 / 3 ∨ entry.2 = 4 * entry.1.2 ⌈/⌉ 3 := by
  intro levels
  have hcount : wayCircuits tagNumber towers "4" "" = 4 := by
    have htagged : taggedCircuits tagNumber "4" "" = some 4 := by decide
    rw [wayCircuits, htagged]
    rfl
  have htotal : (timesListed tagNumber towers).sum = 3 := by
    rw [timesListed, listedLevels_towers]
    rfl
  obtain ⟨hdescending, -, hsum, -, hrounded, -⟩ := levels_share_circuits tagNumber towers "4" ""
  rw [hcount, listedLevels_towers] at hsum
  rw [hcount, htotal, listedLevels_towers] at hrounded
  exact ⟨hsum (List.cons_ne_nil _ _), hdescending, hrounded⟩

end Sample

end Circuits

end Tellegen.Osm
