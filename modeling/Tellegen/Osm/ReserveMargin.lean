import Tellegen.Lib.KeyedSums
import Tellegen.Osm.Generators

/-!
Mapped generation in exact arithmetic: what the mapped units and the makeup units add up to, which caps
they keep, and the slack units.
-/

set_option linter.unusedSectionVars false

open Binary64 hiding max min
open Std (ExtTreeMap)

namespace Tellegen.Osm

section Exact

variable [DecimalText ℝ] {S : Type} (rng : Stream ℝ S)

/-! ### What placements keep -/

def stated (g : DraftGenerator ℝ) : (ℕ × Fuel) × ℝ := ((g.bus, g.fuel), g.pmaxMw)

def totalMw (gens : List (DraftGenerator ℝ)) : ℝ := (gens.map (·.pmaxMw)).sum

theorem totalMw_append (gens more : List (DraftGenerator ℝ)) :
    totalMw (gens ++ more) = totalMw gens + totalMw more := by
  rw [totalMw, List.map_append, List.sum_append]
  rfl

/-- The voltage and island of a bus. -/
def siteOf (buses : List (DraftBus ℝ)) (i : ℕ) : Option (ℝ × ℕ) :=
  buses[i]?.map fun b => (b.baseKv, b.island)

noncomputable def busCap (buses : List (DraftBus ℝ)) (i : ℕ) : ℝ :=
  busGenerationCapMw ((buses[i]?.map (·.baseKv)).getD 0)

def islandAt (buses : List (DraftBus ℝ)) (i : ℕ) : ℕ := (buses[i]?.map (·.island)).getD 0

/-- Placements mark buses, and change neither voltages nor islands. -/
def SameSites (buses marked : List (DraftBus ℝ)) : Prop := ∀ i, siteOf marked i = siteOf buses i

theorem SameSites.trans {buses marked next : List (DraftBus ℝ)} (h : SameSites buses marked)
    (hnext : SameSites marked next) : SameSites buses next := fun i => (hnext i).trans (h i)

theorem sameSites_modify (buses : List (DraftBus ℝ)) (bus : ℕ) {mark : DraftBus ℝ → DraftBus ℝ}
    (hmark : ∀ b, (mark b).baseKv = b.baseKv ∧ (mark b).island = b.island) :
    SameSites buses (buses.modify bus mark) := by
  intro i
  rw [siteOf, siteOf, List.getElem?_modify]
  cases buses[i]? with
  | none => rfl
  | some b =>
    obtain ⟨hkv, hisland⟩ := hmark b
    rw [Option.map_eq_map, Option.map_some, Option.map_some, Option.map_some]
    split
    case isTrue => rw [hkv, hisland]
    case isFalse => rfl

theorem SameSites.busCap_eq {buses marked : List (DraftBus ℝ)} (h : SameSites buses marked) (i : ℕ) :
    busCap marked i = busCap buses i := by
  have hkv : ∀ list : List (DraftBus ℝ), list[i]?.map (·.baseKv) = (siteOf list i).map (·.1) := by
    intro list
    rw [siteOf, Option.map_map]
    rfl
  rw [busCap, busCap, hkv, hkv, h i]

theorem SameSites.islandAt_eq {buses marked : List (DraftBus ℝ)} (h : SameSites buses marked) (i : ℕ) :
    islandAt marked i = islandAt buses i := by
  have hisland : ∀ list : List (DraftBus ℝ), list[i]?.map (·.island) = (siteOf list i).map (·.2) := by
    intro list
    rw [siteOf, Option.map_map]
    rfl
  rw [islandAt, islandAt, hisland, hisland, h i]

/-! ### Mapped units -/

theorem foldl_placeMapped (entries : List ((ℕ × Fuel) × ℝ)) (placed : Placement ℝ S) :
    ∃ new, (entries.foldl (placeMapped rng) placed).gens = placed.gens ++ new ∧
      new.map stated = entries ∧ (∀ g ∈ new, g.makeup = false ∧ g.slack = false) ∧
      SameSites placed.buses (entries.foldl (placeMapped rng) placed).buses := by
  induction entries generalizing placed with
  | nil =>
    exact ⟨[], (List.append_nil _).symm, rfl, fun _ hg => absurd hg List.not_mem_nil, fun _ => rfl⟩
  | cons entry rest ih =>
    obtain ⟨⟨bus, fuel⟩, mw⟩ := entry
    obtain ⟨new, hgens, hstated, hflags, hsites⟩ := ih (placeMapped rng placed ((bus, fuel), mw))
    let gen := (unit rng bus fuel mw false placed.state).1
    have hplaced : (placeMapped rng placed ((bus, fuel), mw)).gens = placed.gens ++ [gen] := rfl
    refine ⟨gen :: new, ?_, ?_, ?_, ?_⟩
    · rw [List.foldl_cons, hgens, hplaced, List.append_assoc, List.singleton_append]
    · rw [List.map_cons, hstated]
      rfl
    · intro g hg
      rcases List.mem_cons.mp hg with rfl | hg
      · exact ⟨rfl, rfl⟩
      · exact hflags g hg
    · have hmarked : SameSites placed.buses (placeMapped rng placed ((bus, fuel), mw)).buses :=
        sameSites_modify placed.buses bus fun b => ⟨rfl, rfl⟩
      exact hmarked.trans hsites

/-! ### Makeup units -/

theorem makeupMw_bounds (share cap remaining : ℝ) :
    5 ≤ makeupMw share cap remaining ∧ makeupMw share cap remaining ≤ max cap 5 := by
  have hunit : (minUnitMw : ℝ) = 5 := Rat.cast_ofNat 5
  rw [makeupMw, max_real, min_real, min_real, hunit]
  constructor
  · exact le_max_right _ _
  · exact max_le_max_right 5 ((min_le_left _ _).trans (min_le_right _ _))

/-- A makeup unit as it is placed, within the cap of its bus or of the smallest size. -/
structure MakeupAt (buses : List (DraftBus ℝ)) (g : DraftGenerator ℝ) : Prop where
  makeup : g.makeup = true
  slack : g.slack = false
  unit_le : 5 ≤ g.pmaxMw
  le_cap : g.pmaxMw ≤ max (busCap buses g.bus) 5

/-- Makeup units take away what they hold, and stop when nothing remains or every candidate has one. -/
theorem placeMakeup_spec (fuelMix : List (Fuel × ℝ)) (share : ℝ) (candidates : List ℕ) (remaining : ℝ)
    (placed : Placement ℝ S) :
    ∃ new, (placeMakeup rng fuelMix share candidates remaining placed).1.gens = placed.gens ++ new ∧
      totalMw new = remaining - (placeMakeup rng fuelMix share candidates remaining placed).2 ∧
      (∀ g ∈ new, MakeupAt placed.buses g) ∧
      ((placeMakeup rng fuelMix share candidates remaining placed).2 ≤ 0 ∨
        new.map (·.bus) = candidates) ∧
      SameSites placed.buses (placeMakeup rng fuelMix share candidates remaining placed).1.buses := by
  induction candidates generalizing remaining placed with
  | nil =>
    refine ⟨[], (List.append_nil _).symm, ?_, fun _ hg => absurd hg List.not_mem_nil, .inr rfl,
      fun _ => rfl⟩
    exact (sub_self remaining).symm
  | cons bus rest ih =>
    rw [placeMakeup]
    split
    case isTrue hdone =>
      refine ⟨[], (List.append_nil _).symm, ?_, fun _ hg => absurd hg List.not_mem_nil,
        .inl (of_decide_eq_true hdone), fun _ => rfl⟩
      exact (sub_self remaining).symm
    case isFalse =>
      dsimp only
      let mw := makeupMw share (busCap placed.buses bus) remaining
      let draw := rng.weightedIndex (fuelMix.map (·.2)) placed.state
      let fuel := (draw.1.bind fun k => (fuelMix.map (·.1))[k]?).getD .gas
      let gen := (unit rng bus fuel mw true draw.2).1
      let mark := fun b : DraftBus ℝ => { b with
        kind := .generator
        source := .makeup
        annotation := "Makeup generation (mapped plants fall short of the reserve margin)" }
      let next : Placement ℝ S :=
        { buses := placed.buses.modify bus mark
          gens := placed.gens ++ [gen]
          state := (unit rng bus fuel mw true draw.2).2 }
      obtain ⟨new, hgens, htotal, hmakeup, hdone, hsites⟩ := ih (remaining - mw) next
      have hmarked : SameSites placed.buses next.buses :=
        sameSites_modify placed.buses bus fun b => ⟨rfl, rfl⟩
      obtain ⟨hunit, hcap⟩ := makeupMw_bounds share (busCap placed.buses bus) remaining
      refine ⟨gen :: new, ?_, ?_, ?_, ?_, hmarked.trans hsites⟩
      · refine hgens.trans ?_
        rw [List.append_assoc, List.singleton_append]
      · have hsum : totalMw (gen :: new) = mw + totalMw new := List.sum_cons
        rw [hsum, htotal]
        change mw + (remaining - mw - (placeMakeup rng fuelMix share rest (remaining - mw) next).2) =
          remaining - (placeMakeup rng fuelMix share rest (remaining - mw) next).2
        ring
      · intro g hg
        rcases List.mem_cons.mp hg with rfl | hg
        · exact ⟨rfl, rfl, hunit, hcap⟩
        · obtain ⟨hflag, hslack, hle, hbound⟩ := hmakeup g hg
          rw [hmarked.busCap_eq] at hbound
          exact ⟨hflag, hslack, hle, hbound⟩
      · rcases hdone with hdone | hdone
        · exact .inl hdone
        · exact .inr (congrArg (bus :: ·) hdone)

theorem totalMw_topUp {remaining placedMw : ℝ} (gens : List (DraftGenerator ℝ)) :
    totalMw (gens.map (topUp remaining placedMw)) = totalMw gens * (1 + remaining / placedMw) := by
  induction gens with
  | nil => exact (zero_mul _).symm
  | cons g rest ih =>
    have hhead : totalMw ((g :: rest).map (topUp remaining placedMw)) =
        g.pmaxMw * (1 + remaining / placedMw) + totalMw (rest.map (topUp remaining placedMw)) :=
      List.sum_cons
    have hsum : totalMw (g :: rest) = g.pmaxMw + totalMw rest := List.sum_cons
    rw [hhead, hsum, ih, add_mul]

theorem totalMw_pos {gens : List (DraftGenerator ℝ)} (hne : gens ≠ [])
    (h : ∀ g ∈ gens, 5 ≤ g.pmaxMw) : 0 < totalMw gens := by
  have hnonneg : ∀ rest : List (DraftGenerator ℝ), (∀ g ∈ rest, 5 ≤ g.pmaxMw) → 0 ≤ totalMw rest := by
    intro rest hrest
    apply List.sum_nonneg
    intro x hx
    obtain ⟨g, hg, rfl⟩ := List.mem_map.mp hx
    exact le_trans (by norm_num) (hrest g hg)
  cases gens with
  | nil => exact absurd rfl hne
  | cons g rest =>
    have hsum : totalMw (g :: rest) = g.pmaxMw + totalMw rest := List.sum_cons
    have hhead := h g List.mem_cons_self
    have htail := hnonneg rest fun other hother => h other (List.mem_cons_of_mem _ hother)
    rw [hsum]
    linarith

/-- The makeup stage: its units hold what was missing, up to a millionth, and are within the caps unless
every candidate has one. -/
theorem coverReserve_spec (request : MakeupRequest ℝ) (corridors : List (Corridor ℝ))
    (target mappedMw : ℝ) (placed : Placement ℝ S) :
    ∃ new, (coverReserve rng request corridors target mappedMw placed).1.gens = placed.gens ++ new ∧
      (makeupCandidates placed.buses corridors ≠ [] →
        target - 1 / 10 ^ 6 ≤ mappedMw + totalMw new) ∧
      (∀ g ∈ new, g.makeup = true ∧ g.slack = false) ∧
      ((∀ g ∈ new, g.pmaxMw ≤ max (busCap placed.buses g.bus) 5) ∨
        new.map (·.bus) = makeupCandidates placed.buses corridors) ∧
      SameSites placed.buses (coverReserve rng request corridors target mappedMw placed).1.buses := by
  rw [coverReserve]
  dsimp only
  let candidates := makeupCandidates placed.buses corridors
  let share := (target - mappedMw) / Binary64.ofNat (clamp 1 candidates.length makeupMinBuses)
  obtain ⟨new, hgens, htotal, hmakeup, hdone, hsites⟩ :=
    placeMakeup_spec rng request.fuelMix share candidates (target - mappedMw) placed
  have hfirst : (placeMakeup rng request.fuelMix share candidates (target - mappedMw) placed).1.gens.drop
      placed.gens.length = new := by
    rw [hgens, List.drop_left]
  have htake : (placeMakeup rng request.fuelMix share candidates (target - mappedMw) placed).1.gens.take
      placed.gens.length = placed.gens := by
    rw [hgens, List.take_left]
  have hmillionth : (lit (1 / 10 ^ 6) : ℝ) = 1 / 10 ^ 6 := by
    change ((1 / 10 ^ 6 : ℚ) : ℝ) = 1 / 10 ^ 6
    norm_num
  have hflags : ∀ g ∈ new, g.makeup = true ∧ g.slack = false :=
    fun g hg => ⟨(hmakeup g hg).makeup, (hmakeup g hg).slack⟩
  split
  case isTrue hrest =>
    obtain ⟨hrest, hcount⟩ := hrest
    have hrest : 1 / 10 ^ 6 < (placeMakeup rng request.fuelMix share candidates (target - mappedMw)
        placed).2 := by
      rw [← hmillionth]
      exact of_decide_eq_true hrest
    have hall := hdone.resolve_left fun hle => absurd (hrest.trans_le hle) (by norm_num)
    have hne : new ≠ [] := by
      rintro rfl
      change 0 < (placeMakeup rng request.fuelMix share candidates (target - mappedMw)
        placed).1.gens.length - placed.gens.length at hcount
      rw [hgens, List.append_nil, Nat.sub_self] at hcount
      exact Nat.lt_irrefl 0 hcount
    have hpos := totalMw_pos hne fun g hg => (hmakeup g hg).unit_le
    have hplaced : Binary64.sum (((placeMakeup rng request.fuelMix share candidates (target - mappedMw)
        placed).1.gens.drop placed.gens.length).map (·.pmaxMw)) = totalMw new := by
      rw [sum_real, hfirst]
      rfl
    refine ⟨new.map (topUp (placeMakeup rng request.fuelMix share candidates (target - mappedMw) placed).2
      (totalMw new)), ?_, ?_, ?_, ?_, hsites⟩
    · rw [← hplaced, ← hfirst]
      exact congrArg (· ++ _) htake
    · intro _
      rw [totalMw_topUp, mul_add, mul_one, mul_div_cancel₀ _ hpos.ne', htotal]
      linarith
    · intro g hg
      obtain ⟨old, hold, rfl⟩ := List.mem_map.mp hg
      exact hflags old hold
    · right
      rw [List.map_map]
      exact hall
  case isFalse hrest =>
    refine ⟨new, hgens, ?_, hflags, .inl fun g hg => (hmakeup g hg).le_cap, hsites⟩
    intro hcandidates
    have hsmall : (placeMakeup rng request.fuelMix share candidates (target - mappedMw) placed).2 ≤
        1 / 10 ^ 6 := by
      by_contra hlarge
      rcases hdone with hdone | hdone
      · exact hlarge (hdone.trans (by norm_num))
      · apply hrest
        refine ⟨?_, ?_⟩
        · apply decide_eq_true
          change ((1 / 10 ^ 6 : ℚ) : ℝ) < _
          exact lt_of_eq_of_lt hmillionth (not_le.mp hlarge)
        · change 0 < (placeMakeup rng request.fuelMix share candidates (target - mappedMw)
            placed).1.gens.length - placed.gens.length
          rw [hgens, List.length_append, Nat.add_sub_cancel_left]
          apply List.length_pos_iff.mpr
          rintro rfl
          exact hcandidates hdone.symm
    rw [htotal]
    linarith

/-! ### Slack units -/

/-- The best units after a part of them: each is a largest one of its island so far. -/
structure Largest (buses : List (DraftBus ℝ)) (gens : List (DraftGenerator ℝ)) (seen : ℕ)
    (best : ExtTreeMap ℕ ℕ compare) : Prop where
  largest : ∀ island k, best[island]? = some k → k < seen ∧ ∃ g, gens[k]? = some g ∧
    islandAt buses g.bus = island ∧ ∀ j other, j < seen → gens[j]? = some other →
      islandAt buses other.bus = island → other.pmaxMw ≤ g.pmaxMw
  covered : ∀ j g, j < seen → gens[j]? = some g → ∃ k, best[islandAt buses g.bus]? = some k

theorem Largest.replace {buses : List (DraftBus ℝ)} {gens : List (DraftGenerator ℝ)} {seen : ℕ}
    {best : ExtTreeMap ℕ ℕ compare} (h : Largest buses gens seen best) {g : DraftGenerator ℝ}
    (hg : gens[seen]? = some g)
    (hbest : ∀ j other, j < seen → gens[j]? = some other →
      islandAt buses other.bus = islandAt buses g.bus → other.pmaxMw ≤ g.pmaxMw) :
    Largest buses gens (seen + 1) (best.insert (islandAt buses g.bus) seen) where
  largest := by
    intro island k hk
    rw [ExtTreeMap.getElem?_insert] at hk
    split at hk
    case isTrue hisland =>
      cases hk
      rw [Std.LawfulEqCmp.compare_eq_iff_eq] at hisland
      refine ⟨Nat.lt_succ_self _, g, hg, hisland, ?_⟩
      intro j other hj hother hsame
      rcases Nat.lt_succ_iff_lt_or_eq.mp hj with hj | rfl
      · exact hbest j other hj hother (hsame.trans hisland.symm)
      · rw [hg] at hother
        cases hother
        exact le_refl _
    case isFalse hisland =>
      obtain ⟨hlt, top, htop, hat, hlargest⟩ := h.largest island k hk
      refine ⟨Nat.lt_succ_of_lt hlt, top, htop, hat, ?_⟩
      intro j other hj hother hsame
      rcases Nat.lt_succ_iff_lt_or_eq.mp hj with hj | rfl
      · exact hlargest j other hj hother hsame
      · rw [hg] at hother
        cases hother
        exact absurd (Std.LawfulEqCmp.compare_eq_iff_eq.mpr hsame) hisland
  covered := by
    intro j other hj hother
    rw [ExtTreeMap.getElem?_insert]
    split
    case isTrue => exact ⟨seen, rfl⟩
    case isFalse hisland =>
      rcases Nat.lt_succ_iff_lt_or_eq.mp hj with hj | rfl
      · exact h.covered j other hj hother
      · rw [hg] at hother
        cases hother
        exact absurd Std.ReflCmp.compare_self hisland

theorem Largest.keep {buses : List (DraftBus ℝ)} {gens : List (DraftGenerator ℝ)} {seen j : ℕ}
    {best : ExtTreeMap ℕ ℕ compare} (h : Largest buses gens seen best) {g top : DraftGenerator ℝ}
    (hg : gens[seen]? = some g) (hj : best[islandAt buses g.bus]? = some j) (htop : gens[j]? = some top)
    (hle : g.pmaxMw ≤ top.pmaxMw) : Largest buses gens (seen + 1) best where
  largest := by
    intro island k hk
    obtain ⟨hlt, first, hfirst, hat, hlargest⟩ := h.largest island k hk
    refine ⟨Nat.lt_succ_of_lt hlt, first, hfirst, hat, ?_⟩
    intro i other hi hother hsame
    rcases Nat.lt_succ_iff_lt_or_eq.mp hi with hi | rfl
    · exact hlargest i other hi hother hsame
    · rw [hg] at hother
      cases hother
      rw [hsame, hk] at hj
      cases hj
      rw [hfirst] at htop
      cases htop
      exact hle
  covered := by
    intro i other hi hother
    rcases Nat.lt_succ_iff_lt_or_eq.mp hi with hi | rfl
    · exact h.covered i other hi hother
    · rw [hg] at hother
      cases hother
      exact ⟨j, hj⟩

/-- One more unit. -/
noncomputable def largestStep (buses : List (DraftBus ℝ)) (gens : List (DraftGenerator ℝ))
    (best : ExtTreeMap ℕ ℕ compare) (entry : DraftGenerator ℝ × ℕ) : ExtTreeMap ℕ ℕ compare :=
  match best[islandAt buses entry.1.bus]? with
  | some j =>
    if le entry.1.pmaxMw ((gens[j]?.map (·.pmaxMw)).getD 0) then best
    else best.insert (islandAt buses entry.1.bus) entry.2
  | none => best.insert (islandAt buses entry.1.bus) entry.2

theorem Largest.step {buses : List (DraftBus ℝ)} {gens : List (DraftGenerator ℝ)} {seen : ℕ}
    {best : ExtTreeMap ℕ ℕ compare} (h : Largest buses gens seen best) {g : DraftGenerator ℝ}
    (hg : gens[seen]? = some g) :
    Largest buses gens (seen + 1) (largestStep buses gens best (g, seen)) := by
  rw [largestStep]
  cases hbest : best[islandAt buses g.bus]? with
  | none =>
    apply h.replace hg
    intro j other hj hother hsame
    obtain ⟨k, hk⟩ := h.covered j other hj hother
    rw [hsame, hbest] at hk
    cases hk
  | some j =>
    obtain ⟨_, top, htop, _, hlargest⟩ := h.largest _ j hbest
    have hvalue : (gens[j]?.map (·.pmaxMw)).getD 0 = top.pmaxMw := by
      rw [htop]
      rfl
    dsimp only
    rw [hvalue]
    split
    case isTrue hle => exact h.keep hg hbest htop (of_decide_eq_true hle)
    case isFalse hgt =>
      have hlt : top.pmaxMw < g.pmaxMw := not_le.mp fun hle => hgt (decide_eq_true hle)
      apply h.replace hg
      intro i other hi hother hsame
      exact (hlargest i other hi hother hsame).trans hlt.le

theorem largest_largestOf (buses : List (DraftBus ℝ)) (gens : List (DraftGenerator ℝ)) :
    Largest buses gens gens.length (largestOf buses gens) := by
  have hprefix : ∀ seen, seen ≤ gens.length →
      Largest buses gens seen ((gens.zipIdx.take seen).foldl (largestStep buses gens) ∅) := by
    intro seen
    induction seen with
    | zero =>
      intro _
      rw [List.take_zero, List.foldl_nil]
      constructor
      case largest =>
        intro island k hk
        rw [ExtTreeMap.getElem?_empty] at hk
        cases hk
      case covered =>
        intro j g hj
        exact absurd hj (Nat.not_lt_zero j)
    | succ seen ih =>
      intro hle
      have hlt : seen < gens.length := hle
      have hg := List.getElem?_eq_getElem hlt
      have hat : gens.zipIdx[seen]? = some (gens[seen], seen) := by
        rw [List.getElem?_zipIdx, hg, Option.map_some, Nat.zero_add]
      rw [List.take_add_one, hat, List.foldl_append]
      exact (ih hlt.le).step hg
  have hall := hprefix gens.length (Nat.le_refl _)
  rw [List.take_of_length_le (by rw [List.length_zipIdx])] at hall
  exact hall

theorem getElem?_markSlack (buses : List (DraftBus ℝ)) (gens : List (DraftGenerator ℝ)) (k : ℕ) :
    (markSlack buses gens)[k]? = gens[k]?.map fun g =>
      if k ∈ (largestOf buses gens).toList.map (·.2) then { g with slack := true } else g := by
  have hmarks : ∀ (marks : List ℕ) (gens : List (DraftGenerator ℝ)),
      (marks.foldl (fun gens k => gens.modify k fun g => { g with slack := true }) gens)[k]? =
        gens[k]?.map fun g => if k ∈ marks then { g with slack := true } else g := by
    intro marks
    induction marks with
    | nil =>
      intro gens
      simp only [List.foldl_nil, List.not_mem_nil, if_false, Option.map_id']
    | cons j rest ih =>
      intro gens
      rw [List.foldl_cons, ih, List.getElem?_modify, Option.map_eq_map, Option.map_map]
      congr 1
      funext g
      by_cases hj : j = k
      · by_cases hrest : k ∈ rest <;> simp [hj, hrest]
      · have hne : k ≠ j := fun h => hj h.symm
        simp [hj, hne]
  exact hmarks _ gens

theorem mem_values {map : ExtTreeMap ℕ ℕ compare} {k : ℕ} :
    k ∈ map.toList.map (·.2) ↔ ∃ island : ℕ, map[island]? = some k := by
  rw [List.mem_map]
  constructor
  · rintro ⟨⟨island, j⟩, hmem, rfl⟩
    exact ⟨island, ExtTreeMap.mem_toList_iff_getElem?_eq_some.mp hmem⟩
  · rintro ⟨island, hk⟩
    exact ⟨(island, k), ExtTreeMap.mem_toList_iff_getElem?_eq_some.mpr hk, rfl⟩

theorem map_stated_markSlack (buses : List (DraftBus ℝ)) (gens : List (DraftGenerator ℝ)) :
    (markSlack buses gens).map (fun g => (stated g, g.makeup)) =
      gens.map fun g => (stated g, g.makeup) := by
  apply List.ext_getElem?
  intro k
  rw [List.getElem?_map, List.getElem?_map, getElem?_markSlack, Option.map_map]
  congr 1
  funext g
  simp only [Function.comp_apply]
  split
  case isTrue => rfl
  case isFalse => rfl

theorem slack_spec (buses : List (DraftBus ℝ)) {gens : List (DraftGenerator ℝ)}
    (hslack : ∀ g ∈ gens, g.slack = false) {g : DraftGenerator ℝ} (hg : g ∈ markSlack buses gens) :
    ∃ (k : ℕ) (top : DraftGenerator ℝ), (markSlack buses gens)[k]? = some top ∧ top.slack = true ∧
      islandAt buses top.bus = islandAt buses g.bus ∧
      (∀ other ∈ markSlack buses gens, islandAt buses other.bus = islandAt buses g.bus →
        other.pmaxMw ≤ top.pmaxMw) ∧
      ∀ (j : ℕ) (other : DraftGenerator ℝ), (markSlack buses gens)[j]? = some other →
        other.slack = true → islandAt buses other.bus = islandAt buses g.bus → j = k := by
  have hlargest := largest_largestOf buses gens
  -- a marked unit is one of the placed ones
  have hold : ∀ {j : ℕ} {other : DraftGenerator ℝ}, (markSlack buses gens)[j]? = some other →
      ∃ old, gens[j]? = some old ∧ other.bus = old.bus ∧ other.pmaxMw = old.pmaxMw ∧
        (other.slack = true → j ∈ (largestOf buses gens).toList.map (·.2)) := by
    intro j other hother
    rw [getElem?_markSlack, Option.map_eq_some_iff] at hother
    obtain ⟨old, hat, rfl⟩ := hother
    refine ⟨old, hat, ?_⟩
    split
    case isTrue hmem => exact ⟨rfl, rfl, fun _ => hmem⟩
    case isFalse =>
      refine ⟨rfl, rfl, fun h => ?_⟩
      rw [hslack old (List.mem_of_getElem? hat)] at h
      cases h
  obtain ⟨j, hj⟩ := List.mem_iff_getElem?.mp hg
  obtain ⟨old, hat, hbus, _⟩ := hold hj
  obtain ⟨k, hk⟩ := hlargest.covered j old (List.getElem?_eq_some_iff.mp hat).1 hat
  obtain ⟨_, top, htop, hisland, hmax⟩ := hlargest.largest _ k hk
  refine ⟨k, { top with slack := true }, ?_, rfl, ?_, ?_, ?_⟩
  · rw [getElem?_markSlack, htop, Option.map_some, if_pos (mem_values.mpr ⟨_, hk⟩)]
  · rw [hbus]
    exact hisland
  · intro other hother hsame
    obtain ⟨i, hi⟩ := List.mem_iff_getElem?.mp hother
    obtain ⟨first, hfirst, hfirstBus, hpmax, _⟩ := hold hi
    rw [hpmax]
    apply hmax i first (List.getElem?_eq_some_iff.mp hfirst).1 hfirst
    rw [← hfirstBus, hsame, hbus]
  · intro i other hi hmarked hsame
    obtain ⟨first, hfirst, hfirstBus, _, hmem⟩ := hold hi
    obtain ⟨island, hat⟩ := mem_values.mp (hmem hmarked)
    obtain ⟨_, same, hsameAt, hislandAt, _⟩ := hlargest.largest island i hat
    rw [hfirst] at hsameAt
    cases hsameAt
    rw [← hfirstBus, hsame, hbus] at hislandAt
    rw [← hislandAt, hk] at hat
    exact (Option.some.inj hat).symm

/-! ### Generation -/

/-- The capacities of the mapped plants that snap to a bus. -/
noncomputable def mappedCapacity (plants : List (OsmPlant ℝ)) (request : MakeupRequest ℝ)
    (buses : List (DraftBus ℝ)) : Capacity ℝ :=
  ((plantSites plants).foldl (snapSite buses request.plantSnapKm
    (Binary64.sum (buses.map (·.loadMw))) (plantSites plants))
    { capacity := ∅, snapped := 0, estimated := 0 }).capacity

noncomputable def mappedPlacement (plants : List (OsmPlant ℝ)) (request : MakeupRequest ℝ)
    (buses : List (DraftBus ℝ)) (state : S) : Placement ℝ S :=
  (mappedCapacity plants request buses).toList.foldl (placeMapped rng) { buses, gens := [], state }

noncomputable def reserveTarget (request : MakeupRequest ℝ) (buses : List (DraftBus ℝ)) : ℝ :=
  (1 + request.reserveMargin) * (buses.map (·.loadMw)).sum

/-- What the mapped units leave to the makeup stage. -/
noncomputable def reserveStage (plants : List (OsmPlant ℝ)) (request : MakeupRequest ℝ)
    (buses : List (DraftBus ℝ)) (corridors : List (Corridor ℝ)) (state : S) :
    Placement ℝ S × ℕ × List (String × String) :=
  let target := (1 + request.reserveMargin) * Binary64.sum (buses.map (·.loadMw))
  let mappedMw := Binary64.sum ((mappedCapacity plants request buses).toList.map (·.2))
  let mapped := mappedPlacement rng plants request buses state
  if lt 0 (Binary64.sum (buses.map (·.loadMw))) ∧ lt mappedMw target then
    coverReserve rng request corridors target mappedMw mapped
  else (mapped, 0, [])

theorem generators_buses {plants : List (OsmPlant ℝ)} {request : MakeupRequest ℝ}
    {buses : List (DraftBus ℝ)} {corridors : List (Corridor ℝ)} {state : S} {out : Generation ℝ S}
    (hout : generators rng plants request buses corridors state = some out) :
    out.buses = (reserveStage rng plants request buses corridors state).1.buses := by
  rw [generators] at hout
  dsimp only at hout
  split at hout
  case isTrue => cases hout
  case isFalse =>
    cases hout
    rfl

theorem generators_eq {plants : List (OsmPlant ℝ)} {request : MakeupRequest ℝ}
    {buses : List (DraftBus ℝ)} {corridors : List (Corridor ℝ)} {state : S} {out : Generation ℝ S}
    (hout : generators rng plants request buses corridors state = some out) :
    out.gens = markSlack (reserveStage rng plants request buses corridors state).1.buses
      (reserveStage rng plants request buses corridors state).1.gens := by
  rw [generators] at hout
  dsimp only at hout
  split at hout
  case isTrue => cases hout
  case isFalse =>
    cases hout
    rfl

/-- The units before their islands get a slack unit: those of the mapped plants, then makeup units. -/
theorem generators_spec {plants : List (OsmPlant ℝ)} {request : MakeupRequest ℝ}
    {buses : List (DraftBus ℝ)} {corridors : List (Corridor ℝ)} {state : S} {out : Generation ℝ S}
    (hout : generators rng plants request buses corridors state = some out) :
    ∃ mapped new, out.gens = markSlack out.buses (mapped ++ new) ∧
      mapped.map stated = (mappedCapacity plants request buses).toList ∧
      (∀ g ∈ mapped, g.makeup = false ∧ g.slack = false) ∧
      (∀ g ∈ new, g.makeup = true ∧ g.slack = false) ∧ SameSites buses out.buses ∧
      (0 < (buses.map (·.loadMw)).sum →
        makeupCandidates (mappedPlacement rng plants request buses state).buses corridors ≠ [] →
        reserveTarget request buses - 1 / 10 ^ 6 ≤ totalMw (mapped ++ new)) ∧
      ((∀ g ∈ new, g.pmaxMw ≤ max (busCap buses g.bus) 5) ∨ new.map (·.bus) =
        makeupCandidates (mappedPlacement rng plants request buses state).buses corridors) := by
  obtain ⟨mapped, hgens, hstated, hflags, hsites⟩ := foldl_placeMapped rng
    (mappedCapacity plants request buses).toList { buses, gens := [], state }
  rw [List.nil_append] at hgens
  have hmapped : Binary64.sum ((mappedCapacity plants request buses).toList.map (·.2)) =
      totalMw mapped := by
    rw [sum_real, ← hstated, List.map_map]
    rfl
  have htarget : (1 + request.reserveMargin) * Binary64.sum (buses.map (·.loadMw)) =
      reserveTarget request buses := by
    rw [reserveTarget, ← sum_real]
  rw [generators_eq rng hout, generators_buses rng hout, reserveStage]
  split
  case isTrue =>
    obtain ⟨new, hplaced, htotal, hnew, hcaps, hmarked⟩ := coverReserve_spec rng request corridors
      ((1 + request.reserveMargin) * Binary64.sum (buses.map (·.loadMw)))
      (Binary64.sum ((mappedCapacity plants request buses).toList.map (·.2)))
      (mappedPlacement rng plants request buses state)
    refine ⟨mapped, new, ?_, hstated, hflags, hnew, SameSites.trans hsites hmarked, ?_, ?_⟩
    · rw [hplaced]
      exact congrArg (fun gens => markSlack _ (gens ++ new)) hgens
    · intro _ hcandidates
      have hreached := htotal hcandidates
      rw [htarget, hmapped] at hreached
      rw [totalMw_append]
      exact hreached
    · rcases hcaps with hcaps | hcaps
      · left
        intro g hg
        have hcap : busCap (mappedPlacement rng plants request buses state).buses g.bus =
            busCap buses g.bus := SameSites.busCap_eq hsites g.bus
        rw [← hcap]
        exact hcaps g hg
      · exact .inr hcaps
  case isFalse henough =>
    refine ⟨mapped, [], ?_, hstated, hflags, fun _ hg => absurd hg List.not_mem_nil, hsites, ?_,
      .inl fun _ hg => absurd hg List.not_mem_nil⟩
    · rw [List.append_nil]
      exact congrArg (markSlack _) hgens
    · intro hload _
      have hreached : reserveTarget request buses ≤ totalMw mapped := by
        by_contra hless
        apply henough
        refine ⟨decide_eq_true ?_, decide_eq_true ?_⟩
        · rw [sum_real]
          exact hload
        · rw [htarget, hmapped]
          exact not_le.mp hless
      rw [List.append_nil]
      linarith

theorem totalMw_markSlack (buses : List (DraftBus ℝ)) (gens : List (DraftGenerator ℝ)) :
    totalMw (markSlack buses gens) = totalMw gens := by
  have hstated := congrArg (List.map fun entry : ((ℕ × Fuel) × ℝ) × Bool => entry.1.2)
    (map_stated_markSlack buses gens)
  rw [List.map_map, List.map_map] at hstated
  exact congrArg List.sum hstated

theorem exists_of_mem_markSlack {buses : List (DraftBus ℝ)} {gens : List (DraftGenerator ℝ)}
    {g : DraftGenerator ℝ} (hg : g ∈ markSlack buses gens) :
    ∃ old ∈ gens, stated old = stated g ∧ old.makeup = g.makeup := by
  have hmem : (stated g, g.makeup) ∈ (markSlack buses gens).map fun g => (stated g, g.makeup) :=
    List.mem_map_of_mem hg
  rw [map_stated_markSlack] at hmem
  obtain ⟨old, hold, heq⟩ := List.mem_map.mp hmem
  exact ⟨old, hold, congrArg Prod.fst heq, congrArg Prod.snd heq⟩

theorem exists_markSlack_of_mem (buses : List (DraftBus ℝ)) {gens : List (DraftGenerator ℝ)}
    {old : DraftGenerator ℝ} (hold : old ∈ gens) :
    ∃ g ∈ markSlack buses gens, stated g = stated old ∧ g.makeup = old.makeup := by
  have hmem : (stated old, old.makeup) ∈ gens.map fun g => (stated g, g.makeup) :=
    List.mem_map_of_mem hold
  rw [← map_stated_markSlack buses] at hmem
  obtain ⟨g, hg, heq⟩ := List.mem_map.mp hmem
  exact ⟨g, hg, congrArg Prod.fst heq, congrArg Prod.snd heq⟩

theorem mapped_markSlack (buses : List (DraftBus ℝ)) {mapped new : List (DraftGenerator ℝ)}
    (hmapped : ∀ g ∈ mapped, g.makeup = false) (hnew : ∀ g ∈ new, g.makeup = true) :
    ((markSlack buses (mapped ++ new)).filter fun g => !g.makeup).map stated = mapped.map stated := by
  have hview : ∀ gens : List (DraftGenerator ℝ), (gens.filter fun g => !g.makeup).map stated =
      ((gens.map fun g => (stated g, g.makeup)).filter fun entry => !entry.2).map Prod.fst := by
    intro gens
    rw [List.filter_map, List.map_map]
    rfl
  rw [hview, map_stated_markSlack, ← hview, List.filter_append]
  have hkeep : mapped.filter (fun g => !g.makeup) = mapped := by
    rw [List.filter_eq_self]
    intro g hg
    rw [hmapped g hg]
    rfl
  have hdrop : new.filter (fun g => !g.makeup) = [] := by
    rw [List.filter_eq_nil_iff]
    intro g hg
    rw [hnew g hg]
    exact Bool.false_ne_true
  rw [hkeep, hdrop, List.append_nil]

/-- With plants on the network the units reach the reserve target up to a millionth of a MW, a makeup
unit larger than the cap of its bus and than the smallest unit means that every candidate bus holds one,
mapped units keep their capacity, and the slack unit of an island is unique and a largest one. -/
theorem reserve_margin_met (plants : List (OsmPlant ℝ)) (request : MakeupRequest ℝ)
    (buses : List (DraftBus ℝ)) (corridors : List (Corridor ℝ)) (state : S) (out : Generation ℝ S)
    (hout : generators rng plants request buses corridors state = some out) :
    let candidates :=
      makeupCandidates (mappedPlacement rng plants request buses state).buses corridors
    (0 < (buses.map (·.loadMw)).sum → candidates ≠ [] →
      reserveTarget request buses - 1 / 10 ^ 6 ≤ totalMw out.gens) ∧
    (∀ g ∈ out.gens, g.makeup = true → max (busCap buses g.bus) 5 < g.pmaxMw →
      ∀ bus ∈ candidates, ∃ unit ∈ out.gens, unit.makeup = true ∧ unit.bus = bus) ∧
    (out.gens.filter fun g => !g.makeup).map stated =
      (mappedCapacity plants request buses).toList ∧
    ∀ g ∈ out.gens, ∃ (k : ℕ) (top : DraftGenerator ℝ), out.gens[k]? = some top ∧ top.slack = true ∧
      islandAt buses top.bus = islandAt buses g.bus ∧
      (∀ other ∈ out.gens, islandAt buses other.bus = islandAt buses g.bus →
        other.pmaxMw ≤ top.pmaxMw) ∧
      ∀ (j : ℕ) (other : DraftGenerator ℝ), out.gens[j]? = some other → other.slack = true →
        islandAt buses other.bus = islandAt buses g.bus → j = k := by
  intro candidates
  obtain ⟨mapped, new, hgens, hstated, hmapped, hnew, hsites, htotal, hcaps⟩ := generators_spec rng hout
  rw [hgens]
  refine ⟨?_, ?_, ?_, ?_⟩
  · rw [totalMw_markSlack]
    exact htotal
  · intro g hg hmakeup hlarge bus hbus
    obtain ⟨old, hold, hsame, hflag⟩ := exists_of_mem_markSlack hg
    have hold : old ∈ new := by
      rcases List.mem_append.mp hold with hold | hold
      · rw [(hmapped old hold).1, hmakeup] at hflag
        cases hflag
      · exact hold
    have hall := hcaps.resolve_left fun hcaps => by
      have hcap := hcaps old hold
      have hpmax : old.pmaxMw = g.pmaxMw := congrArg Prod.snd hsame
      have hat : old.bus = g.bus := congrArg (fun entry => entry.1.1) hsame
      rw [hpmax, hat] at hcap
      exact absurd hlarge (not_lt.mpr hcap)
    have hbus : bus ∈ new.map (·.bus) := by
      rw [hall]
      exact hbus
    obtain ⟨placed, hplaced, rfl⟩ := List.mem_map.mp hbus
    obtain ⟨unit, hunit, hunitStated, hunitFlag⟩ :=
      exists_markSlack_of_mem out.buses (List.mem_append_right mapped hplaced)
    refine ⟨unit, hunit, ?_, congrArg (fun entry => entry.1.1) hunitStated⟩
    rw [hunitFlag]
    exact (hnew placed hplaced).1
  · rw [mapped_markSlack out.buses (fun g hg => (hmapped g hg).1) fun g hg => (hnew g hg).1, hstated]
  · intro g hg
    have hslack : ∀ g ∈ mapped ++ new, g.slack = false := by
      intro g hg
      rcases List.mem_append.mp hg with hg | hg
      · exact (hmapped g hg).2
      · exact (hnew g hg).2
    have hspec := slack_spec out.buses hslack hg
    simp only [hsites.islandAt_eq] at hspec
    exact hspec

/-! ### Two small grids -/

theorem minBy_head {α : Type} {smaller : α → α → Bool} {a : α} {rest : List α}
    (h : ∀ b ∈ rest, smaller b a = false) : minBy smaller (a :: rest) = some a := by
  rw [minBy]
  induction rest with
  | nil => rfl
  | cons b rest ih =>
    rw [List.foldl_cons, h b List.mem_cons_self]
    exact ih fun c hc => h c (List.mem_cons_of_mem _ hc)

theorem lineClassFor_low {kv : ℝ} (hkv : kv ≤ 69) : lineClassFor kv = 69 := by
  have htarget : Real.log (max kv 1) ≤ Real.log 69 :=
    Real.log_le_log (lt_of_lt_of_le one_pos (le_max_right _ _)) (max_le hkv (by norm_num))
  -- no larger class is strictly nearer
  have hstay : ∀ classKv : ℚ, 69 ≤ classKv →
      ¬ |Real.log (classKv : ℝ) - Real.log (max kv 1)| <
        |Real.log ((69 : ℚ) : ℝ) - Real.log (max kv 1)| := by
    intro classKv hclass
    have hcast : (69 : ℝ) ≤ (classKv : ℝ) := by exact_mod_cast hclass
    have hlog : Real.log 69 ≤ Real.log (classKv : ℝ) := Real.log_le_log (by norm_num) hcast
    rw [Rat.cast_ofNat, abs_of_nonneg (sub_nonneg.mpr (htarget.trans hlog)),
      abs_of_nonneg (sub_nonneg.mpr htarget)]
    linarith
  have habs : ∀ a : ℝ, Binary64.abs a = |a| := exact_abs DecimalText.text
  rw [lineClassFor, lineClasses, minBy_head]
  · exact Rat.cast_ofNat 69
  · intro classKv hclass
    apply decide_eq_false
    rw [max_real, habs, habs]
    simp only [List.mem_cons, List.not_mem_nil, or_false] at hclass
    rcases hclass with rfl | rfl | rfl | rfl | rfl | rfl
    all_goals exact hstay _ (by norm_num)

theorem busGenerationCapMw_low {kv : ℝ} (hkv : kv ≤ 69) : busGenerationCapMw kv = 60 * (kv / 69) := by
  have hclass : Binary64.le (69 : ℝ) (lit 69) = true :=
    decide_eq_true (le_of_eq (Rat.cast_ofNat 69).symm)
  have hcap : (lit 60 : ℝ) = 60 := Rat.cast_ofNat 60
  rw [busGenerationCapMw, lineClassFor_low hkv]
  rw [classGenerationCapMw, if_pos hclass, hcap]

theorem haversineKm_self : haversineKm (0 : ℝ) 0 0 0 = 0 := by
  have hzero : toRadians (0 : ℝ) = 0 := zero_mul _
  have hsin : Libm.sin ((0 : ℝ) / lit 2) = 0 := by
    rw [zero_div]
    exact Real.sin_zero
  have hsqrt : Libm.sqrt (0 : ℝ) = 0 := Real.sqrt_zero
  rw [haversineKm, sub_zero, hzero, sub_zero, hsin, mul_zero, mul_zero, add_zero, hsqrt, min_real,
    min_eq_left zero_le_one]
  change lit 2 * earthRadiusKm * Real.arcsin 0 = 0
  rw [Real.arcsin_zero, mul_zero]

end Exact

section Sample

@[reducible] local instance reserveText : DecimalText ℝ := ⟨fun _ => ""⟩

def stillDraws : Stream ℝ Unit where
  uniform state := (0, state)
  index _ h state := (⟨0, h⟩, state)

/-- 10 MW at the place of `town`. -/
def waterMill : OsmPlant ℝ where
  id := 1
  lon := 0
  lat := 0
  fuel := .hydro
  capacityMw := some 10
  isGenerator := true

def noMargin : MakeupRequest ℝ := { reserveMargin := 0, plantSnapKm := 0, fuelMix := [] }

def village (kv load : ℝ) : DraftBus ℝ := { town with baseKv := kv, loadMw := load }

theorem plantSites_waterMill :
    plantSites [waterMill] = [{ lon := 0, lat := 0, fuel := .hydro, mw := some 10 }] := by
  have hplants : ([waterMill].filter fun p => !p.isGenerator) = [] := rfl
  rw [plantSites, hplants, List.mergeSort_nil]
  rfl

def originQuery : SnapQuery ℝ := { lon := 0, lat := 0, voltage := none, tolKm := 0 }

theorem lt_self (a : ℝ) : Binary64.lt a a = false := decide_eq_false (lt_irrefl a)

theorem consider_origin {b : DraftBus ℝ} (hb : b.lon = 0 ∧ b.lat = 0) (found : Nearest ℝ) (i : ℕ) :
    consider originQuery found i b =
      { found with best := if closer 0 found.best then some (0, i) else found.best } := by
  have habs : Binary64.abs (0 : ℝ) = 0 := (exact_abs DecimalText.text 0).trans abs_zero
  have hdlat : originQuery.dlat = 0 := zero_div _
  have hlon : originQuery.lon = 0 := rfl
  have hlat : originQuery.lat = 0 := rfl
  have htol : originQuery.tolKm = 0 := rfl
  rw [consider, hb.1, hb.2, hdlat, hlon, hlat, htol, sub_self, habs, lt_self, haversineKm_self]
  dsimp only
  rw [lt_self]
  rfl

theorem snap_origin {others : List (DraftBus ℝ)} (hothers : ∀ b ∈ others, b.lon = 0 ∧ b.lat = 0) :
    snap (town :: others) originQuery = some 0 := by
  have hkeep : ∀ (k : ℕ), ((others.zipIdx k).foldl (fun found (b, i) => consider originQuery found i b)
      { best := some (0, 0), bestAtVoltage := none }) =
        { best := some (0, 0), bestAtVoltage := none } := by
    induction others with
    | nil => exact fun _ => rfl
    | cons b rest ih =>
      intro k
      have hcloser : closer (0 : ℝ) (some (0, 0)) = false := lt_self 0
      rw [List.zipIdx_cons, List.foldl_cons]
      dsimp only
      rw [consider_origin (hothers b List.mem_cons_self)]
      dsimp only
      rw [hcloser]
      exact ih (fun other hother => hothers other (List.mem_cons_of_mem _ hother)) (k + 1)
  rw [snap, List.zipIdx_cons, List.foldl_cons]
  dsimp only
  rw [consider_origin ⟨rfl, rfl⟩]
  exact congrArg Nearest.bus (hkeep (0 + 1))

theorem lawful_capacity : Std.LawfulEqCmp
    (compareLex (compareOn Prod.fst) (compareOn fun key : ℕ × Fuel => key.2.rank)) where
  eq_of_compare := by
    rintro ⟨bus, fuel⟩ ⟨bus', fuel'⟩ h
    obtain ⟨hbus, hfuel⟩ := compareLex_eq_eq.mp h
    have hbus : bus = bus' := Std.LawfulEqCmp.eq_of_compare hbus
    have hrank : fuel.rank = fuel'.rank := Std.LawfulEqCmp.eq_of_compare hfuel
    have hfuel : fuel = fuel' := by
      revert hrank
      cases fuel <;> cases fuel' <;> decide
    rw [hbus, hfuel]

theorem mappedCapacity_origin {others : List (DraftBus ℝ)}
    (hothers : ∀ b ∈ others, b.lon = 0 ∧ b.lat = 0) :
    (mappedCapacity [waterMill] noMargin (town :: others)).toList = [((0, .hydro), 10)] := by
  have hmw : Binary64.le (10 : ℝ) 0 = false := decide_eq_false (by norm_num)
  have hsite : ∀ (totalLoad : ℝ) (sites : List (PlantSite ℝ)),
      snapSite (town :: others) 0 totalLoad sites { capacity := ∅, snapped := 0, estimated := 0 }
        { lon := 0, lat := 0, fuel := .hydro, mw := some 10 } =
      { capacity := (∅ : Capacity ℝ).insert (0, .hydro) ((∅ : Capacity ℝ).getD (0, .hydro) 0 + 10)
        snapped := 1
        estimated := 0 } := by
    intro totalLoad sites
    have hquery : snap (town :: others)
      { lon := 0, lat := 0, voltage := none, tolKm := 0 } = some 0 := snap_origin hothers
    rw [snapSite]
    dsimp only
    rw [hquery]
    dsimp only
    rw [hmw]
    rfl
  have hcapacity : mappedCapacity [waterMill] noMargin (town :: others) =
      (∅ : Capacity ℝ).insert (0, .hydro) 10 := by
    rw [mappedCapacity, plantSites_waterMill, List.foldl_cons, List.foldl_nil]
    change (snapSite (town :: others) 0 _ _ _ _).capacity = _
    rw [hsite, ExtTreeMap.getD_empty, zero_add]
  have _ := lawful_capacity
  have hentries := KeyedSums.toList_insert_perm (∅ : Capacity ℝ) (0, .hydro) 10
  rw [hcapacity]
  rw [ExtTreeMap.toList_eq_nil_iff.mpr rfl, List.filter_nil, List.perm_singleton] at hentries
  exact hentries

theorem mappedPlacement_origin {others : List (DraftBus ℝ)}
    (hothers : ∀ b ∈ others, b.lon = 0 ∧ b.lat = 0) :
    ∃ mill, mill.makeup = false ∧ mill.pmaxMw = 10 ∧
      mappedPlacement stillDraws [waterMill] noMargin (town :: others) () =
        { buses := { town with
            kind := .generator
            annotation := "OpenStreetMap power plant (power=plant or generator)" } :: others
          gens := [mill]
          state := () } := by
  refine ⟨(unit stillDraws 0 .hydro 10 false ()).1, rfl, rfl, ?_⟩
  rw [mappedPlacement, mappedCapacity_origin hothers]
  rfl

theorem makeupCandidates_apart (buses : List (DraftBus ℝ)) :
    makeupCandidates buses [] = (List.range buses.length).filter fun i => buses[i]?.any fun b =>
      b.kind ≠ .generator ∧ b.kind ≠ .converter := by
  rw [makeupCandidates]
  apply List.mergeSort_of_pairwise
  apply List.Pairwise.filter
  refine List.pairwise_lt_range.imp ?_
  intro i j hij
  have hdegree : ∀ i, (corridorDegrees buses.length ([] : List (Corridor ℝ))).getD i 0 = 0 := by
    intro i
    rw [corridorDegrees, List.foldl_nil]
    by_cases hi : i < buses.length
    · rw [List.getD_replicate _ hi]
    · rw [List.getD_eq_default]
      rw [List.length_replicate]
      exact Nat.le_of_not_lt hi
  apply decide_eq_true
  right
  rw [hdegree, hdegree]
  exact ⟨rfl, hij.le⟩

theorem exists_generators {S : Type} (rng : Stream ℝ S) (plants : List (OsmPlant ℝ))
    (request : MakeupRequest ℝ) (buses : List (DraftBus ℝ)) (corridors : List (Corridor ℝ)) (state : S)
    (h : (mappedCapacity plants request buses).toList ≠ []) :
    ∃ out, generators rng plants request buses corridors state = some out := by
  have hempty : (mappedCapacity plants request buses).isEmpty = false := by
    rw [← ExtTreeMap.isEmpty_toList, List.isEmpty_eq_false_iff]
    exact h
  rw [generators]
  dsimp only
  rw [if_neg]
  · exact ⟨_, rfl⟩
  · intro hnone
    rw [mappedCapacity] at hempty
    rw [hempty] at hnone
    cases hnone

theorem placeMakeup_cons {S : Type} (rng : Stream ℝ S) (fuelMix : List (Fuel × ℝ)) (share : ℝ)
    (bus : ℕ) (rest : List ℕ) {remaining : ℝ} (hremaining : 0 < remaining) (placed : Placement ℝ S) :
    ∃ (next : Placement ℝ S) (gen : DraftGenerator ℝ), next.gens = placed.gens ++ [gen] ∧
      gen.makeup = true ∧ gen.bus = bus ∧
      gen.pmaxMw = makeupMw share (busCap placed.buses bus) remaining ∧
      placeMakeup rng fuelMix share (bus :: rest) remaining placed =
        placeMakeup rng fuelMix share rest
          (remaining - makeupMw share (busCap placed.buses bus) remaining) next := by
  have hmore : ¬ Binary64.le remaining 0 = true := fun h => not_le.mpr hremaining (of_decide_eq_true h)
  rw [placeMakeup, if_neg hmore]
  exact ⟨_, _, rfl, rfl, rfl, rfl, rfl⟩

theorem busCap_low {buses : List (DraftBus ℝ)} {i : ℕ} {b : DraftBus ℝ} (hb : buses[i]? = some b)
    (hkv : b.baseKv ≤ 69) : busCap buses i = 60 * (b.baseKv / 69) := by
  rw [busCap, hb]
  exact busGenerationCapMw_low hkv

theorem reserveStage_short {others : List (DraftBus ℝ)} (hothers : ∀ b ∈ others, b.lon = 0 ∧ b.lat = 0)
    (hload : 10 < (others.map (·.loadMw)).sum) :
    reserveStage stillDraws [waterMill] noMargin (town :: others) [] () =
      coverReserve stillDraws noMargin [] (others.map (·.loadMw)).sum 10
        (mappedPlacement stillDraws [waterMill] noMargin (town :: others) ()) := by
  have htotal : Binary64.sum ((town :: others).map (·.loadMw)) = (others.map (·.loadMw)).sum := by
    rw [sum_real, List.map_cons, List.sum_cons]
    exact zero_add _
  have hmapped : Binary64.sum [(10 : ℝ)] = 10 := by
    rw [sum_real, List.sum_singleton]
  have htarget : (1 + noMargin.reserveMargin) * (others.map (·.loadMw)).sum =
      (others.map (·.loadMw)).sum := by
    change (1 + 0) * _ = _
    rw [add_zero, one_mul]
  rw [reserveStage, htotal, mappedCapacity_origin hothers]
  change (if lt 0 _ ∧ lt (Binary64.sum [10]) _ then coverReserve _ _ _ _ (Binary64.sum [10]) _ else _) = _
  rw [hmapped, htarget, if_pos]
  exact ⟨decide_eq_true (lt_trans (by norm_num) hload), decide_eq_true hload⟩

theorem coverReserve_done {S : Type} {rng : Stream ℝ S} {request : MakeupRequest ℝ}
    {corridors : List (Corridor ℝ)} {target mappedMw : ℝ} {placed next : Placement ℝ S} {left : ℝ}
    (hplace : placeMakeup rng request.fuelMix
      ((target - mappedMw) / Binary64.ofNat
        (clamp 1 (makeupCandidates placed.buses corridors).length makeupMinBuses))
      (makeupCandidates placed.buses corridors) (target - mappedMw) placed = (next, left))
    (hleft : left ≤ 1 / 10 ^ 6) :
    (coverReserve rng request corridors target mappedMw placed).1 = next := by
  rw [coverReserve]
  dsimp only
  rw [hplace, if_neg]
  rintro ⟨hlt, _⟩
  have hlt : ((1 / 10 ^ 6 : ℚ) : ℝ) < left := of_decide_eq_true hlt
  norm_num at hlt hleft
  linarith

theorem single_makeup (first : DraftBus ℝ) (more : List (DraftBus ℝ)) (rest : List ℕ)
    (load share mw : ℝ) (hkv : first.baseKv ≤ 69)
    (hothers : ∀ b ∈ first :: more, b.lon = 0 ∧ b.lat = 0)
    (htotal : ((first :: more).map (·.loadMw)).sum = load) (hload : 10 < load)
    (hcandidates : makeupCandidates (mappedPlacement stillDraws [waterMill] noMargin
      (town :: first :: more) ()).buses [] = 1 :: rest)
    (hshare : (load - 10) / Binary64.ofNat (clamp 1 (rest.length + 1) makeupMinBuses) = share)
    (hmw : max (min (min share (60 * (first.baseKv / 69))) (load - 10)) 5 = mw)
    (hleft : load - 10 - mw ≤ 1 / 10 ^ 6) (hrest : rest = [] ∨ load - 10 - mw ≤ 0) :
    ∃ mill makeup : DraftGenerator ℝ, mill.makeup = false ∧ mill.pmaxMw = 10 ∧
      makeup.makeup = true ∧ makeup.bus = 1 ∧ makeup.pmaxMw = mw ∧
      (reserveStage stillDraws [waterMill] noMargin (town :: first :: more) [] ()).1.gens =
        [mill, makeup] := by
  obtain ⟨mill, hmapped, hmill, hplaced⟩ := mappedPlacement_origin hothers
  have hcap : busCap (mappedPlacement stillDraws [waterMill] noMargin
      (town :: first :: more) ()).buses 1 = 60 * (first.baseKv / 69) := by
    rw [hplaced]
    exact busCap_low rfl hkv
  obtain ⟨next, gen, hnext, hmakeup, hbus, hpmax, hplace⟩ := placeMakeup_cons stillDraws
    noMargin.fuelMix share 1 rest (show 0 < load - 10 by linarith)
    (mappedPlacement stillDraws [waterMill] noMargin (town :: first :: more) ())
  have hunit : (minUnitMw : ℝ) = 5 := Rat.cast_ofNat 5
  rw [hcap, makeupMw, max_real, min_real, min_real, hunit, hmw] at hpmax hplace
  have hstop : placeMakeup stillDraws noMargin.fuelMix share rest (load - 10 - mw) next =
      (next, load - 10 - mw) := by
    cases rest with
    | nil => rfl
    | cons _ _ =>
      have hdone : Binary64.le (load - 10 - mw) 0 = true :=
        decide_eq_true (hrest.resolve_left (List.cons_ne_nil _ _))
      rw [placeMakeup, if_pos hdone]
  have hcover : (coverReserve stillDraws noMargin [] load 10
      (mappedPlacement stillDraws [waterMill] noMargin (town :: first :: more) ())).1 = next := by
    apply coverReserve_done _ hleft
    rw [hcandidates, List.length_cons, hshare, hplace, hstop]
  rw [hplaced] at hnext
  rw [← htotal] at hload
  rw [reserveStage_short hothers hload, htotal, hcover, hnext]
  exact ⟨mill, gen, hmapped, hmill, hmakeup, hbus, hpmax, rfl⟩

/-- A load that one capped unit leaves half a millionth short. -/
noncomputable def justShort : List (DraftBus ℝ) := [town, village 69 (70 + 5 / 10 ^ 7)]

/-- Two buses that cap generation below the smallest unit. -/
noncomputable def lowVoltage : List (DraftBus ℝ) := [town, village 4 14, village 4 0]

theorem villages_origin (villages : List (ℝ × ℝ)) {b : DraftBus ℝ}
    (hb : b ∈ villages.map fun v => village v.1 v.2) : b.lon = 0 ∧ b.lat = 0 := by
  obtain ⟨v, _, rfl⟩ := List.mem_map.mp hb
  exact ⟨rfl, rfl⟩

theorem justShort_run : ∃ mill makeup : DraftGenerator ℝ, mill.pmaxMw = 10 ∧ makeup.pmaxMw = 60 ∧
    (reserveStage stillDraws [waterMill] noMargin justShort [] ()).1.gens = [mill, makeup] ∧
    makeupCandidates (mappedPlacement stillDraws [waterMill] noMargin justShort ()).buses [] = [1] := by
  have hothers : ∀ b ∈ [village 69 (70 + 5 / 10 ^ 7)], b.lon = 0 ∧ b.lat = 0 :=
    fun b hb => villages_origin [(69, 70 + 5 / 10 ^ 7)] hb
  have hcandidates : makeupCandidates
      (mappedPlacement stillDraws [waterMill] noMargin justShort ()).buses [] = [1] := by
    obtain ⟨_, _, _, hplaced⟩ := mappedPlacement_origin hothers
    rw [justShort, hplaced, makeupCandidates_apart]
    rfl
  obtain ⟨mill, makeup, _, hmill, _, _, hmakeup, hgens⟩ := single_makeup
    (village 69 (70 + 5 / 10 ^ 7)) [] [] (70 + 5 / 10 ^ 7) (60 + 5 / 10 ^ 7) 60 (le_refl _) hothers
    List.sum_singleton (by norm_num) hcandidates
    (by
      change (70 + 5 / 10 ^ 7 - 10) / (((1 : ℕ) : ℚ) : ℝ) = _
      norm_num)
    (by
      change max (min (min _ (60 * (69 / 69))) _) 5 = (60 : ℝ)
      norm_num)
    (by norm_num) (.inl rfl)
  exact ⟨mill, makeup, hmill, hmakeup, hgens, hcandidates⟩

theorem lowVoltage_run : ∃ mill makeup : DraftGenerator ℝ, mill.makeup = false ∧
    makeup.makeup = true ∧ makeup.bus = 1 ∧ makeup.pmaxMw = 5 ∧
    (reserveStage stillDraws [waterMill] noMargin lowVoltage [] ()).1.gens = [mill, makeup] ∧
    makeupCandidates (mappedPlacement stillDraws [waterMill] noMargin lowVoltage ()).buses [] =
      [1, 2] := by
  have hothers : ∀ b ∈ [village 4 14, village 4 0], b.lon = 0 ∧ b.lat = 0 :=
    fun b hb => villages_origin [(4, 14), (4, 0)] hb
  have hcandidates : makeupCandidates
      (mappedPlacement stillDraws [waterMill] noMargin lowVoltage ()).buses [] = [1, 2] := by
    obtain ⟨_, _, _, hplaced⟩ := mappedPlacement_origin hothers
    rw [lowVoltage, hplaced, makeupCandidates_apart]
    rfl
  obtain ⟨mill, makeup, hmapped, _, hflag, hbus, hmakeup, hgens⟩ := single_makeup
    (village 4 14) [village 4 0] [2] 14 2 5 (show (4 : ℝ) ≤ 69 by norm_num) hothers
    (by
      change 14 + (0 + 0) = (14 : ℝ)
      norm_num) (by norm_num) hcandidates
    (by
      change (14 - 10) / (((2 : ℕ) : ℚ) : ℝ) = 2
      norm_num)
    (by
      change max (min (min 2 (60 * (4 / 69))) (14 - 10)) 5 = (5 : ℝ)
      norm_num)
    (by norm_num) (.inr (by norm_num))
  exact ⟨mill, makeup, hmapped, hflag, hbus, hmakeup, hgens, hcandidates⟩

theorem mapped_ne_nil {others : List (DraftBus ℝ)} (hothers : ∀ b ∈ others, b.lon = 0 ∧ b.lat = 0) :
    (mappedCapacity [waterMill] noMargin (town :: others)).toList ≠ [] := by
  rw [mappedCapacity_origin hothers]
  exact List.cons_ne_nil _ _

theorem justShort_load : (justShort.map (·.loadMw)).sum = 70 + 5 / 10 ^ 7 := by
  change 0 + (70 + 5 / 10 ^ 7 + 0) = (70 + 5 / 10 ^ 7 : ℝ)
  norm_num

theorem reserve_margin_met_short :
    ∃ out, generators stillDraws [waterMill] noMargin justShort [] () = some out ∧
      reserveTarget noMargin justShort - 1 / 10 ^ 6 ≤ totalMw out.gens := by
  obtain ⟨_, _, _, _, _, hcandidates⟩ := justShort_run
  obtain ⟨out, hout⟩ := exists_generators stillDraws [waterMill] noMargin justShort [] ()
    (mapped_ne_nil fun b hb => villages_origin [(69, 70 + 5 / 10 ^ 7)] hb)
  obtain ⟨hmargin, _⟩ := reserve_margin_met stillDraws [waterMill] noMargin justShort [] () out hout
  refine ⟨out, hout, hmargin ?_ ?_⟩
  · rw [justShort_load]
    norm_num
  · rw [hcandidates]
    exact List.cons_ne_nil _ _

/-- Half a millionth of a MW stays uncovered, and a smallest unit exceeds its cap while another candidate
has none. -/
theorem reserve_margin_falls_short :
    (∃ out, generators stillDraws [waterMill] noMargin justShort [] () = some out ∧
      0 < (justShort.map (·.loadMw)).sum ∧
      makeupCandidates (mappedPlacement stillDraws [waterMill] noMargin justShort ()).buses [] ≠ [] ∧
      totalMw out.gens < reserveTarget noMargin justShort) ∧
    ∃ out, generators stillDraws [waterMill] noMargin lowVoltage [] () = some out ∧
      (∃ g ∈ out.gens, g.makeup = true ∧ busCap lowVoltage g.bus < g.pmaxMw) ∧
      ∃ bus ∈ makeupCandidates
          (mappedPlacement stillDraws [waterMill] noMargin lowVoltage ()).buses [],
        ∀ g ∈ out.gens, g.makeup = true → g.bus ≠ bus := by
  constructor
  · obtain ⟨mill, makeup, hmill, hmakeup, hgens, hcandidates⟩ := justShort_run
    obtain ⟨out, hout⟩ := exists_generators stillDraws [waterMill] noMargin justShort [] ()
      (mapped_ne_nil fun b hb => villages_origin [(69, 70 + 5 / 10 ^ 7)] hb)
    refine ⟨out, hout, ?_, ?_, ?_⟩
    · rw [justShort_load]
      norm_num
    · rw [hcandidates]
      exact List.cons_ne_nil _ _
    · have htotal : totalMw [mill, makeup] = 10 + (60 + 0) := by
        rw [← hmill, ← hmakeup]
        rfl
      rw [generators_eq _ hout, totalMw_markSlack, hgens, htotal, reserveTarget, justShort_load]
      change (10 + (60 + 0) : ℝ) < (1 + 0) * (70 + 5 / 10 ^ 7)
      norm_num
  · obtain ⟨mill, makeup, hmapped, hflag, hbus, hmakeup, hgens, hcandidates⟩ := lowVoltage_run
    obtain ⟨out, hout⟩ := exists_generators stillDraws [waterMill] noMargin lowVoltage [] ()
      (mapped_ne_nil fun b hb => villages_origin [(4, 14), (4, 0)] hb)
    have hplaced := generators_eq _ hout
    rw [hgens] at hplaced
    refine ⟨out, hout, ?_, 2, ?_, ?_⟩
    · obtain ⟨g, hg, hsame, hmade⟩ := exists_markSlack_of_mem
        (reserveStage stillDraws [waterMill] noMargin lowVoltage [] ()).1.buses
        (show makeup ∈ [mill, makeup] by exact List.mem_cons_of_mem _ List.mem_cons_self)
      rw [← hplaced] at hg
      have hat : g.bus = 1 := (congrArg (fun entry => entry.1.1) hsame).trans hbus
      have hpmax : g.pmaxMw = 5 := (congrArg Prod.snd hsame).trans hmakeup
      refine ⟨g, hg, hmade.trans hflag, ?_⟩
      rw [hat, hpmax, busCap_low rfl (show (4 : ℝ) ≤ 69 by norm_num)]
      change 60 * (4 / 69) < (5 : ℝ)
      norm_num
    · rw [hcandidates]
      exact List.mem_cons_of_mem _ List.mem_cons_self
    · intro g hg hmade
      rw [hplaced] at hg
      obtain ⟨old, hold, hsame, hflags⟩ := exists_of_mem_markSlack hg
      have hat : old.bus = g.bus := congrArg (fun entry => entry.1.1) hsame
      rcases List.mem_cons.mp hold with rfl | hold
      · rw [hmapped, hmade] at hflags
        cases hflags
      · rw [List.mem_singleton.mp hold, hbus] at hat
        omega

end Sample

end Tellegen.Osm
