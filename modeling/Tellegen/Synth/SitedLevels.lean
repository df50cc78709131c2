import Tellegen.Synth.Siting

/-!
Siting keeps to the counts: every level gets its buses, at sites of its own and at those of the levels
above, and no subtraction goes below zero on the way.
-/

set_option linter.unusedSectionVars false

open Binary64 hiding max min

namespace Tellegen.Synth

/-! ### Random orders -/

section Orders

variable {F S : Type} [Planning F] (rng : Osm.Stream F S)

theorem swapAt_perm {α : Type} (v : List α) (i j : ℕ) : (swapAt v i j).Perm v := by
  unfold swapAt
  split
  case h_1 a b ha hb =>
    obtain ⟨hi, rfl⟩ := List.getElem?_eq_some_iff.mp ha
    obtain ⟨hj, rfl⟩ := List.getElem?_eq_some_iff.mp hb
    exact List.set_set_perm hi hj
  case h_2 => exact .refl v

theorem shuffle_perm {α : Type} (v : List α) (state : S) : (shuffle rng v state).1.Perm v := by
  refine List.foldlRecOn (motive := fun st : List α × S => st.1.Perm v) _ _ (.refl v) ?_
  intro st h i _
  exact (swapAt_perm _ _ _).trans h

theorem rankJitter_perm (v : List ℕ) (state : S) : (rankJitter rng v state).1.Perm v := by
  have hfold : ∀ (step : List (F × ℕ) × S → ℕ × ℕ → List (F × ℕ) × S),
      (∀ st p, (step st p).1.map (·.2) = st.1.map (·.2) ++ [p.1]) →
      ∀ (list : List (ℕ × ℕ)) st, (list.foldl step st).1.map (·.2) = st.1.map (·.2) ++ list.map (·.1) := by
    intro step hstep list
    induction list with
    | nil => exact fun st => (List.append_nil _).symm
    | cons p rest ih =>
      intro st
      rw [List.foldl_cons, ih, hstep]
      simp
  refine ((List.mergeSort_perm _ _).map _).trans ?_
  rw [hfold _ fun st p => by simp, List.map_nil, List.nil_append, List.zipIdx_map_fst]

end Orders

/-! ### Steps down -/

section Plan

variable {F : Type} [Planning F] (t : Tuning F) (want : List ℕ) (depth : ℕ)

/-- What a level receives from the levels above it. -/
def fromAbove (plan : StepPlan) : ℕ → ℕ
  | 0 => 0
  | 1 => plan.stepDown 0
  | l + 2 => plan.stepDown (l + 1) + plan.stepSkip l

/-- What the plan holds with the steps down of levels below `n` and those by two of levels below `m`. -/
structure Planned (n m : ℕ) (plan : StepPlan) : Prop where
  received : ∀ l, plan.colocated l = fromAbove plan l
  room : ∀ l, plan.colocated l ≤ want.getD l 0
  given : ∀ k, plan.stepDown k + plan.stepSkip k ≤ want.getD k 0
  noDown : ∀ k, n ≤ k → plan.stepDown k = 0
  noSkip : ∀ k, m ≤ k → plan.stepSkip k = 0
  down : ∀ k, plan.stepDown k ≠ 0 → k + 1 < depth
  skip : ∀ k, plan.stepSkip k ≠ 0 → k + 2 < depth

variable {want depth}

theorem fromAbove_down (plan : StepPlan) (n a : ℕ) (hzero : plan.stepDown n = 0) (colocated : ℕ → ℕ) (l : ℕ) :
    fromAbove { plan with stepDown := Function.update plan.stepDown n a, colocated := colocated } l =
      fromAbove plan l + if l = n + 1 then a else 0 := by
  match l with
  | 0 => rfl
  | 1 =>
    simp only [fromAbove, Function.update_apply]
    split <;> split <;> first | omega | (subst_vars; omega)
  | l + 2 =>
    simp only [fromAbove, Function.update_apply]
    split <;> split <;> first | omega | (subst_vars; omega)

theorem fromAbove_skip (plan : StepPlan) (n a : ℕ) (hzero : plan.stepSkip n = 0) (colocated : ℕ → ℕ) (l : ℕ) :
    fromAbove { plan with stepSkip := Function.update plan.stepSkip n a, colocated := colocated } l =
      fromAbove plan l + if l = n + 2 then a else 0 := by
  match l with
  | 0 => rfl
  | 1 => simp [fromAbove]
  | l + 2 =>
    simp only [fromAbove, Function.update_apply]
    split <;> split <;> first | omega | (subst_vars; omega)

theorem planned_start : Planned want depth 0 0
    { colocated := fun _ => 0, stepDown := fun _ => 0, stepSkip := fun _ => 0 } where
  received l := by
    match l with
    | 0 => rfl
    | 1 => rfl
    | _ + 2 => rfl
  room _ := Nat.zero_le _
  given _ := Nat.zero_le _
  noDown _ _ := rfl
  noSkip _ _ := rfl
  down _ h := absurd rfl h
  skip _ h := absurd rfl h

/-- What a level receives by a step is counted where it is planned, and fits. -/
theorem Planned.receives {n m level a : ℕ} {plan given : StepPlan} (h : Planned want depth n m plan)
    (habove : ∀ l, fromAbove given l = fromAbove plan l + if l = level then a else 0)
    (hroom : a ≤ want.getD level 0 - plan.colocated level) :
    let colocated := Function.update plan.colocated level (plan.colocated level + a)
    (∀ l, colocated l = fromAbove given l) ∧ ∀ l, colocated l ≤ want.getD l 0 := by
  have hfull := h.room level
  constructor
  · refine (Function.forall_update_iff plan.colocated fun l c => c = fromAbove given l).mpr ⟨?_, fun l hl => ?_⟩
    · rw [habove, if_pos rfl, h.received]
    · rw [habove, if_neg hl, h.received]
      rfl
  · exact (Function.forall_update_iff plan.colocated fun l c => c ≤ want.getD l 0).mpr
      ⟨by omega, fun l _ => h.room l⟩

theorem Planned.giveDown {n : ℕ} {plan : StepPlan} (h : Planned want depth n n plan) {a : ℕ}
    (hwant : a ≤ want.getD n 0) (hroom : a ≤ want.getD (n + 1) 0 - plan.colocated (n + 1))
    (hbelow : n + 1 < depth) : Planned want depth (n + 1) n
      { plan with
        stepDown := Function.update plan.stepDown n a
        colocated := Function.update plan.colocated (n + 1) (plan.colocated (n + 1) + a) } := by
  have hskip := h.noSkip n (Nat.le_refl n)
  obtain ⟨hreceived, hfits⟩ := h.receives
    (fromAbove_down plan n a (h.noDown n (Nat.le_refl n)) _) hroom
  refine { received := hreceived, room := hfits, given := ?_, noDown := fun k hk => ?_
           noSkip := h.noSkip, down := ?_, skip := h.skip }
  · exact (Function.forall_update_iff plan.stepDown fun k d => d + plan.stepSkip k ≤ want.getD k 0).mpr
      ⟨by omega, fun k _ => h.given k⟩
  · dsimp only
    rw [Function.update_of_ne (by omega)]
    exact h.noDown k (by omega)
  · exact (Function.forall_update_iff plan.stepDown fun k d => d ≠ 0 → k + 1 < depth).mpr
      ⟨fun _ => hbelow, fun k _ => h.down k⟩

theorem Planned.giveSkip {n : ℕ} {plan : StepPlan} (h : Planned want depth (n + 1) n plan) {a : ℕ}
    (hwant : plan.stepDown n + a ≤ want.getD n 0)
    (hroom : a ≤ want.getD (n + 2) 0 - plan.colocated (n + 2)) (hbelow : n + 2 < depth) :
    Planned want depth (n + 1) (n + 1)
      { plan with
        stepSkip := Function.update plan.stepSkip n a
        colocated := Function.update plan.colocated (n + 2) (plan.colocated (n + 2) + a) } := by
  obtain ⟨hreceived, hfits⟩ := h.receives
    (fromAbove_skip plan n a (h.noSkip n (Nat.le_refl n)) _) hroom
  refine { received := hreceived, room := hfits, given := ?_, noDown := h.noDown
           noSkip := fun k hk => ?_, down := h.down, skip := ?_ }
  · exact (Function.forall_update_iff plan.stepSkip fun k d => plan.stepDown k + d ≤ want.getD k 0).mpr
      ⟨hwant, fun k _ => h.given k⟩
  · dsimp only
    rw [Function.update_of_ne (by omega)]
    exact h.noSkip k (by omega)
  · exact (Function.forall_update_iff plan.stepSkip fun k d => d ≠ 0 → k + 2 < depth).mpr
      ⟨fun _ => hbelow, fun k _ => h.skip k⟩

theorem Planned.planDown {n : ℕ} {plan : StepPlan} (h : Planned want depth n n plan) :
    Planned want depth (n + 1) n (planDown t want depth plan n) := by
  unfold Synth.planDown
  split
  case isTrue hbelow =>
    apply h.giveDown _ _ hbelow
    · exact (Nat.min_le_left _ _).trans (Nat.min_le_right _ _)
    · exact Nat.min_le_right _ _
  case isFalse =>
    exact { received := h.received, room := h.room, given := h.given
            noDown := fun k hk => h.noDown k (by omega), noSkip := h.noSkip, down := h.down, skip := h.skip }

theorem Planned.planSkip {n : ℕ} {plan : StepPlan} (h : Planned want depth (n + 1) n plan) :
    ∃ plan', planSkip t want depth plan n = some plan' ∧ Planned want depth (n + 1) (n + 1) plan' := by
  unfold Synth.planSkip
  split
  case isTrue hbelow =>
    have hgiven := h.given n
    rw [checkedSub_of_le (by omega), Option.map_some]
    refine ⟨_, rfl, ?_⟩
    apply h.giveSkip _ _ hbelow
    · have hspare : Nat.min (Nat.min (stepsWanted want t.stepSkip n) (want.getD n 0 - plan.stepDown n))
          (want.getD (n + 2) 0 - plan.colocated (n + 2)) ≤ want.getD n 0 - plan.stepDown n :=
        (Nat.min_le_left _ _).trans (Nat.min_le_right _ _)
      omega
    · exact Nat.min_le_right _ _
  case isFalse =>
    exact ⟨plan, rfl, { received := h.received, room := h.room, given := h.given, noDown := h.noDown
                        noSkip := fun k hk => h.noSkip k (by omega), down := h.down, skip := h.skip }⟩

/-- The steps fit: no level receives more than its count, and none gives more than it has. -/
theorem planSteps_spec : ∃ plan, planSteps t want depth = some plan ∧ Planned want depth depth depth plan := by
  have hfold : ∀ n, ∃ plan, (List.range n).foldlM (fun plan k =>
      Synth.planSkip t want depth (Synth.planDown t want depth plan k) k)
        { colocated := fun _ => 0, stepDown := fun _ => 0, stepSkip := fun _ => 0 } = some plan ∧
      Planned want depth n n plan := by
    intro n
    induction n with
    | zero => exact ⟨_, rfl, planned_start⟩
    | succ n ih =>
      obtain ⟨plan, hplan, hplanned⟩ := ih
      obtain ⟨plan', hplan', hplanned'⟩ := (hplanned.planDown t).planSkip t
      refine ⟨plan', ?_, hplanned'⟩
      rw [List.range_succ, List.foldlM_append, hplan]
      simp only [Option.bind_eq_bind, Option.bind_some, List.foldlM_cons, List.foldlM_nil, hplan',
        Option.pure_def]
  exact hfold depth

theorem standaloneOf_spec {plan : StepPlan} (h : Planned want depth depth depth plan) :
    ∃ standalone, standaloneOf want depth plan = some standalone ∧ standalone.length = depth ∧
      ∀ k < depth, standalone.getD k 0 + fromAbove plan k = want.getD k 0 := by
  have hmap : ∀ list : List ℕ, list.mapM (fun k => checkedSub (want.getD k 0) (plan.colocated k)) =
      some (list.map fun k => want.getD k 0 - plan.colocated k) := by
    intro list
    induction list with
    | nil => rfl
    | cons k rest ih =>
      rw [List.mapM_cons, checkedSub_of_le (h.room k), ih]
      rfl
  refine ⟨_, hmap _, by rw [List.length_map, List.length_range], fun k hk => ?_⟩
  have hroom := h.room k
  rw [List.getD_eq_getElem _ _ (by rwa [List.length_map, List.length_range]), List.getElem_map,
    List.getElem_range, ← h.received]
  omega

end Plan

/-! ### Levels of the sites -/

section Levels

variable {F S : Type} [Planning F] (xy : List (F × F))

/-- What placing sites of level `k` holds, from the levels at its start. -/
structure Placed (start : List (Option ℕ)) (k count : ℕ) (st : Placing F) : Prop where
  length : st.levelOf.length = start.length
  taken : st.taken ≤ count
  left : st.levelOf.count none + st.taken = start.count none
  placed : ∀ l, st.levelOf.count (some l) = start.count (some l) + if l = k then st.taken else 0

theorem placeAt_cases (k count : ℕ) (spacing : F) (pass : ℕ) (st : Placing F) (i : ℕ) :
    (placeAt xy k count spacing pass st i = st ∧
      (pass = 1 → st.taken = count ∨ st.levelOf[i]? ≠ some none)) ∨
    (st.taken ≠ count ∧ st.levelOf[i]? = some none ∧
      (placeAt xy k count spacing pass st i).levelOf = st.levelOf.set i (some k) ∧
      (placeAt xy k count spacing pass st i).taken = st.taken + 1) := by
  unfold placeAt
  split
  case isTrue hfull => exact .inl ⟨rfl, fun _ => .inl hfull⟩
  case isFalse hfew =>
    split
    case h_1 hnone =>
      dsimp only
      split
      case isTrue => exact .inr ⟨hfew, hnone, rfl, rfl⟩
      case isFalse hnear =>
        refine .inl ⟨rfl, fun hpass => ?_⟩
        rw [hpass] at hnear
        exact absurd rfl hnear
    case h_2 hsome => exact .inl ⟨rfl, fun _ => .inr hsome⟩

theorem Placed.step {start : List (Option ℕ)} {k count : ℕ} {st : Placing F} (h : Placed start k count st)
    (spacing : F) (pass i : ℕ) : Placed start k count (placeAt xy k count spacing pass st i) := by
  rcases placeAt_cases xy k count spacing pass st i with ⟨heq, -⟩ | ⟨hfew, hnone, hlevels, htaken⟩
  · rwa [heq]
  · obtain ⟨hi, hat⟩ := List.getElem?_eq_some_iff.mp hnone
    have hpos : 0 < st.levelOf.count none := List.count_pos_iff.mpr (hat ▸ List.getElem_mem hi)
    have hleft := h.left
    have hmost := h.taken
    refine { length := ?_, taken := ?_, left := ?_, placed := fun l => ?_ }
    · rw [hlevels, List.length_set, h.length]
    · omega
    · rw [hlevels, htaken, List.count_set hi, hat]
      simp
      omega
    · have hold := h.placed l
      rw [hlevels, htaken, List.count_set hi, hat, hold]
      simp only [beq_iff_eq, Option.some.injEq, reduceCtorEq, if_false]
      split <;> split <;> omega

theorem Placed.pass {start : List (Option ℕ)} {k count : ℕ} {st : Placing F} (h : Placed start k count st)
    (spacing : F) (pass : ℕ) (list : List ℕ) :
    Placed start k count (list.foldl (placeAt xy k count spacing pass) st) := by
  induction list generalizing st with
  | nil => exact h
  | cons i rest ih => exact ih (h.step xy spacing pass i)

theorem secondPass_spec (k count : ℕ) (spacing : F) (st : Placing F) (n : ℕ) :
    let last := (List.range n).foldl (placeAt xy k count spacing 1) st
    last.taken = count ∨ ∀ i < n, last.levelOf[i]? ≠ some none := by
  induction n with
  | zero => exact .inr fun i hi => absurd hi (Nat.not_lt_zero i)
  | succ n ih =>
    dsimp only at ih ⊢
    rw [List.range_succ, List.foldl_append, List.foldl_cons, List.foldl_nil]
    set before := (List.range n).foldl (placeAt xy k count spacing 1) st
    rcases placeAt_cases xy k count spacing 1 before n with ⟨heq, hor⟩ | ⟨hfew, hnone, hlevels, htaken⟩
    · rw [heq]
      rcases hor rfl with hfull | hsome
      · exact .inl hfull
      · rcases ih with hfull | hnone
        · exact .inl hfull
        · refine .inr fun i hi => ?_
          rcases Nat.lt_succ_iff_lt_or_eq.mp hi with hi | rfl
          · exact hnone i hi
          · exact hsome
    · refine .inr fun i hi => ?_
      rw [hlevels]
      rcases Nat.lt_succ_iff_lt_or_eq.mp hi with hi | rfl
      · rw [List.getElem?_set_ne (by omega)]
        exact (ih.resolve_left hfew) i hi
      · obtain ⟨hi, -⟩ := List.getElem?_eq_some_iff.mp hnone
        rw [List.getElem?_set_self hi]
        exact fun heq => nomatch heq

theorem placeLevel_spec (t : Tuning F) (area : F) {start : List (Option ℕ)} {level : ℕ × ℕ}
    (henough : level.1 ≤ start.count none) :
    (placeLevel xy t area start level).length = start.length ∧
      (placeLevel xy t area start level).count none + level.1 = start.count none ∧
      ∀ l, (placeLevel xy t area start level).count (some l) =
        start.count (some l) + if level.2 = l then level.1 else 0 := by
  unfold placeLevel
  split
  case isTrue hzero =>
    rw [hzero]
    refine ⟨rfl, rfl, fun l => ?_⟩
    rw [ite_self, add_zero]
  case isFalse =>
    set spacing := t.levelSpacing.getD level.2 0 * Libm.sqrt (area / Binary64.ofNat level.1)
    dsimp only
    have hrange : List.range 2 = [0, 1] := rfl
    rw [hrange, List.foldl_cons, List.foldl_cons, List.foldl_nil]
    have hstart : Placed start level.2 level.1
        ({ levelOf := start, chosen := [], taken := 0 } : Placing F) :=
      { length := rfl, taken := Nat.zero_le _, left := rfl, placed := fun l => by simp }
    have hfirst := hstart.pass xy spacing 0 (List.range start.length)
    have hlast := hfirst.pass xy spacing 1 (List.range start.length)
    have hor := secondPass_spec xy level.2 level.1 spacing
      ((List.range start.length).foldl (placeAt xy level.2 level.1 spacing 0)
        { levelOf := start, chosen := [], taken := 0 }) start.length
    dsimp only at hor
    set last := (List.range start.length).foldl (placeAt xy level.2 level.1 spacing 1)
      ((List.range start.length).foldl (placeAt xy level.2 level.1 spacing 0)
        { levelOf := start, chosen := [], taken := 0 })
    have hleft := hlast.left
    have hfull : last.taken = level.1 := by
      rcases hor with hfull | hnone
      · exact hfull
      · have hzero : last.levelOf.count none = 0 := by
          apply List.count_eq_zero.mpr
          intro hmem
          obtain ⟨i, hi, hat⟩ := List.getElem_of_mem hmem
          refine hnone i ?_ (List.getElem?_eq_some_iff.mpr ⟨hi, hat⟩)
          rwa [← hlast.length]
        have hmost := hlast.taken
        omega
    refine ⟨hlast.length, by rw [← hfull, hleft], fun l => ?_⟩
    rw [hlast.placed l, hfull]
    simp only [eq_comm]

def asked (levels : List (ℕ × ℕ)) (l : ℕ) : ℕ := (levels.map fun p => if p.2 = l then p.1 else 0).sum

theorem placeLevels_spec (t : Tuning F) (area : F) (levels : List (ℕ × ℕ)) {start : List (Option ℕ)}
    (henough : (levels.map (·.1)).sum ≤ start.count none) :
    (levels.foldl (placeLevel xy t area) start).length = start.length ∧
      (levels.foldl (placeLevel xy t area) start).count none + (levels.map (·.1)).sum = start.count none ∧
      ∀ l, (levels.foldl (placeLevel xy t area) start).count (some l) =
        start.count (some l) + asked levels l := by
  induction levels generalizing start with
  | nil => exact ⟨rfl, rfl, fun _ => rfl⟩
  | cons level rest ih =>
    rw [List.map_cons, List.sum_cons] at henough
    have hfits : level.1 ≤ start.count none := by omega
    obtain ⟨hlength, hnone, hsome⟩ := placeLevel_spec xy t area hfits
    have hrest : (rest.map (·.1)).sum ≤ (placeLevel xy t area start level).count none := by omega
    obtain ⟨hlength', hnone', hsome'⟩ := ih hrest
    rw [List.foldl_cons]
    refine ⟨hlength'.trans hlength, ?_, fun l => ?_⟩
    · rw [List.map_cons, List.sum_cons]
      omega
    · rw [hsome', hsome, asked, asked, List.map_cons, List.sum_cons, Nat.add_assoc]

theorem fillLevels_spec {depth : ℕ} (hdepth : 0 < depth) (levelOf : List (Option ℕ)) {pool : List ℕ}
    (hpool : pool.length = levelOf.count none) :
    ∃ out, fillLevels depth levelOf pool = some out ∧ out.length = levelOf.length ∧
      ∀ l, out.count l = levelOf.count (some l) + pool.count l := by
  induction levelOf generalizing pool with
  | nil =>
    obtain rfl := List.length_eq_zero_iff.mp hpool
    exact ⟨[], rfl, rfl, fun _ => rfl⟩
  | cons level rest ih =>
    cases level with
    | some k =>
      rw [List.count_cons_of_ne (by simp)] at hpool
      obtain ⟨out, hout, hlength, hcount⟩ := ih hpool
      refine ⟨k :: out, by rw [fillLevels, hout, Option.map_some], by simp [hlength], fun l => ?_⟩
      rw [List.count_cons, List.count_cons, hcount]
      simp only [beq_iff_eq, Option.some.injEq]
      omega
    | none =>
      rw [List.count_cons_self] at hpool
      cases pool with
      | nil => exact nomatch hpool
      | cons p pool =>
        rw [List.length_cons, Nat.add_right_cancel_iff] at hpool
        obtain ⟨out, hout, hlength, hcount⟩ := ih hpool
        refine ⟨p :: out, ?_, by simp [hlength], fun l => ?_⟩
        · rw [fillLevels, checkedSub_of_le hdepth, Option.bind_some, List.tail_cons, hout]
          rfl
        · rw [List.count_cons, List.count_cons_of_ne (by simp), List.count_cons, hcount]
          omega

theorem asked_append (a b : List (ℕ × ℕ)) (l : ℕ) : asked (a ++ b) l = asked a l + asked b l := by
  rw [asked, List.map_append, List.sum_append]
  rfl

theorem count_pool (levels : List (ℕ × ℕ)) (l : ℕ) :
    (levels.flatMap fun level => List.replicate level.1 level.2).count l = asked levels l := by
  induction levels with
  | nil => rfl
  | cons level rest ih =>
    rw [List.flatMap_cons, List.count_append, ih, List.count_replicate, asked, asked, List.map_cons,
      List.sum_cons]
    simp only [beq_iff_eq]

theorem length_pool (levels : List (ℕ × ℕ)) :
    (levels.flatMap fun level => List.replicate level.1 level.2).length = (levels.map (·.1)).sum := by
  induction levels with
  | nil => rfl
  | cons level rest ih =>
    rw [List.flatMap_cons, List.length_append, ih, List.length_replicate, List.map_cons, List.sum_cons]

theorem asked_zipIdx (standalone : List ℕ) (l : ℕ) : asked standalone.zipIdx l = standalone.getD l 0 := by
  have hfrom : ∀ (list : List ℕ) (n : ℕ), asked (list.zipIdx n) l = if n ≤ l then list.getD (l - n) 0 else 0 := by
    intro list
    induction list with
    | nil =>
      intro n
      split <;> rfl
    | cons a rest ih =>
      intro n
      rw [List.zipIdx_cons, asked, List.map_cons, List.sum_cons, ← asked, ih]
      dsimp only
      rcases Nat.lt_trichotomy n l with hlt | rfl | hgt
      · obtain ⟨d, rfl⟩ : ∃ d, l = n + d + 1 := ⟨l - n - 1, by omega⟩
        rw [if_neg (by omega), if_pos (by omega), if_pos (by omega), zero_add,
          show n + d + 1 - n = d + 1 by omega, List.getD_cons_succ, show n + d + 1 - (n + 1) = d by omega]
      · rw [if_pos rfl, if_neg (by omega), if_pos (Nat.le_refl n), Nat.sub_self, List.getD_cons_zero,
          Nat.add_zero]
      · rw [if_neg (by omega), if_neg (by omega), if_neg (by omega)]
  rw [hfrom standalone 0, if_pos (Nat.zero_le l), Nat.sub_zero]

theorem levelsOf_spec (t : Tuning F) (rng : Osm.Stream F S) {standalone : List ℕ} (hpos : 0 < standalone.length)
    (area : F) (state : S) (hsites : xy.length = standalone.sum) :
    ∃ out next, levelsOf xy t rng standalone.length standalone area state = some (out, next) ∧
      out.length = xy.length ∧ ∀ l, out.count l = standalone.getD l 0 := by
  have hsplit : standalone.zipIdx.take t.levelSpacing.length ++
      standalone.zipIdx.drop (Nat.min t.levelSpacing.length standalone.length) =
      standalone.zipIdx := by
    have hlength : standalone.zipIdx.length = standalone.length := List.length_zipIdx
    rcases Nat.le_total t.levelSpacing.length standalone.length with hle | hle
    · have hmin : Nat.min t.levelSpacing.length standalone.length = t.levelSpacing.length := Nat.min_eq_left hle
      rw [hmin, List.take_append_drop]
    · have hmin : Nat.min t.levelSpacing.length standalone.length = standalone.length := Nat.min_eq_right hle
      rw [hmin, List.take_of_length_le (by omega), List.drop_of_length_le (by omega), List.append_nil]
  have htotal : (standalone.zipIdx.map (·.1)).sum = standalone.sum := by
    rw [List.zipIdx_map_fst]
  rw [← hsplit, List.map_append, List.sum_append] at htotal
  have hnone : (List.replicate xy.length (none : Option ℕ)).count none = xy.length := List.count_replicate_self
  have hfits : ((standalone.zipIdx.take t.levelSpacing.length).map (·.1)).sum ≤
      (List.replicate xy.length (none : Option ℕ)).count none := by omega
  obtain ⟨hlength, hleft, hplaced⟩ := placeLevels_spec xy t area _ hfits
  set spaced := (standalone.zipIdx.take t.levelSpacing.length).foldl (placeLevel xy t area)
    (List.replicate xy.length none)
  have hperm := shuffle_perm rng (poolOf t standalone.length standalone) state
  have hpool : (poolOf t standalone.length standalone).length = spaced.count none := by
    rw [poolOf, length_pool]
    omega
  obtain ⟨out, hout, houtLength, hcount⟩ :=
    fillLevels_spec hpos spaced (hperm.length_eq.trans hpool)
  refine ⟨out, (shuffle rng (poolOf t standalone.length standalone) state).2, ?_, ?_, fun l => ?_⟩
  · unfold levelsOf
    dsimp only
    rw [hout, Option.map_some]
  · rw [houtLength, hlength, List.length_replicate]
  · have hzero : (List.replicate xy.length (none : Option ℕ)).count (some l) = 0 := by
      apply List.count_eq_zero.mpr
      intro hmem
      exact nomatch List.eq_of_mem_replicate hmem
    rw [hcount, hplaced, hzero, hperm.count_eq, poolOf, count_pool, zero_add, ← asked_append, hsplit,
      asked_zipIdx]

end Levels

/-! ### Slots -/

section Slots

variable {F S : Type} [Planning F]

def slotsOn (slots : List (Slot F)) (l : ℕ) : ℕ := slots.countP fun s => s.tier = l

theorem countP_range_between (m a b : ℕ) :
    (List.range m).countP (fun j => decide (a ≤ j ∧ j < a + b)) + Nat.min m a = Nat.min m (a + b) := by
  induction m with
  | zero => exact (Nat.zero_min a).trans (Nat.zero_min (a + b)).symm
  | succ m ih =>
    rw [List.range_succ, List.countP_append, List.countP_singleton]
    simp only [decide_eq_true_eq, Nat.min_def] at ih ⊢
    split at ih <;> split at ih <;> split <;> split <;> split <;> omega

theorem pushSteps_spec (offsetDeg : F) (steps : List (ℕ × ℕ)) {slots : List (Slot F)}
    (hsteps : ∀ step ∈ steps, step.1 < slots.length) (l : ℕ) :
    slotsOn (steps.foldl (pushStep offsetDeg) slots) l = slotsOn slots l + steps.countP fun s => s.2 = l := by
  induction steps generalizing slots with
  | nil => rfl
  | cons step rest ih =>
    obtain ⟨slot, hslot⟩ : ∃ slot, slots[step.1]? = some slot :=
      ⟨_, List.getElem?_eq_getElem (hsteps step List.mem_cons_self)⟩
    rw [List.foldl_cons, ih]
    · rw [List.countP_cons]
      unfold pushStep
      rw [hslot]
      dsimp only
      rw [slotsOn, List.countP_append, List.countP_singleton, ← slotsOn]
      dsimp only
      omega
    · intro s hs
      have hlt := hsteps s (List.mem_cons_of_mem _ hs)
      unfold pushStep
      rw [hslot]
      dsimp only
      rw [List.length_append, List.length_singleton]
      omega

theorem countP_stepsAt (plan : StepPlan) (k l : ℕ) {atLevel : List ℕ}
    (henough : plan.stepDown k + plan.stepSkip k ≤ atLevel.length) :
    (stepsAt plan k atLevel).countP (fun s => s.2 = l) =
      (if l = k + 1 then plan.stepDown k else 0) + if l = k + 2 then plan.stepSkip k else 0 := by
  have hranks : (stepsAt plan k atLevel).countP (fun s => s.2 = l) =
      (List.range atLevel.length).countP fun j =>
        (j < plan.stepDown k ∧ l = k + 1) ∨
          (¬ j < plan.stepDown k ∧ j < plan.stepDown k + plan.stepSkip k ∧ l = k + 2) := by
    have hmap : atLevel.zipIdx.map (·.2) = List.range atLevel.length := by
      rw [List.zipIdx_map_snd, List.range_eq_range']
    rw [stepsAt, List.countP_filterMap, ← hmap, List.countP_map]
    apply List.countP_congr
    rintro ⟨i, j⟩ -
    simp only [Function.comp_apply]
    by_cases hdown : j < plan.stepDown k
    · simp [hdown, eq_comm]
    · by_cases hskip : j < plan.stepDown k + plan.stepSkip k
      · simp [hdown, hskip, eq_comm]
      · simp [hdown, hskip]
  rw [hranks]
  by_cases hnext : l = k + 1
  · have hrange := countP_range_between atLevel.length 0 (plan.stepDown k)
    rw [if_pos hnext, if_neg (by omega)]
    have hsame : (List.range atLevel.length).countP (fun j =>
        (j < plan.stepDown k ∧ l = k + 1) ∨
          (¬ j < plan.stepDown k ∧ j < plan.stepDown k + plan.stepSkip k ∧ l = k + 2)) =
        (List.range atLevel.length).countP fun j => decide (0 ≤ j ∧ j < 0 + plan.stepDown k) := by
      apply List.countP_congr
      intro j _
      simp only [decide_eq_true_eq]
      omega
    rw [hsame]
    simp only [Nat.min_def] at hrange
    split at hrange <;> split at hrange <;> omega
  · have hrange := countP_range_between atLevel.length (plan.stepDown k) (plan.stepSkip k)
    rw [if_neg hnext, zero_add]
    by_cases hskip : l = k + 2
    · rw [if_pos hskip]
      have hsame : (List.range atLevel.length).countP (fun j =>
          (j < plan.stepDown k ∧ l = k + 1) ∨
            (¬ j < plan.stepDown k ∧ j < plan.stepDown k + plan.stepSkip k ∧ l = k + 2)) =
          (List.range atLevel.length).countP fun j =>
            decide (plan.stepDown k ≤ j ∧ j < plan.stepDown k + plan.stepSkip k) := by
        apply List.countP_congr
        intro j _
        simp only [decide_eq_true_eq]
        omega
      rw [hsame]
      simp only [Nat.min_def] at hrange
      split at hrange <;> split at hrange <;> omega
    · rw [if_neg hskip]
      apply List.countP_eq_zero.mpr
      intro j _
      simp only [decide_eq_true_eq]
      omega

/-- What the slots hold when the levels below `n` have stepped down. -/
def Stepped (plan : StepPlan) (standalone : List ℕ) (n : ℕ) (slots : List (Slot F)) : Prop :=
  ∀ l, slotsOn slots l = standalone.getD l 0 +
    ((if 1 ≤ l ∧ l - 1 < n then plan.stepDown (l - 1) else 0) +
      if 2 ≤ l ∧ l - 2 < n then plan.stepSkip (l - 2) else 0)

theorem Stepped.complete {plan : StepPlan} {standalone : List ℕ} {n : ℕ} {slots : List (Slot F)}
    (h : Stepped plan standalone n slots) {l : ℕ} (hl : l ≤ n) :
    slotsOn slots l = standalone.getD l 0 + fromAbove plan l := by
  rw [h l]
  match l with
  | 0 => rfl
  | 1 =>
    rw [if_pos (by omega), if_neg (by omega)]
    rfl
  | l + 2 =>
    rw [if_pos (by omega), if_pos (by omega)]
    rfl

theorem stepLevel_spec (rng : Osm.Stream F S) {want : List ℕ} {depth : ℕ} {plan : StepPlan}
    (hplanned : Planned want depth depth depth plan) {standalone : List ℕ}
    (hstandalone : ∀ k < depth, standalone.getD k 0 + fromAbove plan k = want.getD k 0) (offsetDeg : F)
    {n : ℕ} (hn : n < depth) {st : List (Slot F) × S} (h : Stepped plan standalone n st.1) :
    Stepped plan standalone (n + 1) (stepLevel rng plan offsetDeg st n).1 := by
  set atLevel := (List.range st.1.length).filter fun i => (st.1[i]?).any fun s => s.tier = n with hatLevel
  have hlength : atLevel.length = slotsOn st.1 n := by
    have hmap : ∀ slots : List (Slot F), ((List.range slots.length).map fun i => slots[i]?) = slots.map some := by
      intro slots
      apply List.ext_getElem (by simp)
      intro i h1 h2
      simp only [List.length_map, List.length_range] at h1
      simp [List.getElem?_eq_getElem h1]
    have hcount : (List.range st.1.length).countP (fun i => (st.1[i]?).any fun s => s.tier = n) =
        ((List.range st.1.length).map fun i => st.1[i]?).countP fun s => s.any fun s => s.tier = n := by
      rw [List.countP_map]
      rfl
    rw [hatLevel, ← List.countP_eq_length_filter, hcount, hmap, List.countP_map]
    rfl
  have hperm := rankJitter_perm rng atLevel st.2
  have hgiven := hplanned.given n
  have hfull := h.complete (Nat.le_refl n)
  have hwant := hstandalone n hn
  have hsteps : ∀ step ∈ stepsAt plan n (rankJitter rng atLevel st.2).1, step.1 < st.1.length := by
    intro step hstep
    obtain ⟨p, hp, hsome⟩ := List.mem_filterMap.mp hstep
    have hfst : step.1 = p.1 := by
      dsimp only at hsome
      split at hsome
      · obtain rfl := Option.some.inj hsome
        rfl
      · split at hsome
        · obtain rfl := Option.some.inj hsome
          rfl
        · exact nomatch hsome
    have hmem : p.1 ∈ atLevel := hperm.mem_iff.mp (List.fst_mem_of_mem_zipIdx hp)
    rw [hfst]
    exact List.mem_range.mp (List.mem_filter.mp hmem).1
  intro l
  rw [stepLevel, pushSteps_spec offsetDeg _ hsteps, h l, countP_stepsAt]
  · by_cases hdown : l = n + 1
    · subst hdown
      rw [if_pos rfl, if_neg (show ¬ n + 1 = n + 2 by omega), if_neg (show ¬ (1 ≤ n + 1 ∧ n + 1 - 1 < n) by omega),
        if_pos (show 1 ≤ n + 1 ∧ n + 1 - 1 < n + 1 by omega), show n + 1 - 1 = n by omega]
      have hskip : (2 ≤ n + 1 ∧ n + 1 - 2 < n) ↔ (2 ≤ n + 1 ∧ n + 1 - 2 < n + 1) := by omega
      simp only [hskip]
      omega
    · by_cases hskip : l = n + 2
      · subst hskip
        rw [if_neg (show ¬ n + 2 = n + 1 by omega), if_pos rfl, if_neg (show ¬ (1 ≤ n + 2 ∧ n + 2 - 1 < n) by omega),
          if_neg (show ¬ (1 ≤ n + 2 ∧ n + 2 - 1 < n + 1) by omega),
          if_neg (show ¬ (2 ≤ n + 2 ∧ n + 2 - 2 < n) by omega),
          if_pos (show 2 ≤ n + 2 ∧ n + 2 - 2 < n + 1 by omega), show n + 2 - 2 = n by omega]
        omega
      · have h1 : (1 ≤ l ∧ l - 1 < n) ↔ (1 ≤ l ∧ l - 1 < n + 1) := by omega
        have h2 : (2 ≤ l ∧ l - 2 < n) ↔ (2 ≤ l ∧ l - 2 < n + 1) := by omega
        rw [if_neg hdown, if_neg hskip]
        simp only [h1, h2]
        omega
  · rw [hperm.length_eq, hlength, hfull, hwant]
    exact hgiven

theorem stepLevels_spec (rng : Osm.Stream F S) {want : List ℕ} {plan : StepPlan}
    (hplanned : Planned want want.length want.length want.length plan) {standalone : List ℕ}
    (hlength : standalone.length = want.length)
    (hstandalone : ∀ k < want.length, standalone.getD k 0 + fromAbove plan k = want.getD k 0) (offsetDeg : F)
    {st : List (Slot F) × S} (h : ∀ l, slotsOn st.1 l = standalone.getD l 0) (l : ℕ) :
    slotsOn ((List.range want.length).foldl (stepLevel rng plan offsetDeg) st).1 l = want.getD l 0 := by
  have hfold : ∀ n ≤ want.length,
      Stepped plan standalone n ((List.range n).foldl (stepLevel rng plan offsetDeg) st).1 := by
    intro n
    induction n with
    | zero =>
      intro _ l
      rw [if_neg (by omega), if_neg (by omega)]
      exact h l
    | succ n ih =>
      intro hn
      rw [List.range_succ, List.foldl_append, List.foldl_cons, List.foldl_nil]
      exact stepLevel_spec rng hplanned hstandalone offsetDeg (by omega) (ih (by omega))
  have hall := hfold want.length (Nat.le_refl _)
  by_cases hl : l < want.length
  · rw [hall.complete (Nat.le_of_lt hl), hstandalone l hl]
  · have hnoLevel : ∀ list : List ℕ, list.length ≤ l → list.getD l 0 = 0 := by
      intro list hle
      rw [List.getD_eq_getElem?_getD, List.getElem?_eq_none hle]
      rfl
    -- nothing steps down below the ladder
    rw [hall l, hnoLevel want (by omega), hnoLevel standalone (by omega)]
    have hdown := hplanned.down (l - 1)
    have hskip := hplanned.skip (l - 2)
    split <;> split <;> omega

end Slots

/-! ### Buses -/

section Buses

variable {F S : Type} [Planning F] (rng : Osm.Stream F S) (data : SitingData F S) (levels : List F)

theorem slotBus_spec (siteSize : ℕ → ℕ) {slot : Slot F} (h : slot.tier < levels.length) (state : S) :
    ∃ bus next, slotBus rng data levels siteSize slot state = some (bus, next) ∧ bus.tier = slot.tier := by
  unfold slotBus
  rw [List.getElem?_eq_getElem h]
  exact ⟨_, _, rfl, rfl⟩

theorem slotBuses_spec {slots : List (Slot F)} (h : ∀ slot ∈ slots, slot.tier < levels.length) (state : S) :
    ∃ buses, slotBuses rng data levels slots state = some buses ∧
      buses.map (·.tier) = slots.map (·.tier) := by
  have hfold : ∀ (step : List (DraftBus F) × S → Slot F → Option (List (DraftBus F) × S)),
      (∀ st slot, slot.tier < levels.length →
        ∃ next, step st slot = some next ∧ next.1.map (·.tier) = st.1.map (·.tier) ++ [slot.tier]) →
      ∀ (list : List (Slot F)) st, (∀ slot ∈ list, slot.tier < levels.length) →
        ∃ last, list.foldlM step st = some last ∧
          last.1.map (·.tier) = st.1.map (·.tier) ++ list.map (·.tier) := by
    intro step hstep list
    induction list with
    | nil => exact fun st _ => ⟨st, rfl, (List.append_nil _).symm⟩
    | cons slot rest ih =>
      intro st hlist
      obtain ⟨next, hnext, htier⟩ := hstep st slot (hlist slot List.mem_cons_self)
      obtain ⟨last, hlast, htiers⟩ := ih next fun s hs => hlist s (List.mem_cons_of_mem _ hs)
      refine ⟨last, ?_, ?_⟩
      · rw [List.foldlM_cons, hnext]
        exact hlast
      · rw [htiers, htier, List.map_cons, List.append_assoc]
        rfl
  have hplaced : ∀ (step : List (DraftBus F) × S → Slot F → Option (List (DraftBus F) × S)),
      (∀ st slot, slot.tier < levels.length →
        ∃ next, step st slot = some next ∧ next.1.map (·.tier) = st.1.map (·.tier) ++ [slot.tier]) →
      ∃ buses, (slots.foldlM step ([], state)).map (·.1) = some buses ∧
        buses.map (·.tier) = slots.map (·.tier) := by
    intro step hstep
    obtain ⟨last, hlast, htiers⟩ := hfold step hstep slots ([], state) h
    refine ⟨last.1, ?_, htiers⟩
    rw [hlast, Option.map_some]
  rw [slotBuses]
  apply hplaced
  intro st slot hslot
  obtain ⟨bus, next, hbus, htier⟩ :=
    slotBus_spec rng data levels (fun site => slots.countP fun s => s.site = site) hslot st.2
  refine ⟨(st.1 ++ [bus], next), ?_, ?_⟩
  · rw [hbus, Option.map_some]
  · rw [List.map_append, List.map_singleton, htier]

theorem candidatesOf_spec (t : Tuning F) (sites : ℕ) (state : S) :
    ∃ candidates next, candidatesOf rng data t sites state = some (candidates, next) ∧
      candidates.length = sites := by
  have hle : (data.cities.take sites).length ≤ sites := by
    rw [List.length_take]
    exact Nat.min_le_left _ _
  unfold candidatesOf
  dsimp only
  rw [checkedSub_of_le hle, Option.map_some]
  refine ⟨_, _, rfl, ?_⟩
  rw [List.length_append, List.length_map, List.length_map, length_weightedBlueNoisePoints]
  omega

end Buses

/-! ### All levels -/

section Whole

variable [DecimalText ℝ] {S : Type}

/-- The counts of a ladder add up to the target, every level gets a bus while there are enough, and siting
ends with exactly these counts: no subtraction on the way goes below zero. -/
theorem counts_exact_per_level (rng : Osm.Stream ℝ S) (data : SitingData ℝ S) (t : Tuning ℝ) (levels : List ℝ)
    (hlevels : levels ≠ []) (targetBusCount : UInt32) (state : S) :
    ∃ want buses, levelCounts t targetBusCount.toNat levels.length = some want ∧
      want.length = levels.length ∧ want.sum = targetBusCount.toNat ∧
      (levels.length ≤ targetBusCount.toNat → ∀ k < levels.length, 1 ≤ want.getD k 0) ∧
      siteHierarchical rng data levels t targetBusCount state = some buses ∧
      ∀ k, buses.countP (fun b => b.tier = k) = want.getD k 0 := by
  have hpos : 0 < levels.length := List.length_pos_iff.mpr hlevels
  obtain ⟨want, hwant, hwantLength, hsum, hone⟩ := levelCounts_spec t targetBusCount.toNat_lt hpos
  obtain ⟨plan, hplan, hplanned⟩ : ∃ plan, planSteps t want want.length = some plan ∧
      Planned want want.length want.length want.length plan := planSteps_spec t
  obtain ⟨standalone, hstandalone, hlength, heach⟩ := standaloneOf_spec hplanned
  obtain ⟨candidates, state₁, hcandidates, hsites⟩ := candidatesOf_spec rng data t standalone.sum state
  set xy := candidates.map fun c => data.region.project (c.1, c.2.1) with hxy
  have hxyLength : xy.length = standalone.sum := by rw [hxy, List.length_map, hsites]
  obtain ⟨levelOf, state₂, hlevelOf, hlevelLength, hcount⟩ := levelsOf_spec xy t rng (by omega)
    (Binary64.max data.region.areaKm2 1) state₁ hxyLength
  set slots := (candidates.zip levelOf).zipIdx.map fun ((c, level), i) =>
    ({ lon := c.1, lat := c.2.1, place := c.2.2, tier := level, site := i } : Slot ℝ) with hslots
  have hstart : ∀ l, slotsOn slots l = standalone.getD l 0 := by
    intro l
    have htiers : slots.map (·.tier) = levelOf := by
      have hsnd : (candidates.zip levelOf).zipIdx.map (Prod.snd ∘ Prod.fst) = levelOf := by
        rw [← List.map_map, List.zipIdx_map_fst, List.map_snd_zip]
        rw [hlevelLength, hxyLength, hsites]
      rw [hslots, List.map_map]
      exact hsnd
    rw [← hcount, ← htiers, List.count_eq_countP, List.countP_map]
    rfl
  set stepped := (List.range want.length).foldl (stepLevel rng plan (t.siteOffsetKm / lit 111)) (slots, state₂)
    with hstepped
  have hall : ∀ l, slotsOn stepped.1 l = want.getD l 0 :=
    stepLevels_spec rng hplanned hlength heach _ hstart
  have htier : ∀ slot ∈ stepped.1, slot.tier < levels.length := by
    intro slot hslot
    by_contra hbeyond
    have hnone : want.getD slot.tier 0 = 0 := by
      rw [List.getD_eq_getElem?_getD, List.getElem?_eq_none (by omega)]
      rfl
    have hzero : slotsOn stepped.1 slot.tier = 0 := (hall slot.tier).trans hnone
    exact List.countP_eq_zero.mp hzero slot hslot (decide_eq_true rfl)
  obtain ⟨buses, hbuses, htiers⟩ := slotBuses_spec rng data levels htier stepped.2
  refine ⟨want, buses, hwant, hwantLength, hsum, fun h k hk => hone h k hk, ?_, fun k => ?_⟩
  · unfold siteHierarchical
    rw [hlength] at hlevelOf
    simp only [hwant, Option.bind_eq_bind, Option.bind_some]
    simp only [← hwantLength, hplan, hstandalone, hcandidates, Option.bind_some, ← hxy, hlevelOf, ← hslots,
      ← hstepped, hbuses]
  · rw [← hall k, slotsOn]
    have hb : buses.countP (fun b => b.tier = k) = (buses.map (·.tier)).count k := by
      rw [List.count_eq_countP, List.countP_map]
      rfl
    rw [hb, htiers, List.count_eq_countP, List.countP_map]
    rfl

end Whole

section Sample

@[reducible] local instance sitedText : DecimalText ℝ := ⟨fun _ => ""⟩

/-- A stream that always draws zero. -/
def firstDraws : Osm.Stream ℝ Unit where
  uniform _ := (0, ())
  index _ h _ := (⟨0, h⟩, ())

/-- A region of one square, in which every point that is drawn is the same. -/
noncomputable def oneSquare : SitingData ℝ Unit where
  region :=
    { unproject := id
      polygonIndex := fun _ _ => some 0
      west := 0
      south := 0
      east := 1
      north := 1
      areaKm2 := 12000
      contains := fun _ _ => true
      samplePoint := fun _ _ => ((1 / 2, 1 / 2), ()) }
  cities := []
  polygonWeights := [1]
  polygonGroup := [some 0]

theorem counts_exact_per_level_square : ∃ want buses,
    levelCounts (Tuning.standard : Tuning ℝ) 40 2 = some want ∧ want.sum = 40 ∧ 1 ≤ want.getD 0 0 ∧
      siteHierarchical firstDraws oneSquare [220, 66] Tuning.standard 40 () = some buses ∧
      buses.countP (fun b => b.tier = 0) = want.getD 0 0 := by
  obtain ⟨want, buses, hwant, -, hsum, hone, hbuses, hcount⟩ :=
    counts_exact_per_level firstDraws oneSquare Tuning.standard [220, 66] (List.cons_ne_nil _ _) 40 ()
  exact ⟨want, buses, hwant, hsum, hone (by decide) 0 (by decide), hbuses, hcount 0⟩

theorem mergeSort_pair {α : Type} (le : α → α → Bool) (a b : α) :
    [a, b].mergeSort le = if le a b then [a, b] else [b, a] := by
  simp [List.mergeSort, List.MergeSort.Internal.splitInTwo, List.merge]

/-- Two shares whose sum is beyond the largest double. -/
def overflowing : Tuning Float := { (Tuning.standard : Tuning Float) with levelShares2 := [1e308, 1e308] }

/-- In doubles their total is infinite and each share of it is zero: of 40 buses only two are left. -/
theorem level_counts_overflow : levelCounts overflowing 40 2 = some [1, 1] := by
  have hshares : levelShares overflowing 2 = [0, 0] := by decide +kernel
  have hcounts : ([0, 0].map fun s : Float =>
      Planning.asUsize (Binary64.floor (s * Binary64.ofNat 40))) = [0, 0] := by
    decide +kernel
  have horder : remainderOrder [(0 : Float), 0] [0, 0] 40 = [1, 0] := by
    simp only [remainderOrder, List.zipIdx_cons, List.zipIdx_nil, List.map_cons, List.map_nil,
      mergeSort_pair]
    decide +kernel
  simp only [levelCounts, hshares, hcounts, horder]
  decide +kernel

end Sample

end Tellegen.Synth
