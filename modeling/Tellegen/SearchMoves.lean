import Tellegen.Exploration

/-!
When two moves from one point lead to the same vector. Rating moves never do; a
transfer does not where adding its step changes both of its ends; and different
first allocations of a placement may fill the demand to the same corner.
-/

set_option linter.unusedSectionVars false

open Binary64

namespace Tellegen

variable {F : Type} [Binary64 F]

def zeroKey (x : F) : F := if eq x 0 then 0 else x

open Binary64 in
/-- Order facts of sums and steps. Each one holds of IEEE doubles, overflow to infinity and NaN
included: rounding is monotone. -/
class LawfulSteps (F : Type) [Binary64 F] : Prop extends LawfulBinary64 F where
  le_of_lt {a b : F} : lt a b → le a b
  le_trans {a b c : F} : le a b → le b c → le a c
  le_mul_ofNat {a : F} (n : ℕ) : le 0 a → le 0 (a * ofNat (n + 1))
  sub_le {a d : F} : isFinite a → le 0 d → le (a - d) a
  le_add {a d : F} : isFinite a → le 0 d → le a (a + d)
  add_neg_one_mul {a d : F} : isFinite d → a + -1 * d = a - d
  add_one_mul {a d : F} : isFinite d → a + 1 * d = a + d
  key_of_le {a b : F} : le a b → le b a → zeroKey a = zeroKey b
  le_of_key {a b c : F} : zeroKey a = zeroKey b → le a c → le b c

section Steps

variable [LawfulSteps F]

/-- Values that a step up and a step down lead to are the same only if they have not moved. -/
theorem zeroKey_of_steps {a d u : F} (ha : isFinite a) (hd : le 0 d) (hu : le 0 u)
    (h : zeroKey (a - d) = zeroKey (a + u)) : zeroKey (a + u) = zeroKey a := by
  have hdown : le (a + u) a := LawfulSteps.le_of_key h (LawfulSteps.sub_le ha hd)
  exact LawfulSteps.key_of_le hdown (LawfulSteps.le_add ha hu)

end Steps

/-! ### Points that differ in a few places -/

theorem getElem?_changeKey (point : List F) (k : ℕ) :
    (changeKey point)[k]? = point[k]?.map zeroKey := List.getElem?_map

/-- The points agree outside of some positions. -/
def AgreeOff (moved : ℕ → Prop) (point current : List F) : Prop :=
  ∀ k, ¬ moved k → point[k]? = current[k]?

theorem agreeOff_modify (current : List F) (i : ℕ) (f : F → F) :
    AgreeOff (· = i) (current.modify i f) current := by
  intro k hk
  have hne : i ≠ k := fun heq => hk heq.symm
  simp [hne]

theorem AgreeOff.changeKey_eq {A B : ℕ → Prop} {p q current : List F} (hp : AgreeOff A p current)
    (hq : AgreeOff B q current) (hdisjoint : ∀ k, A k → ¬ B k) (h : changeKey p = changeKey q) :
    changeKey p = changeKey current := by
  apply List.ext_getElem?
  intro k
  by_cases hk : A k
  · rw [h, getElem?_changeKey, getElem?_changeKey, hq k (hdisjoint k hk)]
  · rw [getElem?_changeKey, getElem?_changeKey, hp k hk]

/-- The points are not the same, unless neither has moved. -/
def Apart (current p q : List F) : Prop := changeKey p = changeKey q → changeKey p = changeKey current

theorem Apart.symm {current p q : List F} (h : Apart current p q) : Apart current q p :=
  fun heq => heq.trans (h heq.symm)

/-! ### Positions -/

theorem sortBy_perm {α : Type} (cmp : α → α → Ordering) (values : List α) :
    (sortBy cmp values).Perm values := List.perm_insertionSort _ values

theorem positions_nodup (space : DecisionSpace F) (intervention : Intervention) :
    (positions space intervention).Nodup := by
  have hsub : (positions space intervention).Sublist (space.vars.zipIdx.map (·.2)) :=
    List.filter_sublist.map _
  rw [List.zipIdx_map_snd] at hsub
  exact List.Nodup.sublist hsub List.nodup_range'

theorem mem_positions {space : DecisionSpace F} {intervention : Intervention} {index : ℕ} :
    index ∈ positions space intervention ↔
      ∃ v, space.vars[index]? = some v ∧ v.intervention = intervention := by
  simp only [positions, List.mem_map, List.mem_filter, decide_eq_true_eq, Prod.exists]
  constructor
  · rintro ⟨v, i, ⟨hv, hkind⟩, rfl⟩
    exact ⟨v, List.mk_mem_zipIdx_iff_getElem?.mp hv, hkind⟩
  · rintro ⟨v, hv, hkind⟩
    exact ⟨v, index, ⟨List.mk_mem_zipIdx_iff_getElem?.mpr hv, hkind⟩, rfl⟩

theorem positions_disjoint {space : DecisionSpace F} {index : ℕ}
    (h : index ∈ positions space .branchRating) : index ∉ positions space .activeDemand := by
  intro hdemand
  obtain ⟨v, hv, hrating⟩ := mem_positions.mp h
  obtain ⟨w, hw, hactive⟩ := mem_positions.mp hdemand
  rw [hv] at hw
  cases hw
  rw [hrating] at hactive
  cases hactive

/-! ### Rating moves -/

section Moves

variable [LawfulSteps F] {space : DecisionSpace F} {current gradient : List F}

/-- The increments are positive and finite, as validation requires. -/
def PositiveSteps (space : DecisionSpace F) : Prop :=
  ∀ index, isFinite (increment space index) ∧ le 0 (increment space index)

theorem rating_same_index {index : ℕ} (hsteps : PositiveSteps space)
    (hcurrent : ∀ x ∈ current, isFinite x = true) :
    Apart current (current.modify index (· + -1 * increment space index))
      (current.modify index (· + 1 * increment space index)) := by
  intro heq
  obtain ⟨hfinite, hpositive⟩ := hsteps index
  rw [heq]
  apply List.ext_getElem?
  intro k
  by_cases hk : k = index
  · subst hk
    have hsame := congrArg (·[k]?) heq
    simp only [getElem?_changeKey, List.getElem?_modify, if_true] at hsame ⊢
    cases hx : current[k]? with
    | none => rfl
    | some x =>
      simp only [hx, Option.map_eq_map, Option.map_some, Option.some.injEq] at hsame ⊢
      rw [LawfulSteps.add_neg_one_mul hfinite, LawfulSteps.add_one_mul hfinite] at hsame
      rw [LawfulSteps.add_one_mul hfinite]
      exact zeroKey_of_steps (hcurrent x (List.mem_of_getElem? hx)) hpositive hpositive hsame
  · rw [getElem?_changeKey, getElem?_changeKey, agreeOff_modify current index _ k hk]

theorem ratingMoves_apart (hsteps : PositiveSteps space)
    (hcurrent : ∀ x ∈ current, isFinite x = true) :
    (ratingMoves space current gradient).Pairwise (Apart current) := by
  -- Two entries are of two decisions, or the two signs of one.
  let R : ℕ × F × F → ℕ × F × F → Prop := fun a b =>
    a.1 ≠ b.1 ∨ (a.2.1 = -1 ∧ b.2.1 = 1) ∨ (a.2.1 = 1 ∧ b.2.1 = -1)
  have hsymm : ∀ {a b}, R a b → R b a := by
    rintro a b (hne | ⟨ha, hb⟩ | ⟨ha, hb⟩)
    · exact .inl hne.symm
    · exact .inr (.inr ⟨hb, ha⟩)
    · exact .inr (.inl ⟨hb, ha⟩)
  have hratings : ((positions space .branchRating).flatMap fun index =>
      [-1, (1 : F)].map fun sign =>
        (index, sign, gradient.getD index 0 * sign * increment space index)).Pairwise R := by
    rw [List.pairwise_flatMap]
    constructor
    · intro index _
      simp only [List.map_cons, List.map_nil, List.pairwise_cons, List.mem_singleton,
        forall_eq, List.not_mem_nil, false_implies, implies_true, List.Pairwise.nil, and_true]
      exact .inr (.inl ⟨rfl, rfl⟩)
    · apply (positions_nodup space .branchRating).imp
      intro i j hne a ha b hb
      obtain ⟨_, -, rfl⟩ := List.mem_map.mp ha
      obtain ⟨_, -, rfl⟩ := List.mem_map.mp hb
      exact .inl hne
  rw [ratingMoves, List.pairwise_map]
  apply ((hratings.perm (sortBy_perm _ _).symm hsymm).sublist (List.take_sublist 256 _)).imp
  rintro ⟨i, s, _⟩ ⟨j, t, _⟩ hR
  simp only
  by_cases hij : i = j
  · subst hij
    rcases hR with hne | ⟨hs, ht⟩ | ⟨hs, ht⟩
    · exact absurd rfl hne
    · simp only at hs ht
      rw [hs, ht]
      exact rating_same_index hsteps hcurrent
    · simp only at hs ht
      rw [hs, ht]
      exact (rating_same_index hsteps hcurrent).symm
  · apply (agreeOff_modify current i _).changeKey_eq (agreeOff_modify current j _)
    rintro k rfl rfl
    exact hij rfl

/-! ### Transfers -/

def transferred (current : List F) (source target : ℕ) (step : F) : List F :=
  (current.modify source (· - step)).modify target (· + step)

/-- Adding the step of a transfer changes both of its ends. It does in exact arithmetic; a double
may absorb a step. -/
def Resolves (space : DecisionSpace F) : Prop :=
  ∀ current, space.feasible current (lit 1e-7) = true →
    ∀ source ∈ positions space .activeDemand, ∀ target ∈ positions space .activeDemand,
      ∀ step, transferStep (increment space source) (increment space target) = some step →
        source ≠ target → space.feasible (transferred current source target step) (lit 1e-7) = true →
          (∀ x, current[source]? = some x → zeroKey (x - step) ≠ zeroKey x) ∧
            ∀ y, current[target]? = some y → zeroKey (y + step) ≠ zeroKey y

theorem transferStep_nonneg {a b step : F} (ha : le 0 a) (h : transferStep a b = some step) :
    le 0 step = true := by
  have hmem := List.mem_of_find?_eq_some h
  obtain ⟨n, -, rfl⟩ := List.mem_map.mp hmem
  exact LawfulSteps.le_mul_ofNat n ha

theorem transferred_source {source target : ℕ} {step : F} (hne : source ≠ target) :
    (transferred current source target step)[source]? = current[source]?.map (· - step) := by
  simp [transferred, hne.symm]

theorem transferred_target {source target : ℕ} {step : F} (hne : source ≠ target) :
    (transferred current source target step)[target]? = current[target]?.map (· + step) := by
  simp [transferred, hne]

theorem transferred_agreeOff (current : List F) (source target : ℕ) (step : F) :
    AgreeOff (fun k => k = source ∨ k = target) (transferred current source target step) current := by
  intro k hk
  obtain ⟨hs, ht⟩ := not_or.mp hk
  rw [transferred, agreeOff_modify _ target _ k ht, agreeOff_modify _ source _ k hs]

/-- A transfer between decisions of the point that changes both of them. -/
structure Transfer (current point : List F) (source target : ℕ) : Prop where
  ne : source ≠ target
  step : ∃ step, le 0 step = true ∧ point = transferred current source target step
  source_lt : source < current.length
  target_lt : target < current.length
  changed : ∀ k, (k = source ∨ k = target) → point[k]?.map zeroKey ≠ current[k]?.map zeroKey

theorem Transfer.changed_iff {point : List F} {source target : ℕ}
    (h : Transfer current point source target) (k : ℕ) :
    (changeKey point)[k]? ≠ (changeKey current)[k]? ↔ k = source ∨ k = target := by
  rw [getElem?_changeKey, getElem?_changeKey]
  constructor
  · intro hne
    by_contra hk
    obtain ⟨step, -, rfl⟩ := h.step
    exact hne (by rw [transferred_agreeOff current source target step k hk])
  · exact h.changed k

theorem Transfer.ne_of_ne {p q : List F} {source target source' target' : ℕ}
    (hcurrent : ∀ x ∈ current, isFinite x = true) (hp : Transfer current p source target)
    (hq : Transfer current q source' target') (hne : (source, target) ≠ (source', target')) :
    changeKey p ≠ changeKey q := by
  intro heq
  have hchanged : ∀ k, (k = source ∨ k = target) ↔ (k = source' ∨ k = target') := by
    intro k
    rw [← hp.changed_iff, ← hq.changed_iff, heq]
  have hsource := (hchanged source).mp (.inl rfl)
  have htarget := (hchanged target).mp (.inr rfl)
  have hpne := hp.ne
  have hcross : source = target' ∧ target = source' := by
    rcases hsource with rfl | rfl
    · rcases htarget with rfl | rfl
      · exact absurd rfl hpne
      · exact absurd rfl hne
    · rcases htarget with rfl | rfl
      · exact ⟨rfl, rfl⟩
      · exact absurd rfl hpne
  obtain ⟨rfl, rfl⟩ := hcross
  obtain ⟨down, hdown, rfl⟩ := hp.step
  obtain ⟨up, hup, rfl⟩ := hq.step
  obtain ⟨x, hx⟩ : ∃ x, current[source]? = some x := ⟨_, List.getElem?_eq_getElem hp.source_lt⟩
  have hsame := congrArg (·[source]?) heq
  simp only [getElem?_changeKey, transferred_source hp.ne, transferred_target hq.ne, hx,
    Option.map_some, Option.some.injEq] at hsame
  have hstays := zeroKey_of_steps (hcurrent x (List.mem_of_getElem? hx)) hdown hup hsame
  apply hq.changed source (.inr rfl)
  rw [transferred_target hq.ne, hx]
  exact congrArg some hstays

theorem transfer_of_feasible (hsteps : PositiveSteps space) (hresolves : Resolves space)
    (hfeasible : space.feasible current (lit 1e-7) = true)
    (hlength : current.length = space.vars.length) {source target : ℕ} {step : F}
    (hsource : source ∈ positions space .activeDemand)
    (htarget : target ∈ positions space .activeDemand) (hne : source ≠ target)
    (hstep : transferStep (increment space source) (increment space target) = some step)
    (hmoved : space.feasible (transferred current source target step) (lit 1e-7) = true) :
    Transfer current (transferred current source target step) source target := by
  have hlt : ∀ {k}, k ∈ positions space .activeDemand → k < current.length := by
    intro k hk
    obtain ⟨v, hv, -⟩ := mem_positions.mp hk
    rw [hlength]
    exact (List.getElem?_eq_some_iff.mp hv).1
  obtain ⟨hdown, hup⟩ := hresolves current hfeasible source hsource target htarget step hstep hne
    hmoved
  constructor
  case ne => exact hne
  case step => exact ⟨step, transferStep_nonneg (hsteps source).2 hstep, rfl⟩
  case source_lt => exact hlt hsource
  case target_lt => exact hlt htarget
  case changed =>
    rintro k (rfl | rfl)
    · have hx := List.getElem?_eq_getElem (hlt hsource)
      rw [transferred_source hne, hx]
      intro heq
      exact hdown _ hx (Option.some.inj heq)
    · have hy := List.getElem?_eq_getElem (hlt htarget)
      rw [transferred_target hne, hy]
      intro heq
      exact hup _ hy (Option.some.inj heq)

theorem transferMoves_apart (hsteps : PositiveSteps space) (hresolves : Resolves space)
    (hfeasible : space.feasible current (lit 1e-7) = true)
    (hlength : current.length = space.vars.length) (hcurrent : ∀ x ∈ current, isFinite x = true) :
    ((transferMoves space current gradient).filter (space.feasible · (lit 1e-7))).Pairwise
      (Apart current) := by
  have hmove : ∀ {source target : ℕ} {p : List F}, source ∈ positions space .activeDemand →
      target ∈ positions space .activeDemand →
      (if source = target then none
        else (transferStep (increment space source) (increment space target)).map
          fun step => transferred current source target step) = some p →
      space.feasible p (lit 1e-7) = true → Transfer current p source target := by
    intro source target p hsource htarget hp hmoved
    split at hp
    case isTrue => cases hp
    case isFalse hne =>
      obtain ⟨step, hstep, rfl⟩ := Option.map_eq_some_iff.mp hp
      exact transfer_of_feasible hsteps hresolves hfeasible hlength hsource htarget hne hstep hmoved
  have hmem : ∀ {cmp : ℕ → ℕ → Ordering} {index : ℕ},
      index ∈ (sortBy cmp (positions space .activeDemand)).take 16 →
        index ∈ positions space .activeDemand :=
    fun h => (sortBy_perm _ _).mem_iff.mp (List.mem_of_mem_take h)
  have hnodup : ∀ cmp : ℕ → ℕ → Ordering,
      ((sortBy cmp (positions space .activeDemand)).take 16).Nodup :=
    fun cmp => (List.take_sublist 16 _).nodup
      ((sortBy_perm cmp _).nodup_iff.mpr (positions_nodup space .activeDemand))
  rw [transferMoves, List.pairwise_filter, List.pairwise_flatMap]
  constructor
  · intro source hsource
    rw [List.pairwise_filterMap]
    apply (hnodup _).imp_of_mem
    intro target target' htarget htarget' hne p hp q hq hpf hqf heq
    have hfirst := hmove (hmem hsource) (hmem htarget) hp hpf
    have hsecond := hmove (hmem hsource) (hmem htarget') hq hqf
    exact absurd heq (hfirst.ne_of_ne hcurrent hsecond fun hpair => hne (Prod.mk.inj hpair).2)
  · apply (hnodup _).imp_of_mem
    intro source source' hsource hsource' hne p hp q hq hpf hqf heq
    obtain ⟨target, htarget, hp⟩ := List.mem_filterMap.mp hp
    obtain ⟨target', htarget', hq⟩ := List.mem_filterMap.mp hq
    have hfirst := hmove (hmem hsource) (hmem htarget) hp hpf
    have hsecond := hmove (hmem hsource') (hmem htarget') hq hqf
    exact absurd heq (hfirst.ne_of_ne hcurrent hsecond fun hpair => hne (Prod.mk.inj hpair).1)

theorem feasibleMoves_apart (hsteps : PositiveSteps space) (hresolves : Resolves space)
    (hfeasible : space.feasible current (lit 1e-7) = true)
    (hlength : current.length = space.vars.length) (hcurrent : ∀ x ∈ current, isFinite x = true) :
    (feasibleMoves space current gradient false).Pairwise (Apart current) := by
  rw [feasibleMoves, if_neg Bool.false_ne_true, List.filter_append, List.pairwise_append]
  refine ⟨?_, transferMoves_apart hsteps hresolves hfeasible hlength hcurrent, ?_⟩
  · exact (ratingMoves_apart hsteps hcurrent).sublist List.filter_sublist
  · intro p hp q hq
    obtain ⟨⟨index, sign, score⟩, hranked, rfl⟩ := List.mem_map.mp (List.mem_of_mem_filter hp)
    have hindex : index ∈ positions space .branchRating := by
      have hrating := (sortBy_perm _ _).mem_iff.mp (List.mem_of_mem_take hranked)
      obtain ⟨i, hi, hentry⟩ := List.mem_flatMap.mp hrating
      obtain ⟨_, -, heq⟩ := List.mem_map.mp hentry
      rw [← (Prod.mk.inj heq).1]
      exact hi
    obtain ⟨source, hsource, hq⟩ := List.mem_flatMap.mp (List.mem_of_mem_filter hq)
    obtain ⟨target, htarget, hq⟩ := List.mem_filterMap.mp hq
    split at hq
    case isTrue => cases hq
    case isFalse =>
      obtain ⟨step, -, rfl⟩ := Option.map_eq_some_iff.mp hq
      apply (agreeOff_modify current index _).changeKey_eq
        (transferred_agreeOff current source target step)
      rintro k rfl (rfl | rfl)
      · exact positions_disjoint hindex ((sortBy_perm _ _).mem_iff.mp (List.mem_of_mem_take hsource))
      · exact positions_disjoint hindex ((sortBy_perm _ _).mem_iff.mp (List.mem_of_mem_take htarget))

end Moves

end Tellegen
