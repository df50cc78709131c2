import Tellegen.CostFits

/-!
What preparing the costs of a network installs. A piecewise cost is fitted in per-unit power, which is the best
fit in megawatts too, and every other row of the network stays.
-/

set_option linter.unusedSectionVars false

open Binary64 hiding max min

namespace Tellegen.Preparation

section

variable [DecimalText ℝ] {G T : Type}

/-! ### Fitting -/

theorem dedupBy_of_distinct {points : Points ℝ} (hdistinct : Distinct points) :
    dedupBy (fun a b => le (Binary64.abs (a.1 - b.1)) (Thresholds.exact : Thresholds ℝ).epsilon) points = points := by
  have hgo : ∀ (rest : Points ℝ) (last : ℝ × ℝ), Distinct (last :: rest) →
      dedupBy.go (fun a b => le (Binary64.abs (a.1 - b.1)) (Thresholds.exact : Thresholds ℝ).epsilon) last rest =
        last :: rest := by
    intro rest
    induction rest with
    | nil => exact fun last _ => rfl
    | cons point rest ih =>
      intro last hdistinct
      rw [Distinct, List.map_cons, List.map_cons, List.nodup_cons, List.mem_cons, not_or] at hdistinct
      have hne : ¬ le (Binary64.abs (point.1 - last.1)) (Thresholds.exact : Thresholds ℝ).epsilon = true := by
        intro hle
        have hle := of_decide_eq_true hle
        rw [real_abs] at hle
        have hzero := abs_eq_zero.mp (le_antisymm hle (abs_nonneg _))
        exact hdistinct.1.1 (sub_eq_zero.mp hzero).symm
      rw [dedupBy.go, if_neg hne, ih point hdistinct.2]
  cases points with
  | nil => rfl
  | cons first rest => exact hgo rest first hdistinct

theorem distinct_perm {points points' : Points ℝ} (h : points.Perm points') : Distinct points ↔ Distinct points' :=
  (h.map Prod.fst).nodup_iff

/-- A cost has its breakpoints in pairs. -/
def Paired (cost : GenCost ℝ) : Prop := cost.ncost * 2 = cost.coeffs.length

theorem none_infinite (points : Points ℝ) : ¬ (points.any fun (x, y) => !isFinite x || !isFinite y) = true := by
  intro hany
  obtain ⟨p, -, hp⟩ := List.any_eq_true.mp hany
  exact nomatch hp

/-- Nothing but the number of breakpoints stops a fit. -/
theorem piecewiseQuadraticFit_ok {cost : GenCost ℝ} :
    (∃ v, piecewiseQuadraticFit .exact cost = .ok v) ↔ Paired cost := by
  rw [piecewiseQuadraticFit, if_neg (none_infinite _), Paired]
  split
  case isTrue hcount => simp [hcount]
  case isFalse hcount =>
    refine iff_of_true ?_ (not_not.mp hcount)
    dsimp only
    split
    all_goals exact ⟨_, rfl⟩

theorem piecewiseQuadraticFit_best {cost : GenCost ℝ} (hpaired : Paired cost)
    (hcost : Distinct (pairs cost.coeffs)) :
    ∃ v, piecewiseQuadraticFit .exact cost = .ok v ∧ Best (pairs cost.coeffs) v := by
  set points := (pairs cost.coeffs).mergeSort byOutput with hpoints
  have hperm : points.Perm (pairs cost.coeffs) := List.mergeSort_perm _ _
  have hdistinct : Distinct points := (distinct_perm hperm).mpr hcost
  have hcount : cost.ncost * 2 = cost.coeffs.length := hpaired
  rw [piecewiseQuadraticFit, if_neg (not_not.mpr hcount), if_neg (none_infinite _)]
  dsimp only
  rw [← hpoints, dedupBy_of_distinct hdistinct]
  match points, hperm, hdistinct with
  | [], hperm, _ => exact ⟨_, rfl, best_of_nil.perm hperm⟩
  | [p], hperm, _ => exact ⟨_, rfl, (best_of_single p).perm hperm⟩
  | [_, _], hperm, hdistinct => exact ⟨_, rfl, (best_of_pair hdistinct).perm hperm⟩
  | _ :: _ :: _ :: _, hperm, hdistinct => exact ⟨_, rfl, (best_of_many hdistinct (by simp)).perm hperm⟩

/-! ### Units -/

/-- A quadratic of per-unit power, as one of power. -/
noncomputable def rescale (scale : ℝ) (v : Quadratic ℝ) : Quadratic ℝ := (v.1 / (scale * scale), v.2.1 / scale, v.2.2)

noncomputable def scalePoints (scale : ℝ) (points : Points ℝ) : Points ℝ := points.map fun p => (p.1 / scale, p.2)

theorem fitError_scale {scale : ℝ} (hscale : scale ≠ 0) (points : Points ℝ) (v : Quadratic ℝ) :
    fitError (scalePoints scale points) v = fitError points (rescale scale v) := by
  rw [fitError, fitError, scalePoints, List.map_map]
  congr 1
  apply List.map_congr_left
  intro p _
  rw [rescale]
  dsimp only [Function.comp]
  congr 1
  field_simp

theorem rescale_surjective {scale : ℝ} (hscale : scale ≠ 0) (w : Quadratic ℝ) :
    rescale scale (w.1 * (scale * scale), w.2.1 * scale, w.2.2) = w := by
  rw [rescale]
  dsimp only
  rw [mul_div_cancel_right₀ _ (mul_ne_zero hscale hscale), mul_div_cancel_right₀ _ hscale]

theorem Best.rescale {scale : ℝ} (hscale : scale ≠ 0) {points : Points ℝ} {v : Quadratic ℝ}
    (h : Best (scalePoints scale points) v) : Best points (rescale scale v) := by
  have hsquare : 0 < scale * scale := mul_self_pos.mpr hscale
  have hlength : (scalePoints scale points).length = points.length := List.length_map _
  constructor
  case convex => exact div_nonneg h.convex (le_of_lt hsquare)
  case least =>
    intro w hw
    have hleast := h.least (w.1 * (scale * scale), w.2.1 * scale, w.2.2) (mul_nonneg hw (le_of_lt hsquare))
    rwa [fitError_scale hscale, fitError_scale hscale, rescale_surjective hscale] at hleast
  case line =>
    intro hle
    change v.1 / _ = 0
    rw [h.line (by omega), zero_div]
  case level =>
    intro hle
    change v.2.1 / _ = 0
    rw [h.level (by omega), zero_div]
  case nothing =>
    intro hzero
    rw [h.nothing (by omega), Preparation.rescale]
    simp

theorem distinct_scale {scale : ℝ} (hscale : scale ≠ 0) {points : Points ℝ} (h : Distinct points) :
    Distinct (scalePoints scale points) := by
  have hmap : (scalePoints scale points).map Prod.fst = (points.map Prod.fst).map fun x => x / scale := by
    rw [scalePoints, List.map_map, List.map_map]
    rfl
  rw [Distinct, hmap]
  apply h.map
  intro x y hxy
  exact (div_left_inj' hscale).mp hxy

theorem pairs_scaleOutputs (scale : ℝ) (coeffs : List ℝ) :
    pairs (scaleOutputs scale coeffs) = scalePoints scale (pairs coeffs) := by
  fun_induction pairs coeffs with
  | case1 x y rest ih =>
    rw [scaleOutputs, pairs, ih]
    rfl
  | case2 coeffs hcoeffs =>
    match coeffs, hcoeffs with
    | [], _ => rfl
    | [_], _ => rfl
    | x :: y :: rest, hcoeffs => exact absurd rfl (hcoeffs x y rest)

theorem length_scaleOutputs (scale : ℝ) (coeffs : List ℝ) : (scaleOutputs scale coeffs).length = coeffs.length := by
  fun_induction scaleOutputs scale coeffs with
  | case1 x y rest ih => rw [List.length_cons, List.length_cons, ih, List.length_cons, List.length_cons]
  | case2 => rfl

/-! ### Costs -/

variable {host : Host ℝ G T}

/-- The cost that takes the place of a piecewise one: a quadratic that is the best convex fit of its breakpoints. -/
structure Fits (cost fitted : GenCost ℝ) : Prop where
  model : fitted.model = 2
  startup : fitted.startup = cost.startup
  shutdown : fitted.shutdown = cost.shutdown
  best : ∃ q l c, fitted.coeffs = [q, l, c] ∧ Best (pairs cost.coeffs) (q, l, c)

theorem fitCost_ok {scale : ℝ} {cost : GenCost ℝ} :
    (∃ fit, fitCost .exact host scale cost = .ok fit) ↔ Paired cost := by
  have hnormalized : Paired { cost with coeffs := scaleOutputs scale cost.coeffs } ↔ Paired cost := by
    rw [Paired, Paired, length_scaleOutputs]
  rw [← hnormalized, ← piecewiseQuadraticFit_ok, fitCost]
  cases piecewiseQuadraticFit .exact { cost with coeffs := scaleOutputs scale cost.coeffs } with
  | error message => simp [bind, Except.bind]
  | ok v => exact iff_of_true ⟨_, rfl⟩ ⟨v, rfl⟩

theorem fitCost_fits {scale : ℝ} (hscale : scale ≠ 0) {cost fitted : GenCost ℝ} {errors : List ℝ}
    (h : fitCost .exact host scale cost = .ok (fitted, errors)) (hdistinct : Distinct (pairs cost.coeffs)) :
    Fits cost fitted := by
  have hpaired : Paired { cost with coeffs := scaleOutputs scale cost.coeffs } := by
    rw [Paired, length_scaleOutputs]
    exact fitCost_ok.mp ⟨_, h⟩
  have hnormalized : Distinct (pairs (scaleOutputs scale cost.coeffs)) := by
    rw [pairs_scaleOutputs]
    exact distinct_scale hscale hdistinct
  obtain ⟨⟨q, l, c⟩, hfit, hbest⟩ := piecewiseQuadraticFit_best hpaired hnormalized
  dsimp only at hbest
  rw [pairs_scaleOutputs] at hbest
  rw [fitCost, hfit] at h
  obtain ⟨rfl, -⟩ := Prod.mk.inj (Except.ok.inj h)
  exact ⟨rfl, rfl, rfl, _, _, _, rfl, hbest.rescale hscale⟩

/-- The fit depends neither on the order of the breakpoints nor on the scale of power. -/
theorem Fits.unique {cost cost' fitted fitted' : GenCost ℝ} (hcost : Distinct (pairs cost.coeffs))
    (hperm : (pairs cost.coeffs).Perm (pairs cost'.coeffs)) (h : Fits cost fitted) (h' : Fits cost' fitted') :
    fitted.coeffs = fitted'.coeffs := by
  obtain ⟨q, l, c, hcoeffs, hbest⟩ := h.best
  obtain ⟨q', l', c', hcoeffs', hbest'⟩ := h'.best
  have hsame := Best.unique hcost hbest (hbest'.perm hperm.symm)
  rw [Prod.ext_iff, Prod.ext_iff] at hsame
  obtain ⟨hq, hl, hc⟩ := hsame
  dsimp only at hq hl hc
  rw [hcoeffs, hcoeffs', hq, hl, hc]

/-! ### Networks -/

/-- A generator with a piecewise cost gets another cost, which fits it if its outputs are distinct. -/
def Prepared (generator prepared : Generator ℝ G) : Prop :=
  match piecewise generator with
  | none => prepared = generator
  | some cost => ∃ fitted, prepared = { generator with cost := some fitted } ∧
      (Distinct (pairs cost.coeffs) → Fits cost fitted)

/-- Every piecewise cost has its breakpoints in pairs. -/
def AllPaired (source : CostedNetwork ℝ G T) : Prop :=
  ∀ generator ∈ source.generators, ∀ cost, piecewise generator = some cost → Paired cost

theorem fitGenerators_ok {scale : ℝ} {generators : List (Generator ℝ G)}
    (hpaired : ∀ generator ∈ generators, ∀ cost, piecewise generator = some cost → Paired cost) (row : ℕ) :
    ∃ fits, fitGenerators .exact host scale row generators = .ok fits := by
  induction generators generalizing row with
  | nil => exact ⟨_, rfl⟩
  | cons generator rest ih =>
    obtain ⟨fits, hrest⟩ := ih (fun other hother => hpaired other (List.mem_cons_of_mem _ hother)) (row + 1)
    rw [fitGenerators]
    cases hcost : piecewise generator with
    | none =>
      dsimp only
      rw [hrest]
      exact ⟨_, rfl⟩
    | some cost =>
      obtain ⟨fit, hfit⟩ : ∃ fit, fitCost .exact host scale cost = .ok fit :=
        fitCost_ok.mpr (hpaired generator List.mem_cons_self cost hcost)
      dsimp only
      rw [hfit, hrest]
      exact ⟨_, rfl⟩

theorem fitGenerators_prepared {scale : ℝ} (hscale : scale ≠ 0) {generators prepared : List (Generator ℝ G)}
    {row : ℕ} {approximations : List (CostApproximation ℝ)}
    (h : fitGenerators .exact host scale row generators = .ok (prepared, approximations)) :
    List.Forall₂ Prepared generators prepared := by
  induction generators generalizing row prepared approximations with
  | nil =>
    cases h
    exact .nil
  | cons generator rest ih =>
    rw [fitGenerators] at h
    cases hcost : piecewise generator with
    | none =>
      rw [hcost] at h
      obtain ⟨⟨others, more⟩, hrest, hsame⟩ := (Outcome.bind_eq_ok ..).mp h
      cases hsame
      refine .cons ?_ (ih hrest)
      rw [Prepared, hcost]
    | some cost =>
      rw [hcost] at h
      obtain ⟨⟨fitted, errors⟩, hfit, h⟩ := (Outcome.bind_eq_ok ..).mp h
      obtain ⟨⟨others, more⟩, hrest, hsame⟩ := (Outcome.bind_eq_ok ..).mp h
      cases hsame
      refine .cons ?_ (ih hrest)
      rw [Prepared, hcost]
      exact ⟨fitted, rfl, fitCost_fits hscale hfit⟩

theorem costScale_pos (hbase : ∀ base, host.checkBaseMva base = .ok () → 0 < base)
    {source : CostedNetwork ℝ G T} {scale : ℝ} (h : costScale host source = .ok scale) : 0 < scale := by
  rw [costScale] at h
  split at h
  case isTrue =>
    obtain rfl := Except.ok.inj h
    exact one_pos
  case isFalse =>
    cases hcheck : host.checkBaseMva source.baseMva with
    | error message =>
      rw [hcheck] at h
      exact nomatch h
    | ok =>
      rw [hcheck] at h
      obtain rfl := Except.ok.inj h
      exact hbase _ hcheck

theorem prepareCosts_prepared (hbase : ∀ base, host.checkBaseMva base = .ok () → 0 < base)
    {source network : CostedNetwork ℝ G T} {details : Option (ModelDetails ℝ)}
    (h : prepareCosts .exact host source .convexQuadraticFit = .ok (network, details)) :
    network = { source with generators := network.generators } ∧
      List.Forall₂ Prepared source.generators network.generators := by
  rw [prepareCosts] at h
  obtain ⟨scale, hscale, h⟩ := (Outcome.bind_eq_ok ..).mp h
  obtain ⟨⟨prepared, approximations⟩, hfit, h⟩ := (Outcome.bind_eq_ok ..).mp h
  obtain ⟨sourceIr, -, h⟩ := (Outcome.bind_eq_ok ..).mp h
  obtain ⟨modelIr, -, h⟩ := (Outcome.bind_eq_ok ..).mp h
  cases h
  exact ⟨rfl, fitGenerators_prepared (ne_of_gt (costScale_pos hbase hscale)) hfit⟩

/-- Preparing costs installs the best convex quadratic for each piecewise cost at distinct outputs, whose
breakpoints alone it depends on, and leaves the rest of the network as it is. It stops at no fit of paired
breakpoints. -/
theorem prepareCosts_best (host : Host ℝ G T) (hbase : ∀ base, host.checkBaseMva base = .ok () → 0 < base)
    (source : CostedNetwork ℝ G T) :
    (AllPaired source → ∀ scale, costScale host source = .ok scale →
      ∃ fits, fitGenerators .exact host scale 0 source.generators = .ok fits) ∧
    ∀ (network : CostedNetwork ℝ G T) details,
      prepareCosts .exact host source .convexQuadraticFit = .ok (network, details) →
      (network.baseMva = source.baseMva ∧ network.isNormalized = source.isNormalized ∧
        network.tables = source.tables ∧ network.generators.length = source.generators.length) ∧
      (∀ (i : ℕ) generator, source.generators[i]? = some generator → piecewise generator = none →
        network.generators[i]? = some generator) ∧
      ∀ (i : ℕ) generator cost, source.generators[i]? = some generator → piecewise generator = some cost →
        Distinct (pairs cost.coeffs) →
        ∃ fitted q l c, network.generators[i]? = some { generator with cost := some fitted } ∧
          fitted.model = 2 ∧ fitted.startup = cost.startup ∧ fitted.shutdown = cost.shutdown ∧
          fitted.coeffs = [q, l, c] ∧ 0 ≤ q ∧
          (∀ w : Quadratic ℝ, 0 ≤ w.1 →
            fitError (pairs cost.coeffs) (q, l, c) ≤ fitError (pairs cost.coeffs) w) ∧
          -- the same breakpoints, in whatever order and network, have the same fit
          ∀ (source' network' : CostedNetwork ℝ G T) details' (i' : ℕ) generator' cost',
            prepareCosts .exact host source' .convexQuadraticFit = .ok (network', details') →
            source'.generators[i']? = some generator' → piecewise generator' = some cost' →
            (pairs cost.coeffs).Perm (pairs cost'.coeffs) →
            ∃ fitted', network'.generators[i']? = some { generator' with cost := some fitted' } ∧
              fitted'.coeffs = [q, l, c] := by
  have hrow : ∀ {source network : CostedNetwork ℝ G T} {details : Option (ModelDetails ℝ)} {i : ℕ}
      {generator : Generator ℝ G},
      prepareCosts .exact host source .convexQuadraticFit = .ok (network, details) →
      source.generators[i]? = some generator →
      ∃ prepared, network.generators[i]? = some prepared ∧ Prepared generator prepared := by
    intro source network details i generator h hgenerator
    obtain ⟨-, hforall⟩ := prepareCosts_prepared hbase h
    obtain ⟨hlt, hget⟩ := List.getElem?_eq_some_iff.mp hgenerator
    have hlt' : i < network.generators.length := by
      rw [← hforall.length_eq]
      exact hlt
    have hprepared := hforall.get hlt hlt'
    refine ⟨network.generators[i], List.getElem?_eq_getElem hlt', ?_⟩
    rw [← hget]
    exact hprepared
  have hfitted : ∀ {source network : CostedNetwork ℝ G T} {details : Option (ModelDetails ℝ)} {i : ℕ}
      {generator : Generator ℝ G} {cost : GenCost ℝ},
      prepareCosts .exact host source .convexQuadraticFit = .ok (network, details) →
      source.generators[i]? = some generator → piecewise generator = some cost →
      Distinct (pairs cost.coeffs) →
      ∃ fitted, network.generators[i]? = some { generator with cost := some fitted } ∧ Fits cost fitted := by
    intro source network details i generator cost h hgenerator hcost hdistinct
    obtain ⟨prepared, hprepared, hbecomes⟩ := hrow h hgenerator
    rw [Prepared, hcost] at hbecomes
    obtain ⟨fitted, rfl, hfits⟩ := hbecomes
    exact ⟨fitted, hprepared, hfits hdistinct⟩
  constructor
  · intro hpaired scale _
    exact fitGenerators_ok hpaired 0
  · intro network details h
    obtain ⟨hnetwork, hforall⟩ := prepareCosts_prepared hbase h
    refine ⟨?_, ?_, ?_⟩
    · rw [hnetwork]
      exact ⟨rfl, rfl, rfl, hforall.length_eq.symm⟩
    · intro i generator hgenerator hnone
      obtain ⟨prepared, hprepared, hbecomes⟩ := hrow h hgenerator
      rw [Prepared, hnone] at hbecomes
      rw [hprepared, hbecomes]
    · intro i generator cost hgenerator hcost hdistinct
      obtain ⟨fitted, hinstalled, hfits⟩ := hfitted h hgenerator hcost hdistinct
      obtain ⟨q, l, c, hcoeffs, hbest⟩ := hfits.best
      refine ⟨fitted, q, l, c, hinstalled, hfits.model, hfits.startup, hfits.shutdown, hcoeffs, hbest.convex,
        hbest.least, ?_⟩
      intro source' network' details' i' generator' cost' h' hgenerator' hcost' hperm
      obtain ⟨fitted', hinstalled', hfits'⟩ :=
        hfitted h' hgenerator' hcost' ((distinct_perm hperm).mp hdistinct)
      refine ⟨fitted', hinstalled', ?_⟩
      rw [← hcoeffs]
      exact (hfits.unique hdistinct hperm hfits').symm

end

/-! ### Three generators -/

@[reducible] local instance breakpointText : DecimalText ℝ := ⟨fun _ => ""⟩

noncomputable def plainCostHost : Host ℝ Unit Unit where
  checkBaseMva base := if 0 < base then .ok () else .error "base power must be positive"
  ncost _ coeffs := coeffs.length
  serializeModule _ := .ok ""
  contentId text := text

theorem plainCostHost_base (base : ℝ) (h : plainCostHost.checkBaseMva base = .ok ()) : 0 < base := by
  by_contra hnot
  have hchecked : plainCostHost.checkBaseMva base = .error "base power must be positive" := if_neg hnot
  rw [hchecked] at h
  exact nomatch h

def bent (coeffs : List ℝ) : GenCost ℝ := ⟨1, 1, 0, 3, coeffs⟩

/-- A cost with a bend, a cost that is quadratic already, and one that repeats an output. -/
def threeCosts (coeffs : List ℝ) (baseMva : ℝ) : CostedNetwork ℝ Unit Unit where
  generators := [⟨1, some (bent coeffs), ()⟩, ⟨1, some ⟨2, 0, 0, 3, [1, 2, 3]⟩, ()⟩,
    ⟨2, some (bent [0, 5, 0, 6, 100, 7]), ()⟩]
  baseMva := baseMva
  isNormalized := false
  tables := ()

theorem threeCosts_paired {coeffs : List ℝ} (hlength : coeffs.length = 6) (baseMva : ℝ) :
    AllPaired (threeCosts coeffs baseMva) := by
  intro generator hgenerator cost hcost
  simp only [threeCosts, List.mem_cons, List.not_mem_nil, or_false] at hgenerator
  rcases hgenerator with rfl | rfl | rfl
  · obtain rfl := Option.some.inj hcost
    exact hlength.symm
  · exact nomatch hcost
  · obtain rfl := Option.some.inj hcost
    rfl

/-- Three breakpoints in two orders, at base powers of 100 and 1: both fits are installed and are
the same. -/
theorem prepareCosts_best_threeCosts : ∃ network network' details details' fitted fitted' q l c,
    prepareCosts .exact plainCostHost (threeCosts [0, 5, 100, 305, 50, 105] 100) .convexQuadraticFit =
        .ok (network, details) ∧
      prepareCosts .exact plainCostHost (threeCosts [100, 305, 50, 105, 0, 5] 1) .convexQuadraticFit =
        .ok (network', details') ∧
      network.generators[0]? = some ⟨1, some fitted, ()⟩ ∧
      network'.generators[0]? = some ⟨1, some fitted', ()⟩ ∧
      fitted.coeffs = [q, l, c] ∧ fitted'.coeffs = [q, l, c] ∧ 0 ≤ q ∧
      ∀ w : Quadratic ℝ, 0 ≤ w.1 →
        fitError [(0, 5), (100, 305), (50, 105)] (q, l, c) ≤ fitError [(0, 5), (100, 305), (50, 105)] w := by
  have hruns : ∀ (coeffs : List ℝ) (baseMva : ℝ), coeffs.length = 6 → 0 < baseMva →
      ∃ network details, prepareCosts .exact plainCostHost (threeCosts coeffs baseMva)
        .convexQuadraticFit = .ok (network, details) := by
    intro coeffs baseMva hlength hpositive
    have hscale : costScale plainCostHost (threeCosts coeffs baseMva) = .ok baseMva := by
      have hchecked : plainCostHost.checkBaseMva baseMva = .ok () := if_pos hpositive
      rw [costScale]
      change (do plainCostHost.checkBaseMva baseMva; Except.ok baseMva : Except String ℝ) = _
      rw [hchecked]
      rfl
    obtain ⟨fits, hfits⟩ := (prepareCosts_best plainCostHost plainCostHost_base
      (threeCosts coeffs baseMva)).1 (threeCosts_paired hlength baseMva) baseMva hscale
    rw [prepareCosts, hscale]
    dsimp only [bind, Except.bind]
    rw [hfits]
    exact ⟨_, _, rfl⟩
  obtain ⟨network, details, hrun⟩ := hruns [0, 5, 100, 305, 50, 105] 100 rfl (by norm_num)
  obtain ⟨network', details', hrun'⟩ := hruns [100, 305, 50, 105, 0, 5] 1 rfl one_pos
  have hdistinct : Distinct (pairs [(0 : ℝ), 5, 100, 305, 50, 105]) := by
    change [(0 : ℝ), 100, 50].Nodup
    norm_num
  have hperm : (pairs [(0 : ℝ), 5, 100, 305, 50, 105]).Perm (pairs [100, 305, 50, 105, 0, 5]) :=
    @List.perm_append_comm _ [(0, 5)] [(100, 305), (50, 105)]
  obtain ⟨fitted, q, l, c, hinstalled, -, -, -, hcoeffs, hconvex, hleast, hsame⟩ :=
    ((prepareCosts_best plainCostHost plainCostHost_base (threeCosts [0, 5, 100, 305, 50, 105] 100)).2
      network details hrun).2.2 0 _ _ rfl rfl hdistinct
  obtain ⟨fitted', hinstalled', hcoeffs'⟩ :=
    hsame (threeCosts [100, 305, 50, 105, 0, 5] 1) network' details' 0 _ _ hrun' rfl rfl hperm
  exact ⟨network, network', details, details', fitted, fitted', q, l, c, hrun, hrun', hinstalled,
    hinstalled', hcoeffs, hcoeffs', hconvex, hleast⟩

end Tellegen.Preparation
