import Tellegen.GalvanicZones
import Tellegen.Lib.StableSort

/-!
Feeders: what a network supplies through one branch leaving its supply bus, read from
the drawn tree. Parents are swept before children, so every bus with a supply above it
finds a feeder to join.
-/

namespace Tellegen

structure Feeder where
  zone : Option ℕ
  head : ℕ
  supply : ℕ
  number : ℕ
  buses : List ℕ
  edges : List ℕ

structure Feeders where
  feeders : List Feeder
  busFeeder : ℕ → Option ℕ
  edgeFeeder : List (Option ℕ)

/-! ### The sweep -/

section

variable {I K : Type} [DecidableEq K] (lower : I → K) (graph : DistGraph I) (tree : DisplayTree)

/-- A root, or a bus entered through a transformer. `none` is a `TypeError`. -/
def isSupply (i : ℕ) : Option Bool :=
  match tree.parentEdge i with
  | none => some true
  | some k => (graph.edges[k]?).map fun edge => edge.kind = .transformer

def depthOrder : Collation ℕ where
  le a b := decide (nextDepth (tree.depth a) ≤ nextDepth (tree.depth b))
  trans a b c hab hbc :=
    decide_eq_true (Nat.le_trans (of_decide_eq_true hab) (of_decide_eq_true hbc))
  total a b := by
    rw [Bool.or_eq_true, decide_eq_true_eq, decide_eq_true_eq]
    exact Nat.le_total _ _

structure FeederSweep where
  feeders : List Feeder
  busFeeder : ℕ → Option ℕ
  perSupply : ℕ → ℕ

/-- A new feeder for the first bus below a supply bus `p`. -/
def openFeeder (zone : Option ℕ) (head p i : ℕ) (state : FeederSweep) : FeederSweep where
  feeders := state.feeders ++
    [{ zone, head, supply := p, number := state.perSupply p + 1, buses := [i], edges := [] }]
  busFeeder := Function.update state.busFeeder i (some state.feeders.length)
  perSupply := Function.update state.perSupply p (state.perSupply p + 1)

def joinFeeder (f i : ℕ) (state : FeederSweep) : FeederSweep :=
  { state with
    feeders := state.feeders.modify f fun feeder => { feeder with buses := feeder.buses ++ [i] }
    busFeeder := Function.update state.busFeeder i (some f) }

/-- A parent without a feeder to join is a `TypeError`. -/
def sweepBus (zones : GalvanicZones) (state : FeederSweep) (i : ℕ) : Option FeederSweep := do
  if ← isSupply graph tree i then
    return state
  let head ← tree.parentEdge i
  let p ← tree.parent i
  if ← isSupply graph tree p then
    return openFeeder (zones.busZone i) head p i state
  let f ← state.busFeeder p
  return joinFeeder f i state

/-- The feeder of a branch: that of its far end, of a transformer that of its near end. -/
def feederOf (busFeeder : ℕ → Option ℕ) (edge : DistEdge I) : Option ℕ :=
  match branchEnds lower graph edge with
  | none => none
  | some (a, b) =>
    let (up, down) :=
      if nextDepth (tree.depth a) ≤ nextDepth (tree.depth b) then (a, b) else (b, a)
    if edge.kind = .transformer then busFeeder up else busFeeder down

def pushBranch (busFeeder : ℕ → Option ℕ) (feeders : List Feeder) (next : DistEdge I × ℕ) :
    List Feeder :=
  match feederOf lower graph tree busFeeder next.1 with
  | some f => feeders.modify f fun feeder => { feeder with edges := feeder.edges ++ [next.2] }
  | none => feeders

def feeders (zones : GalvanicZones) : Option Feeders := do
  let order := (depthOrder tree).sort (List.range graph.buses.length)
  let sweep ← order.foldlM (sweepBus graph tree zones)
    { feeders := [], busFeeder := fun _ => none, perSupply := fun _ => 0 }
  return {
    feeders := graph.edges.zipIdx.foldl (pushBranch lower graph tree sweep.busFeeder) sweep.feeders
    busFeeder := sweep.busFeeder
    edgeFeeder := graph.edges.map (feederOf lower graph tree sweep.busFeeder) }

end

/-! ### The drawn tree -/

section

variable {I K : Type} [DecidableEq K] {lower : I → K} {graph : DistGraph I} {tree : DisplayTree}
  {zones : GalvanicZones}

/-- What a bus hangs from when it is neither a root nor entered through a transformer. -/
theorem exists_parent (hspans : SpansClosed lower graph tree.spanning) {i : ℕ}
    (hi : i < graph.buses.length) (hsupply : isSupply graph tree i = some false) :
    ∃ p k edge d, tree.parent i = some p ∧ tree.parentEdge i = some k ∧
      graph.edges[k]? = some edge ∧ edge.closed = true ∧ edge.kind ≠ .transformer ∧
      (branchEnds lower graph edge = some (p, i) ∨ branchEnds lower graph edge = some (i, p)) ∧
      tree.depth p = some d ∧ tree.depth i = some (d + 1) := by
  rw [isSupply] at hsupply
  rcases hspans.depth i hi with ⟨_, _, hedge, _⟩ |
    ⟨_, p, k, d, hparent, hedge, ⟨edge, hat, hclosed, hends⟩, _, hdepth, hdepth'⟩
  · change tree.parentEdge i = none at hedge
    rw [hedge] at hsupply
    cases hsupply
  · change tree.parentEdge i = some k at hedge
    simp only [hedge, hat, Option.map_some, Option.some.injEq, decide_eq_false_iff_not] at hsupply
    exact ⟨p, k, edge, d, hparent, hedge, hat, hclosed, hsupply, hends, hdepth, hdepth'⟩

theorem exists_isSupply (hspans : SpansClosed lower graph tree.spanning) {i : ℕ}
    (hi : i < graph.buses.length) : ∃ b, isSupply graph tree i = some b := by
  rw [isSupply]
  rcases hspans.depth i hi with ⟨_, _, hedge, _⟩ | ⟨_, p, k, d, _, hedge, ⟨edge, hat, _⟩, _⟩
  · change tree.parentEdge i = none at hedge
    rw [hedge]
    exact ⟨true, rfl⟩
  · change tree.parentEdge i = some k at hedge
    simp only [hedge, hat, Option.map_some]
    exact ⟨_, rfl⟩

theorem isSupply_iff (hspans : SpansClosed lower graph tree.spanning) {i : ℕ}
    (hi : i < graph.buses.length) : isSupply graph tree i = some true ↔
      i ∈ tree.roots ∨ ∃ k, tree.parentEdge i = some k ∧ isTransformer graph k := by
  rw [isSupply]
  rcases hspans.depth i hi with ⟨hroot, _, hedge, _⟩ |
    ⟨hroot, p, k, d, _, hedge, ⟨edge, hat, _⟩, _⟩
  · change tree.parentEdge i = none at hedge
    rw [hedge]
    exact ⟨fun _ => .inl hroot, fun _ => rfl⟩
  · change tree.parentEdge i = some k at hedge
    change i ∉ tree.roots at hroot
    rw [hedge]
    simp only [hat, Option.map_some, Option.some.injEq, hroot, false_or, isTransformer,
      exists_eq_left', Option.any_some]

theorem busZone_eq (hzones : ZonesPartition lower graph zones) {edge : DistEdge I} {k a b : ℕ}
    (hat : graph.edges[k]? = some edge) (hclosed : edge.closed = true)
    (hkind : edge.kind ≠ .transformer)
    (hends : branchEnds lower graph edge = some (a, b) ∨ branchEnds lower graph edge = some (b, a)) :
    zones.busZone a = zones.busZone b := by
  have hmem := List.mem_of_getElem? hat
  rcases hends with hends | hends
  · obtain ⟨ha, hb⟩ := branchEnds_lt hends
    exact (hzones.same a ha b hb).mpr (.rel _ _ ⟨edge, hmem, hclosed, hkind, hends⟩)
  · obtain ⟨hb, ha⟩ := branchEnds_lt hends
    exact (hzones.same a ha b hb).mpr (.symm _ _ (.rel _ _ ⟨edge, hmem, hclosed, hkind, hends⟩))

/-! ### Buses swept so far -/

/-- The feeders of the buses in `done`. Each lies in the zone of its supply bus. -/
structure Swept (graph : DistGraph I) (tree : DisplayTree) (zones : GalvanicZones) (done : List ℕ)
    (state : FeederSweep) : Prop where
  assigned : ∀ i ∈ done, isSupply graph tree i = some false → ∃ f, state.busFeeder i = some f
  fed : ∀ i f, state.busFeeder i = some f →
    i ∈ done ∧ isSupply graph tree i = some false ∧ f < state.feeders.length
  buses : ∀ f feeder, state.feeders[f]? = some feeder →
    feeder.buses = done.filter fun i => state.busFeeder i = some f
  inside : ∀ f feeder, state.feeders[f]? = some feeder → feeder.supply < graph.buses.length ∧
    isSupply graph tree feeder.supply = some true ∧ zones.busZone feeder.supply = feeder.zone ∧
    feeder.buses ≠ [] ∧ feeder.edges = [] ∧
    ∀ i, state.busFeeder i = some f → zones.busZone i = feeder.zone

theorem Swept.not_fed {done : List ℕ} {state : FeederSweep} (h : Swept graph tree zones done state)
    {i : ℕ} (hi : i ∉ done) : state.busFeeder i = none := by
  cases hfeeder : state.busFeeder i with
  | none => rfl
  | some f => exact absurd (h.fed i f hfeeder).1 hi

theorem filter_update (busFeeder : ℕ → Option ℕ) {done : List ℕ} {i : ℕ} (hi : i ∉ done) (f f' : ℕ) :
    (done ++ [i]).filter (fun j => Function.update busFeeder i (some f) j = some f') =
      done.filter (fun j => busFeeder j = some f') ++ if f = f' then [i] else [] := by
  have hold : done.filter (fun j => Function.update busFeeder i (some f) j = some f') =
      done.filter fun j => busFeeder j = some f' := by
    apply List.filter_congr
    intro j hj
    have hne : j ≠ i := fun heq => hi (heq ▸ hj)
    rw [Function.update_of_ne hne]
  rw [List.filter_append, hold]
  congr 1
  by_cases hf : f = f'
  · simp only [hf, if_true]
    rw [List.filter_cons_of_pos (by simp only [Function.update_self, decide_true]), List.filter_nil]
  · simp only [hf, if_false]
    rw [List.filter_cons_of_neg (by simp only [Function.update_self, Option.some.injEq, hf,
      decide_false, Bool.false_eq_true, not_false_eq_true]), List.filter_nil]

theorem Swept.skip {done : List ℕ} {state : FeederSweep} (h : Swept graph tree zones done state)
    {i : ℕ} (hi : i ∉ done) (hsupply : isSupply graph tree i = some true) :
    Swept graph tree zones (done ++ [i]) state := by
  constructor
  case assigned =>
    intro j hj hjs
    rcases List.mem_append.mp hj with hj | hj
    · exact h.assigned j hj hjs
    · rw [List.mem_singleton.mp hj, hsupply] at hjs
      cases hjs
  case fed =>
    intro j f hj
    obtain ⟨hmem, hrest⟩ := h.fed j f hj
    exact ⟨List.mem_append_left _ hmem, hrest⟩
  case buses =>
    intro f feeder hfeeder
    simp only [List.filter_append, List.filter_cons, List.filter_nil, h.not_fed hi, reduceCtorEq,
      decide_false, Bool.false_eq_true, if_false, List.append_nil]
    exact h.buses f feeder hfeeder
  case inside => exact h.inside

theorem Swept.assigned_update {done : List ℕ} {state : FeederSweep}
    (h : Swept graph tree zones done state) (i f : ℕ) :
    ∀ j ∈ done ++ [i], isSupply graph tree j = some false →
      ∃ g, Function.update state.busFeeder i (some f) j = some g := by
  intro j hj hjs
  by_cases hji : j = i
  · rw [hji]
    exact ⟨_, Function.update_self _ _ _⟩
  · rw [Function.update_of_ne hji]
    rcases List.mem_append.mp hj with hj | hj
    · exact h.assigned j hj hjs
    · exact absurd (List.mem_singleton.mp hj) hji

theorem Swept.fed_update {done : List ℕ} {state : FeederSweep}
    (h : Swept graph tree zones done state) {i f n : ℕ} (hsupply : isSupply graph tree i = some false)
    (hf : f < n) (hle : state.feeders.length ≤ n) :
    ∀ j g, Function.update state.busFeeder i (some f) j = some g →
      j ∈ done ++ [i] ∧ isSupply graph tree j = some false ∧ g < n := by
  intro j g hj
  by_cases hji : j = i
  · rw [hji, Function.update_self] at hj
    cases hj
    rw [hji]
    exact ⟨List.mem_append_right _ List.mem_cons_self, hsupply, hf⟩
  · rw [Function.update_of_ne hji] at hj
    obtain ⟨hmem, hjs, hlt⟩ := h.fed j g hj
    exact ⟨List.mem_append_left _ hmem, hjs, hlt.trans_le hle⟩

theorem Swept.openFeeder {done : List ℕ} {state : FeederSweep}
    (h : Swept graph tree zones done state) {i p head : ℕ} (hi : i ∉ done)
    (hsupply : isSupply graph tree i = some false) (hp : p < graph.buses.length)
    (hsupplyp : isSupply graph tree p = some true) (hzone : zones.busZone i = zones.busZone p) :
    Swept graph tree zones (done ++ [i])
      (Tellegen.openFeeder (zones.busZone i) head p i state) := by
  have hat : ∀ {f feeder}, (Tellegen.openFeeder (zones.busZone i) head p i state).feeders[f]? =
      some feeder → state.feeders[f]? = some feeder ∨ (f = state.feeders.length ∧ feeder =
        { zone := zones.busZone i, head, supply := p, number := state.perSupply p + 1,
          buses := [i], edges := [] }) := by
    intro f feeder hfeeder
    rw [Tellegen.openFeeder] at hfeeder
    dsimp only at hfeeder
    rcases Nat.lt_trichotomy f state.feeders.length with hlt | heq | hgt
    · rw [List.getElem?_append_left hlt] at hfeeder
      exact .inl hfeeder
    · rw [heq, List.getElem?_concat_length] at hfeeder
      exact .inr ⟨heq, (Option.some.inj hfeeder).symm⟩
    · rw [List.getElem?_eq_none (by rw [List.length_append, List.length_singleton]; omega)]
        at hfeeder
      cases hfeeder
  constructor
  case assigned => exact h.assigned_update i _
  case fed =>
    refine h.fed_update hsupply ?_ ?_
    · simp [Tellegen.openFeeder]
    · simp [Tellegen.openFeeder]
  case buses =>
    intro f feeder hfeeder
    rw [Tellegen.openFeeder]
    dsimp only
    rw [filter_update state.busFeeder hi]
    rcases hat hfeeder with hold | ⟨rfl, rfl⟩
    · have hlt := (List.getElem?_eq_some_iff.mp hold).1
      rw [if_neg (by omega), List.append_nil]
      exact h.buses f feeder hold
    · have hnil : done.filter (fun j => state.busFeeder j = some state.feeders.length) = [] := by
        rw [List.filter_eq_nil_iff]
        intro j _ hj
        have hlt := (h.fed j _ (of_decide_eq_true hj)).2.2
        omega
      rw [hnil, if_pos rfl, List.nil_append]
  case inside =>
    intro f feeder hfeeder
    rw [Tellegen.openFeeder]
    dsimp only
    rcases hat hfeeder with hold | ⟨rfl, rfl⟩
    · obtain ⟨hlt, hs, hz, hne, hedges, hall⟩ := h.inside f feeder hold
      refine ⟨hlt, hs, hz, hne, hedges, ?_⟩
      intro j hj
      by_cases hji : j = i
      · rw [hji, Function.update_self] at hj
        cases hj
        have habsurd := (List.getElem?_eq_some_iff.mp hold).1
        omega
      · rw [Function.update_of_ne hji] at hj
        exact hall j hj
    · refine ⟨hp, hsupplyp, hzone.symm, List.cons_ne_nil _ _, rfl, ?_⟩
      intro j hj
      by_cases hji : j = i
      · rw [hji]
      · rw [Function.update_of_ne hji] at hj
        have habsurd := (h.fed j _ hj).2.2
        omega

theorem Swept.joinFeeder {done : List ℕ} {state : FeederSweep}
    (h : Swept graph tree zones done state) {i p f : ℕ} (hi : i ∉ done)
    (hsupply : isSupply graph tree i = some false) (hf : state.busFeeder p = some f)
    (hzone : zones.busZone i = zones.busZone p) :
    Swept graph tree zones (done ++ [i]) (Tellegen.joinFeeder f i state) := by
  have hflt := (h.fed p f hf).2.2
  constructor
  case assigned => exact h.assigned_update i _
  case fed =>
    refine h.fed_update hsupply ?_ ?_
    · simpa [Tellegen.joinFeeder] using hflt
    · simp [Tellegen.joinFeeder]
  case buses =>
    intro f' feeder hfeeder
    rw [Tellegen.joinFeeder] at hfeeder ⊢
    dsimp only at hfeeder ⊢
    rw [List.getElem?_modify] at hfeeder
    obtain ⟨old, hold, hnew⟩ := Option.map_eq_some_iff.mp hfeeder
    rw [filter_update state.busFeeder hi, ← h.buses f' old hold, ← hnew]
    by_cases hff : f = f'
    · rw [if_pos hff, if_pos hff]
    · rw [if_neg hff, if_neg hff, List.append_nil]
  case inside =>
    intro f' feeder hfeeder
    rw [Tellegen.joinFeeder] at hfeeder ⊢
    dsimp only at hfeeder ⊢
    rw [List.getElem?_modify] at hfeeder
    obtain ⟨old, hold, hnew⟩ := Option.map_eq_some_iff.mp hfeeder
    obtain ⟨hlt, hs, hz, hne, hedges, hall⟩ := h.inside f' old hold
    have hsame : feeder.supply = old.supply ∧ feeder.zone = old.zone ∧
        feeder.edges = old.edges ∧ feeder.buses ≠ [] := by
      rw [← hnew]
      split
      · exact ⟨rfl, rfl, rfl, List.append_ne_nil_of_right_ne_nil _ (List.cons_ne_nil _ _)⟩
      · exact ⟨rfl, rfl, rfl, hne⟩
    obtain ⟨hsupply', hzone', hedges', hne'⟩ := hsame
    rw [hsupply', hzone', hedges']
    refine ⟨hlt, hs, hz, hne', hedges, ?_⟩
    intro j hj
    by_cases hji : j = i
    · rw [hji, Function.update_self] at hj
      cases hj
      rw [hji, hzone]
      exact hall p hf
    · rw [Function.update_of_ne hji] at hj
      exact hall j hj

theorem Swept.sweepBus (hspans : SpansClosed lower graph tree.spanning)
    (hzones : ZonesPartition lower graph zones) {done : List ℕ} {state : FeederSweep}
    (h : Swept graph tree zones done state) {i : ℕ} (hi : i ∉ done) (hlt : i < graph.buses.length)
    (hbefore : ∀ j < graph.buses.length, nextDepth (tree.depth j) < nextDepth (tree.depth i) →
      j ∈ done) :
    ∃ state', Tellegen.sweepBus graph tree zones state i = some state' ∧
      Swept graph tree zones (done ++ [i]) state' := by
  obtain ⟨supply, hsupply⟩ := exists_isSupply hspans hlt
  cases supply with
  | true =>
    refine ⟨state, ?_, h.skip hi hsupply⟩
    simp only [Tellegen.sweepBus, hsupply, Option.bind_eq_bind, Option.bind_some, if_true]
    rfl
  | false =>
    obtain ⟨p, k, edge, d, hparent, hedge, hat, hclosed, hkind, hends, hdepth, hdepth'⟩ :=
      exists_parent hspans hlt hsupply
    have hp : p < graph.buses.length := by
      rcases hends with hends | hends
      · exact (branchEnds_lt hends).1
      · exact (branchEnds_lt hends).2
    have hzone := busZone_eq hzones hat hclosed hkind hends.symm
    obtain ⟨supplyp, hsupplyp⟩ := exists_isSupply hspans hp
    cases supplyp with
    | true =>
      refine ⟨Tellegen.openFeeder (zones.busZone i) k p i state, ?_,
        h.openFeeder hi hsupply hp hsupplyp hzone⟩
      simp only [Tellegen.sweepBus, hsupply, hedge, hparent, hsupplyp, Option.bind_eq_bind,
        Option.bind_some, Bool.false_eq_true, if_true, if_false]
      rfl
    | false =>
      -- the parent is less deep, so it was swept
      have hmem : p ∈ done := hbefore p hp (by
        rw [hdepth, hdepth']
        exact Nat.lt_succ_self _)
      obtain ⟨f, hf⟩ := h.assigned p hmem hsupplyp
      refine ⟨Tellegen.joinFeeder f i state, ?_, h.joinFeeder hi hsupply hf hzone⟩
      simp only [Tellegen.sweepBus, hsupply, hedge, hparent, hsupplyp, hf, Option.bind_eq_bind,
        Option.bind_some, Bool.false_eq_true, if_false]
      rfl

theorem Swept.sweep (hspans : SpansClosed lower graph tree.spanning)
    (hzones : ZonesPartition lower graph zones) {done rest : List ℕ} {state : FeederSweep}
    (h : Swept graph tree zones done state)
    (hsorted : (done ++ rest).Pairwise fun a b => (depthOrder tree).le a b)
    (hperm : (done ++ rest).Perm (List.range graph.buses.length)) :
    ∃ state', rest.foldlM (Tellegen.sweepBus graph tree zones) state = some state' ∧
      Swept graph tree zones (done ++ rest) state' := by
  induction rest generalizing done state with
  | nil =>
    rw [List.append_nil]
    exact ⟨state, rfl, h⟩
  | cons i rest ih =>
    have hnodup := hperm.nodup_iff.mpr List.nodup_range
    have hi : i ∉ done := fun hmem =>
      (List.nodup_append.mp hnodup).2.2 i hmem i List.mem_cons_self rfl
    have hlt : i < graph.buses.length := List.mem_range.mp
      (hperm.mem_iff.mp (List.mem_append_right _ List.mem_cons_self))
    have hbefore : ∀ j < graph.buses.length,
        nextDepth (tree.depth j) < nextDepth (tree.depth i) → j ∈ done := by
      intro j hj hless
      rcases List.mem_append.mp (hperm.mem_iff.mpr (List.mem_range.mpr hj)) with hmem | hmem
      · exact hmem
      · rcases List.mem_cons.mp hmem with rfl | hmem
        · omega
        · have hle := (List.pairwise_cons.mp (List.pairwise_append.mp hsorted).2.1).1 j hmem
          have hle' : nextDepth (tree.depth i) ≤ nextDepth (tree.depth j) := of_decide_eq_true hle
          omega
    obtain ⟨next, hnext, hswept⟩ := h.sweepBus hspans hzones hi hlt hbefore
    have happend : done ++ [i] ++ rest = done ++ i :: rest := by
      rw [List.append_assoc, List.singleton_append]
    rw [← happend] at hsorted hperm ⊢
    obtain ⟨final, hfinal, hall⟩ := ih hswept hsorted hperm
    refine ⟨final, ?_, hall⟩
    rw [List.foldlM_cons, hnext]
    exact hfinal

/-! ### Branches -/

theorem getElem?_pushBranches (busFeeder : ℕ → Option ℕ) (branches : List (DistEdge I × ℕ))
    (feeders : List Feeder) (f : ℕ) :
    (branches.foldl (pushBranch lower graph tree busFeeder) feeders)[f]? =
      feeders[f]?.map fun feeder =>
        { feeder with
          edges := feeder.edges ++
            (branches.filter fun next => feederOf lower graph tree busFeeder next.1 = some f).map
              Prod.snd } := by
  induction branches generalizing feeders with
  | nil =>
    rw [List.foldl_nil]
    cases feeders[f]? with
    | none => rfl
    | some feeder =>
      rw [Option.map_some, List.filter_nil, List.map_nil, List.append_nil]
  | cons next rest ih =>
    rw [List.foldl_cons, ih, pushBranch]
    cases hown : feederOf lower graph tree busFeeder next.1 with
    | none =>
      simp only [List.filter_cons, hown, reduceCtorEq, decide_false, Bool.false_eq_true,
        if_false]
    | some f' =>
      simp only [List.filter_cons, hown, Option.some.injEq, decide_eq_true_eq]
      rw [List.getElem?_modify]
      cases feeders[f]? with
      | none => rfl
      | some feeder =>
        by_cases hff : f' = f
        · simp only [hff, if_true, Option.map_eq_map, Option.map_some, List.map_cons,
            List.append_assoc, List.singleton_append]
        · simp only [hff, if_false, Option.map_eq_map, Option.map_some]

/-! ### The partition -/

/-- Each bus below a supply bus is in one feeder, the supply buses in none. A feeder lies in one zone
together with its supply bus and holds the branches from the parents of its buses. -/
structure FeedersPartition (graph : DistGraph I) (tree : DisplayTree) (zones : GalvanicZones)
    (result : Feeders) : Prop where
  supply : ∀ i < graph.buses.length,
    (i ∈ tree.roots ∨ ∃ k, tree.parentEdge i = some k ∧ isTransformer graph k) →
      result.busFeeder i = none ∧ ∀ feeder ∈ result.feeders, i ∉ feeder.buses
  supplied : ∀ i < graph.buses.length,
    ¬ (i ∈ tree.roots ∨ ∃ k, tree.parentEdge i = some k ∧ isTransformer graph k) →
      ∃ f, result.busFeeder i = some f ∧
        ∀ f', (∃ feeder, result.feeders[f']? = some feeder ∧ i ∈ feeder.buses) ↔ f' = f
  blocks : ∀ feeder ∈ result.feeders,
    feeder.buses ≠ [] ∧ feeder.buses.Nodup ∧ ∀ i ∈ feeder.buses, i < graph.buses.length
  inside : ∀ feeder ∈ result.feeders, ∃ z zone, feeder.zone = some z ∧
    zones.zones[z]? = some zone ∧ feeder.supply ∈ zone.buses ∧ ∀ i ∈ feeder.buses, i ∈ zone.buses
  source : ∀ feeder ∈ result.feeders, feeder.supply ∈ tree.roots ∨
    ∃ k, tree.parentEdge feeder.supply = some k ∧ isTransformer graph k
  parents : ∀ feeder ∈ result.feeders, ∀ i ∈ feeder.buses,
    ∃ k, tree.parentEdge i = some k ∧ k ∈ feeder.edges

theorem feeders_partition (hspans : SpansClosed lower graph tree.spanning)
    (hzones : ZonesPartition lower graph zones) :
    ∃ result, feeders lower graph tree zones = some result ∧
      FeedersPartition graph tree zones result := by
  let order := (depthOrder tree).sort (List.range graph.buses.length)
  have hperm : order.Perm (List.range graph.buses.length) := (depthOrder tree).sort_perm _
  have hsorted : order.Pairwise fun a b => (depthOrder tree).le a b := (depthOrder tree).sort_pairwise _
  have hstart : Swept graph tree zones []
      { feeders := [], busFeeder := fun _ => none, perSupply := fun _ => 0 } := by
    constructor
    case assigned => exact fun i hi => absurd hi List.not_mem_nil
    case fed => exact fun _ _ hfed => nomatch hfed
    case buses => exact fun _ _ hfeeder => nomatch hfeeder
    case inside => exact fun _ _ hfeeder => nomatch hfeeder
  have hrun : ∃ state', order.foldlM (Tellegen.sweepBus graph tree zones)
      { feeders := [], busFeeder := fun _ => none, perSupply := fun _ => 0 } = some state' ∧
      Swept graph tree zones order state' := hstart.sweep hspans hzones hsorted hperm
  obtain ⟨sweep, hsweep, hswept⟩ := hrun
  have hin : ∀ {i}, i ∈ order ↔ i < graph.buses.length := by
    intro i
    rw [hperm.mem_iff, List.mem_range]
  let result : Feeders :=
    { feeders := graph.edges.zipIdx.foldl (pushBranch lower graph tree sweep.busFeeder) sweep.feeders
      busFeeder := sweep.busFeeder
      edgeFeeder := graph.edges.map (feederOf lower graph tree sweep.busFeeder) }
  have hresult : feeders lower graph tree zones = some result := by
    change (order.foldlM (Tellegen.sweepBus graph tree zones) _).bind _ = _
    rw [hsweep]
    rfl
  refine ⟨result, hresult, ?_⟩
  -- what a listed feeder was before the branches
  have hat : ∀ {f feeder}, result.feeders[f]? = some feeder →
      ∃ old, sweep.feeders[f]? = some old ∧ feeder.supply = old.supply ∧ feeder.zone = old.zone ∧
        feeder.buses = order.filter (fun i => sweep.busFeeder i = some f) ∧
        feeder.edges = (graph.edges.zipIdx.filter fun next =>
          feederOf lower graph tree sweep.busFeeder next.1 = some f).map Prod.snd := by
    intro f feeder hfeeder
    rw [getElem?_pushBranches] at hfeeder
    obtain ⟨old, hold, hnew⟩ := Option.map_eq_some_iff.mp hfeeder
    obtain ⟨_, _, _, _, hedges, _⟩ := hswept.inside f old hold
    rw [hedges, List.nil_append] at hnew
    refine ⟨old, hold, ?_⟩
    rw [← hnew]
    exact ⟨rfl, rfl, hswept.buses f old hold, rfl⟩
  have hmem : ∀ {f feeder i}, result.feeders[f]? = some feeder →
      (i ∈ feeder.buses ↔ sweep.busFeeder i = some f) := by
    intro f feeder i hfeeder
    obtain ⟨_, _, _, _, hbuses, _⟩ := hat hfeeder
    rw [hbuses, List.mem_filter, decide_eq_true_eq]
    exact ⟨fun h => h.2, fun h => ⟨(hswept.fed i f h).1, h⟩⟩
  have hpos : ∀ {feeder}, feeder ∈ result.feeders → ∃ f : ℕ, result.feeders[f]? = some feeder := by
    intro feeder hfeeder
    obtain ⟨f, hlt, heq⟩ := List.getElem_of_mem hfeeder
    exact ⟨f, by rw [List.getElem?_eq_getElem hlt, heq]⟩
  have hfed : ∀ {i f}, sweep.busFeeder i = some f →
      i < graph.buses.length ∧ isSupply graph tree i = some false := by
    intro i f h
    obtain ⟨hi, hsupply, _⟩ := hswept.fed i f h
    exact ⟨hin.mp hi, hsupply⟩
  constructor
  case supply =>
    intro i hi hroot
    have hsupply := (isSupply_iff hspans hi).mpr hroot
    have hnone : sweep.busFeeder i = none := by
      cases hfeeder : sweep.busFeeder i with
      | none => rfl
      | some f =>
        have hnot := (hfed hfeeder).2
        rw [hsupply] at hnot
        cases hnot
    refine ⟨hnone, ?_⟩
    intro feeder hfeeder hmemi
    obtain ⟨f, hf⟩ := hpos hfeeder
    rw [hmem hf, hnone] at hmemi
    cases hmemi
  case supplied =>
    intro i hi hroot
    have hsupply : isSupply graph tree i = some false := by
      obtain ⟨supply, hsupply⟩ := exists_isSupply hspans hi
      cases supply with
      | true => exact absurd ((isSupply_iff hspans hi).mp hsupply) hroot
      | false => exact hsupply
    obtain ⟨f, hf⟩ := hswept.assigned i (hin.mpr hi) hsupply
    refine ⟨f, hf, ?_⟩
    intro f'
    constructor
    · rintro ⟨feeder, hfeeder, hmemi⟩
      rw [hmem hfeeder, hf] at hmemi
      exact (Option.some.inj hmemi).symm
    · rintro rfl
      obtain ⟨old, hold⟩ : ∃ old, sweep.feeders[f']? = some old :=
        ⟨_, List.getElem?_eq_getElem (hswept.fed i f' hf).2.2⟩
      obtain ⟨feeder, hfeeder⟩ : ∃ feeder, result.feeders[f']? = some feeder := by
        rw [getElem?_pushBranches, hold, Option.map_some]
        exact ⟨_, rfl⟩
      exact ⟨feeder, hfeeder, (hmem hfeeder).mpr hf⟩
  case blocks =>
    intro feeder hfeeder
    obtain ⟨f, hf⟩ := hpos hfeeder
    obtain ⟨old, hold, _, _, hbuses, _⟩ := hat hf
    obtain ⟨_, _, _, hne, _, _⟩ := hswept.inside f old hold
    rw [hswept.buses f old hold] at hne
    refine ⟨by rw [hbuses]; exact hne, ?_, fun i hi => (hfed ((hmem hf).mp hi)).1⟩
    rw [hbuses]
    exact (hperm.nodup_iff.mpr List.nodup_range).filter _
  case inside =>
    intro feeder hfeeder
    obtain ⟨f, hf⟩ := hpos hfeeder
    obtain ⟨old, hold, hsupply, hzone, _, _⟩ := hat hf
    obtain ⟨hlt, _, hzoneSupply, _, _, hall⟩ := hswept.inside f old hold
    obtain ⟨z, hz⟩ := hzones.assigned old.supply hlt
    obtain ⟨zone, hzoneAt, hsupplyMem⟩ := hzones.listed old.supply hlt z hz
    rw [hsupply, hzone, ← hzoneSupply]
    refine ⟨z, zone, hz, hzoneAt, hsupplyMem, ?_⟩
    intro i hi
    have hfi := (hmem hf).mp hi
    rw [hzones.buses z zone hzoneAt, List.mem_filter, List.mem_range, decide_eq_true_eq]
    exact ⟨(hfed hfi).1, by rw [hall i hfi, ← hzoneSupply, hz]⟩
  case source =>
    intro feeder hfeeder
    obtain ⟨f, hf⟩ := hpos hfeeder
    obtain ⟨old, hold, hsupply, _⟩ := hat hf
    obtain ⟨hlt, hs, _⟩ := hswept.inside f old hold
    rw [hsupply]
    exact (isSupply_iff hspans hlt).mp hs
  case parents =>
    intro feeder hfeeder i hi
    obtain ⟨f, hf⟩ := hpos hfeeder
    obtain ⟨_, _, _, _, _, hedges⟩ := hat hf
    have hfi := (hmem hf).mp hi
    obtain ⟨hlt, hsupply⟩ := hfed hfi
    obtain ⟨p, k, edge, d, _, hedge, hlook, _, hkind, hends, hdepth, hdepth'⟩ :=
      exists_parent hspans hlt hsupply
    refine ⟨k, hedge, ?_⟩
    rw [hedges, List.mem_map]
    refine ⟨(edge, k), ?_, rfl⟩
    rw [List.mem_filter, decide_eq_true_eq]
    refine ⟨List.mk_mem_zipIdx_iff_getElem?.mpr hlook, ?_⟩
    rw [← hfi]
    rcases hends with hends | hends
    · have hle : nextDepth (tree.depth p) ≤ nextDepth (tree.depth i) := by
        rw [hdepth, hdepth']
        exact Nat.le_succ _
      simp only [feederOf, hends, hle, hkind, if_true, if_false]
    · have hgt : ¬ nextDepth (tree.depth i) ≤ nextDepth (tree.depth p) := by
        rw [hdepth, hdepth']
        exact Nat.not_succ_le_self _
      simp only [feederOf, hends, hgt, hkind, if_false]

variable (lower graph)

/-- The drawn forest and the electrical views of a graph agree, for any graph and any forest that the zones
are fed: in its parents and roots, in what is live, and in the zones and feeders of its edges. -/
theorem drawn_forest_agrees (fed : Option DisplayTree) :
    let tree := displayTree lower graph
    let drawn := forest lower graph
    let live := energisation lower graph
    let zones := galvanicZones lower graph fed
    (tree.parent = drawn.parent ∧ tree.parentEdge = drawn.parentEdge ∧ tree.depth = drawn.depth ∧
      tree.roots = drawn.roots) ∧
    SpansClosed lower graph tree.spanning ∧
    (∀ v < graph.buses.length, ∀ r ∈ tree.roots, tree.spanning.Ascends v r →
      (live.buses v ↔ hasSource graph r)) ∧
    live.deadBuses = (List.range graph.buses.length).countP (fun v => !live.buses v) ∧
    (∀ v < graph.buses.length, ∀ u k, tree.parent v = some u → tree.parentEdge v = some k →
      ¬ isTransformer graph k → zones.busZone v = zones.busZone u ∧
        ∃ z zone, zones.busZone v = some z ∧ zones.zones[z]? = some zone ∧
          v ∈ zone.buses ∧ u ∈ zone.buses) ∧
    ∃ result, feeders lower graph tree zones = some result ∧
      FeedersPartition graph tree zones result := by
  have htree := spanning_displayTree lower graph
  have hforest := spanning_forest lower graph
  have hsame : (displayTree lower graph).spanning = (forest lower graph).spanning :=
    htree.trans hforest.symm
  have hspans : SpansClosed lower graph (displayTree lower graph).spanning := by
    rw [htree]
    exact spansClosed_spanningTree lower graph
  have hzones := galvanicZones_partition lower graph fed
  refine ⟨⟨congrArg Spanning.parent hsame, congrArg Spanning.parentEdge hsame,
    congrArg Spanning.depth hsame, congrArg Spanning.roots hsame⟩, hspans, ?_,
    (energisation_spec lower graph).2, ?_, feeders_partition hspans hzones⟩
  · intro v hv r hr hup
    change r ∈ (displayTree lower graph).spanning.roots at hr
    rw [htree] at hr hup
    exact energised_iff_root lower graph hv hr hup
  · intro v hv u k hparent hedge hkind
    rcases hspans.depth v hv with ⟨_, _, hnone, _⟩ |
      ⟨_, u', k', d, hparent', hedge', ⟨edge, hat, hclosed, hends⟩, _⟩
    · rw [show (displayTree lower graph).spanning.parentEdge v = some k from hedge] at hnone
      cases hnone
    · obtain rfl : u = u' := Option.some.inj (hparent.symm.trans hparent')
      obtain rfl : k = k' := Option.some.inj (hedge.symm.trans hedge')
      have hconducts : edge.kind ≠ .transformer := by
        intro htransformer
        rw [isTransformer, hat, Option.any_some] at hkind
        exact hkind (decide_eq_true htransformer)
      have hzone := busZone_eq hzones hat hclosed hconducts hends.symm
      have hu : u < graph.buses.length := by
        rcases hends with hends | hends
        · exact (branchEnds_lt hends).1
        · exact (branchEnds_lt hends).2
      obtain ⟨z, hz⟩ := hzones.assigned v hv
      obtain ⟨zone, hzoneAt, hvmem⟩ := hzones.listed v hv z hz
      refine ⟨hzone, z, zone, hz, hzoneAt, hvmem, ?_⟩
      rw [hzones.buses z zone hzoneAt, List.mem_filter, List.mem_range, decide_eq_true_eq]
      exact ⟨hu, by rw [← hzone, hz]⟩

end

end Tellegen
