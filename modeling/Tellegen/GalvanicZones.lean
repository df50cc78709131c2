import Tellegen.EnergisedBuses
import Tellegen.Lib.UnionFind

/-!
Galvanic zones: buses joined by lines and closed switches. The zones are the classes
of the closed branches that are not transformers, and every bus is listed in its own.
-/

namespace Tellegen

structure GalvanicZone where
  buses : List ℕ
  edges : List ℕ
  transformers : List ℕ
  hasSource : Bool

structure GalvanicZones where
  zones : List GalvanicZone
  busZone : ℕ → Option ℕ

/-! ### Joining and numbering -/

section

variable {I K : Type} [DecidableEq K] (lower : I → K) (graph : DistGraph I)

def joinBranch (uf : UnionFind ℕ) (edge : DistEdge I) : UnionFind ℕ :=
  match branchEnds lower graph edge with
  | some (a, b) => if !edge.closed ∨ edge.kind = .transformer then uf else uf.join a b
  | none => uf

/-- The zones while buses are put into them, with the pointers that finding a root shortens. -/
structure Zoning where
  uf : UnionFind ℕ
  busZone : ℕ → Option ℕ
  zones : List GalvanicZone

def GalvanicZone.empty : GalvanicZone where
  buses := []
  edges := []
  transformers := []
  hasSource := false

def GalvanicZone.withBus (i : ℕ) (zone : GalvanicZone) : GalvanicZone :=
  { zone with buses := zone.buses ++ [i], hasSource := zone.hasSource || Tellegen.hasSource graph i }

/-- A root without a zone gets a new one. -/
def openZone (r : ℕ) (state : Zoning) : Zoning :=
  if (state.busZone r).isNone then
    { state with
      busZone := Function.update state.busZone r (some state.zones.length)
      zones := state.zones ++ [.empty] }
  else state

def joinZone (r i : ℕ) (state : Zoning) : Zoning :=
  match state.busZone r with
  | some z =>
    { state with
      busZone := Function.update state.busZone i (some z)
      zones := state.zones.modify z (.withBus graph i) }
  | none => state

/-- Bus `i` joins the zone of its root. -/
def placeBus (state : Zoning) (i : ℕ) : Zoning :=
  let found := state.uf.find i
  joinZone graph found.2 i (openZone found.2 { state with uf := found.1 })

def pushTransformer (k z : ℕ) (zones : List GalvanicZone) : List GalvanicZone :=
  zones.modify z fun zone => { zone with transformers := zone.transformers ++ [k] }

def pushEdge (k z : ℕ) (zones : List GalvanicZone) : List GalvanicZone :=
  zones.modify z fun zone => { zone with edges := zone.edges ++ [k] }

/-- A transformer is listed in the zones of both its ends, another branch in the zone it lies in. -/
def placeBranch (busZone : ℕ → Option ℕ) (zones : List GalvanicZone) (next : DistEdge I × ℕ) :
    List GalvanicZone :=
  match branchEnds lower graph next.1 with
  | none => zones
  | some (a, b) =>
    match busZone a, busZone b with
    | some za, some zb =>
      if next.1.kind = .transformer then
        if za = zb then pushTransformer next.2 za zones
        else pushTransformer next.2 zb (pushTransformer next.2 za zones)
      else if za = zb then pushEdge next.2 za zones
      else zones
    | _, _ => zones

def isTransformer (k : ℕ) : Bool := (graph.edges[k]?).any fun edge => edge.kind = .transformer

/-- The transformer through which the tree enters the zone comes first. -/
def feedFirst (tree : DisplayTree) (zone : GalvanicZone) : GalvanicZone :=
  match (zone.buses.filterMap tree.parentEdge).find? (isTransformer graph) with
  | some feed => { zone with transformers := feed :: zone.transformers.filter (· ≠ feed) }
  | none => zone

def joinBranches : UnionFind ℕ := graph.edges.foldl (joinBranch lower graph) (.new ℕ)

def zoning : Zoning :=
  (List.range graph.buses.length).foldl (placeBus graph)
    { uf := joinBranches lower graph, busZone := fun _ => none, zones := [] }

def galvanicZones (tree : Option DisplayTree) : GalvanicZones :=
  let placed := zoning lower graph
  let zones := graph.edges.zipIdx.foldl (placeBranch lower graph placed.busZone) placed.zones
  { zones := match tree with
      | some tree => zones.map (feedFirst graph tree)
      | none => zones
    busZone := placed.busZone }

/-! ### Classes of the conducting branches -/

/-- A closed branch other than a transformer joins the buses. -/
def Conducts (u v : ℕ) : Prop :=
  ∃ edge ∈ graph.edges, edge.closed = true ∧ edge.kind ≠ .transformer ∧
    branchEnds lower graph edge = some (u, v)

variable {lower graph}

theorem represents_joins {uf : UnionFind ℕ} {R : ℕ → ℕ → Prop} (h : uf.Represents R)
    (edges : List (DistEdge I)) :
    (edges.foldl (joinBranch lower graph) uf).Represents fun u v => R u v ∨
      ∃ edge ∈ edges, edge.closed = true ∧ edge.kind ≠ .transformer ∧
        branchEnds lower graph edge = some (u, v) := by
  induction edges generalizing uf R with
  | nil =>
    have hnone : (fun u v => R u v ∨ ∃ edge ∈ ([] : List (DistEdge I)), edge.closed = true ∧
        edge.kind ≠ .transformer ∧ branchEnds lower graph edge = some (u, v)) = R := by
      funext u v
      simp only [List.not_mem_nil, false_and, exists_false, or_false]
    rw [hnone]
    exact h
  | cons edge rest ih =>
    rw [List.foldl_cons]
    have hstep : (joinBranch lower graph uf edge).Represents fun u v => R u v ∨
        (edge.closed = true ∧ edge.kind ≠ .transformer ∧
          branchEnds lower graph edge = some (u, v)) := by
      rw [joinBranch]
      split
      case h_1 a b hends =>
        split
        case isTrue hskip =>
          have hsame : (fun u v => R u v ∨ (edge.closed = true ∧ edge.kind ≠ .transformer ∧
              branchEnds lower graph edge = some (u, v))) = R := by
            funext u v
            rw [eq_iff_iff]
            constructor
            · rintro (hR | ⟨hclosed, hkind, _⟩)
              · exact hR
              · rcases hskip with hopen | htransformer
                · rw [hclosed] at hopen
                  cases hopen
                · exact absurd htransformer hkind
            · exact .inl
          rw [hsame]
          exact h
        case isFalse hkeep =>
          rw [not_or, Bool.not_eq_true', Bool.not_eq_false] at hkeep
          have hsame : (fun u v => R u v ∨ (edge.closed = true ∧ edge.kind ≠ .transformer ∧
              branchEnds lower graph edge = some (u, v))) =
              fun u v => R u v ∨ (u = a ∧ v = b) := by
            funext u v
            rw [hends, Option.some.injEq, Prod.mk.injEq, eq_comm (a := a), eq_comm (a := b)]
            simp only [hkeep.1, hkeep.2, ne_eq, not_false_eq_true, true_and]
          rw [hsame]
          exact h.join a b
      case h_2 hends =>
        have hsame : (fun u v => R u v ∨ (edge.closed = true ∧ edge.kind ≠ .transformer ∧
            branchEnds lower graph edge = some (u, v))) = R := by
          funext u v
          simp only [hends, reduceCtorEq, and_false, or_false]
        rw [hsame]
        exact h
    have hrest := ih hstep
    have hsame : (fun u v => (R u v ∨ (edge.closed = true ∧ edge.kind ≠ .transformer ∧
        branchEnds lower graph edge = some (u, v))) ∨ ∃ edge ∈ rest, edge.closed = true ∧
          edge.kind ≠ .transformer ∧ branchEnds lower graph edge = some (u, v)) =
        fun u v => R u v ∨ ∃ edge' ∈ edge :: rest, edge'.closed = true ∧
          edge'.kind ≠ .transformer ∧ branchEnds lower graph edge' = some (u, v) := by
      funext u v
      simp only [List.exists_mem_cons_iff, or_assoc]
    rw [← hsame]
    exact hrest

variable (lower graph)

/-- Two buses end up under one root exactly when lines and closed switches join them. -/
theorem same_joinBranches (u v : ℕ) :
    (joinBranches lower graph).Same u v ↔ Relation.EqvGen (Conducts lower graph) u v := by
  have h : (joinBranches lower graph).Represents _ :=
    represents_joins UnionFind.represents_new graph.edges
  have huv := h u v
  simp only [false_or] at huv
  exact huv

/-! ### The zones of the buses -/

/-- The first `m` buses are placed. A zone is that of one root, and lists those placed in it. -/
structure Zoned (uf : UnionFind ℕ) (m : ℕ) (state : Zoning) : Prop where
  root : ∀ x, state.uf.root x = uf.root x
  zone_root : ∀ x z, state.busZone x = some z → state.busZone (uf.root x) = some z
  assigned : ∀ i < m, (state.busZone i).isSome
  bound : ∀ x z, state.busZone x = some z → z < state.zones.length
  apart : ∀ x y z, state.busZone x = some z → state.busZone y = some z → uf.root x = uf.root y
  buses : ∀ z zone, state.zones[z]? = some zone →
    zone.buses = (List.range m).filter fun i => state.busZone i = some z

theorem getElem?_append_empty {zones : List GalvanicZone} {z : ℕ} {zone : GalvanicZone}
    (h : (zones ++ [.empty])[z]? = some zone) :
    zones[z]? = some zone ∨ (z = zones.length ∧ zone = .empty) := by
  rcases Nat.lt_trichotomy z zones.length with hlt | heq | hgt
  · rw [List.getElem?_append_left hlt] at h
    exact .inl h
  · rw [heq, List.getElem?_concat_length] at h
    exact .inr ⟨heq, (Option.some.inj h).symm⟩
  · rw [List.getElem?_eq_none (by rw [List.length_append, List.length_singleton]; omega)] at h
    cases h

theorem filter_range_succ (p : ℕ → Bool) (m : ℕ) :
    (List.range (m + 1)).filter p = (List.range m).filter p ++ if p m then [m] else [] := by
  rw [List.range_succ, List.filter_append]
  congr 1
  cases hp : p m with
  | true => rw [List.filter_cons_of_pos hp, List.filter_nil, if_pos rfl]
  | false => rw [List.filter_cons_of_neg (by rw [hp]; exact Bool.false_ne_true), List.filter_nil,
      if_neg Bool.false_ne_true]

variable {uf : UnionFind ℕ} {m : ℕ} {state : Zoning}

theorem Zoned.openZone (h : Zoned uf m state) {r : ℕ} (hr : uf.root r = r) :
    Zoned uf m (Tellegen.openZone r state) ∧
      ∃ z, (Tellegen.openZone r state).busZone r = some z := by
  rw [Tellegen.openZone]
  split
  case isFalse hsome =>
    refine ⟨h, Option.isSome_iff_exists.mp ?_⟩
    rw [← Option.not_isNone, Bool.not_eq_true']
    exact Bool.eq_false_iff.mpr hsome
  case isTrue hnone =>
    rw [Option.isNone_iff_eq_none] at hnone
    have hplaced : ∀ i < m, i ≠ r := by
      rintro i hi rfl
      have hsome := h.assigned i hi
      rw [hnone] at hsome
      cases hsome
    refine ⟨?_, state.zones.length, Function.update_self _ _ _⟩
    constructor
    case root => exact h.root
    case zone_root =>
      intro x z hx
      dsimp only at hx ⊢
      by_cases hxr : x = r
      · rw [hxr] at hx ⊢
        rw [hr]
        exact hx
      · rw [Function.update_of_ne hxr] at hx
        have hroot := h.zone_root x z hx
        have hne : uf.root x ≠ r := by
          intro heq
          rw [heq, hnone] at hroot
          cases hroot
        rw [Function.update_of_ne hne]
        exact hroot
    case assigned =>
      intro i hi
      dsimp only
      rw [Function.update_of_ne (hplaced i hi)]
      exact h.assigned i hi
    case bound =>
      intro x z hx
      dsimp only at hx ⊢
      rw [List.length_append, List.length_singleton]
      by_cases hxr : x = r
      · rw [hxr, Function.update_self] at hx
        cases hx
        omega
      · rw [Function.update_of_ne hxr] at hx
        have hlt := h.bound x z hx
        omega
    case apart =>
      intro x y z hx hy
      dsimp only at hx hy
      by_cases hxr : x = r
      · by_cases hyr : y = r
        · rw [hxr, hyr]
        · rw [hxr, Function.update_self] at hx
          rw [Function.update_of_ne hyr] at hy
          have hlt := h.bound y z hy
          cases hx
          omega
      · rw [Function.update_of_ne hxr] at hx
        by_cases hyr : y = r
        · rw [hyr, Function.update_self] at hy
          have hlt := h.bound x z hx
          cases hy
          omega
        · rw [Function.update_of_ne hyr] at hy
          exact h.apart x y z hx hy
    case buses =>
      intro z zone hzone
      dsimp only at hzone ⊢
      have hsame : (List.range m).filter (fun i =>
            Function.update state.busZone r (some state.zones.length) i = some z) =
          (List.range m).filter fun i => state.busZone i = some z := by
        apply List.filter_congr
        intro i hi
        rw [Function.update_of_ne (hplaced i (List.mem_range.mp hi))]
      rw [hsame]
      rcases getElem?_append_empty hzone with hold | ⟨rfl, rfl⟩
      · exact h.buses z zone hold
      · symm
        rw [GalvanicZone.empty, List.filter_eq_nil_iff]
        intro i _ hi
        have hlt := h.bound i _ (of_decide_eq_true hi)
        omega

theorem Zoned.joinZone (h : Zoned uf m state) {z : ℕ} (hz : state.busZone (uf.root m) = some z) :
    Zoned uf (m + 1) (Tellegen.joinZone graph (uf.root m) m state) := by
  -- a bus has the zone that some bus under its root had
  have hbefore : ∀ x z', Function.update state.busZone m (some z) x = some z' →
      ∃ y, state.busZone y = some z' ∧ uf.root y = uf.root x := by
    intro x z' hx
    by_cases hxm : x = m
    · rw [hxm, Function.update_self] at hx
      refine ⟨uf.root m, ?_, ?_⟩
      · rw [hz, hx]
      · rw [hxm, UnionFind.root_root]
    · rw [Function.update_of_ne hxm] at hx
      exact ⟨x, hx, rfl⟩
  have hjoined : Tellegen.joinZone graph (uf.root m) m state =
      { state with
        busZone := Function.update state.busZone m (some z)
        zones := state.zones.modify z (.withBus graph m) } := by
    rw [Tellegen.joinZone, hz]
  rw [hjoined]
  constructor
  case root => exact h.root
  case zone_root =>
    intro x z' hx
    dsimp only at hx ⊢
    obtain ⟨y, hy, hroot⟩ := hbefore x z' hx
    have hzone := h.zone_root y z' hy
    rw [hroot] at hzone
    by_cases hxm : uf.root x = m
    · have hm : uf.root m = m := by rw [← hxm, UnionFind.root_root]
      rw [hm] at hz
      rw [hxm, hz] at hzone
      rw [hxm, Function.update_self, hzone]
    · rw [Function.update_of_ne hxm]
      exact hzone
  case assigned =>
    intro i hi
    dsimp only
    by_cases him : i = m
    · rw [him, Function.update_self, Option.isSome_some]
    · rw [Function.update_of_ne him]
      exact h.assigned i (by omega)
  case bound =>
    intro x z' hx
    dsimp only at hx ⊢
    obtain ⟨y, hy, _⟩ := hbefore x z' hx
    rw [List.length_modify]
    exact h.bound y z' hy
  case apart =>
    intro x y z' hx hy
    obtain ⟨x', hx', hrootx⟩ := hbefore x z' hx
    obtain ⟨y', hy', hrooty⟩ := hbefore y z' hy
    rw [← hrootx, ← hrooty]
    exact h.apart x' y' z' hx' hy'
  case buses =>
    intro z' zone hzone
    dsimp only at hzone ⊢
    rw [List.getElem?_modify] at hzone
    obtain ⟨old, hold, hnew⟩ := Option.map_eq_some_iff.mp hzone
    have hplaced : (List.range m).filter (fun i =>
          Function.update state.busZone m (some z) i = some z') = old.buses := by
      rw [h.buses z' old hold]
      apply List.filter_congr
      intro i hi
      have him : i ≠ m := by
        have hlt := List.mem_range.mp hi
        omega
      rw [Function.update_of_ne him]
    rw [filter_range_succ, hplaced, ← hnew]
    simp only [Function.update_self, Option.some.injEq, decide_eq_true_eq]
    by_cases hzz : z = z'
    · rw [if_pos hzz, if_pos hzz]
      rfl
    · rw [if_neg hzz, if_neg hzz, List.append_nil]

theorem Zoned.placeBus (h : Zoned uf m state) :
    Zoned uf (m + 1) (Tellegen.placeBus graph state m) := by
  have hfound : (state.uf.find m).2 = uf.root m := by rw [UnionFind.find_snd, h.root]
  have hshort : Zoned uf m { state with uf := (state.uf.find m).1 } := by
    constructor
    case root =>
      intro x
      rw [UnionFind.root_find, h.root]
    case zone_root => exact h.zone_root
    case assigned => exact h.assigned
    case bound => exact h.bound
    case apart => exact h.apart
    case buses => exact h.buses
  obtain ⟨hopened, z, hz⟩ := hshort.openZone (UnionFind.root_root uf m)
  rw [Tellegen.placeBus, hfound]
  exact hopened.joinZone graph hz

theorem zoned_zoning :
    Zoned (joinBranches lower graph) graph.buses.length (zoning lower graph) := by
  have hstart : Zoned (joinBranches lower graph) 0
      { uf := joinBranches lower graph, busZone := fun _ => none, zones := [] } := by
    constructor
    case root => exact fun _ => rfl
    case zone_root => exact fun _ _ hx => nomatch hx
    case assigned => exact fun _ hi => absurd hi (Nat.not_lt_zero _)
    case bound => exact fun _ _ hx => nomatch hx
    case apart => exact fun _ _ _ hx => nomatch hx
    case buses => exact fun _ _ hzone => nomatch hzone
  rw [zoning]
  induction graph.buses.length with
  | zero => exact hstart
  | succ m ih =>
    rw [List.range_succ, List.foldl_append]
    exact ih.placeBus graph

/-! ### Branches change no buses -/

theorem buses_modify (zones : List GalvanicZone) (z : ℕ) (f : GalvanicZone → GalvanicZone)
    (hf : ∀ zone, (f zone).buses = zone.buses) :
    (zones.modify z f).map GalvanicZone.buses = zones.map GalvanicZone.buses := by
  apply List.ext_getElem?
  intro i
  rw [List.getElem?_map, List.getElem?_map, List.getElem?_modify]
  cases zones[i]? with
  | none => rfl
  | some zone =>
    simp only [Option.map_eq_map, Option.map_some]
    split
    · rw [hf]
    · rfl

theorem buses_placeBranch (busZone : ℕ → Option ℕ) (zones : List GalvanicZone)
    (next : DistEdge I × ℕ) :
    (placeBranch lower graph busZone zones next).map GalvanicZone.buses =
      zones.map GalvanicZone.buses := by
  have htransformer : ∀ k z (zones : List GalvanicZone),
      (pushTransformer k z zones).map GalvanicZone.buses = zones.map GalvanicZone.buses :=
    fun k z zones => buses_modify zones z _ fun _ => rfl
  rw [placeBranch]
  split
  case h_1 => rfl
  case h_2 a b _ =>
    split
    case h_2 => rfl
    case h_1 za zb _ _ =>
      split
      · split
        · exact htransformer next.2 za zones
        · rw [htransformer, htransformer]
      · split
        · exact buses_modify zones za _ fun _ => rfl
        · rfl

theorem buses_feedFirst (tree : DisplayTree) (zone : GalvanicZone) :
    (feedFirst graph tree zone).buses = zone.buses := by
  rw [feedFirst]
  split <;> rfl

theorem buses_galvanicZones (tree : Option DisplayTree) :
    (galvanicZones lower graph tree).zones.map GalvanicZone.buses =
      (zoning lower graph).zones.map GalvanicZone.buses := by
  have hplaced : ∀ (branches : List (DistEdge I × ℕ)) (zones : List GalvanicZone),
      (branches.foldl (placeBranch lower graph (zoning lower graph).busZone) zones).map
        GalvanicZone.buses = zones.map GalvanicZone.buses := by
    intro branches
    induction branches with
    | nil => exact fun zones => rfl
    | cons next rest ih =>
      intro zones
      rw [List.foldl_cons, ih, buses_placeBranch]
  cases tree with
  | none => exact hplaced _ _
  | some tree =>
    simp only [galvanicZones, List.map_map]
    have hsame : GalvanicZone.buses ∘ feedFirst graph tree = GalvanicZone.buses :=
      funext (buses_feedFirst graph tree)
    rw [hsame]
    exact hplaced _ _

/-! ### The zones -/

/-- Every bus has a zone, which lists it; two buses have the same one exactly when lines and closed
switches join them. -/
structure ZonesPartition (zones : GalvanicZones) : Prop where
  assigned : ∀ i < graph.buses.length, ∃ z, zones.busZone i = some z
  same : ∀ i < graph.buses.length, ∀ j < graph.buses.length,
    zones.busZone i = zones.busZone j ↔ Relation.EqvGen (Conducts lower graph) i j
  listed : ∀ i < graph.buses.length, ∀ z, zones.busZone i = some z →
    ∃ zone, zones.zones[z]? = some zone ∧ i ∈ zone.buses
  buses : ∀ z zone, zones.zones[z]? = some zone →
    zone.buses = (List.range graph.buses.length).filter fun i => zones.busZone i = some z

theorem galvanicZones_partition (tree : Option DisplayTree) :
    ZonesPartition lower graph (galvanicZones lower graph tree) := by
  have hzoned := zoned_zoning lower graph
  have hbuses := buses_galvanicZones lower graph tree
  have hlisted : ∀ z zone, (galvanicZones lower graph tree).zones[z]? = some zone →
      zone.buses = (List.range graph.buses.length).filter fun i =>
        (zoning lower graph).busZone i = some z := by
    intro z zone hzone
    have hat : ((galvanicZones lower graph tree).zones.map GalvanicZone.buses)[z]? =
        some zone.buses := by rw [List.getElem?_map, hzone, Option.map_some]
    rw [hbuses, List.getElem?_map] at hat
    obtain ⟨old, hold, hsame⟩ := Option.map_eq_some_iff.mp hat
    rw [← hsame]
    exact hzoned.buses z old hold
  have hassigned : ∀ i < graph.buses.length, ∃ z, (zoning lower graph).busZone i = some z :=
    fun i hi => Option.isSome_iff_exists.mp (hzoned.assigned i hi)
  constructor
  case assigned => exact hassigned
  case same =>
    intro i hi j hj
    rw [← same_joinBranches]
    change (zoning lower graph).busZone i = (zoning lower graph).busZone j ↔ _
    obtain ⟨zi, hzi⟩ := hassigned i hi
    obtain ⟨zj, hzj⟩ := hassigned j hj
    constructor
    · intro heq
      exact hzoned.apart i j zi hzi (heq ▸ hzi)
    · intro hroot
      have hrooti := hzoned.zone_root i zi hzi
      have hrootj := hzoned.zone_root j zj hzj
      rw [show (joinBranches lower graph).root i = (joinBranches lower graph).root j from hroot,
        hrootj] at hrooti
      rw [hzi, hzj, hrooti]
  case listed =>
    intro i hi z hz
    have hlength : (galvanicZones lower graph tree).zones.length =
        (zoning lower graph).zones.length := by
      rw [← List.length_map GalvanicZone.buses, hbuses, List.length_map]
    have hlt : z < (galvanicZones lower graph tree).zones.length := by
      rw [hlength]
      exact hzoned.bound i z hz
    have hzone := List.getElem?_eq_getElem hlt
    refine ⟨_, hzone, ?_⟩
    rw [hlisted z _ hzone, List.mem_filter, List.mem_range]
    exact ⟨hi, decide_eq_true hz⟩
  case buses => exact hlisted

end

end Tellegen
