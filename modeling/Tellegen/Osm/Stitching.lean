import Tellegen.Lib.Chaining
import Tellegen.Osm.Draft

/-!
Mapped ways, and how fragmented ways are stitched into whole lines: ways of one voltage, circuit count and
kind join where exactly two of their ends meet, away from stations. Every way is then in one chain, and a chain
goes on only where two ends of its group meet, away from stations.
-/

open Binary64

namespace Tellegen.Osm

variable {F : Type} [Drafting F]

structure OsmLine (F : Type) where
  /-- The ways stitched into this line. -/
  ids : List ℤ
  geometry : List (F × F)
  kv : F
  levels : List (F × ℕ)
  circuits : ℕ
  isCable : Bool
  isDc : Bool

/-- Coordinates to 1e-5 degrees, about a metre. -/
def coordKey (p : F × F) : ℤ ×ₗ ℤ :=
  toLex (Drafting.asI64 (Binary64.round (p.1 * lit (10 ^ 5))),
    Drafting.asI64 (Binary64.round (p.2 * lit (10 ^ 5))))

def kvKey (kv : F) : ℤ := Drafting.asI64 (Binary64.round (kv * lit 1000))

section Stitching

variable (lines : List (OsmLine F)) (stops : List (F × F)) (stopKm : F)

/-- An end of a way: the way, and whether it is its tail. -/
abbrev WayEnd := Fin lines.length × Bool

def headOf (l : OsmLine F) : F × F := l.geometry.head?.getD (0, 0)

def tailOf (l : OsmLine F) : F × F := l.geometry.getLast?.getD (0, 0)

def atStation (p : F × F) : Bool :=
  let dlat := stopKm / lit 111
  stops.any fun s => le (Binary64.abs (s.2 - p.2)) dlat && le (haversineKm p.1 p.2 s.1 s.2) stopKm

/-- What the ways of a line have in common. -/
def groupKey (l : OsmLine F) : ℤ ×ₗ ℕ ×ₗ Bool ×ₗ Bool :=
  toLex (kvKey l.kv, toLex (l.circuits, toLex (l.isCable, l.isDc)))

def groupOf (key : ℤ ×ₗ ℕ ×ₗ Bool ×ₗ Bool) : List (Fin lines.length) :=
  (List.finRange lines.length).filter fun i => groupKey lines[i] = key

/-- The ends of the ways of a group by coordinate. -/
def touches (group : List (Fin lines.length)) : List ((ℤ ×ₗ ℤ) × WayEnd lines) :=
  group.flatMap fun i =>
    [(coordKey (headOf lines[i]), (i, false)), (coordKey (tailOf lines[i]), (i, true))]

def touchesAt (group : List (Fin lines.length)) (key : ℤ ×ₗ ℤ) : List (WayEnd lines) :=
  ((touches lines group).filter fun touch => touch.1 = key).map (·.2)

/-- The point of a key. -/
def keyPoint (key : ℤ ×ₗ ℤ) : F × F :=
  (lit (ofLex key).1 * lit (1 / 10 ^ 5), lit (ofLex key).2 * lit (1 / 10 ^ 5))

/-- One coordinate: the two ends of a pass-through are each other's neighbour. -/
def linkAt (group : List (Fin lines.length)) (next : WayEnd lines → Option (WayEnd lines))
    (key : ℤ ×ₗ ℤ) : WayEnd lines → Option (WayEnd lines) :=
  match touchesAt lines group key with
  | [a, b] =>
    if a.1 ≠ b.1 ∧ !atStation stops stopKm (keyPoint key) then
      Function.update (Function.update next a (some b)) b (some a)
    else next
  | _ => next

def neighbours (group : List (Fin lines.length)) : WayEnd lines → Option (WayEnd lines) :=
  (ascending ((touches lines group).map (·.1))).foldl (linkAt lines stops stopKm group) fun _ => none

/-- The first way of a chain: it is left through its tail when its head is open. -/
def startEntry (next : WayEnd lines → Option (WayEnd lines)) (start : Fin lines.length) :
    WayEnd lines :=
  (start, (next (start, false)).isSome)

/-- The chains of a group: from the ways with an open end first; what remains are rings. -/
def chainsOf (group : List (Fin lines.length)) : List (List (WayEnd lines)) :=
  let next := neighbours lines stops stopKm group
  let starts := group.filter fun i => (next (i, false)).isNone || (next (i, true)).isNone
  Chaining.chainsFrom next (startEntry lines next) group.length (starts ++ group) fun _ => false

/-- The geometry of a way as a chain runs through it. -/
def geometryOf (entry : WayEnd lines) : List (F × F) :=
  if entry.2 then lines[entry.1].geometry.reverse else lines[entry.1].geometry

def joinWays : List (WayEnd lines) → Option (OsmLine F)
  | [] => none
  | entry :: rest =>
    let first := lines[entry.1]
    some { first with
      ids := first.ids ++ rest.flatMap fun step => lines[step.1].ids
      geometry := geometryOf lines entry ++ rest.flatMap fun step => (geometryOf lines step).drop 1 }

def allChains : List (List (WayEnd lines)) :=
  (ascending ((List.finRange lines.length).map fun i => groupKey lines[i])).flatMap fun key =>
    chainsOf lines stops stopKm (groupOf lines key)

/-- `stitch_lines` -/
def stitchLines : List (OsmLine F) :=
  (allChains lines stops stopKm).filterMap (joinWays lines)

/-! ### What stitching keeps -/

def endPoint (e : WayEnd lines) : F × F := if e.2 then tailOf lines[e.1] else headOf lines[e.1]

/-- Two ends of ways of one group, alone at a coordinate that is at no station. -/
structure PassThrough (a b : WayEnd lines) : Prop where
  distinct : a.1 ≠ b.1
  group_eq : groupKey lines[a.1] = groupKey lines[b.1]
  point_eq : coordKey (endPoint lines a) = coordKey (endPoint lines b)
  only : ∀ e : WayEnd lines, groupKey lines[e.1] = groupKey lines[a.1] →
    coordKey (endPoint lines e) = coordKey (endPoint lines a) → e = a ∨ e = b
  apart : atStation stops stopKm (keyPoint (coordKey (endPoint lines a))) = false

theorem PassThrough.symm {a b : WayEnd lines} (h : PassThrough lines stops stopKm a b) :
    PassThrough lines stops stopKm b a where
  distinct := h.distinct.symm
  group_eq := h.group_eq.symm
  point_eq := h.point_eq.symm
  only := by
    intro e hgroup hpoint
    exact (h.only e (hgroup.trans h.group_eq.symm) (hpoint.trans h.point_eq.symm)).symm
  apart := by
    rw [← h.point_eq]
    exact h.apart

theorem mem_groupOf {key : ℤ ×ₗ ℕ ×ₗ Bool ×ₗ Bool} {i : Fin lines.length} :
    i ∈ groupOf lines key ↔ groupKey lines[i] = key := by
  rw [groupOf, List.mem_filter, decide_eq_true_iff]
  exact and_iff_right (List.mem_finRange i)

theorem mem_touchesAt {group : List (Fin lines.length)} {key : ℤ ×ₗ ℤ} {e : WayEnd lines} :
    e ∈ touchesAt lines group key ↔ e.1 ∈ group ∧ coordKey (endPoint lines e) = key := by
  obtain ⟨i, tail⟩ := e
  rw [touchesAt, List.mem_map]
  constructor
  · rintro ⟨⟨k, e⟩, hmem, rfl⟩
    obtain ⟨htouch, hkey⟩ := List.mem_filter.mp hmem
    obtain ⟨j, hj, hmem⟩ := List.mem_flatMap.mp htouch
    have hk := of_decide_eq_true hkey
    rcases List.mem_cons.mp hmem with heq | hmem
    · cases heq
      exact ⟨hj, hk⟩
    · cases List.mem_singleton.mp hmem
      exact ⟨hj, hk⟩
  · rintro ⟨hi, hkey⟩
    refine ⟨(key, (i, tail)), List.mem_filter.mpr ⟨?_, decide_eq_true rfl⟩, rfl⟩
    rw [touches, List.mem_flatMap]
    refine ⟨i, hi, ?_⟩
    rw [← hkey]
    cases tail with
    | false => exact List.mem_cons_self
    | true => exact List.mem_cons_of_mem _ List.mem_cons_self

theorem linkAt_cases (group : List (Fin lines.length)) (next : WayEnd lines → Option (WayEnd lines))
    (key : ℤ ×ₗ ℤ) :
    linkAt lines stops stopKm group next key = next ∨
      ∃ x y, touchesAt lines group key = [x, y] ∧ x.1 ≠ y.1 ∧
        atStation stops stopKm (keyPoint key) = false ∧
        linkAt lines stops stopKm group next key =
          Function.update (Function.update next x (some y)) y (some x) := by
  rw [linkAt]
  split
  case h_1 x y hxy =>
    split
    case isTrue hjoin =>
      obtain ⟨hne, hstation⟩ := hjoin
      rw [Bool.not_eq_true'] at hstation
      exact .inr ⟨x, y, hxy, hne, hstation, rfl⟩
    case isFalse => exact .inl rfl
  case h_2 => exact .inl rfl

theorem passThrough_of_neighbours {key : ℤ ×ₗ ℕ ×ₗ Bool ×ₗ Bool} {a b : WayEnd lines}
    (h : neighbours lines stops stopKm (groupOf lines key) a = some b) :
    PassThrough lines stops stopKm a b ∧ groupKey lines[a.1] = key := by
  have hfold : ∀ (keys : List (ℤ ×ₗ ℤ)) (next : WayEnd lines → Option (WayEnd lines)),
      (∀ a b, next a = some b → PassThrough lines stops stopKm a b ∧ groupKey lines[a.1] = key) →
      ∀ a b, keys.foldl (linkAt lines stops stopKm (groupOf lines key)) next a = some b →
        PassThrough lines stops stopKm a b ∧ groupKey lines[a.1] = key := by
    intro keys
    induction keys with
    | nil => exact fun next hnext => hnext
    | cons point rest ih =>
      intro next hnext
      apply ih
      intro a b hab
      rcases linkAt_cases lines stops stopKm (groupOf lines key) next point with
        hsame | ⟨x, y, hxy, hne, hstation, hlink⟩
      · rw [hsame] at hab
        exact hnext a b hab
      · rw [hlink] at hab
        have hx := (mem_touchesAt lines).mp (hxy ▸ List.mem_cons_self)
        have hy := (mem_touchesAt lines).mp
          (hxy ▸ List.mem_cons_of_mem x (List.mem_singleton_self y))
        have hxGroup := (mem_groupOf lines).mp hx.1
        have hyGroup := (mem_groupOf lines).mp hy.1
        have hpass : PassThrough lines stops stopKm x y := by
          refine ⟨hne, hxGroup.trans hyGroup.symm, hx.2.trans hy.2.symm, ?_, ?_⟩
          · intro e hgroup hpoint
            have hmem : e ∈ touchesAt lines (groupOf lines key) point :=
              (mem_touchesAt lines).mpr ⟨(mem_groupOf lines).mpr (hgroup.trans hxGroup),
                hpoint.trans hx.2⟩
            rw [hxy] at hmem
            rcases List.mem_cons.mp hmem with he | he
            · exact .inl he
            · exact .inr (List.mem_singleton.mp he)
          · rw [hx.2]
            exact hstation
        by_cases hay : a = y
        · rw [hay, Function.update_self] at hab
          cases hab
          rw [hay]
          exact ⟨hpass.symm, hyGroup⟩
        · rw [Function.update_of_ne hay] at hab
          by_cases hax : a = x
          · rw [hax, Function.update_self] at hab
            cases hab
            rw [hax]
            exact ⟨hpass, hxGroup⟩
          · rw [Function.update_of_ne hax] at hab
            exact hnext a b hab
  exact hfold _ (fun _ => none) (fun _ _ h => nomatch h) a b h

/-! ### Chains -/

/-- One way after the other, through a pass-through. -/
def RunsOn (x y : WayEnd lines) : Prop := PassThrough lines stops stopKm (x.1, !x.2) y

theorem chainsOf_spec (key : ℤ ×ₗ ℕ ×ₗ Bool ×ₗ Bool) :
    (∀ chain ∈ chainsOf lines stops stopKm (groupOf lines key),
      chain ≠ [] ∧ chain.IsChain (RunsOn lines stops stopKm)) ∧
    ((chainsOf lines stops stopKm (groupOf lines key)).flatten.map Prod.fst).Nodup ∧
    ∀ i, i ∈ (chainsOf lines stops stopKm (groupOf lines key)).flatten.map Prod.fst ↔
      groupKey lines[i] = key := by
  let next := neighbours lines stops stopKm (groupOf lines key)
  let starts := (groupOf lines key).filter fun i => (next (i, false)).isNone || (next (i, true)).isNone
  have hentry : ∀ i, (startEntry lines next i).1 = i := fun _ => rfl
  obtain ⟨hchains, hnodup, _, hall⟩ := Chaining.chainsFrom_spec next hentry
    (groupOf lines key).length (starts ++ groupOf lines key) fun _ => false
  refine ⟨?_, hnodup, ?_⟩
  · intro chain hchain
    obtain ⟨hne, hlinked⟩ := hchains chain hchain
    exact ⟨hne, hlinked.imp fun x y hxy => (passThrough_of_neighbours lines stops stopKm hxy).1⟩
  · intro i
    constructor
    · have hnext : ∀ e step, next e = some step → groupKey lines[step.1] = key := by
        intro e step hstep
        obtain ⟨hpass, hkey⟩ := passThrough_of_neighbours lines stops stopKm hstep
        exact hpass.group_eq.symm.trans hkey
      have hstarts : ∀ j ∈ starts ++ groupOf lines key, groupKey lines[j] = key := by
        intro j hj
        rcases List.mem_append.mp hj with hj | hj
        · exact (mem_groupOf lines).mp (List.mem_filter.mp hj).1
        · exact (mem_groupOf lines).mp hj
      exact Chaining.chainsFrom_mem (P := fun j => groupKey lines[j] = key) hnext hentry _ _ hstarts _ i
    · intro hi
      have hmem := hall i (List.mem_append_right _ ((mem_groupOf lines).mpr hi))
      exact hmem.resolve_left Bool.false_ne_true

theorem chainsOf_exit (key : ℤ ×ₗ ℕ ×ₗ Bool ×ₗ Bool) (used : Fin lines.length → Bool)
    (entry : WayEnd lines) (more : ℕ) (hmore : (groupOf lines key).length ≤ more) :
    Chaining.walk (neighbours lines stops stopKm (groupOf lines key)) more used entry =
      Chaining.walk (neighbours lines stops stopKm (groupOf lines key)) (groupOf lines key).length
        used entry := by
  apply Chaining.walk_exit _ _ _ _ List.countP_le_length _ hmore
  intro e step hstep
  obtain ⟨hpass, hkey⟩ := passThrough_of_neighbours lines stops stopKm hstep
  exact (mem_groupOf lines).mpr (hpass.group_eq.symm.trans hkey)

theorem allChains_perm :
    ((allChains lines stops stopKm).flatten.map Prod.fst).Perm (List.finRange lines.length) := by
  rw [List.perm_ext_iff_of_nodup _ (List.nodup_finRange _)]
  · intro i
    refine iff_of_true ?_ (List.mem_finRange i)
    have hmem := (chainsOf_spec lines stops stopKm (groupKey lines[i])).2.2 i |>.mpr rfl
    obtain ⟨entry, hentry, hi⟩ := List.mem_map.mp hmem
    obtain ⟨chain, hchain, hentry⟩ := List.mem_flatten.mp hentry
    refine List.mem_map.mpr ⟨entry, List.mem_flatten.mpr ⟨chain, ?_, hentry⟩, hi⟩
    refine List.mem_flatMap.mpr ⟨groupKey lines[i], ?_, hchain⟩
    exact mem_ascending.mpr (List.mem_map_of_mem (List.mem_finRange i))
  · have hflatten : (allChains lines stops stopKm).flatten.map Prod.fst =
        (ascending ((List.finRange lines.length).map fun i => groupKey lines[i])).flatMap fun key =>
          (chainsOf lines stops stopKm (groupOf lines key)).flatten.map Prod.fst := by
      rw [allChains]
      induction ascending ((List.finRange lines.length).map fun i => groupKey lines[i]) with
      | nil => rfl
      | cons key rest ih =>
        rw [List.flatMap_cons, List.flatten_append, List.map_append, ih, List.flatMap_cons]
    rw [hflatten, List.nodup_flatMap]
    constructor
    · exact fun key _ => (chainsOf_spec lines stops stopKm key).2.1
    · refine (List.nodup_dedup _).imp ?_
      intro key other hne i hi hj
      rw [(chainsOf_spec lines stops stopKm key).2.2] at hi
      rw [(chainsOf_spec lines stops stopKm other).2.2] at hj
      exact hne (hi.symm.trans hj)

structure JoinedFrom (chain : List (WayEnd lines)) (out : OsmLine F) : Prop where
  ids : out.ids = chain.flatMap fun entry => lines[entry.1].ids
  group : ∀ entry ∈ chain, groupKey lines[entry.1] = groupKey out

theorem forall₂_filterMap {α β : Type} {R : α → β → Prop} {f : α → Option β} {list : List α}
    (h : ∀ a ∈ list, ∃ b, f a = some b ∧ R a b) : List.Forall₂ R list (list.filterMap f) := by
  induction list with
  | nil => exact .nil
  | cons a rest ih =>
    obtain ⟨b, hb, hab⟩ := h a List.mem_cons_self
    rw [List.filterMap_cons_some hb]
    exact .cons hab (ih fun x hx => h x (List.mem_cons_of_mem a hx))

theorem allChains_spec {chain : List (WayEnd lines)} (h : chain ∈ allChains lines stops stopKm) :
    chain ≠ [] ∧ chain.IsChain (RunsOn lines stops stopKm) := by
  obtain ⟨key, _, hchain⟩ := List.mem_flatMap.mp h
  exact (chainsOf_spec lines stops stopKm key).1 chain hchain

theorem group_of_chain {entry : WayEnd lines} {rest : List (WayEnd lines)}
    (h : (entry :: rest).IsChain (RunsOn lines stops stopKm)) :
    ∀ step ∈ entry :: rest, groupKey lines[step.1] = groupKey lines[entry.1] := by
  induction rest generalizing entry with
  | nil =>
    intro step hstep
    rw [List.mem_singleton.mp hstep]
  | cons next rest ih =>
    rw [List.isChain_cons_cons] at h
    intro step hstep
    rcases List.mem_cons.mp hstep with rfl | hstep
    · rfl
    · exact (ih h.2 step hstep).trans h.1.group_eq.symm

theorem stitchLines_joined :
    List.Forall₂ (JoinedFrom lines) (allChains lines stops stopKm) (stitchLines lines stops stopKm) := by
  apply forall₂_filterMap
  intro chain hchain
  obtain ⟨hne, hlinked⟩ := allChains_spec lines stops stopKm hchain
  cases chain with
  | nil => exact absurd rfl hne
  | cons entry rest => exact ⟨_, rfl, rfl, group_of_chain lines stops stopKm hlinked⟩

/-- Every way is in one chain, and consecutive ways of a chain are of one group and meet at a coordinate
where no other end of the group is and which is at no station. -/
theorem ways_stitched :
    List.Forall₂ (JoinedFrom lines) (allChains lines stops stopKm) (stitchLines lines stops stopKm) ∧
    ((allChains lines stops stopKm).flatten.map Prod.fst).Perm (List.finRange lines.length) ∧
    ((stitchLines lines stops stopKm).flatMap (·.ids)).Perm (lines.flatMap (·.ids)) ∧
    (∀ chain ∈ allChains lines stops stopKm, chain.IsChain fun x y =>
      PassThrough lines stops stopKm (x.1, !x.2) y) ∧
    ∀ key used entry more, (groupOf lines key).length ≤ more →
      Chaining.walk (neighbours lines stops stopKm (groupOf lines key)) more used entry =
        Chaining.walk (neighbours lines stops stopKm (groupOf lines key)) (groupOf lines key).length
          used entry := by
  have hjoined := stitchLines_joined lines stops stopKm
  have hperm := allChains_perm lines stops stopKm
  refine ⟨hjoined, hperm, ?_, ?_, ?_⟩
  · have hids : ∀ (chains : List (List (WayEnd lines))) (outs : List (OsmLine F)),
        List.Forall₂ (JoinedFrom lines) chains outs → outs.flatMap (·.ids) =
          (chains.flatten.map Prod.fst).flatMap fun i => lines[i].ids := by
      intro chains outs h
      induction h with
      | nil => rfl
      | cons hhead _ ih =>
        rw [List.flatMap_cons, ih, hhead.ids, List.flatten_cons, List.map_append, List.flatMap_append,
          List.flatMap_map, List.flatMap_map]
    have hlines : lines.flatMap (·.ids) =
        (List.finRange lines.length).flatMap fun i => lines[i].ids := by
      conv_lhs => rw [← List.map_getElem_finRange lines]
      rw [List.flatMap_map]
      rfl
    rw [hids _ _ hjoined, hlines]
    exact hperm.flatMap_right _
  · exact fun chain hchain => (allChains_spec lines stops stopKm hchain).2
  · exact fun key used entry more hmore => chainsOf_exit lines stops stopKm key used entry more hmore

end Stitching

section Sample

@[reducible] local instance waysText : DecimalText ℝ := ⟨fun _ => ""⟩

theorem round_key {x : ℝ} {k : ℤ} (hx : 0 ≤ x) (hlow : k - 1 / 2 ≤ x) (hhigh : x < k + 1 / 2)
    (hnonneg : 0 ≤ k) (hbound : k < 2 ^ 62) : Drafting.asI64 (Binary64.round x) = k := by
  have hround : Binary64.round x = (k : ℝ) := by
    change (if x < 0 then ((⌈x - 1 / 2⌉ : ℤ) : ℝ) else ((⌊x + 1 / 2⌋ : ℤ) : ℝ)) = k
    rw [if_neg (not_lt.mpr hx)]
    congr 1
    rw [Int.floor_eq_iff]
    constructor
    · linarith
    · linarith
  rw [hround]
  change Max.max (-2 ^ 63) (Min.min (2 ^ 63 - 1) (if (k : ℝ) < 0 then ⌈(k : ℝ)⌉ else ⌊(k : ℝ)⌋)) = k
  rw [Int.ceil_intCast, Int.floor_intCast, ite_self]
  omega

def way (id : ℤ) (start stop : ℝ × ℝ) (kv : ℝ) : OsmLine ℝ where
  ids := [id]
  geometry := [start, stop]
  kv := kv
  levels := []
  circuits := 1
  isCable := false
  isDc := false

noncomputable def westWay : OsmLine ℝ := way 1 (1, 0) (0, 0) 400

noncomputable def eastWay : OsmLine ℝ := way 2 (1 / 10 ^ 7, 0) (2, 0) (400 + 1 / 10 ^ 4)

noncomputable def northWay : OsmLine ℝ := way 1 (0, 0) (0, 1) 220

/-- Two ways of nearly one voltage that nearly meet, and one of another voltage that ends there too. -/
noncomputable def nearWays : List (OsmLine ℝ) := [westWay, eastWay, northWay]

theorem coordKey_near {lon lat : ℝ} {x y : ℤ} (hx : (x : ℝ) - 1 / 2 ≤ lon * 10 ^ 5 ∧ lon * 10 ^ 5 < x + 1 / 2)
    (hy : (y : ℝ) - 1 / 2 ≤ lat * 10 ^ 5 ∧ lat * 10 ^ 5 < y + 1 / 2) (hlon : 0 ≤ lon) (hlat : 0 ≤ lat)
    (hxBound : 0 ≤ x ∧ x < 2 ^ 62) (hyBound : 0 ≤ y ∧ y < 2 ^ 62) :
    coordKey (lon, lat) = toLex (x, y) := by
  have hscale : (lit (10 ^ 5) : ℝ) = 10 ^ 5 := by
    change ((10 ^ 5 : ℚ) : ℝ) = _
    norm_num
  rw [coordKey, hscale, round_key (by positivity) hx.1 hx.2 hxBound.1 hxBound.2,
    round_key (by positivity) hy.1 hy.2 hyBound.1 hyBound.2]

theorem groupKey_way {id : ℤ} {start stop : ℝ × ℝ} {kv : ℝ} {k : ℤ}
    (hk : (k : ℝ) - 1 / 2 ≤ kv * 1000 ∧ kv * 1000 < k + 1 / 2) (hkv : 0 ≤ kv) (hbound : 0 ≤ k ∧ k < 2 ^ 62) :
    groupKey (way id start stop kv) = toLex (k, toLex (1, toLex (false, false))) := by
  have hscale : (lit 1000 : ℝ) = 1000 := by
    change ((1000 : ℚ) : ℝ) = _
    norm_num
  have hkey : kvKey kv = k := by
    rw [kvKey, hscale, round_key (by positivity) hk.1 hk.2 hbound.1 hbound.2]
  rw [groupKey]
  change toLex (kvKey kv, _) = _
  rw [hkey]
  rfl

def nearKeys : List ((ℤ ×ₗ ℤ) × (ℤ ×ₗ ℤ)) :=
  [(toLex (100000, 0), toLex (0, 0)), (toLex (0, 0), toLex (200000, 0)), (toLex (0, 0), toLex (0, 100000))]

theorem ends_nearWays (i : Fin nearWays.length) :
    (coordKey (headOf nearWays[i]), coordKey (tailOf nearWays[i])) = nearKeys.get i := by
  have hone : coordKey ((1 : ℝ), (0 : ℝ)) = toLex (100000, 0) := by
    apply coordKey_near <;> norm_num
  have hzero : coordKey ((0 : ℝ), (0 : ℝ)) = toLex (0, 0) := by
    apply coordKey_near <;> norm_num
  have hnear : coordKey ((1 / 10 ^ 7 : ℝ), (0 : ℝ)) = toLex (0, 0) := by
    apply coordKey_near <;> norm_num
  have htwo : coordKey ((2 : ℝ), (0 : ℝ)) = toLex (200000, 0) := by
    apply coordKey_near <;> norm_num
  have hnorth : coordKey ((0 : ℝ), (1 : ℝ)) = toLex (0, 100000) := by
    apply coordKey_near <;> norm_num
  match i with
  | ⟨0, _⟩ => exact Prod.ext hone hzero
  | ⟨1, _⟩ => exact Prod.ext hnear htwo
  | ⟨2, _⟩ => exact Prod.ext hzero hnorth

theorem group_nearWays (i : Fin nearWays.length) : groupKey nearWays[i] =
    toLex (if i.val = 2 then 220000 else 400000, toLex (1, toLex (false, false))) := by
  match i with
  | ⟨0, _⟩ => exact groupKey_way (by norm_num) (by norm_num) (by norm_num)
  | ⟨1, _⟩ => exact groupKey_way (by norm_num) (by norm_num) (by norm_num)
  | ⟨2, _⟩ => exact groupKey_way (by norm_num) (by norm_num) (by norm_num)

theorem touches_nearWays (group : List (Fin nearWays.length)) : touches nearWays group =
    group.flatMap fun i => [((nearKeys.get i).1, (i, false)), ((nearKeys.get i).2, (i, true))] := by
  have hends : ∀ i : Fin nearWays.length, coordKey (headOf nearWays[i]) = (nearKeys.get i).1 ∧
      coordKey (tailOf nearWays[i]) = (nearKeys.get i).2 := fun i =>
    ⟨congrArg Prod.fst (ends_nearWays i), congrArg Prod.snd (ends_nearWays i)⟩
  rw [touches]
  simp only [hends]
  rfl

def lowKey : ℤ ×ₗ ℕ ×ₗ Bool ×ₗ Bool := toLex (220000, toLex (1, toLex (false, false)))

def highKey : ℤ ×ₗ ℕ ×ₗ Bool ×ₗ Bool := toLex (400000, toLex (1, toLex (false, false)))

theorem keys_nearWays :
    ascending ((List.finRange nearWays.length).map fun i => groupKey nearWays[i]) =
      [lowKey, highKey] := by
  have hkeys : ((List.finRange nearWays.length).map fun i => groupKey nearWays[i]) =
      [highKey, highKey, lowKey] := by
    simp only [group_nearWays]
    rfl
  rw [hkeys]
  apply ascending_eq
  · decide
  · intro a
    simp only [List.mem_cons, List.not_mem_nil, or_false]
    tauto

theorem low_nearWays : groupOf nearWays lowKey = [⟨2, by decide⟩] := by
  rw [groupOf]
  simp only [group_nearWays]
  rfl

theorem high_nearWays : groupOf nearWays highKey = [⟨0, by decide⟩, ⟨1, by decide⟩] := by
  rw [groupOf]
  simp only [group_nearWays]
  rfl

theorem ascending_nearKeys : ascending [(toLex (100000, 0) : ℤ ×ₗ ℤ), toLex (0, 0), toLex (0, 0),
    toLex (200000, 0)] = [toLex (0, 0), toLex (100000, 0), toLex (200000, 0)] := by
  apply ascending_eq
  · decide
  · intro a
    simp only [List.mem_cons, List.not_mem_nil, or_false]
    tauto

theorem neighbours_nearWays (e : WayEnd nearWays) :
    neighbours nearWays [] 0 [⟨0, by decide⟩, ⟨1, by decide⟩] e =
      if e = (⟨1, by decide⟩, false) then some (⟨0, by decide⟩, true)
      else if e = (⟨0, by decide⟩, true) then some (⟨1, by decide⟩, false) else none := by
  have htouches : touches nearWays [⟨0, by decide⟩, ⟨1, by decide⟩] =
      [(toLex (100000, 0), (⟨0, by decide⟩, false)), (toLex (0, 0), (⟨0, by decide⟩, true)),
        (toLex (0, 0), (⟨1, by decide⟩, false)), (toLex (200000, 0), (⟨1, by decide⟩, true))] := by
    rw [touches_nearWays]
    rfl
  have hkeys : (touches nearWays [⟨0, by decide⟩, ⟨1, by decide⟩]).map (·.1) =
      [toLex (100000, 0), toLex (0, 0), toLex (0, 0), toLex (200000, 0)] := by
    rw [htouches]
    rfl
  have hmeet : touchesAt nearWays [⟨0, by decide⟩, ⟨1, by decide⟩] (toLex (0, 0)) =
      [(⟨0, by decide⟩, true), (⟨1, by decide⟩, false)] := by
    rw [touchesAt, htouches]
    rfl
  have heast : touchesAt nearWays [⟨0, by decide⟩, ⟨1, by decide⟩] (toLex (100000, 0)) =
      [(⟨0, by decide⟩, false)] := by
    rw [touchesAt, htouches]
    rfl
  have hfar : touchesAt nearWays [⟨0, by decide⟩, ⟨1, by decide⟩] (toLex (200000, 0)) =
      [(⟨1, by decide⟩, true)] := by
    rw [touchesAt, htouches]
    rfl
  rw [neighbours, hkeys, ascending_nearKeys]
  simp only [List.foldl_cons, List.foldl_nil, linkAt, hmeet, heast, hfar]
  rw [if_pos ⟨by decide, rfl⟩, Function.update_apply, Function.update_apply]

theorem neighbours_lowWay (e : WayEnd nearWays) :
    neighbours nearWays [] 0 [⟨2, by decide⟩] e = none := by
  have htouches : touches nearWays [⟨2, by decide⟩] =
      [(toLex (0, 0), (⟨2, by decide⟩, false)), (toLex (0, 100000), (⟨2, by decide⟩, true))] := by
    rw [touches_nearWays]
    rfl
  have hkeys : ascending ((touches nearWays [⟨2, by decide⟩]).map (·.1)) =
      [toLex (0, 0), toLex (0, 100000)] := by
    rw [htouches]
    apply ascending_eq
    · decide
    · exact fun _ => Iff.rfl
  have hsouth : touchesAt nearWays [⟨2, by decide⟩] (toLex (0, 0)) = [(⟨2, by decide⟩, false)] := by
    rw [touchesAt, htouches]
    rfl
  have hnorth : touchesAt nearWays [⟨2, by decide⟩] (toLex (0, 100000)) =
      [(⟨2, by decide⟩, true)] := by
    rw [touchesAt, htouches]
    rfl
  rw [neighbours, hkeys]
  simp only [List.foldl_cons, List.foldl_nil, linkAt, hsouth, hnorth]

theorem chains_nearWays : allChains nearWays [] 0 =
    [[((⟨2, by decide⟩ : Fin nearWays.length), false)],
      [(⟨0, by decide⟩, false), (⟨1, by decide⟩, false)]] := by
  rw [allChains, keys_nearWays, List.flatMap_cons, List.flatMap_cons, List.flatMap_nil, low_nearWays,
    high_nearWays, chainsOf, chainsOf, funext neighbours_lowWay, funext neighbours_nearWays]
  decide

/-- One way id comes out in two lines, and a line runs on between ways that share neither a coordinate nor
a voltage, where the end of a third way is. -/
theorem stitching_joins_near_ways :
    (stitchLines nearWays [] 0).map (·.ids) = [[1], [1, 2]] ∧
      tailOf westWay ≠ headOf eastWay ∧ westWay.kv ≠ eastWay.kv ∧
      coordKey (headOf northWay) = coordKey (tailOf westWay) := by
  refine ⟨?_, ?_, ?_, rfl⟩
  · rw [stitchLines, chains_nearWays]
    rfl
  · intro h
    have hlon : (0 : ℝ) = 1 / 10 ^ 7 := congrArg Prod.fst h
    norm_num at hlon
  · intro h
    have hkv : (400 : ℝ) = 400 + 1 / 10 ^ 4 := h
    norm_num at hkv

end Sample

end Tellegen.Osm
