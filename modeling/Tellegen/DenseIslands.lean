import Tellegen.Islands
import Tellegen.Lib.Grouping

/-!
The islands as connected components, and their numbering over the branches of a prepared model. Both
take the components from one union-find forest. The dense numbering counts the roots in the order in
which the buses reach them, so that an island has the number of islands that begin before it.
-/

set_option linter.unusedSectionVars false

open Grouping

namespace Tellegen.Islands

variable {n : ℕ}

/-! ### Labels -/

/-- The label of each bus. `roots` are the keys of the label map, in the order of their insertion; a
key has the number of keys before it as its label. -/
def labelBuses : UnionFind (Fin n) → List (Fin n) → List (Fin n) → List ℕ
  | _, _, [] => []
  | uf, roots, bus :: rest =>
    let found := uf.find bus
    if found.2 ∈ roots then roots.idxOf found.2 :: labelBuses found.1 roots rest
    else roots.length :: labelBuses found.1 (roots ++ [found.2]) rest

/-- `dense_islands` -/
def denseIslands (n : ℕ) (brFrom brTo : List (Fin n)) : List ℕ :=
  labelBuses ((UnionFind.new (Fin n)).unions (brFrom.zip brTo)) [] (List.finRange n)

/-- Two dense buses are joined by a path of branches. -/
def Joined (brFrom brTo : List (Fin n)) : Fin n → Fin n → Prop :=
  Relation.ReflTransGen fun a b => (a, b) ∈ brFrom.zip brTo ∨ (b, a) ∈ brFrom.zip brTo

theorem labelBuses_eq {uf : UnionFind (Fin n)} {root : Fin n → Fin n} (hroot : ∀ x, uf.root x = root x)
    (seen buses : List (Fin n)) :
    labelBuses uf (firstKeys (seen.map root)) buses =
      buses.map fun bus => (firstKeys ((seen ++ buses).map root)).idxOf (root bus) := by
  induction buses generalizing uf seen with
  | nil => rfl
  | cons bus rest ih =>
    have hfind : ∀ x, (uf.find bus).1.root x = root x := by
      intro x
      rw [UnionFind.root_find]
      exact hroot x
    have hnext := ih hfind (seen ++ [bus])
    rw [List.map_append, List.map_singleton, firstKeys_append] at hnext
    have hhead : (firstKeys ((seen ++ bus :: rest).map root)).idxOf (root bus) =
        (firstKeys ((seen ++ [bus]).map root)).idxOf (root bus) := by
      have hsplit : seen ++ bus :: rest = (seen ++ [bus]) ++ rest := by
        rw [List.append_assoc, List.singleton_append]
      have hmem : root bus ∈ (seen ++ [bus]).map root :=
        List.mem_map_of_mem (List.mem_append_right _ List.mem_cons_self)
      rw [hsplit, List.map_append, idxOf_firstKeys_of_mem hmem]
    rw [labelBuses, List.map_cons, hhead, List.map_append, List.map_singleton, firstKeys_append]
    rw [UnionFind.find_snd, hroot]
    split
    case isTrue hmem =>
      rw [if_pos hmem] at hnext
      rw [hnext, List.append_assoc, List.singleton_append]
    case isFalse hnot =>
      rw [if_neg hnot] at hnext
      rw [hnext, List.append_assoc, List.singleton_append, List.idxOf_append_of_notMem hnot,
        List.idxOf_cons_self]
      rfl

def denseRoot (brFrom brTo : List (Fin n)) : Fin n → Fin n :=
  ((UnionFind.new (Fin n)).unions (brFrom.zip brTo)).root

/-- The label of a bus: how many islands have a bus before its own first one. -/
def denseLabel (brFrom brTo : List (Fin n)) (bus : Fin n) : ℕ :=
  (firstKeys ((List.finRange n).map (denseRoot brFrom brTo))).idxOf (denseRoot brFrom brTo bus)

theorem denseIslands_eq (brFrom brTo : List (Fin n)) :
    denseIslands n brFrom brTo = (List.finRange n).map (denseLabel brFrom brTo) :=
  labelBuses_eq (fun _ => rfl) [] (List.finRange n)

theorem denseRoot_eq_iff {brFrom brTo : List (Fin n)} {a b : Fin n} :
    denseRoot brFrom brTo a = denseRoot brFrom brTo b ↔ Joined brFrom brTo a b := by
  rw [Joined, ← Relation.EqvGen.iff_path]
  exact UnionFind.same_unions_new _ a b

theorem mem_denseRoots (brFrom brTo : List (Fin n)) (bus : Fin n) :
    denseRoot brFrom brTo bus ∈ (List.finRange n).map (denseRoot brFrom brTo) :=
  List.mem_map_of_mem (List.mem_finRange bus)

theorem denseLabel_eq_iff {brFrom brTo : List (Fin n)} {a b : Fin n} :
    denseLabel brFrom brTo a = denseLabel brFrom brTo b ↔ Joined brFrom brTo a b := by
  rw [← denseRoot_eq_iff]
  constructor
  · intro h
    exact List.idxOf_inj (mem_firstKeys.mpr (mem_denseRoots brFrom brTo a)) |>.mp h
  · intro h
    rw [denseLabel, denseLabel, h]

theorem idxOf_denseRoots (brFrom brTo : List (Fin n)) (a : Fin n) :
    ∃ first : Fin n, ((List.finRange n).map (denseRoot brFrom brTo)).idxOf (denseRoot brFrom brTo a) =
        first.val ∧ Joined brFrom brTo a first ∧
      ∀ other, Joined brFrom brTo a other → first ≤ other := by
  let roots := (List.finRange n).map (denseRoot brFrom brTo)
  have hlt : roots.idxOf (denseRoot brFrom brTo a) < n := by
    have hlength := List.idxOf_lt_length_of_mem (mem_denseRoots brFrom brTo a)
    rw [List.length_map, List.length_finRange] at hlength
    exact hlength
  have hroots : ∀ bus : Fin n, roots[bus.val]? = some (denseRoot brFrom brTo bus) := by
    intro bus
    simp only [roots, List.getElem?_map]
    rw [List.getElem?_eq_getElem (by rw [List.length_finRange]; exact bus.isLt), List.getElem_finRange]
    rfl
  refine ⟨⟨_, hlt⟩, rfl, ?_, ?_⟩
  · have hat := List.getElem?_idxOf (mem_denseRoots brFrom brTo a)
    rw [← denseRoot_eq_iff]
    exact (Option.some.inj ((hroots ⟨_, hlt⟩).symm.trans hat)).symm
  · intro other hother
    rw [← denseRoot_eq_iff] at hother
    by_contra hnot
    have hbefore : other.val < roots.idxOf (denseRoot brFrom brTo a) := not_le.mp hnot
    have hne := List.not_of_lt_findIdx hbefore
    have hlength : other.val < roots.length :=
      lt_trans hbefore (List.idxOf_lt_length_of_mem (mem_denseRoots brFrom brTo a))
    have hat : roots[other.val] = denseRoot brFrom brTo other :=
      Option.some.inj ((List.getElem?_eq_getElem _).symm.trans (hroots other))
    rw [hat, ← hother, beq_self_eq_true] at hne
    cases hne

theorem denseLabel_lt_iff {brFrom brTo : List (Fin n)} {a b : Fin n} :
    denseLabel brFrom brTo a < denseLabel brFrom brTo b ↔
      ∃ first, Joined brFrom brTo a first ∧ ∀ other, Joined brFrom brTo b other → first < other := by
  rw [denseLabel, denseLabel,
    idxOf_firstKeys_lt (mem_denseRoots brFrom brTo a) (mem_denseRoots brFrom brTo b)]
  obtain ⟨firstA, hpositionA, hjoinedA, hfirstA⟩ := idxOf_denseRoots brFrom brTo a
  obtain ⟨firstB, hpositionB, hjoinedB, hfirstB⟩ := idxOf_denseRoots brFrom brTo b
  rw [hpositionA, hpositionB]
  constructor
  · intro h
    refine ⟨firstA, hjoinedA, ?_⟩
    intro other hother
    exact lt_of_lt_of_le (Fin.lt_def.mpr h) (hfirstB other hother)
  · rintro ⟨first, hfirst, hbefore⟩
    exact lt_of_le_of_lt (Fin.le_def.mp (hfirstA first hfirst)) (Fin.lt_def.mp (hbefore firstB hjoinedB))

theorem exists_denseLabel {brFrom brTo : List (Fin n)} {a : Fin n} {k : ℕ}
    (hk : k < denseLabel brFrom brTo a) : ∃ b, denseLabel brFrom brTo b = k := by
  let roots := (List.finRange n).map (denseRoot brFrom brTo)
  have hlt : k < (firstKeys roots).length :=
    lt_trans hk (List.idxOf_lt_length_of_mem (mem_firstKeys.mpr (mem_denseRoots brFrom brTo a)))
  have hmem : (firstKeys roots)[k] ∈ roots := mem_firstKeys.mp (List.getElem_mem hlt)
  obtain ⟨bus, _, hbus⟩ := List.mem_map.mp hmem
  refine ⟨bus, ?_⟩
  rw [denseLabel, hbus]
  exact (nodup_firstKeys roots).idxOf_getElem k hlt

/-! ### The dense model as a network -/

section

variable {F : Type} [Binary64 F]

/-- The buses and branches of a dense model, as a network in which nothing is out of service. -/
def denseNetwork (brFrom brTo : List (Fin n)) : Network F n where
  buses row := { id := row, kind := .pq }
  branches := (brFrom.zip brTo).map fun pair => { source := pair.1, target := pair.2, inService := true }
  transformers3w := []
  generators := []
  loads := []
  baseMva := 1
  isNormalized := true

theorem kind_denseNetwork {brFrom brTo : List (Fin n)} (row : Fin n) :
    ((denseNetwork brFrom brTo : Network F n).buses row).kind ≠ .isolated :=
  fun h : BusType.pq = .isolated => nomatch h

theorem active_denseNetwork {brFrom brTo : List (Fin n)} {id : ℕ} {row : Fin n} :
    active (denseNetwork brFrom brTo : Network F n) id = some row ↔ id = row := by
  have hdistinct : Function.Injective fun row : Fin n =>
      ((denseNetwork brFrom brTo : Network F n).buses row).id := fun a b h => Fin.ext h
  rw [active_eq_some]
  constructor
  · rintro ⟨hrow, _⟩
    exact (id_of_rowOf hrow).symm
  · rintro rfl
    exact ⟨rowOf_id hdistinct row, kind_denseNetwork row⟩

theorem linked_denseNetwork {brFrom brTo : List (Fin n)} {a b : Fin n} :
    Linked (denseNetwork brFrom brTo : Network F n) a b ↔ (a, b) ∈ brFrom.zip brTo := by
  constructor
  · intro h
    cases h with
    | branch hmem _ ha hb =>
      obtain ⟨⟨source, target⟩, hpair, rfl⟩ := List.mem_map.mp hmem
      rw [active_denseNetwork] at ha hb
      rw [← Fin.ext ha, ← Fin.ext hb]
      exact hpair
    | transformer hmem => cases hmem
  · intro h
    exact .branch (List.mem_map.mpr ⟨(a, b), h, rfl⟩) rfl (active_denseNetwork.mpr rfl)
      (active_denseNetwork.mpr rfl)

def Path (net : Network F n) : Fin n → Fin n → Prop :=
  Relation.ReflTransGen fun a b => Linked net a b ∨ Linked net b a

theorem path_iff_sameIsland {net : Network F n} {a b : Fin n} : Path net a b ↔ SameIsland net a b :=
  Relation.EqvGen.iff_path.symm

theorem path_denseNetwork {brFrom brTo : List (Fin n)} :
    Path (denseNetwork brFrom brTo : Network F n) = Joined brFrom brTo := by
  rw [Path, Joined]
  congr 1
  funext a b
  rw [linked_denseNetwork, linked_denseNetwork]

theorem islandOfRow_eq_iff_path {net : Network F n} {a b : Fin n}
    (ha : (net.buses a).kind ≠ .isolated) (hb : (net.buses b).kind ≠ .isolated) :
    (of net).islandOfRow a = (of net).islandOfRow b ↔ Path net a b := by
  obtain ⟨i, hi⟩ := Option.isSome_iff_exists.mp (islandOfRow_isSome.mpr ha)
  rw [hi, eq_comm, islandOfRow_eq_iff hi, path_iff_sameIsland]
  exact and_iff_right hb

/-- Two buses that are not isolated are on one island exactly when a path of branches and three-winding
transformers in service joins them. The search for a root ends from every bus of every forest. The dense
islands are the components of the dense model, which its network has too, numbered by their first
buses. -/
theorem islands_are_components (net : Network F n) :
    (∀ row, (of net).islandOfRow row = none ↔ (net.buses row).kind = .isolated) ∧
    (∀ a b, (net.buses a).kind ≠ .isolated → (net.buses b).kind ≠ .isolated →
      ((of net).islandOfRow a = (of net).islandOfRow b ↔ Path net a b)) ∧
    (∀ (uf : UnionFind (Fin n)) (bus : Fin n),
      (uf.find bus).1.parent (uf.find bus).2 = (uf.find bus).2 ∧
        ∀ fuel, uf.height ≤ fuel → UnionFind.findLoop fuel uf bus = uf.find bus) ∧
    ∀ (m : ℕ) (brFrom brTo : List (Fin m)), ∃ label : Fin m → ℕ,
      denseIslands m brFrom brTo = (List.finRange m).map label ∧
      (∀ a b, label a = label b ↔ Joined brFrom brTo a b) ∧
      (∀ a b, label a = label b ↔ (of (denseNetwork brFrom brTo : Network F m)).islandOfRow a =
        (of (denseNetwork brFrom brTo : Network F m)).islandOfRow b) ∧
      (∀ a b, label a < label b ↔
        ∃ first, Joined brFrom brTo a first ∧ ∀ other, Joined brFrom brTo b other → first < other) ∧
      ∀ a k, k < label a → ∃ b, label b = k := by
  refine ⟨?_, ?_, ?_, ?_⟩
  · intro row
    rw [← not_iff_not, ← ne_eq, ← ne_eq, Option.ne_none_iff_isSome]
    exact islandOfRow_isSome
  · exact fun a b ha hb => islandOfRow_eq_iff_path ha hb
  · exact fun uf bus => uf.find_exit bus
  · intro m brFrom brTo
    refine ⟨denseLabel brFrom brTo, denseIslands_eq brFrom brTo, ?_, ?_, ?_, ?_⟩
    · exact fun a b => denseLabel_eq_iff
    · intro a b
      rw [denseLabel_eq_iff, ← path_denseNetwork (F := F)]
      exact (islandOfRow_eq_iff_path (kind_denseNetwork a) (kind_denseNetwork b)).symm
    · exact fun a b => denseLabel_lt_iff
    · exact fun a k hk => exists_denseLabel hk

end

end Tellegen.Islands
