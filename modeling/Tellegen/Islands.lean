import Mathlib.Data.Fin.VecNotation
import Mathlib.Data.Fintype.Basic
import Tellegen.Lib.Binary64
import Tellegen.Lib.Classes
import Tellegen.Lib.UnionFind

/-!
Energization. An island is a set of non-isolated buses joined by in-service
branches and three-winding transformers. An island without an in-service
generator is isolated, and a supplied one that states no reference gets one at
the bus of its largest generator.

A network here has the tables that the pass reads or writes; the others pass
through it. Rows of the bus table are the elements of `Fin n`, and a bus number
names the last row that carries it.
-/

set_option linter.unusedSectionVars false

open Binary64

namespace Tellegen.Islands

variable {F : Type} [Binary64 F] {n : ℕ}

/-! ### Networks -/

inductive BusType where
  | pq | pv | ref | isolated
  deriving DecidableEq

structure Bus where
  id : ℕ
  kind : BusType
  deriving DecidableEq

structure Branch where
  source : ℕ
  target : ℕ
  inService : Bool
  deriving DecidableEq

structure Transformer3w where
  windings : List ℕ
  inService : Bool
  deriving DecidableEq

structure Generator (F : Type) where
  bus : ℕ
  pmax : F
  inService : Bool

structure Load (F : Type) where
  bus : ℕ
  p : F
  inService : Bool

structure Network (F : Type) (n : ℕ) where
  buses : Fin n → Bus
  branches : List Branch
  transformers3w : List Transformer3w
  generators : List (Generator F)
  loads : List (Load F)
  baseMva : F
  isNormalized : Bool

inductive ReferencePolicy where
  | stated
  | generatorHosted
  deriving DecidableEq

structure SolveDiagnostic where
  code : String
  message : String
  buses : List ℕ
  deriving DecidableEq

/-! ### Islands -/

def rowOf (net : Network F n) (id : ℕ) : Option (Fin n) :=
  (List.finRange n).reverse.find? fun row => (net.buses row).id = id

def active (net : Network F n) (id : ℕ) : Option (Fin n) :=
  (rowOf net id).filter fun row => (net.buses row).kind ≠ .isolated

/-- `windows(2)` -/
def windows {α : Type} : List α → List (α × α)
  | a :: b :: rest => (a, b) :: windows (b :: rest)
  | _ => []

def branchPair (net : Network F n) (branch : Branch) : Option (Fin n × Fin n) := do
  return (← active net branch.source, ← active net branch.target)

def windingPairs (net : Network F n) (transformer : Transformer3w) : List (Fin n × Fin n) :=
  windows (transformer.windings.filterMap (active net))

def joins (net : Network F n) : List (Fin n × Fin n) :=
  (net.branches.filter Branch.inService).filterMap (branchPair net) ++
    (net.transformers3w.filter Transformer3w.inService).flatMap (windingPairs net)

structure Numbering (n : ℕ) where
  uf : UnionFind (Fin n)
  islandOfRoot : Fin n → Option ℕ
  islandOfRow : Fin n → Option ℕ
  members : List (List (Fin n))

def Numbering.add (net : Network F n) (state : Numbering n) (row : Fin n) : Numbering n :=
  if (net.buses row).kind = .isolated then state
  else
    let found := state.uf.find row
    match state.islandOfRoot found.2 with
    | some island =>
      { uf := found.1
        islandOfRoot := state.islandOfRoot
        islandOfRow := Function.update state.islandOfRow row (some island)
        members := state.members.modify island (· ++ [row]) }
    | none =>
      { uf := found.1
        islandOfRoot := Function.update state.islandOfRoot found.2 (some state.members.length)
        islandOfRow := Function.update state.islandOfRow row (some state.members.length)
        members := state.members ++ [[row]] }

/-- The island of each row, none for an isolated bus, and the rows of each island in order. -/
def of (net : Network F n) : Numbering n :=
  (List.finRange n).foldl (Numbering.add net)
    { uf := (UnionFind.new (Fin n)).unions (joins net)
      islandOfRoot := fun _ => none
      islandOfRow := fun _ => none
      members := [] }

def islandOf (net : Network F n) (islands : Numbering n) (bus : ℕ) : Option ℕ :=
  (rowOf net bus).bind islands.islandOfRow

def supplied (net : Network F n) (islands : Numbering n) (island : ℕ) : Bool :=
  net.generators.any fun generator =>
    generator.inService && islandOf net islands generator.bus == some island

/-! ### References -/

def generatorBuses (net : Network F n) : List ℕ :=
  (net.generators.filter Generator.inService).map Generator.bus

def counts (net : Network F n) (policy : ReferencePolicy) (row : Fin n) : Bool :=
  (net.buses row).kind = .ref &&
    match policy with
    | .stated => true
    | .generatorHosted => (generatorBuses net).contains (net.buses row).id

def referenced (net : Network F n) (islands : Numbering n) (policy : ReferencePolicy)
    (island : ℕ) : Bool :=
  (List.finRange n).any fun row =>
    counts net policy row && islands.islandOfRow row == some island

/-- A bound that is not a number counts as the smallest. -/
def comparable (pmax : F) : F := if eq pmax pmax then pmax else -(1 / 0)

/-- The row of the largest generator seen in an island, the first on a tie. -/
def larger (net : Network F n) (islands : Numbering n) (island : ℕ)
    (largest : Option (F × Fin n)) (generator : Generator F) : Option (F × Fin n) :=
  match rowOf net generator.bus with
  | none => largest
  | some row =>
    if islands.islandOfRow row = some island then
      match largest with
      | none => some (comparable generator.pmax, row)
      | some (best, _) =>
        if lt best (comparable generator.pmax) then some (comparable generator.pmax, row)
        else largest
    else largest

def largest (net : Network F n) (islands : Numbering n) (island : ℕ) : Option (F × Fin n) :=
  (net.generators.filter Generator.inService).foldl (larger net islands island) none

def designateReferences (net : Network F n) (islands : Numbering n) (policy : ReferencePolicy) :
    List (Fin n) :=
  ((List.range islands.members.length).filter fun island =>
    supplied net islands island && !referenced net islands policy island).filterMap
      fun island => (largest net islands island).map Prod.snd

/-! ### Energization -/

structure Energized (F : Type) (n : ℕ) where
  network : Option (Network F n)
  diagnostics : List SolveDiagnostic

def Energized.prepared (energized : Energized F n) (original : Network F n) : Network F n :=
  energized.network.getD original

def isolated (net : Network F n) (islands : Numbering n) : List (Fin n) :=
  ((List.range islands.members.length).filter fun island => !supplied net islands island).flatMap
    fun island => islands.members.getD island []

def loadMw (net : Network F n) (islands : Numbering n) (island : ℕ) : F :=
  let mw := if net.isNormalized then net.baseMva else 1
  (net.loads.filter fun load =>
    load.inService && islandOf net islands load.bus == some island).foldl
      (fun total load => total + load.p * mw) 0

/-- `fixed` prints a value with one decimal. -/
def deenergized (net : Network F n) (islands : Numbering n) (fixed : F → String) (island : ℕ) :
    SolveDiagnostic :=
  let ids := (islands.members.getD island []).map fun row => (net.buses row).id
  { code := "island_deenergized"
    message := "an island of " ++ toString ids.length ++
      " bus(es) has no in-service generator and was left out of the solve; its " ++
      fixed (loadMw net islands island) ++ " MW of load is unserved"
    buses := ids }

def designated (net : Network F n) (policy : ReferencePolicy) (row : Fin n) : SolveDiagnostic :=
  let bus := (net.buses row).id
  let missing := match policy with
    | .stated => "states no reference bus"
    | .generatorHosted => "has no reference bus hosting an in-service generator"
  { code := "island_reference_designated"
    message := "an island " ++ missing ++ "; bus " ++ toString bus ++
      " hosts its largest generator and became its reference"
    buses := [bus] }

/-- The network with some rows isolated, some made references, and every three-winding
transformer at an isolated row taken out of service. -/
def adjusted (net : Network F n) (isolate designate : List (Fin n)) : Network F n :=
  { net with
    buses := fun row =>
      if row ∈ designate then { net.buses row with kind := .ref }
      else if row ∈ isolate then { net.buses row with kind := .isolated }
      else net.buses row
    transformers3w := net.transformers3w.map fun transformer =>
      if transformer.windings.any fun bus => (isolate.map fun row => (net.buses row).id).contains bus
      then { transformer with inService := false }
      else transformer }

def energize (fixed : F → String) (net : Network F n) (policy : ReferencePolicy) : Energized F n :=
  let islands := of net
  let isolate := isolated net islands
  let designate := designateReferences net islands policy
  let diagnostics :=
    ((List.range islands.members.length).filter fun island => !supplied net islands island).map
      (deenergized net islands fixed) ++ designate.map (designated net policy)
  if isolate.isEmpty && designate.isEmpty then { network := none, diagnostics }
  else { network := some (adjusted net isolate designate), diagnostics }

/-! ### What an island is -/

/-- Two rows are joined by one branch or one three-winding transformer in service. -/
inductive Linked (net : Network F n) : Fin n → Fin n → Prop
  | branch {branch : Branch} {a b : Fin n} (hmem : branch ∈ net.branches)
      (hservice : branch.inService = true) (ha : active net branch.source = some a)
      (hb : active net branch.target = some b) : Linked net a b
  | transformer {transformer : Transformer3w} {v w : ℕ} {a b : Fin n}
      (hmem : transformer ∈ net.transformers3w) (hservice : transformer.inService = true)
      (hv : v ∈ transformer.windings) (hw : w ∈ transformer.windings)
      (ha : active net v = some a) (hb : active net w = some b) : Linked net a b

def SameIsland (net : Network F n) : Fin n → Fin n → Prop := Relation.EqvGen (Linked net)

/-- A row hosts an in-service generator. -/
def Hosts (net : Network F n) (row : Fin n) : Prop :=
  ∃ generator ∈ net.generators, generator.inService = true ∧ rowOf net generator.bus = some row

def Supplied (net : Network F n) (row : Fin n) : Prop :=
  ∃ host, SameIsland net row host ∧ Hosts net host

def Referenced (net : Network F n) (policy : ReferencePolicy) (row : Fin n) : Prop :=
  ∃ reference, SameIsland net row reference ∧ counts net policy reference = true

/-! ### Windows -/

theorem mem_of_mem_windows {α : Type} {a b : α} {l : List α} (h : (a, b) ∈ windows l) :
    a ∈ l ∧ b ∈ l := by
  fun_induction windows l with
  | case1 x y rest ih =>
    rcases List.mem_cons.mp h with heq | hrest
    · simp only [Prod.mk.injEq] at heq
      simp [heq.1, heq.2]
    · have hmem := ih hrest
      exact ⟨List.mem_cons_of_mem _ hmem.1, List.mem_cons_of_mem _ hmem.2⟩
  | case2 => simp at h

theorem eqvGen_windows_head {α : Type} (a : α) (l : List α) {b : α} (hb : b ∈ a :: l) :
    Relation.EqvGen (fun x y => (x, y) ∈ windows (a :: l)) a b := by
  induction l generalizing a with
  | nil =>
    rw [List.mem_singleton.mp hb]
    exact .refl a
  | cons c rest ih =>
    rcases List.mem_cons.mp hb with rfl | hb
    · exact .refl b
    · have hstep : (a, c) ∈ windows (a :: c :: rest) := List.mem_cons_self ..
      have hrest := (ih c hb).mono fun x y hxy =>
        (List.mem_cons_of_mem (a, c) hxy : (x, y) ∈ windows (a :: c :: rest))
      exact .trans _ _ _ (.rel _ _ hstep) hrest

theorem eqvGen_windows {α : Type} {l : List α} {a b : α} (ha : a ∈ l) (hb : b ∈ l) :
    Relation.EqvGen (fun x y => (x, y) ∈ windows l) a b := by
  cases l with
  | nil => simp at ha
  | cons c rest =>
    exact .trans _ _ _ (.symm _ _ (eqvGen_windows_head c rest ha)) (eqvGen_windows_head c rest hb)

/-! ### The rows of a network -/

theorem id_of_rowOf {net : Network F n} {id : ℕ} {row : Fin n} (h : rowOf net id = some row) :
    (net.buses row).id = id := by
  simpa using List.find?_some h

theorem active_eq_some {net : Network F n} {id : ℕ} {row : Fin n} :
    active net id = some row ↔
      rowOf net id = some row ∧ (net.buses row).kind ≠ .isolated := by
  simp [active, Option.filter_eq_some_iff]

theorem rowOf_id {net : Network F n} (hdistinct : Function.Injective fun row => (net.buses row).id)
    (row : Fin n) : rowOf net (net.buses row).id = some row := by
  have hsome : (rowOf net (net.buses row).id).isSome := by
    rw [rowOf, List.find?_isSome]
    exact ⟨row, by simp, by simp⟩
  obtain ⟨found, hfound⟩ := Option.isSome_iff_exists.mp hsome
  rw [hfound, hdistinct (id_of_rowOf hfound)]

theorem mem_joins {net : Network F n} {a b : Fin n} :
    (a, b) ∈ joins net ↔
      (∃ branch ∈ net.branches, branch.inService = true ∧
        active net branch.source = some a ∧ active net branch.target = some b) ∨
      ∃ transformer ∈ net.transformers3w, transformer.inService = true ∧
        (a, b) ∈ windingPairs net transformer := by
  simp only [joins, List.mem_append, List.mem_filterMap, List.mem_filter, List.mem_flatMap,
    and_assoc, branchPair, bind, Option.bind_eq_some_iff, pure, Option.some.injEq, Prod.mk.injEq]
  constructor
  · rintro (⟨branch, hmem, hservice, a', ha, b', hb, rfl, rfl⟩ | h)
    · exact .inl ⟨branch, hmem, hservice, ha, hb⟩
    · exact .inr h
  · rintro (⟨branch, hmem, hservice, ha, hb⟩ | h)
    · exact .inl ⟨branch, hmem, hservice, a, ha, b, hb, rfl, rfl⟩
    · exact .inr h

theorem eqvGen_joins {net : Network F n} {a b : Fin n} :
    Relation.EqvGen (fun x y => (x, y) ∈ joins net) a b ↔ SameIsland net a b := by
  constructor
  · intro h
    refine h.mono fun x y hxy => ?_
    rcases mem_joins.mp hxy with ⟨branch, hmem, hservice, hx, hy⟩ | ⟨t, hmem, hservice, hpair⟩
    · exact .branch hmem hservice hx hy
    · obtain ⟨hx, hy⟩ := mem_of_mem_windows hpair
      obtain ⟨v, hv, hx⟩ := List.mem_filterMap.mp hx
      obtain ⟨w, hw, hy⟩ := List.mem_filterMap.mp hy
      exact .transformer hmem hservice hv hw hx hy
  · intro h
    induction h with
    | rel x y hlinked =>
      cases hlinked with
      | branch hmem hservice hx hy =>
        exact .rel _ _ (mem_joins.mpr (.inl ⟨_, hmem, hservice, hx, hy⟩))
      | transformer hmem hservice hv hw hx hy =>
        have hpairs := eqvGen_windows (List.mem_filterMap.mpr ⟨_, hv, hx⟩)
          (List.mem_filterMap.mpr ⟨_, hw, hy⟩)
        exact hpairs.mono fun x y hxy => mem_joins.mpr (.inr ⟨_, hmem, hservice, hxy⟩)
    | refl => exact .refl _
    | symm _ _ _ ih => exact .symm _ _ ih
    | trans _ _ _ _ _ ih ih' => exact .trans _ _ _ ih ih'

/-! ### Numbering -/

/-- What numbering the rows `done` has recorded. -/
structure Numbered (net : Network F n) (root : Fin n → Fin n) (done : List (Fin n))
    (state : Numbering n) : Prop where
  roots : state.uf.root = root
  bounded : ∀ r i, state.islandOfRoot r = some i → i < state.members.length
  injective : ∀ r s i, state.islandOfRoot r = some i → state.islandOfRoot s = some i → r = s
  numbered : ∀ row, row ∈ done → (net.buses row).kind ≠ .isolated →
    (state.islandOfRoot (root row)).isSome
  rows : ∀ row, state.islandOfRow row =
    if row ∈ done ∧ (net.buses row).kind ≠ .isolated then state.islandOfRoot (root row) else none
  members : ∀ i row, row ∈ state.members.getD i [] ↔ state.islandOfRow row = some i
  inhabited : ∀ i, i < state.members.length → ∃ row, state.islandOfRow row = some i

theorem getD_modify_append {α : Type} (l : List (List α)) (i j : ℕ) (x : α) (hi : i < l.length) :
    (l.modify i (· ++ [x])).getD j [] = if i = j then l.getD j [] ++ [x] else l.getD j [] := by
  simp only [List.getD_eq_getElem?_getD, List.getElem?_modify]
  split
  case isTrue heq =>
    subst heq
    simp [List.getElem?_eq_getElem hi]
  case isFalse => cases l[j]? <;> rfl

theorem getD_append_singleton {α : Type} (l : List (List α)) (j : ℕ) (x : α) :
    (l ++ [[x]]).getD j [] = if l.length = j then [x] else l.getD j [] := by
  simp only [List.getD_eq_getElem?_getD]
  split
  case isTrue heq =>
    subst heq
    simp
  case isFalse hne =>
    by_cases hlt : j < l.length
    · rw [List.getElem?_append_left hlt]
    · have hge : l.length + 1 ≤ j := by omega
      rw [List.getElem?_eq_none (by simpa using hge), List.getElem?_eq_none (by omega)]

theorem numbered_add {net : Network F n} {root : Fin n → Fin n} {done : List (Fin n)}
    {state : Numbering n} (h : Numbered net root done state) {row : Fin n} (hnew : row ∉ done) :
    Numbered net root (row :: done) (Numbering.add net state row) := by
  have hunseen : state.islandOfRow row = none := by simp [h.rows, hnew]
  unfold Numbering.add
  split
  case isTrue hkind =>
    constructor
    case roots => exact h.roots
    case bounded => exact h.bounded
    case injective => exact h.injective
    case numbered =>
      intro r hr hactive
      rcases List.mem_cons.mp hr with rfl | hr
      · exact absurd hkind hactive
      · exact h.numbered r hr hactive
    case rows =>
      intro r
      rw [h.rows]
      by_cases hrow : r = row
      · subst hrow
        simp [hkind]
      · simp [hrow]
    case members => exact h.members
    case inhabited => exact h.inhabited
  case isFalse hkind =>
    have hroot : (state.uf.find row).2 = root row := by rw [UnionFind.find_snd, h.roots]
    have hroots : (state.uf.find row).1.root = root := by
      funext x
      rw [UnionFind.root_find, h.roots]
    dsimp only
    rw [hroot]
    split
    case h_1 island hisland =>
      have hlt := h.bounded _ _ hisland
      constructor
      case roots => exact hroots
      case bounded =>
        dsimp only
        intro r i hr
        rw [List.length_modify]
        exact h.bounded r i hr
      case injective => exact h.injective
      case numbered =>
        dsimp only
        intro r hr hactive
        rcases List.mem_cons.mp hr with rfl | hr
        · simp [hisland]
        · exact h.numbered r hr hactive
      case rows =>
        dsimp only
        intro r
        by_cases hrow : r = row
        · subst hrow
          simp [hkind, hisland]
        · simp [h.rows, hrow]
      case members =>
        dsimp only
        intro i r
        rw [getD_modify_append _ _ _ _ hlt]
        have hmem := h.members i r
        by_cases hrow : r = row
        · subst hrow
          rw [hunseen] at hmem
          split <;> simp_all
        · rw [Function.update_of_ne hrow, ← hmem]
          split <;> simp [hrow]
      case inhabited =>
        dsimp only
        intro i hi
        rw [List.length_modify] at hi
        obtain ⟨r, hr⟩ := h.inhabited i hi
        have hrow : r ≠ row := by
          rintro rfl
          rw [hunseen] at hr
          exact absurd hr (by simp)
        exact ⟨r, by rw [Function.update_of_ne hrow, hr]⟩
    case h_2 hfresh =>
      have hlt : ∀ r i, state.islandOfRoot r = some i → i ≠ state.members.length :=
        fun r i hr => (h.bounded r i hr).ne
      constructor
      case roots => exact hroots
      case bounded =>
        dsimp only
        intro r i hr
        simp only [List.length_append, List.length_singleton]
        by_cases heq : r = root row
        · subst heq
          simp only [Function.update_self, Option.some.injEq] at hr
          omega
        · rw [Function.update_of_ne heq] at hr
          have hbound := h.bounded r i hr
          omega
      case injective =>
        dsimp only
        intro r s i hr hs
        by_cases heq : r = root row <;> by_cases heq' : s = root row
        · rw [heq, heq']
        · subst heq
          rw [Function.update_self, Option.some.injEq] at hr
          rw [Function.update_of_ne heq'] at hs
          exact absurd hr.symm (hlt s i hs)
        · subst heq'
          rw [Function.update_self, Option.some.injEq] at hs
          rw [Function.update_of_ne heq] at hr
          exact absurd hs.symm (hlt r i hr)
        · rw [Function.update_of_ne heq] at hr
          rw [Function.update_of_ne heq'] at hs
          exact h.injective r s i hr hs
      case numbered =>
        dsimp only
        intro r hr hactive
        by_cases heq : root r = root row
        · simp [heq]
        · rw [Function.update_of_ne heq]
          rcases List.mem_cons.mp hr with rfl | hr
          · exact absurd rfl heq
          · exact h.numbered r hr hactive
      case rows =>
        dsimp only
        intro r
        by_cases hrow : r = row
        · subst hrow
          simp [hkind]
        · rw [Function.update_of_ne hrow, h.rows]
          by_cases hcond : r ∈ done ∧ (net.buses r).kind ≠ .isolated
          · have heq : root r ≠ root row := by
              intro heq
              have hsome := h.numbered r hcond.1 hcond.2
              rw [heq, hfresh] at hsome
              exact absurd hsome (by simp)
            simp [hrow, hcond, Function.update_of_ne heq]
          · simp [hrow, hcond]
      case members =>
        dsimp only
        intro i r
        rw [getD_append_singleton]
        have hmem := h.members i r
        by_cases hrow : r = row
        · subst hrow
          rw [hunseen] at hmem
          split <;> simp_all
        · rw [Function.update_of_ne hrow]
          split
          case isTrue heq =>
            have hnone : state.islandOfRow r ≠ some i := by
              intro hr
              rw [h.rows] at hr
              split at hr
              · exact hlt _ _ hr heq.symm
              · exact absurd hr (by simp)
            simp [hrow, hnone]
          case isFalse => exact hmem
      case inhabited =>
        dsimp only
        intro i hi
        simp only [List.length_append, List.length_singleton] at hi
        by_cases heq : i = state.members.length
        · exact ⟨row, by simp [heq]⟩
        · obtain ⟨r, hr⟩ := h.inhabited i (by omega)
          have hrow : r ≠ row := by
            rintro rfl
            rw [hunseen] at hr
            exact absurd hr (by simp)
          exact ⟨r, by rw [Function.update_of_ne hrow, hr]⟩

theorem numbered_foldl {net : Network F n} {root : Fin n → Fin n} (rows done : List (Fin n))
    {state : Numbering n} (h : Numbered net root done state) (hnodup : rows.Nodup)
    (hdisjoint : ∀ row ∈ rows, row ∉ done) :
    ∃ all, (∀ row, row ∈ all ↔ row ∈ rows ∨ row ∈ done) ∧
      Numbered net root all (rows.foldl (Numbering.add net) state) := by
  induction rows generalizing done state with
  | nil => exact ⟨done, by simp, h⟩
  | cons row rest ih =>
    have hnodup' := List.nodup_cons.mp hnodup
    have hadd := numbered_add h (hdisjoint row (List.mem_cons_self ..))
    obtain ⟨all, hall, hnumbered⟩ := ih (row :: done) hadd hnodup'.2 (by
      intro other hother hmem
      rcases List.mem_cons.mp hmem with rfl | hmem
      · exact hnodup'.1 hother
      · exact hdisjoint other (List.mem_cons_of_mem _ hother) hmem)
    refine ⟨all, fun r => ?_, hnumbered⟩
    rw [hall]
    simp only [List.mem_cons]
    tauto

theorem numbered_of (net : Network F n) :
    ∃ all, (∀ row, row ∈ all) ∧
      Numbered net ((UnionFind.new (Fin n)).unions (joins net)).root all (of net) := by
  have hstart : Numbered net ((UnionFind.new (Fin n)).unions (joins net)).root []
      { uf := (UnionFind.new (Fin n)).unions (joins net)
        islandOfRoot := fun _ => none
        islandOfRow := fun _ => none
        members := [] } := by
    constructor <;> simp
  obtain ⟨all, hall, hnumbered⟩ := numbered_foldl (List.finRange n) [] hstart
    (List.nodup_finRange n) (by simp)
  exact ⟨all, fun row => (hall row).mpr (.inl (List.mem_finRange row)), hnumbered⟩

theorem islandOfRow_isSome {net : Network F n} {row : Fin n} :
    ((of net).islandOfRow row).isSome ↔ (net.buses row).kind ≠ .isolated := by
  obtain ⟨all, hall, h⟩ := numbered_of net
  rw [h.rows]
  by_cases hkind : (net.buses row).kind = .isolated
  · simp [hkind]
  · simpa [hkind, hall] using h.numbered row (hall row) hkind

theorem islandOfRow_eq_iff {net : Network F n} {a b : Fin n} {i : ℕ}
    (ha : (of net).islandOfRow a = some i) :
    (of net).islandOfRow b = some i ↔
      (net.buses b).kind ≠ .isolated ∧ SameIsland net a b := by
  obtain ⟨all, hall, h⟩ := numbered_of net
  have hsame : ((UnionFind.new (Fin n)).unions (joins net)).Same a b ↔ SameIsland net a b := by
    rw [UnionFind.same_unions_new]
    exact eqvGen_joins
  rw [← hsame]
  rw [h.rows] at ha ⊢
  have hactive : (net.buses a).kind ≠ .isolated := by
    intro hkind
    simp [hkind] at ha
  rw [if_pos ⟨hall a, hactive⟩] at ha
  by_cases hkind : (net.buses b).kind = .isolated
  · simp [hkind]
  · simp only [hall, hkind, ne_eq, not_false_eq_true, and_self, if_true, true_and]
    constructor
    · intro hb
      exact h.injective _ _ i ha hb
    · intro hroot
      rw [← show _ = _ from hroot, ha]

theorem mem_members {net : Network F n} {i : ℕ} {row : Fin n} :
    row ∈ (of net).members.getD i [] ↔ (of net).islandOfRow row = some i := by
  obtain ⟨all, -, h⟩ := numbered_of net
  exact h.members i row

theorem lt_length_of_islandOfRow {net : Network F n} {i : ℕ} {row : Fin n}
    (hrow : (of net).islandOfRow row = some i) : i < (of net).members.length := by
  obtain ⟨all, -, h⟩ := numbered_of net
  rw [h.rows] at hrow
  split at hrow
  · exact h.bounded _ _ hrow
  · exact absurd hrow (by simp)

theorem exists_islandOfRow {net : Network F n} {i : ℕ} (hi : i < (of net).members.length) :
    ∃ row, (of net).islandOfRow row = some i := by
  obtain ⟨all, -, h⟩ := numbered_of net
  exact h.inhabited i hi

/-! ### Supply and references -/

theorem Linked.both_active {net : Network F n} {a b : Fin n} (h : Linked net a b) :
    (net.buses a).kind ≠ .isolated ∧ (net.buses b).kind ≠ .isolated := by
  cases h with
  | branch _ _ ha hb => exact ⟨(active_eq_some.mp ha).2, (active_eq_some.mp hb).2⟩
  | transformer _ _ _ _ ha hb => exact ⟨(active_eq_some.mp ha).2, (active_eq_some.mp hb).2⟩

theorem SameIsland.active_iff {net : Network F n} {a b : Fin n} (h : SameIsland net a b) :
    (net.buses a).kind ≠ .isolated ↔ (net.buses b).kind ≠ .isolated := by
  apply h.iff_of_step
  intro x y hlinked
  exact ⟨fun _ => hlinked.both_active.2, fun _ => hlinked.both_active.1⟩

theorem SameIsland.supplied_iff {net : Network F n} {a b : Fin n} (h : SameIsland net a b) :
    Supplied net a ↔ Supplied net b := by
  constructor
  · rintro ⟨host, hhost, hsupply⟩
    exact ⟨host, .trans _ _ _ (.symm _ _ h) hhost, hsupply⟩
  · rintro ⟨host, hhost, hsupply⟩
    exact ⟨host, .trans _ _ _ h hhost, hsupply⟩

theorem active_of_islandOfRow {net : Network F n} {row : Fin n} {i : ℕ}
    (hrow : (of net).islandOfRow row = some i) : (net.buses row).kind ≠ .isolated :=
  islandOfRow_isSome.mp (by simp [hrow])

theorem islandOfRow_of_same {net : Network F n} {a b : Fin n} {i : ℕ}
    (ha : (of net).islandOfRow a = some i) (h : SameIsland net a b) :
    (of net).islandOfRow b = some i :=
  (islandOfRow_eq_iff ha).mpr ⟨h.active_iff.mp (active_of_islandOfRow ha), h⟩

theorem same_of_islandOfRow {net : Network F n} {a b : Fin n} {i : ℕ}
    (ha : (of net).islandOfRow a = some i) (hb : (of net).islandOfRow b = some i) :
    SameIsland net a b :=
  ((islandOfRow_eq_iff ha).mp hb).2

theorem supplied_iff {net : Network F n} {row : Fin n} {i : ℕ}
    (hrow : (of net).islandOfRow row = some i) :
    supplied net (of net) i = true ↔ Supplied net row := by
  simp only [supplied, List.any_eq_true, Bool.and_eq_true, beq_iff_eq, islandOf,
    Option.bind_eq_some_iff]
  constructor
  · rintro ⟨generator, hmem, hservice, host, hhost, hisland⟩
    exact ⟨host, same_of_islandOfRow hrow hisland, generator, hmem, hservice, hhost⟩
  · rintro ⟨host, hsame, generator, hmem, hservice, hhost⟩
    exact ⟨generator, hmem, hservice, host, hhost, islandOfRow_of_same hrow hsame⟩

theorem referenced_iff {net : Network F n} {policy : ReferencePolicy} {row : Fin n} {i : ℕ}
    (hrow : (of net).islandOfRow row = some i) :
    referenced net (of net) policy i = true ↔ Referenced net policy row := by
  simp only [referenced, List.any_eq_true, List.mem_finRange, true_and, Bool.and_eq_true,
    beq_iff_eq]
  constructor
  · rintro ⟨reference, hcounts, hisland⟩
    exact ⟨reference, same_of_islandOfRow hrow hisland, hcounts⟩
  · rintro ⟨reference, hsame, hcounts⟩
    exact ⟨reference, hcounts, islandOfRow_of_same hrow hsame⟩

theorem larger_hosts {net : Network F n} {i : ℕ} (generators : List (Generator F))
    (hsub : ∀ generator ∈ generators, generator ∈ net.generators ∧ generator.inService = true)
    {start : Option (F × Fin n)}
    (hstart : ∀ best row, start = some (best, row) →
      (of net).islandOfRow row = some i ∧ Hosts net row) {best : F} {row : Fin n}
    (hresult : generators.foldl (larger net (of net) i) start = some (best, row)) :
    (of net).islandOfRow row = some i ∧ Hosts net row := by
  induction generators generalizing start with
  | nil => exact hstart best row hresult
  | cons generator rest ih =>
    apply ih (fun other hother => hsub other (List.mem_cons_of_mem _ hother)) _ hresult
    intro best' row' hnext
    have hgenerator := hsub generator (List.mem_cons_self ..)
    unfold larger at hnext
    split at hnext
    case h_1 => exact hstart best' row' hnext
    case h_2 found hfound =>
      split at hnext
      case isFalse => exact hstart best' row' hnext
      case isTrue hisland =>
        have hhere : (of net).islandOfRow found = some i ∧ Hosts net found :=
          ⟨hisland, generator, hgenerator.1, hgenerator.2, hfound⟩
        split at hnext
        case h_1 =>
          cases hnext
          exact hhere
        case h_2 =>
          split at hnext
          case isTrue =>
            cases hnext
            exact hhere
          case isFalse => exact hstart best' row' hnext

theorem larger_isSome {net : Network F n} {islands : Numbering n} {i : ℕ}
    (generators : List (Generator F)) {start : Option (F × Fin n)}
    (h : start.isSome ∨ ∃ generator ∈ generators, ∃ row,
      rowOf net generator.bus = some row ∧ islands.islandOfRow row = some i) :
    (generators.foldl (larger net islands i) start).isSome := by
  have hkeep : ∀ (kept : Option (F × Fin n)) (generator : Generator F), kept.isSome →
      (larger net islands i kept generator).isSome := by
    intro kept generator hkept
    obtain ⟨best, rfl⟩ := Option.isSome_iff_exists.mp hkept
    unfold larger
    split
    case h_1 => rfl
    case h_2 =>
      split
      case isTrue =>
        split
        · rfl
        · split <;> rfl
      case isFalse => rfl
  induction generators generalizing start with
  | nil =>
    rcases h with h | ⟨_, hmem, _⟩
    · exact h
    · simp at hmem
  | cons generator rest ih =>
    apply ih
    rcases h with h | ⟨other, hmem, row, hrow, hisland⟩
    · exact .inl (hkeep _ _ h)
    · rcases List.mem_cons.mp hmem with rfl | hmem
      · left
        unfold larger
        simp only [hrow, hisland, if_true]
        split
        case h_1 => rfl
        case h_2 => split <;> rfl
      · exact .inr ⟨other, hmem, row, hrow, hisland⟩

theorem exists_largest {net : Network F n} {i : ℕ} (hsupplied : supplied net (of net) i = true) :
    ∃ best row, largest net (of net) i = some (best, row) := by
  simp only [supplied, List.any_eq_true, Bool.and_eq_true, beq_iff_eq, islandOf,
    Option.bind_eq_some_iff] at hsupplied
  obtain ⟨generator, hmem, hservice, row, hrow, hisland⟩ := hsupplied
  have hsome : (largest net (of net) i).isSome :=
    larger_isSome _ (.inr ⟨generator, List.mem_filter.mpr ⟨hmem, hservice⟩, row, hrow, hisland⟩)
  obtain ⟨⟨best, found⟩, hfound⟩ := Option.isSome_iff_exists.mp hsome
  exact ⟨best, found, hfound⟩

theorem largest_hosts {net : Network F n} {i : ℕ} {best : F} {row : Fin n}
    (h : largest net (of net) i = some (best, row)) :
    (of net).islandOfRow row = some i ∧ Hosts net row :=
  larger_hosts _ (fun _ hmem => List.mem_filter.mp hmem) (by simp) h

/-! ### Decisions -/

theorem mem_isolated {net : Network F n} {row : Fin n} :
    row ∈ isolated net (of net) ↔ (net.buses row).kind ≠ .isolated ∧ ¬ Supplied net row := by
  simp only [isolated, List.mem_flatMap, List.mem_filter, List.mem_range, Bool.not_eq_true',
    mem_members]
  constructor
  · rintro ⟨i, ⟨-, hunsupplied⟩, hrow⟩
    refine ⟨active_of_islandOfRow hrow, fun hsupplied => ?_⟩
    rw [(supplied_iff hrow).mpr hsupplied] at hunsupplied
    exact absurd hunsupplied (by simp)
  · rintro ⟨hactive, hunsupplied⟩
    obtain ⟨i, hrow⟩ := Option.isSome_iff_exists.mp (islandOfRow_isSome.mpr hactive)
    refine ⟨i, ⟨lt_length_of_islandOfRow hrow, ?_⟩, hrow⟩
    by_contra hsupplied
    exact hunsupplied ((supplied_iff hrow).mp (by simpa using hsupplied))

theorem mem_designateReferences {net : Network F n} {policy : ReferencePolicy} {row : Fin n} :
    row ∈ designateReferences net (of net) policy ↔
      ∃ i best, (of net).islandOfRow row = some i ∧ largest net (of net) i = some (best, row) ∧
        Supplied net row ∧ Hosts net row ∧ ¬ Referenced net policy row := by
  simp only [designateReferences, List.mem_filterMap, List.mem_filter, List.mem_range,
    Bool.and_eq_true, Bool.not_eq_true', Option.map_eq_some_iff, Prod.exists, exists_eq_right]
  constructor
  · rintro ⟨i, ⟨-, hsupplied, hunreferenced⟩, best, hlargest⟩
    obtain ⟨hrow, hhosts⟩ := largest_hosts hlargest
    refine ⟨i, best, hrow, hlargest, (supplied_iff hrow).mp hsupplied, hhosts, fun href => ?_⟩
    rw [(referenced_iff hrow).mpr href] at hunreferenced
    exact absurd hunreferenced (by simp)
  · rintro ⟨i, best, hrow, hlargest, hsupplied, -, hunreferenced⟩
    refine ⟨i, ⟨lt_length_of_islandOfRow hrow, (supplied_iff hrow).mpr hsupplied, ?_⟩,
      best, hlargest⟩
    by_contra href
    exact hunreferenced ((referenced_iff hrow).mp (by simpa using href))

theorem designated_unique {net : Network F n} {policy : ReferencePolicy} {a b : Fin n}
    (ha : a ∈ designateReferences net (of net) policy)
    (hb : b ∈ designateReferences net (of net) policy) (hsame : SameIsland net a b) : a = b := by
  obtain ⟨i, best, hrow, hlargest, -⟩ := mem_designateReferences.mp ha
  obtain ⟨j, best', hrow', hlargest', -⟩ := mem_designateReferences.mp hb
  have hij : i = j := by
    have heq := islandOfRow_of_same hrow hsame
    rw [hrow'] at heq
    exact (Option.some.inj heq).symm
  subst hij
  rw [hlargest] at hlargest'
  simp only [Option.some.injEq, Prod.mk.injEq] at hlargest'
  exact hlargest'.2

theorem energize_of_settled (fixed : F → String) {net : Network F n} {policy : ReferencePolicy}
    (hsettled : ∀ row, (net.buses row).kind ≠ .isolated →
      Supplied net row ∧ Referenced net policy row) :
    energize fixed net policy = { network := none, diagnostics := [] } := by
  have hsupplied : ∀ i, i < (of net).members.length → supplied net (of net) i = true := by
    intro i hi
    obtain ⟨row, hrow⟩ := exists_islandOfRow hi
    exact (supplied_iff hrow).mpr (hsettled row (active_of_islandOfRow hrow)).1
  have hunsupplied : (List.range (of net).members.length).filter
      (fun island => !supplied net (of net) island) = [] := by
    rw [List.filter_eq_nil_iff]
    intro i hi
    simp [hsupplied i (List.mem_range.mp hi)]
  have hisolate : isolated net (of net) = [] := by
    rw [isolated, hunsupplied]
    rfl
  have hdesignate : designateReferences net (of net) policy = [] := by
    rw [List.eq_nil_iff_forall_not_mem]
    intro row hrow
    obtain ⟨i, best, hisland, -, -, -, hunreferenced⟩ := mem_designateReferences.mp hrow
    exact hunreferenced (hsettled row (active_of_islandOfRow hisland)).2
  simp [energize, hunsupplied, hisolate, hdesignate]

/-! ### The adjusted network -/

section Adjusted

variable {net : Network F n} {policy : ReferencePolicy}

/-- What the pass hands on, whether or not it copied the network. -/
def outcome (net : Network F n) (policy : ReferencePolicy) : Network F n :=
  adjusted net (isolated net (of net)) (designateReferences net (of net) policy)

theorem prepared_energize (fixed : F → String) (net : Network F n) (policy : ReferencePolicy) :
    (energize fixed net policy).prepared net = outcome net policy := by
  unfold energize outcome
  dsimp only
  split
  case isTrue hnone =>
    simp only [Bool.and_eq_true, List.isEmpty_iff] at hnone
    simp [Energized.prepared, adjusted, hnone.1, hnone.2]
  case isFalse => rfl

@[simp] theorem id_outcome (row : Fin n) :
    ((outcome net policy).buses row).id = (net.buses row).id := by
  simp only [outcome, adjusted]
  split
  · rfl
  · split <;> rfl

theorem kind_outcome (row : Fin n) :
    ((outcome net policy).buses row).kind =
      if row ∈ designateReferences net (of net) policy then .ref
      else if row ∈ isolated net (of net) then .isolated
      else (net.buses row).kind := by
  simp only [outcome, adjusted]
  split
  · rfl
  · split <;> rfl

theorem active_outcome_iff (row : Fin n) :
    ((outcome net policy).buses row).kind ≠ .isolated ↔
      (net.buses row).kind ≠ .isolated ∧ Supplied net row := by
  rw [kind_outcome]
  split
  case isTrue hdesignate =>
    obtain ⟨i, best, hrow, -, hsupplied, -⟩ := mem_designateReferences.mp hdesignate
    simp [active_of_islandOfRow hrow, hsupplied]
  case isFalse =>
    split
    case isTrue hmem => simp [(mem_isolated.mp hmem).2]
    case isFalse hmem =>
      have hkeep : (net.buses row).kind ≠ .isolated → Supplied net row := by
        intro hactive
        by_contra hunsupplied
        exact hmem (mem_isolated.mpr ⟨hactive, hunsupplied⟩)
      exact ⟨fun hactive => ⟨hactive, hkeep hactive⟩, fun h => h.1⟩

@[simp] theorem rowOf_outcome (id : ℕ) : rowOf (outcome net policy) id = rowOf net id := by
  simp [rowOf]

theorem active_outcome {id : ℕ} {row : Fin n} :
    active (outcome net policy) id = some row ↔ active net id = some row ∧ Supplied net row := by
  rw [active_eq_some, active_eq_some, rowOf_outcome, active_outcome_iff, and_assoc]

theorem hosts_outcome {row : Fin n} : Hosts (outcome net policy) row ↔ Hosts net row := by
  simp only [Hosts, rowOf_outcome]
  rfl

/-- A three-winding transformer stays as it was, or is out of service in the end and touches
an isolated row. -/
theorem mem_transformers_outcome {transformer : Transformer3w} :
    transformer ∈ (outcome net policy).transformers3w ∧ transformer.inService = true ↔
      transformer ∈ net.transformers3w ∧ transformer.inService = true ∧
        ∀ bus ∈ transformer.windings, ∀ row, (net.buses row).id = bus →
          (net.buses row).kind ≠ .isolated → Supplied net row := by
  have htouches : ∀ t : Transformer3w,
      (t.windings.any fun bus => ((isolated net (of net)).map fun row =>
        (net.buses row).id).contains bus) = false ↔
      ∀ bus ∈ t.windings, ∀ row, (net.buses row).id = bus →
        (net.buses row).kind ≠ .isolated → Supplied net row := by
    intro t
    simp only [List.any_eq_false, List.contains_eq_mem, List.mem_map, mem_isolated,
      decide_eq_true_eq, not_exists, not_and, and_imp]
    constructor
    · intro h bus hbus row hid hactive
      by_contra hunsupplied
      exact h bus hbus row hactive hunsupplied hid
    · intro h bus hbus row hactive hunsupplied hid
      exact hunsupplied (h bus hbus row hid hactive)
  simp only [outcome, adjusted, List.mem_map]
  constructor
  · rintro ⟨⟨t, hmem, rfl⟩, hservice⟩
    split at hservice
    case isTrue => exact absurd hservice (by simp)
    case isFalse htouch =>
      rw [if_neg htouch]
      exact ⟨hmem, hservice, (htouches t).mp (Bool.eq_false_iff.mpr htouch)⟩
  · rintro ⟨hmem, hservice, hclear⟩
    have htouch := (htouches transformer).mpr hclear
    exact ⟨⟨transformer, hmem, by rw [htouch]; rfl⟩, hservice⟩

section Distinct

variable (hdistinct : Function.Injective fun row => (net.buses row).id)
include hdistinct

theorem Linked.kept {a b : Fin n} (h : Linked net a b) (hsupplied : Supplied net a) :
    Linked (outcome net policy) a b := by
  have hsupplied' : Supplied net b :=
    (SameIsland.supplied_iff (.rel _ _ h)).mp hsupplied
  cases h with
  | branch hmem hservice ha hb =>
    exact .branch hmem hservice (active_outcome.mpr ⟨ha, hsupplied⟩)
      (active_outcome.mpr ⟨hb, hsupplied'⟩)
  | @transformer t v w _ _ hmem hservice hv hw ha hb =>
    have hclear : ∀ bus ∈ t.windings, ∀ row, (net.buses row).id = bus →
        (net.buses row).kind ≠ .isolated → Supplied net row := by
      rintro bus hbus row rfl hactive
      have hrow : active net (net.buses row).id = some row :=
        active_eq_some.mpr ⟨rowOf_id hdistinct row, hactive⟩
      exact (SameIsland.supplied_iff
        (.rel _ _ (.transformer hmem hservice hv hbus ha hrow))).mp hsupplied
    have ht := (@mem_transformers_outcome F _ n net policy t).mpr ⟨hmem, hservice, hclear⟩
    exact .transformer ht.1 hservice hv hw (active_outcome.mpr ⟨ha, hsupplied⟩)
      (active_outcome.mpr ⟨hb, hsupplied'⟩)

theorem SameIsland.kept {a b : Fin n} (h : SameIsland net a b) (hsupplied : Supplied net a) :
    SameIsland (outcome net policy) a b := by
  apply h.restrict _ _ hsupplied
  · intro x y hlinked
    exact SameIsland.supplied_iff (.rel _ _ hlinked)
  · intro x y hlinked hsupply
    exact hlinked.kept hdistinct hsupply

theorem outcome_settled {row : Fin n}
    (hactive : ((outcome net policy).buses row).kind ≠ .isolated) :
    Supplied (outcome net policy) row ∧ Referenced (outcome net policy) policy row := by
  obtain ⟨hold, hsupplied⟩ := (active_outcome_iff row).mp hactive
  constructor
  · obtain ⟨host, hsame, hhosts⟩ := hsupplied
    exact ⟨host, hsame.kept hdistinct ⟨host, hsame, hhosts⟩, hosts_outcome.mpr hhosts⟩
  · obtain ⟨i, hrow⟩ := Option.isSome_iff_exists.mp (islandOfRow_isSome.mpr hold)
    by_cases href : Referenced net policy row
    · obtain ⟨reference, hsame, hcounts⟩ := href
      refine ⟨reference, hsame.kept hdistinct hsupplied, ?_⟩
      have hsupplied' : Supplied net reference := hsame.supplied_iff.mp hsupplied
      have hkind : ((outcome net policy).buses reference).kind = .ref := by
        simp only [counts, Bool.and_eq_true, decide_eq_true_eq] at hcounts
        rw [kind_outcome]
        split
        · rfl
        · rw [if_neg (fun hmem => (mem_isolated.mp hmem).2 hsupplied')]
          exact hcounts.1
      simp only [counts, Bool.and_eq_true, decide_eq_true_eq] at hcounts ⊢
      refine ⟨hkind, ?_⟩
      rw [id_outcome]
      exact hcounts.2
    · obtain ⟨best, chosen, hlargest⟩ := exists_largest ((supplied_iff hrow).mpr hsupplied)
      obtain ⟨hchosen, hhosts⟩ := largest_hosts hlargest
      have hsame := same_of_islandOfRow hrow hchosen
      have hunreferenced : ¬ Referenced net policy chosen := by
        rintro ⟨reference, hsame', hcounts⟩
        exact href ⟨reference, .trans _ _ _ hsame hsame', hcounts⟩
      have hmem : chosen ∈ designateReferences net (of net) policy :=
        mem_designateReferences.mpr
          ⟨i, best, hchosen, hlargest, hsame.supplied_iff.mp hsupplied, hhosts, hunreferenced⟩
      refine ⟨chosen, hsame.kept hdistinct hsupplied, ?_⟩
      simp only [counts, Bool.and_eq_true, decide_eq_true_eq, kind_outcome, if_pos hmem,
        id_outcome, true_and]
      cases policy with
      | stated => rfl
      | generatorHosted =>
        obtain ⟨generator, hgenerator, hservice, hbus⟩ := hhosts
        simp only [generatorBuses, List.contains_eq_mem, List.mem_map, List.mem_filter,
          decide_eq_true_eq]
        exact ⟨generator, ⟨hgenerator, hservice⟩, (id_of_rowOf hbus).symm⟩

end Distinct

end Adjusted

/-! ### The pass -/

theorem kind_outcome_of_unsupplied {net : Network F n} {policy : ReferencePolicy} {row : Fin n}
    (hunsupplied : ¬ Supplied net row) : ((outcome net policy).buses row).kind = .isolated := by
  by_contra hactive
  exact hunsupplied ((active_outcome_iff row).mp hactive).2

theorem bus_outcome_of_supplied {net : Network F n} {policy : ReferencePolicy} {row : Fin n}
    (hsupplied : Supplied net row) :
    (row ∉ designateReferences net (of net) policy ∧
        (outcome net policy).buses row = net.buses row) ∨
      (row ∈ designateReferences net (of net) policy ∧
        (outcome net policy).buses row = { net.buses row with kind := .ref }) := by
  have hkept : row ∉ isolated net (of net) := fun hmem => (mem_isolated.mp hmem).2 hsupplied
  by_cases hmem : row ∈ designateReferences net (of net) policy
  · exact .inr ⟨hmem, by simp [outcome, adjusted, hmem]⟩
  · exact .inl ⟨hmem, by simp [outcome, adjusted, hmem, hkept]⟩

theorem transformer_outcome_of_supplied {net : Network F n} {policy : ReferencePolicy}
    (hdistinct : Function.Injective fun row => (net.buses row).id) {k : ℕ}
    {transformer : Transformer3w} (hk : net.transformers3w[k]? = some transformer)
    (hsupplied : ∃ bus ∈ transformer.windings, ∃ row, active net bus = some row ∧
      Supplied net row) :
    (outcome net policy).transformers3w[k]? = some transformer := by
  simp only [outcome, adjusted, List.getElem?_map, hk, Option.map_some]
  split
  case isFalse => rfl
  case isTrue htouch =>
    cases hservice : transformer.inService with
    | false => rw [← hservice]
    | true =>
      exfalso
      simp only [List.any_eq_true, List.contains_eq_mem, decide_eq_true_eq, List.mem_map,
        mem_isolated] at htouch
      obtain ⟨bus, hbus, row, ⟨hactive, hunsupplied⟩, rfl⟩ := htouch
      obtain ⟨other, hother, host, hhost, hsupply⟩ := hsupplied
      have hrow : active net (net.buses row).id = some row :=
        active_eq_some.mpr ⟨rowOf_id hdistinct row, hactive⟩
      have hlinked : Linked net host row :=
        .transformer (List.mem_of_getElem? hk) hservice hother hbus hhost hrow
      exact hunsupplied ((SameIsland.supplied_iff (.rel _ _ hlinked)).mp hsupply)

/-- Where bus numbers are distinct, energization leaves only islands with a generator and a
reference, and isolates the others. In a supplied island nothing changes but the type of at
most one bus, which becomes the reference. A second pass changes nothing. -/
theorem energize_settles (fixed : F → String) (net : Network F n) (policy : ReferencePolicy)
    (hdistinct : Function.Injective fun row => (net.buses row).id) :
    let out := (energize fixed net policy).prepared net
    (∀ row, (out.buses row).kind ≠ .isolated → Supplied out row ∧ Referenced out policy row) ∧
    (∀ row, ¬ Supplied net row → (out.buses row).kind = .isolated) ∧
    (∀ row, Supplied net row → out.buses row = net.buses row ∨
      (out.buses row = { net.buses row with kind := .ref } ∧ Hosts net row ∧
        ¬ Referenced net policy row)) ∧
    (∀ a b, SameIsland net a b → Supplied net a → out.buses a ≠ net.buses a →
      out.buses b ≠ net.buses b → a = b) ∧
    (∀ row, (out.buses row).id = (net.buses row).id) ∧
    out.branches = net.branches ∧ out.generators = net.generators ∧ out.loads = net.loads ∧
    out.transformers3w.length = net.transformers3w.length ∧
    (∀ (k : ℕ) (transformer : Transformer3w), net.transformers3w[k]? = some transformer →
      (∃ bus ∈ transformer.windings, ∃ row, active net bus = some row ∧ Supplied net row) →
      out.transformers3w[k]? = some transformer) ∧
    energize fixed out policy = { network := none, diagnostics := [] } := by
  intro out
  have hout : out = outcome net policy := prepared_energize fixed net policy
  rw [hout]
  have hdesignated : ∀ row, Supplied net row → (outcome net policy).buses row ≠ net.buses row →
      row ∈ designateReferences net (of net) policy := by
    intro row hsupplied hchanged
    rcases @bus_outcome_of_supplied F _ n net policy row hsupplied with ⟨-, hsame⟩ | ⟨hmem, -⟩
    · exact absurd hsame hchanged
    · exact hmem
  refine ⟨fun row => outcome_settled hdistinct, fun row => kind_outcome_of_unsupplied, ?_, ?_,
    fun row => id_outcome row, rfl, rfl, rfl, ?_, ?_, ?_⟩
  · intro row hsupplied
    rcases @bus_outcome_of_supplied F _ n net policy row hsupplied with ⟨-, hsame⟩ | ⟨hmem, href⟩
    · exact .inl hsame
    · obtain ⟨i, best, -, -, -, hhosts, hunreferenced⟩ := mem_designateReferences.mp hmem
      exact .inr ⟨href, hhosts, hunreferenced⟩
  · intro a b hsame hsupplied ha hb
    exact designated_unique (hdesignated a hsupplied ha)
      (hdesignated b (hsame.supplied_iff.mp hsupplied) hb) hsame
  · simp [outcome, adjusted]
  · intro k transformer hk hsupplied
    exact transformer_outcome_of_supplied hdistinct hk hsupplied
  · exact energize_of_settled fixed fun row => outcome_settled hdistinct

/-! ### Two networks -/

/-- Buses 1 and 2 share an island with the generators of bus 2, which states no reference.
Buses 3 and 4 have no generator. -/
def twoIslands : Network ℚ 4 where
  buses := ![⟨1, .pq⟩, ⟨2, .pv⟩, ⟨3, .ref⟩, ⟨4, .pq⟩]
  branches := [⟨1, 2, true⟩, ⟨2, 3, false⟩]
  transformers3w := [⟨[3, 4, 9], true⟩]
  generators := [⟨2, 10, true⟩, ⟨4, 20, false⟩]
  loads := [⟨4, 5, true⟩]
  baseMva := 100
  isNormalized := false

/-- Bus 2 becomes the reference of its island, the other one is isolated, and the second pass
finds nothing to do. -/
theorem energize_settles_twoIslands :
    let _ := Binary64.exact (fun _ : ℚ => "")
    let out := (energize (fun _ => "") twoIslands .stated).prepared twoIslands
    (List.ofFn fun row => (out.buses row).kind) = [.pq, .ref, .isolated, .isolated] ∧
      out.transformers3w = [⟨[3, 4, 9], false⟩] ∧
      energize (fun _ => "") out .stated = { network := none, diagnostics := [] } := by
  let _ := Binary64.exact (fun _ : ℚ => "")
  have hsettled := energize_settles (fun _ : ℚ => "") twoIslands .stated (by decide)
  exact ⟨by decide +kernel, by decide +kernel, hsettled.2.2.2.2.2.2.2.2.2.2⟩

/-- Two buses numbered 1. Generators and transformers mean the second one. -/
def numberedTwice : Network ℚ 3 where
  buses := ![⟨1, .pq⟩, ⟨1, .ref⟩, ⟨2, .pq⟩]
  branches := []
  transformers3w := [⟨[1, 2, 9], true⟩]
  generators := [⟨1, 10, true⟩]
  loads := []
  baseMva := 100
  isNormalized := false

/-- Isolating the first of two buses with one number takes a transformer of the second one out
of service. That leaves bus 2 without supply, and the second pass isolates it. -/
theorem energize_again_isolates :
    let _ := Binary64.exact (fun _ : ℚ => "")
    ¬ ∀ (n : ℕ) (net : Network ℚ n) (policy : ReferencePolicy),
      let out := (energize (fun _ => "") net policy).prepared net
      (energize (fun _ => "") out policy).network.isNone := by
  intro _ h
  have hsettled := h 3 numberedTwice .stated
  revert hsettled
  decide +kernel

end Tellegen.Islands
