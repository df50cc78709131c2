import Tellegen.Lib.DepthFirst
import Tellegen.Lib.Outcome
import Tellegen.Multiconductor

/-!
Explicit selection of the islands of a multiconductor network that no voltage
source powers. Buses are matched by their folded names in every table.
-/

namespace Tellegen.Multiconductor

variable {F T : Type}

/-! ### Equipment -/

structure Equipment where
  kind : String
  name : String
  buses : List String
  connected : Bool

def DistMachine.equipment (kind : String) (machine : DistMachine) : Equipment :=
  ⟨kind, machine.name, [machine.bus], false⟩

/-- Every element that is attached to buses, in the order of its tables. Lines, closed switches
and transformers connect their buses. -/
def MulticonductorNetwork.equipment (net : MulticonductorNetwork F T) : List Equipment :=
  net.lines.map (fun e => ⟨"line", e.name, [e.busFrom, e.busTo], true⟩) ++
  net.switches.map (fun e => ⟨"switch", e.name, [e.busFrom, e.busTo], !e.isOpen⟩) ++
  net.transformers.map (fun e => ⟨"transformer", e.name, e.windings, true⟩) ++
  net.loads.map (fun e => ⟨"load", e.name, [e.bus], false⟩) ++
  net.generators.map (DistMachine.equipment "generator") ++
  net.ibrs.map (DistMachine.equipment "ibr") ++
  net.shunts.map (fun e => ⟨"shunt", e.name, [e.bus], false⟩) ++
  net.capacitors.map (fun e => ⟨"capacitor", e.name, [e.bus], false⟩) ++
  net.sources.map (fun e => ⟨"source", e.name, [e.bus], false⟩)

structure McExcludedEquipment where
  kind : String
  name : String
  deriving DecidableEq

structure McExcludedIsland where
  buses : List String
  equipment : List McExcludedEquipment
  deriving DecidableEq

/-! ### Rows -/

abbrev Row (net : MulticonductorNetwork F T) := Fin net.buses.length

def keyOf (net : MulticonductorNetwork F T) (row : Row net) : String := (net.buses.get row).key

def checkIdentities : List String → List DistBus → Except String Unit
  | _, [] => .ok ()
  | seen, bus :: rest =>
    if bus.key ∈ seen then .error ("duplicate bus identity `" ++ bus.id ++ "`")
    else checkIdentities (bus.key :: seen) rest

def index (net : MulticonductorNetwork F T) (bus : String) : Except String (Row net) :=
  match (List.finRange net.buses.length).find? fun row => keyOf net row = toAsciiLowercase bus with
  | some row => .ok row
  | none => .error ("equipment references unknown bus `" ++ bus ++ "`")

structure Attached (net : MulticonductorNetwork F T) where
  kind : String
  name : String
  nodes : List (Row net)
  connected : Bool

def attach (net : MulticonductorNetwork F T) (e : Equipment) : Except String (Attached net) := do
  let nodes ← e.buses.mapM (index net)
  .ok ⟨e.kind, e.name, nodes, e.connected⟩

/-- The first node of a connection is joined to each other one. -/
def Attached.joins {net : MulticonductorNetwork F T} (e : Attached net) :
    List (Row net × Row net) :=
  match e.connected, e.nodes with
  | true, first :: others => others.map fun other => (first, other)
  | _, _ => []

def adjacent {net : MulticonductorNetwork F T} (equipment : List (Attached net))
    (node : Row net) : List (Row net) :=
  (equipment.flatMap Attached.joins).flatMap fun join =>
    (if node = join.1 then [join.2] else []) ++ (if node = join.2 then [join.1] else [])

/-! ### Islands -/

structure Growth (net : MulticonductorNetwork F T) where
  component : Row net → Option (Row net)
  islands : List (Row net × List (Row net))

def grow {net : MulticonductorNetwork F T} (equipment : List (Attached net))
    (sources : List (Row net)) (state : Growth net) (start : Row net) : Growth net :=
  if (state.component start).isSome then state
  else
    let found := DepthFirst.explore (adjacent equipment) net.buses.length state.component
      start start
    { component := found.component
      islands :=
        if found.nodes.any (sources.contains ·) then state.islands
        else state.islands ++ [(start, found.nodes)] }

def excludedIsland {net : MulticonductorNetwork F T} (equipment : List (Attached net))
    (component : Row net → Option (Row net)) (island : Row net × List (Row net)) :
    McExcludedIsland where
  buses := (island.2.map fun row => (net.buses.get row).id).insertionSort (· ≤ ·)
  equipment :=
    ((equipment.filter fun e => e.nodes.any fun node => component node = some island.1).map
      fun e => ⟨e.kind, e.name⟩).insertionSort
        fun a b => a.kind < b.kind ∨ (a.kind = b.kind ∧ a.name ≤ b.name)

def mcUnpoweredIslands (net : MulticonductorNetwork F T) :
    Except String (List McExcludedIsland) := do
  checkIdentities [] net.buses
  let equipment ← net.equipment.mapM (attach net)
  let sources ← net.sources.mapM fun source => index net source.bus
  let state := (List.finRange net.buses.length).foldl (grow equipment sources)
    { component := fun _ => none, islands := [] }
  .ok ((state.islands.map (excludedIsland equipment state.component)).insertionSort
    fun a b => (compare a.buses b.buses).isLE)

/-! ### Selection -/

/-- A name of an excluded bus, in any letter case. -/
def Excluded (islands : List McExcludedIsland) (bus : String) : Prop :=
  ∃ island ∈ islands, ∃ excluded ∈ island.buses,
    toAsciiLowercase excluded = toAsciiLowercase bus

instance (islands : List McExcludedIsland) (bus : String) : Decidable (Excluded islands bus) := by
  unfold Excluded
  infer_instance

def keep (islands : List McExcludedIsland) (bus : String) : Bool := !decide (Excluded islands bus)

def DistLocationTarget.kind : DistLocationTarget → Option String
  | .bus | .other => none
  | .line => some "line"
  | .switch => some "switch"
  | .transformer => some "transformer"
  | .load => some "load"
  | .generator => some "generator"
  | .ibr => some "ibr"
  | .shunt => some "shunt"
  | .capacitor => some "capacitor"
  | .source => some "source"

def removedEquipment (islands : List McExcludedIsland) : List McExcludedEquipment :=
  islands.flatMap McExcludedIsland.equipment

def keepLocation (islands : List McExcludedIsland) (location : DistLocation) : Bool :=
  match location.target with
  | .bus => keep islands location.name
  | target =>
    match target.kind with
    | some kind => !(removedEquipment islands).contains ⟨kind, location.name⟩
    | none => true

def select (net : MulticonductorNetwork F T) (islands : List McExcludedIsland) :
    MulticonductorNetwork F T :=
  { net with
    buses := net.buses.filter fun e => keep islands e.id
    lines := net.lines.filter fun e => keep islands e.busFrom && keep islands e.busTo
    switches := net.switches.filter fun e => keep islands e.busFrom && keep islands e.busTo
    transformers := net.transformers.filter fun e => e.windings.all (keep islands)
    loads := net.loads.filter fun e => keep islands e.bus
    generators := net.generators.filter fun e => keep islands e.bus
    ibrs := net.ibrs.filter fun e => keep islands e.bus
    shunts := net.shunts.filter fun e => keep islands e.bus
    capacitors := net.capacitors.filter fun e => keep islands e.bus
    sources := net.sources.filter fun e => keep islands e.bus
    componentLocations := net.componentLocations.filter (keepLocation islands) }

/-! ### What an unpowered island is -/

/-- One element in service joins two buses, by their folded names. -/
def Linked (net : MulticonductorNetwork F T) (a b : String) : Prop :=
  ∃ e ∈ net.equipment, e.connected = true ∧
    a ∈ e.buses.map toAsciiLowercase ∧ b ∈ e.buses.map toAsciiLowercase

def Connected (net : MulticonductorNetwork F T) : String → String → Prop :=
  Relation.EqvGen (Linked net)

def Powered (net : MulticonductorNetwork F T) (key : String) : Prop :=
  ∃ source ∈ net.sources, Connected net key (toAsciiLowercase source.bus)

/-- Folded bus names are distinct, and every element is attached to buses that exist. -/
structure WellFormed (net : MulticonductorNetwork F T) : Prop where
  distinct : (net.buses.map DistBus.key).Nodup
  resolved : ∀ e ∈ net.equipment, ∀ bus ∈ e.buses, ∃ row ∈ net.buses,
    row.key = toAsciiLowercase bus

theorem Linked.symm {net : MulticonductorNetwork F T} {a b : String} (h : Linked net a b) :
    Linked net b a := by
  obtain ⟨e, hmem, hconnected, ha, hb⟩ := h
  exact ⟨e, hmem, hconnected, hb, ha⟩

theorem Connected.powered_iff {net : MulticonductorNetwork F T} {a b : String}
    (h : Connected net a b) : Powered net a ↔ Powered net b := by
  constructor
  · rintro ⟨source, hmem, hsource⟩
    exact ⟨source, hmem, .trans _ _ _ (.symm _ _ h) hsource⟩
  · rintro ⟨source, hmem, hsource⟩
    exact ⟨source, hmem, .trans _ _ _ h hsource⟩

/-! ### Checks -/

theorem checkIdentities_eq_ok (seen : List String) (buses : List DistBus) :
    checkIdentities seen buses = .ok () ↔
      (buses.map DistBus.key).Nodup ∧ ∀ bus ∈ buses, bus.key ∉ seen := by
  induction buses generalizing seen with
  | nil => simp [checkIdentities]
  | cons bus rest ih =>
    unfold checkIdentities
    split
    case isTrue hseen =>
      constructor
      · intro h
        cases h
      · intro h
        exact absurd hseen (h.2 bus (List.mem_cons_self ..))
    case isFalse hseen =>
      rw [ih]
      simp only [List.map_cons, List.nodup_cons, List.mem_map, List.mem_cons, forall_eq_or_imp,
        not_exists, not_and, not_or]
      constructor
      · rintro ⟨hnodup, hrest⟩
        exact ⟨⟨fun other hother => (hrest other hother).1, hnodup⟩, hseen,
          fun other hother => (hrest other hother).2⟩
      · rintro ⟨⟨hfresh, hnodup⟩, -, hrest⟩
        exact ⟨hnodup, fun other hother => ⟨hfresh other hother, hrest other hother⟩⟩

theorem index_spec {net : MulticonductorNetwork F T} {bus : String} {row : Row net}
    (h : index net bus = .ok row) : keyOf net row = toAsciiLowercase bus := by
  unfold index at h
  split at h
  case h_1 found hfound =>
    cases h
    simpa using List.find?_some hfound
  case h_2 => cases h

theorem keyOf_injective {net : MulticonductorNetwork F T}
    (hdistinct : (net.buses.map DistBus.key).Nodup) : Function.Injective (keyOf net) := by
  intro a b hab
  have hbus : net.buses.get a = net.buses.get b :=
    List.inj_on_of_nodup_map hdistinct (List.get_mem ..) (List.get_mem ..) hab
  exact List.nodup_iff_injective_get.mp (List.Nodup.of_map _ hdistinct) hbus

theorem exists_row {net : MulticonductorNetwork F T} {bus : DistBus} (hmem : bus ∈ net.buses) :
    ∃ row : Row net, net.buses.get row = bus := by
  obtain ⟨row, hrow⟩ := List.mem_iff_get.mp hmem
  exact ⟨row, hrow⟩

theorem exists_index {net : MulticonductorNetwork F T} {name : String}
    (h : ∃ bus ∈ net.buses, bus.key = toAsciiLowercase name) : ∃ row, index net name = .ok row := by
  obtain ⟨bus, hmem, hkey⟩ := h
  obtain ⟨row, rfl⟩ := exists_row hmem
  unfold index
  split
  case h_1 found _ => exact ⟨found, rfl⟩
  case h_2 hnone =>
    have hrow := List.find?_eq_none.mp hnone row (List.mem_finRange row)
    exact absurd (decide_eq_true hkey) hrow

theorem bus_of_index {net : MulticonductorNetwork F T} {name : String} {row : Row net}
    (h : index net name = .ok row) : ∃ bus ∈ net.buses, bus.key = toAsciiLowercase name :=
  ⟨net.buses.get row, List.get_mem .., index_spec h⟩

theorem attached_spec {net : MulticonductorNetwork F T} {equipment : List (Attached net)}
    (h : net.equipment.mapM (attach net) = .ok equipment) :
    List.Forall₂ (fun e attached => attached.kind = e.kind ∧ attached.name = e.name ∧
      attached.connected = e.connected ∧
      attached.nodes.map (keyOf net) = e.buses.map toAsciiLowercase) net.equipment equipment := by
  refine (Outcome.forall₂_of_mapM_ok h).imp fun e attached hattach => ?_
  simp only [attach, Outcome.bind_eq_ok, Except.ok.injEq] at hattach
  obtain ⟨nodes, hnodes, rfl⟩ := hattach
  refine ⟨rfl, rfl, rfl, ?_⟩
  have hkeys := (Outcome.forall₂_of_mapM_ok hnodes).imp fun _ _ hrow => (index_spec hrow).symm
  rw [← List.forall₂_eq_eq_eq, List.forall₂_map_left_iff, List.forall₂_map_right_iff]
  exact hkeys.flip.imp fun _ _ heq => heq.symm

theorem sources_spec {net : MulticonductorNetwork F T} {sources : List (Row net)}
    (h : (net.sources.mapM fun source => index net source.bus) = .ok sources) :
    List.Forall₂ (fun source row => keyOf net row = toAsciiLowercase source.bus)
      net.sources sources :=
  (Outcome.forall₂_of_mapM_ok h).imp fun _ _ hrow => index_spec hrow

theorem mcUnpoweredIslands_isOk (net : MulticonductorNetwork F T) :
    (∃ islands, mcUnpoweredIslands net = .ok islands) ↔ WellFormed net := by
  constructor
  · rintro ⟨islands, h⟩
    simp only [mcUnpoweredIslands, Outcome.bind_eq_ok] at h
    obtain ⟨_, hcheck, equipment, hequipment, -⟩ := h
    constructor
    case distinct => exact ((checkIdentities_eq_ok [] net.buses).mp hcheck).1
    case resolved =>
      intro e he bus hbus
      obtain ⟨attached, -, hattach⟩ := Outcome.forall₂_left (Outcome.forall₂_of_mapM_ok hequipment) he
      simp only [attach, Outcome.bind_eq_ok] at hattach
      obtain ⟨nodes, hnodes, -⟩ := hattach
      obtain ⟨row, -, hrow⟩ := Outcome.forall₂_left (Outcome.forall₂_of_mapM_ok hnodes) hbus
      exact bus_of_index hrow
  · intro hwf
    have hcheck : checkIdentities [] net.buses = .ok () :=
      (checkIdentities_eq_ok [] net.buses).mpr ⟨hwf.distinct, by simp⟩
    obtain ⟨equipment, hequipment⟩ := Outcome.exists_mapM_ok net.equipment (attach net) (by
      intro e he
      obtain ⟨nodes, hnodes⟩ := Outcome.exists_mapM_ok e.buses (index net)
        fun bus hbus => exists_index (hwf.resolved e he bus hbus)
      exact ⟨⟨e.kind, e.name, nodes, e.connected⟩, by simp [attach, hnodes]⟩)
    obtain ⟨sources, hsources⟩ := Outcome.exists_mapM_ok net.sources
      (fun source => index net source.bus) (by
        intro source hsource
        apply exists_index
        apply hwf.resolved ⟨"source", source.name, [source.bus], false⟩ _ _ (List.mem_singleton.mpr rfl)
        simp only [MulticonductorNetwork.equipment, List.mem_append, List.mem_map]
        exact .inr ⟨source, hsource, rfl⟩)
    exact ⟨_, by simp only [mcUnpoweredIslands, Outcome.bind_eq_ok]
                 exact ⟨(), hcheck, equipment, hequipment, sources, hsources, rfl⟩⟩

/-! ### Components of rows -/

section Rows

variable {net : MulticonductorNetwork F T} {equipment : List (Attached net)}

theorem mem_joins {e : Attached net} {a b : Row net} :
    (a, b) ∈ e.joins ↔ e.connected = true ∧ ∃ others, e.nodes = a :: others ∧ b ∈ others := by
  unfold Attached.joins
  split
  case h_1 first others hconnected hnodes =>
    simp only [List.mem_map, Prod.mk.injEq, hconnected, hnodes, List.cons.injEq, true_and]
    constructor
    · rintro ⟨other, hother, rfl, rfl⟩
      exact ⟨others, ⟨rfl, rfl⟩, hother⟩
    · rintro ⟨others', ⟨rfl, rfl⟩, hb⟩
      exact ⟨b, hb, rfl, rfl⟩
  case h_2 hnone =>
    simp only [List.not_mem_nil, false_iff, not_and, not_exists]
    intro hconnected others hnodes _
    exact hnone a others hconnected hnodes

theorem mem_adjacent {a b : Row net} :
    b ∈ adjacent equipment a ↔ ∃ e ∈ equipment, (a, b) ∈ e.joins ∨ (b, a) ∈ e.joins := by
  simp only [adjacent, List.mem_flatMap, List.mem_append, Prod.exists]
  constructor
  · rintro ⟨x, y, ⟨e, he, hjoin⟩, hb | hb⟩
    · split at hb
      case isTrue hax =>
        rw [List.mem_singleton] at hb
        exact ⟨e, he, .inl (by rw [hax, hb]; exact hjoin)⟩
      case isFalse => simp at hb
    · split at hb
      case isTrue hay =>
        rw [List.mem_singleton] at hb
        exact ⟨e, he, .inr (by rw [hay, hb]; exact hjoin)⟩
      case isFalse => simp at hb
  · rintro ⟨e, he, hjoin | hjoin⟩
    · exact ⟨a, b, ⟨e, he, hjoin⟩, .inl (by simp)⟩
    · exact ⟨b, a, ⟨e, he, hjoin⟩, .inr (by simp)⟩

theorem adjacent_symm (a b : Row net) (h : b ∈ adjacent equipment a) :
    a ∈ adjacent equipment b := by
  rw [mem_adjacent] at h ⊢
  obtain ⟨e, he, hjoin⟩ := h
  exact ⟨e, he, hjoin.symm⟩

variable (hattached : List.Forall₂ (fun e attached => attached.kind = e.kind ∧
  attached.name = e.name ∧ attached.connected = e.connected ∧
  attached.nodes.map (keyOf net) = e.buses.map toAsciiLowercase) net.equipment equipment)
include hattached

theorem linked_of_joins {e : Attached net} (he : e ∈ equipment) {a b : Row net}
    (hjoin : (a, b) ∈ e.joins) : Linked net (keyOf net a) (keyOf net b) := by
  obtain ⟨hconnected, others, hnodes, hb⟩ := mem_joins.mp hjoin
  obtain ⟨element, helement, -, -, hsame, hkeys⟩ := Outcome.forall₂_right hattached he
  refine ⟨element, helement, hsame ▸ hconnected, ?_, ?_⟩
  · rw [← hkeys, hnodes]
    simp
  · rw [← hkeys, hnodes]
    exact List.mem_map_of_mem (List.mem_cons_of_mem _ hb)

theorem connected_of_linked (hwf : WellFormed net) {a b : Row net}
    (h : Linked net (keyOf net a) (keyOf net b)) :
    DepthFirst.Connected (adjacent equipment) a b := by
  obtain ⟨element, helement, hconnected, ha, hb⟩ := h
  obtain ⟨e, he, -, -, hsame, hkeys⟩ := Outcome.forall₂_left hattached helement
  have hmem : ∀ row, keyOf net row ∈ element.buses.map toAsciiLowercase → row ∈ e.nodes := by
    intro row hrow
    rw [← hkeys] at hrow
    obtain ⟨other, hother, hkey⟩ := List.mem_map.mp hrow
    rwa [← keyOf_injective hwf.distinct hkey]
  cases hnodes : e.nodes with
  | nil =>
    have hnil := hmem a ha
    rw [hnodes] at hnil
    simp at hnil
  | cons first others =>
    have hfirst : ∀ row, keyOf net row ∈ element.buses.map toAsciiLowercase →
        DepthFirst.Connected (adjacent equipment) first row := by
      intro row hrow
      have hin := hmem row hrow
      rw [hnodes] at hin
      rcases List.mem_cons.mp hin with rfl | hin
      · exact .refl _
      · have hjoin : (first, row) ∈ e.joins :=
          mem_joins.mpr ⟨hsame.trans hconnected, others, hnodes, hin⟩
        exact .rel _ _ (mem_adjacent.mpr ⟨e, he, .inl hjoin⟩)
    exact .trans _ _ _ (.symm _ _ (hfirst a ha)) (hfirst b hb)

theorem connected_rows_iff (hwf : WellFormed net) {a b : Row net} :
    DepthFirst.Connected (adjacent equipment) a b ↔ Connected net (keyOf net a) (keyOf net b) := by
  constructor
  · intro h
    induction h with
    | rel x y hxy =>
      obtain ⟨e, he, hjoin | hjoin⟩ := mem_adjacent.mp hxy
      · exact .rel _ _ (linked_of_joins hattached he hjoin)
      · exact .symm _ _ (.rel _ _ (linked_of_joins hattached he hjoin))
    | refl => exact .refl _
    | symm _ _ _ ih => exact .symm _ _ ih
    | trans _ _ _ _ _ ih ih' => exact .trans _ _ _ ih ih'
  · -- Every key on the way is the key of a row, since elements are attached to buses.
    have hrow : ∀ key other, Linked net key other → ∃ row : Row net, keyOf net row = key := by
      rintro key other ⟨e, he, -, hkey, -⟩
      obtain ⟨name, hname, rfl⟩ := List.mem_map.mp hkey
      obtain ⟨bus, hbus, hmatch⟩ := hwf.resolved e he name hname
      obtain ⟨row, rfl⟩ := exists_row hbus
      exact ⟨row, hmatch⟩
    have hpath : ∀ {key other}, Connected net key other → key = other ∨
        ∃ x y : Row net, keyOf net x = key ∧ keyOf net y = other ∧
          DepthFirst.Connected (adjacent equipment) x y := by
      intro key other h
      induction h with
      | rel key other hlinked =>
        obtain ⟨x, rfl⟩ := hrow key other hlinked
        obtain ⟨y, rfl⟩ := hrow other _ hlinked.symm
        exact .inr ⟨x, y, rfl, rfl, connected_of_linked hattached hwf hlinked⟩
      | refl => exact .inl rfl
      | symm _ _ _ ih =>
        rcases ih with rfl | ⟨x, y, hx, hy, hxy⟩
        · exact .inl rfl
        · exact .inr ⟨y, x, hy, hx, .symm _ _ hxy⟩
      | trans _ _ _ _ _ ih ih' =>
        rcases ih with rfl | ⟨x, y, hx, hy, hxy⟩
        · exact ih'
        · rcases ih' with rfl | ⟨y', z, hy', hz, hyz⟩
          · exact .inr ⟨x, y, hx, hy, hxy⟩
          · have heq : y = y' := keyOf_injective hwf.distinct (hy.trans hy'.symm)
            subst heq
            exact .inr ⟨x, z, hx, hz, .trans _ _ _ hxy hyz⟩
    intro h
    rcases hpath h with heq | ⟨x, y, hx, hy, hxy⟩
    · rw [keyOf_injective hwf.distinct heq]
      exact .refl _
    · rwa [← keyOf_injective hwf.distinct hx, ← keyOf_injective hwf.distinct hy]

end Rows

/-! ### Growing islands -/

section Growing

variable {net : MulticonductorNetwork F T} {equipment : List (Attached net)}
variable {sources : List (Row net)}

/-- What the search has found: the components it labelled, and those without a source. -/
structure Grown (equipment : List (Attached net)) (sources : List (Row net))
    (state : Growth net) : Prop where
  labelled : DepthFirst.Labelled (adjacent equipment) state.component
  members : ∀ island ∈ state.islands, ∀ x, x ∈ island.2 ↔
    DepthFirst.Connected (adjacent equipment) island.1 x
  nodup : ∀ island ∈ state.islands, island.2.Nodup
  unpowered : ∀ island ∈ state.islands, ∀ x ∈ island.2, x ∉ sources
  labels : ∀ island ∈ state.islands, ∀ x, state.component x = some island.1 ↔ x ∈ island.2
  found : ∀ x, (state.component x).isSome →
    (∃ source ∈ sources, DepthFirst.Connected (adjacent equipment) x source) ∨
      ∃ island ∈ state.islands, x ∈ island.2
  disjoint : state.islands.Pairwise fun a b => ∀ x ∈ a.2, x ∉ b.2

theorem grown_start :
    Grown equipment sources { component := fun _ => none, islands := [] } := by
  constructor
  case labelled => exact DepthFirst.labelled_none _
  all_goals simp

theorem Grown.grow {state : Growth net} (h : Grown equipment sources state) (start : Row net) :
    Grown equipment sources (grow equipment sources state start) ∧
      ((grow equipment sources state start).component start).isSome ∧
      ∀ x, (state.component x).isSome →
        ((grow equipment sources state start).component x).isSome := by
  unfold Multiconductor.grow
  split
  case isTrue hseen => exact ⟨h, hseen, fun _ hx => hx⟩
  case isFalse hnew =>
    have hfresh : state.component start = none := by simpa using hnew
    have hfuel : (List.finRange net.buses.length).length ≤ net.buses.length := by simp
    obtain ⟨hlabelled, hnodes, hnodup, hmarked⟩ :=
      h.labelled.explore adjacent_symm List.mem_finRange hfuel hfresh
    set found := DepthFirst.explore (adjacent equipment) net.buses.length state.component
      start start with hfound
    have hself : start ∈ found.nodes := (hnodes start).mpr (.refl _)
    have hunseen : ∀ x ∈ found.nodes, state.component x = none := by
      intro x hx
      rw [← h.labelled.eq_of_connected adjacent_symm ((hnodes x).mp hx), hfresh]
    have hsome : ∀ x, (state.component x).isSome → (found.component x).isSome := by
      intro x hx
      rw [hmarked]
      split
      · rfl
      · exact hx
    have hold : ∀ island ∈ state.islands, ∀ x, found.component x = some island.1 ↔ x ∈ island.2 := by
      intro island hisland x
      have hroot : state.component island.1 = some island.1 :=
        (h.labels island hisland island.1).mpr ((h.members island hisland _).mpr (.refl _))
      rw [hmarked, ← h.labels island hisland x]
      split
      case isTrue hx =>
        rw [hunseen x hx]
        have hne : start ≠ island.1 := by
          intro heq
          rw [← heq, hfresh] at hroot
          exact absurd hroot (by simp)
        simp [hne]
      case isFalse => rfl
    refine ⟨?_, by simp [hmarked, hself], hsome⟩
    dsimp only
    by_cases hpowered : found.nodes.any (sources.contains ·) = true
    · rw [if_pos hpowered]
      refine ⟨hlabelled, h.members, h.nodup, h.unpowered, hold, ?_, h.disjoint⟩
      intro x hx
      simp only [hmarked] at hx
      split at hx
      case isTrue hin =>
        simp only [List.any_eq_true, List.contains_eq_mem, decide_eq_true_eq] at hpowered
        obtain ⟨source, hmem, hsource⟩ := hpowered
        exact .inl ⟨source, hsource, .trans _ _ _ (.symm _ _ ((hnodes x).mp hin))
          ((hnodes source).mp hmem)⟩
      case isFalse => exact h.found x hx
    · rw [if_neg hpowered]
      have hdark : ∀ x ∈ found.nodes, x ∉ sources := by
        intro x hx hsource
        exact hpowered (List.any_eq_true.mpr ⟨x, hx, by simpa using hsource⟩)
      have hlast : ∀ {p : Row net × List (Row net) → Prop},
          (∀ island ∈ state.islands, p island) → p (start, found.nodes) →
          ∀ island ∈ state.islands ++ [(start, found.nodes)], p island := by
        intro p hislands hnew island hisland
        rcases List.mem_append.mp hisland with hisland | hisland
        · exact hislands island hisland
        · rw [List.mem_singleton.mp hisland]
          exact hnew
      refine ⟨hlabelled, hlast h.members hnodes, hlast h.nodup hnodup, hlast h.unpowered hdark,
        hlast hold ?_, ?_, ?_⟩
      · intro x
        simp only [hmarked]
        split
        case isTrue hx => simp [hx]
        case isFalse hx =>
          simp only [hx, iff_false]
          intro hlabel
          exact hx ((hnodes x).mpr (h.labelled.own x start hlabel))
      · intro x hx
        simp only [hmarked] at hx
        split at hx
        case isTrue hin => exact .inr ⟨_, List.mem_append_right _ (List.mem_singleton.mpr rfl), hin⟩
        case isFalse =>
          rcases h.found x hx with hpower | ⟨island, hisland, hin⟩
          · exact .inl hpower
          · exact .inr ⟨island, List.mem_append_left _ hisland, hin⟩
      · rw [List.pairwise_append]
        refine ⟨h.disjoint, List.pairwise_singleton .., ?_⟩
        intro island hisland other hother x hx hin
        rw [List.mem_singleton.mp hother] at hin
        have hlabel := (h.labels island hisland x).mpr hx
        rw [hunseen x hin] at hlabel
        exact absurd hlabel (by simp)

theorem Grown.foldl {state : Growth net} (h : Grown equipment sources state)
    (rows : List (Row net)) :
    Grown equipment sources (rows.foldl (Multiconductor.grow equipment sources) state) ∧
      ∀ x, x ∈ rows ∨ (state.component x).isSome →
        ((rows.foldl (Multiconductor.grow equipment sources) state).component x).isSome := by
  induction rows generalizing state with
  | nil => exact ⟨h, by simp⟩
  | cons row rest ih =>
    obtain ⟨hgrow, hrow, hkeep⟩ := h.grow row
    obtain ⟨hrest, hsome⟩ := ih hgrow
    refine ⟨hrest, fun x hx => hsome x ?_⟩
    rcases hx with hx | hx
    · rcases List.mem_cons.mp hx with rfl | hx
      · exact .inr hrow
      · exact .inl hx
    · exact .inr (hkeep x hx)

end Growing

/-! ### The islands that are returned -/

theorem mem_buses_excludedIsland {net : MulticonductorNetwork F T}
    {equipment : List (Attached net)} {component : Row net → Option (Row net)}
    {island : Row net × List (Row net)} {id : String} :
    id ∈ (excludedIsland equipment component island).buses ↔
      ∃ row ∈ island.2, (net.buses.get row).id = id := by
  simp [excludedIsland, (List.perm_insertionSort _ _).mem_iff]

/-- The returned islands are the components without a source, each one once. -/
structure Returned (net : MulticonductorNetwork F T) (islands : List McExcludedIsland) : Prop where
  component : ∀ island ∈ islands, ∃ bus ∈ net.buses, ¬ Powered net bus.key ∧
    ∀ id, id ∈ island.buses ↔ ∃ other ∈ net.buses, other.id = id ∧
      Connected net bus.key other.key
  complete : ∀ bus ∈ net.buses, ¬ Powered net bus.key → ∃ island ∈ islands, bus.id ∈ island.buses
  disjoint : islands.Pairwise fun a b => ∀ id ∈ a.buses, id ∉ b.buses
  nodup : ∀ island ∈ islands, island.buses.Nodup
  attached : ∀ island ∈ islands, ∀ kind name, ⟨kind, name⟩ ∈ island.equipment ↔
    ∃ e ∈ net.equipment, e.kind = kind ∧ e.name = name ∧
      ∃ bus ∈ e.buses, ∃ id ∈ island.buses, toAsciiLowercase id = toAsciiLowercase bus

theorem row_eq_of_id {net : MulticonductorNetwork F T} (hwf : WellFormed net) {a b : Row net}
    (h : (net.buses.get a).id = (net.buses.get b).id) : a = b := by
  apply keyOf_injective hwf.distinct
  simp only [keyOf, DistBus.key, h]

theorem powered_iff {net : MulticonductorNetwork F T} (hwf : WellFormed net)
    {equipment : List (Attached net)} {sources : List (Row net)}
    (hattached : List.Forall₂ (fun e attached => attached.kind = e.kind ∧
      attached.name = e.name ∧ attached.connected = e.connected ∧
      attached.nodes.map (keyOf net) = e.buses.map toAsciiLowercase) net.equipment equipment)
    (hsources : List.Forall₂ (fun source row => keyOf net row = toAsciiLowercase source.bus)
      net.sources sources) (row : Row net) :
    Powered net (keyOf net row) ↔
      ∃ source ∈ sources, DepthFirst.Connected (adjacent equipment) row source := by
  constructor
  · rintro ⟨source, hmem, hconnected⟩
    obtain ⟨found, hfound, hkey⟩ := Outcome.forall₂_left hsources hmem
    rw [← hkey] at hconnected
    exact ⟨found, hfound, (connected_rows_iff hattached hwf).mpr hconnected⟩
  · rintro ⟨found, hfound, hconnected⟩
    obtain ⟨source, hmem, hkey⟩ := Outcome.forall₂_right hsources hfound
    refine ⟨source, hmem, ?_⟩
    rw [← hkey]
    exact (connected_rows_iff hattached hwf).mp hconnected

theorem returned_of_ok {net : MulticonductorNetwork F T} {islands : List McExcludedIsland}
    (h : mcUnpoweredIslands net = .ok islands) : Returned net islands := by
  have hwf : WellFormed net := (mcUnpoweredIslands_isOk net).mp ⟨islands, h⟩
  simp only [mcUnpoweredIslands, Outcome.bind_eq_ok, Except.ok.injEq] at h
  obtain ⟨-, -, equipment, hequipment, sources, hsources, hislands⟩ := h
  have hattached := attached_spec hequipment
  have hpowered := powered_iff hwf hattached (sources_spec hsources)
  obtain ⟨hgrown, hall⟩ := (@grown_start F T net equipment sources).foldl
    (List.finRange net.buses.length)
  set state := (List.finRange net.buses.length).foldl (grow equipment sources)
    { component := fun _ => none, islands := [] } with hstate
  have hperm : (state.islands.map (excludedIsland equipment state.component)).Perm islands := by
    rw [← hislands]
    exact (List.perm_insertionSort _ _).symm
  have hmem : ∀ island, island ∈ islands ↔
      ∃ found ∈ state.islands, excludedIsland equipment state.component found = island := by
    intro island
    rw [← hperm.mem_iff, List.mem_map]
  have hdark : ∀ found ∈ state.islands, ∀ row ∈ found.2, ¬ Powered net (keyOf net row) := by
    intro found hfound row hrow hpower
    obtain ⟨source, hsource, hconnected⟩ := (hpowered row).mp hpower
    have hreach := (hgrown.members found hfound row).mp hrow
    have hin := (hgrown.members found hfound source).mpr (.trans _ _ _ hreach hconnected)
    exact hgrown.unpowered found hfound source hin hsource
  constructor
  case component =>
    intro island hisland
    obtain ⟨found, hfound, rfl⟩ := (hmem island).mp hisland
    have hroot : found.1 ∈ found.2 := (hgrown.members found hfound _).mpr (.refl _)
    refine ⟨net.buses.get found.1, List.get_mem .., hdark found hfound _ hroot, fun id => ?_⟩
    rw [mem_buses_excludedIsland]
    constructor
    · rintro ⟨row, hrow, rfl⟩
      exact ⟨net.buses.get row, List.get_mem .., rfl, (connected_rows_iff hattached hwf).mp
        ((hgrown.members found hfound row).mp hrow)⟩
    · rintro ⟨other, hother, rfl, hconnected⟩
      obtain ⟨row, rfl⟩ := exists_row hother
      exact ⟨row, (hgrown.members found hfound row).mpr
        ((connected_rows_iff hattached hwf).mpr hconnected), rfl⟩
  case complete =>
    intro bus hbus hunpowered
    obtain ⟨row, rfl⟩ := exists_row hbus
    rcases hgrown.found row (hall row (.inl (List.mem_finRange row))) with hpower | hfound
    · exact absurd ((hpowered row).mpr hpower) hunpowered
    · obtain ⟨found, hfound, hrow⟩ := hfound
      exact ⟨_, (hmem _).mpr ⟨found, hfound, rfl⟩,
        mem_buses_excludedIsland.mpr ⟨row, hrow, rfl⟩⟩
  case disjoint =>
    have hpairs : (state.islands.map (excludedIsland equipment state.component)).Pairwise
        fun a b => ∀ id ∈ a.buses, id ∉ b.buses := by
      rw [List.pairwise_map]
      refine hgrown.disjoint.imp fun {a b} hab id ha hb => ?_
      obtain ⟨row, hrow, rfl⟩ := mem_buses_excludedIsland.mp ha
      obtain ⟨other, hother, hid⟩ := mem_buses_excludedIsland.mp hb
      rw [row_eq_of_id hwf hid] at hother
      exact hab row hrow hother
    refine (hperm.pairwise_iff ?_).mp hpairs
    intro a b hab id hb ha
    exact hab id ha hb
  case nodup =>
    intro island hisland
    obtain ⟨found, hfound, rfl⟩ := (hmem island).mp hisland
    rw [excludedIsland, (List.perm_insertionSort _ _).nodup_iff]
    exact (hgrown.nodup found hfound).map_on fun _ _ _ _ hid => row_eq_of_id hwf hid
  case attached =>
    intro island hisland kind name
    obtain ⟨found, hfound, rfl⟩ := (hmem island).mp hisland
    have hlabel := hgrown.labels found hfound
    simp only [mem_buses_excludedIsland]
    simp only [excludedIsland, (List.perm_insertionSort _ _).mem_iff, List.mem_map,
      List.mem_filter, List.any_eq_true, decide_eq_true_eq, McExcludedEquipment.mk.injEq, hlabel]
    constructor
    · rintro ⟨e, ⟨he, node, hnode, hin⟩, rfl, rfl⟩
      obtain ⟨element, helement, hkind, hname, -, hkeys⟩ := Outcome.forall₂_right hattached he
      have hkey : keyOf net node ∈ element.buses.map toAsciiLowercase := by
        rw [← hkeys]
        exact List.mem_map_of_mem hnode
      obtain ⟨bus, hbus, hmatch⟩ := List.mem_map.mp hkey
      exact ⟨element, helement, hkind.symm, hname.symm, bus, hbus, _, ⟨node, hin, rfl⟩,
        hmatch.symm⟩
    · rintro ⟨element, helement, rfl, rfl, bus, hbus, _, ⟨node, hin, rfl⟩, hmatch⟩
      obtain ⟨e, he, hkind, hname, -, hkeys⟩ := Outcome.forall₂_left hattached helement
      have hkey : toAsciiLowercase bus ∈ e.nodes.map (keyOf net) := by
        rw [hkeys]
        exact List.mem_map_of_mem hbus
      obtain ⟨other, hother, hsame⟩ := List.mem_map.mp hkey
      have heq : other = node := keyOf_injective hwf.distinct (hsame.trans hmatch.symm)
      exact ⟨e, ⟨he, node, heq ▸ hother, hin⟩, hkind, hname⟩

/-! ### Selection -/

section Selection

variable {net : MulticonductorNetwork F T} {islands : List McExcludedIsland}

theorem excluded_iff (hreturned : Returned net islands) {name : String}
    (hname : ∃ bus ∈ net.buses, bus.key = toAsciiLowercase name) :
    Excluded islands name ↔ ¬ Powered net (toAsciiLowercase name) := by
  obtain ⟨bus, hbus, hkey⟩ := hname
  rw [← hkey]
  constructor
  · rintro ⟨island, hisland, id, hid, hmatch⟩
    obtain ⟨first, hfirst, hunpowered, hmembers⟩ := hreturned.component island hisland
    obtain ⟨other, hother, rfl, hconnected⟩ := (hmembers id).mp hid
    have hsame : other.key = bus.key := hmatch.trans hkey.symm
    rw [← hsame, ← hconnected.powered_iff]
    exact hunpowered
  · intro hunpowered
    obtain ⟨island, hisland, hid⟩ := hreturned.complete bus hbus hunpowered
    exact ⟨island, hisland, bus.id, hid, hkey⟩

theorem keep_eq_true {name : String} : keep islands name = true ↔ ¬ Excluded islands name := by
  simp [keep]

theorem equipment_select :
    (select net islands).equipment = net.equipment.filter fun e => e.buses.all (keep islands) := by
  simp only [MulticonductorNetwork.equipment, select, List.filter_append, List.filter_map,
    Function.comp_def, DistMachine.equipment, List.all_cons, List.all_nil, Bool.and_true]

theorem wellFormed_select (hwf : WellFormed net) : WellFormed (select net islands) := by
  constructor
  case distinct =>
    exact hwf.distinct.sublist (List.filter_sublist.map DistBus.key)
  case resolved =>
    intro e he name hname
    rw [equipment_select, List.mem_filter, List.all_eq_true] at he
    obtain ⟨bus, hbus, hkey⟩ := hwf.resolved e he.1 name hname
    refine ⟨bus, List.mem_filter.mpr ⟨hbus, ?_⟩, hkey⟩
    have hkeep := keep_eq_true.mp (he.2 name hname)
    rw [keep_eq_true]
    rintro ⟨island, hisland, id, hid, hmatch⟩
    exact hkeep ⟨island, hisland, id, hid, hmatch.trans hkey⟩

theorem powered_select (hwf : WellFormed net) (hreturned : Returned net islands) {key : String}
    (hpowered : Powered net key) : Powered (select net islands) key := by
  have hstep : ∀ a b, Linked net a b → (Powered net a ↔ Powered net b) :=
    fun a b hlinked => Connected.powered_iff (.rel _ _ hlinked)
  have hkept : ∀ e ∈ net.equipment, (∀ bus ∈ e.buses, Powered net (toAsciiLowercase bus)) →
      e ∈ (select net islands).equipment := by
    intro e he hall
    rw [equipment_select, List.mem_filter, List.all_eq_true]
    refine ⟨he, fun bus hbus => keep_eq_true.mpr fun hexcluded => ?_⟩
    exact (excluded_iff hreturned (hwf.resolved e he bus hbus)).mp hexcluded (hall bus hbus)
  have hkeep : ∀ a b, Linked net a b → Powered net a → Linked (select net islands) a b := by
    rintro a b ⟨e, he, hconnected, ha, hb⟩ hpower
    refine ⟨e, hkept e he fun bus hbus => ?_, hconnected, ha, hb⟩
    exact (hstep a _ ⟨e, he, hconnected, ha, List.mem_map_of_mem hbus⟩).mp hpower
  obtain ⟨source, hmem, hconnected⟩ := hpowered
  refine ⟨source, List.mem_filter.mpr ⟨hmem, ?_⟩,
    Relation.EqvGen.restrict hconnected hstep hkeep ⟨source, hmem, hconnected⟩⟩
  have hin : ⟨"source", source.name, [source.bus], false⟩ ∈ net.equipment := by
    simp only [MulticonductorNetwork.equipment, List.mem_append, List.mem_map]
    exact .inr ⟨source, hmem, rfl⟩
  rw [keep_eq_true,
    excluded_iff hreturned (hwf.resolved _ hin _ (List.mem_singleton.mpr rfl)), not_not]
  exact ⟨source, hmem, .refl _⟩

theorem mcUnpoweredIslands_select (hwf : WellFormed net) (hreturned : Returned net islands) :
    mcUnpoweredIslands (select net islands) = .ok [] := by
  obtain ⟨rest, hrest⟩ := (mcUnpoweredIslands_isOk _).mpr (@wellFormed_select F T net islands hwf)
  rw [hrest]
  cases rest with
  | nil => rfl
  | cons island others =>
    obtain ⟨bus, hbus, hunpowered, -⟩ :=
      (returned_of_ok hrest).component island (List.mem_cons_self ..)
    exfalso
    apply hunpowered
    apply powered_select hwf hreturned
    obtain ⟨hmem, hkeep⟩ := List.mem_filter.mp hbus
    by_contra hdark
    exact keep_eq_true.mp hkeep ((excluded_iff hreturned ⟨bus, hmem, rfl⟩).mpr hdark)

/-- The tables that are left hold the elements of kept buses as they were, and no reference to
an excluded bus or to an element of an excluded island. -/
structure Selected (net : MulticonductorNetwork F T) (islands : List McExcludedIsland)
    (rest : MulticonductorNetwork F T) : Prop where
  buses : rest.buses = net.buses.filter fun e => ¬ Excluded islands e.id
  lineCodes : rest.lineCodes = net.lineCodes
  untypedObjects : rest.untypedObjects = net.untypedObjects
  lines : rest.lines =
    net.lines.filter fun e => ¬ Excluded islands e.busFrom ∧ ¬ Excluded islands e.busTo
  switches : rest.switches =
    net.switches.filter fun e => ¬ Excluded islands e.busFrom ∧ ¬ Excluded islands e.busTo
  transformers : rest.transformers =
    net.transformers.filter fun e => ∀ bus ∈ e.windings, ¬ Excluded islands bus
  loads : rest.loads = net.loads.filter fun e => ¬ Excluded islands e.bus
  generators : rest.generators = net.generators.filter fun e => ¬ Excluded islands e.bus
  ibrs : rest.ibrs = net.ibrs.filter fun e => ¬ Excluded islands e.bus
  shunts : rest.shunts = net.shunts.filter fun e => ¬ Excluded islands e.bus
  capacitors : rest.capacitors = net.capacitors.filter fun e => ¬ Excluded islands e.bus
  sources : rest.sources = net.sources.filter fun e => ¬ Excluded islands e.bus
  attached : ∀ e ∈ rest.equipment, ∀ bus ∈ e.buses, ¬ Excluded islands bus
  located : ∀ location, location ∈ rest.componentLocations ↔
    location ∈ net.componentLocations ∧
      (location.target = .bus → ¬ Excluded islands location.name) ∧
      ∀ kind, location.target.kind = some kind →
        ∀ island ∈ islands, ⟨kind, location.name⟩ ∉ island.equipment

theorem keepLocation_eq_true {location : DistLocation} :
    keepLocation islands location = true ↔
      (location.target = .bus → ¬ Excluded islands location.name) ∧
      ∀ kind, location.target.kind = some kind →
        ∀ island ∈ islands, ⟨kind, location.name⟩ ∉ island.equipment := by
  obtain ⟨target, name⟩ := location
  cases target <;>
    simp [keepLocation, DistLocationTarget.kind, removedEquipment, keep_eq_true]

theorem select_selected (net : MulticonductorNetwork F T) (islands : List McExcludedIsland) :
    Selected net islands (select net islands) := by
  constructor
  case attached =>
    intro e he bus hbus
    rw [equipment_select, List.mem_filter, List.all_eq_true] at he
    exact keep_eq_true.mp (he.2 bus hbus)
  case located =>
    intro location
    simp only [select, List.mem_filter, keepLocation_eq_true]
  case lineCodes => rfl
  case untypedObjects => rfl
  case transformers =>
    simp only [select, keep, List.all_eq, Bool.not_eq_true', decide_eq_false_iff_not]
  all_goals
    simp only [select, keep, Bool.decide_and, List.all_eq, decide_not]

end Selection

/-- The check refuses a network exactly when two folded bus names agree or an element refers to
no bus. Otherwise it returns the components that no source powers, and selecting them away
leaves every other element as it was, no reference to what was removed, and no further
unpowered island. -/
theorem unpowered_islands_are_removed (net : MulticonductorNetwork F T) :
    match mcUnpoweredIslands net with
    | .error _ => ¬ WellFormed net
    | .ok islands =>
      WellFormed net ∧ Returned net islands ∧
      (∀ bus ∈ net.buses, Excluded islands bus.id ↔ ¬ Powered net bus.key) ∧
      Selected net islands (select net islands) ∧
      mcUnpoweredIslands (select net islands) = .ok [] := by
  cases hresult : mcUnpoweredIslands net with
  | error message =>
    intro hwf
    obtain ⟨islands, hislands⟩ := (mcUnpoweredIslands_isOk net).mpr hwf
    rw [hresult] at hislands
    cases hislands
  | ok islands =>
    have hwf : WellFormed net := (mcUnpoweredIslands_isOk net).mp ⟨islands, hresult⟩
    have hreturned := returned_of_ok hresult
    refine ⟨hwf, hreturned, ?_, select_selected net islands,
      mcUnpoweredIslands_select hwf hreturned⟩
    intro bus hbus
    exact excluded_iff hreturned ⟨bus, hbus, rfl⟩

end Tellegen.Multiconductor
