import Tellegen.Compensation
import Tellegen.Lib.Double
import Tellegen.Lib.Paging
import Tellegen.ResultTables

/-!
The views of one operating point agree. The tables and the summary pass over
the loads, elements and sources as the complete result does, and a pass that
adds up values is a pass over the rows that hold them; a page of details is a
window of the ports that match its query.
-/

set_option linter.unusedSectionVars false

open Binary64 Outcome

namespace Tellegen.Multiconductor

variable {F : Type}

/-! ### Tables of a result -/

/-- Every name of a row, in the order in which the tables store them. -/
def namesOf (result : McPfResult F) : List String :=
  (result.terminals.flatMap fun row => [row.bus, row.terminal]) ++
  (result.elementPorts.flatMap fun port => [port.element, port.kind, port.bus, port.terminal]) ++
  (result.sourceReactions.flatMap fun row => [row.source, row.terminal])

/-- The columns of a result, by the codes of a store of its names. -/
def tablesOf (names : Names) (result : McPfResult F) : McPfResultTables F where
  iterations := result.iterations
  loadModel := result.loadModel
  networkScope := result.networkScope
  excludedIslands := result.excludedIslands
  strings := names.values
  terminalBus := result.terminals.map fun row => names.code codes row.bus
  terminalName := result.terminals.map fun row => names.code codes row.terminal
  terminalVoltage := result.terminals.flatMap fun row => interleaved row.voltage
  terminalCurrent := result.terminals.flatMap fun row => interleaved row.currentIntoNetwork
  terminalPower := result.terminals.flatMap fun row => interleaved row.powerIntoNetwork
  portElement := result.elementPorts.map fun port => names.code codes port.element
  portKind := result.elementPorts.map fun port => names.code codes port.kind
  portBranch := result.elementPorts.map fun port => port.branch % codes
  portBus := result.elementPorts.map fun port => names.code codes port.bus
  portTerminal := result.elementPorts.map fun port => names.code codes port.terminal
  portCurrent := result.elementPorts.flatMap fun port => interleaved port.currentIntoElement
  portPower := result.elementPorts.flatMap fun port => interleaved port.powerIntoElement
  sourceName := result.sourceReactions.map fun row => names.code codes row.source
  sourceTerminal := result.sourceReactions.map fun row => names.code codes row.terminal
  sourceCurrent := result.sourceReactions.flatMap fun row => interleaved row.currentIntoNetwork
  sourcePower := result.sourceReactions.flatMap fun row => interleaved row.powerIntoNetwork

theorem tablesOf_congr {names names' : Names} {result : McPfResult F}
    (h : ∀ name ∈ namesOf result, names'.code codes name = names.code codes name) :
    { tablesOf names' result with strings := [] } = { tablesOf names result with strings := [] } := by
  simp only [namesOf, List.mem_append, List.mem_flatMap, List.mem_cons, List.not_mem_nil,
    or_false] at h
  have hterminal : ∀ row ∈ result.terminals, ∀ name, name = row.bus ∨ name = row.terminal →
      names'.code codes name = names.code codes name := fun row hrow name hname =>
    h name (Or.inl (Or.inl ⟨row, hrow, hname⟩))
  have hport : ∀ port ∈ result.elementPorts, ∀ name, name = port.element ∨ name = port.kind ∨
      name = port.bus ∨ name = port.terminal →
      names'.code codes name = names.code codes name := fun port hport name hname =>
    h name (Or.inl (Or.inr ⟨port, hport, hname⟩))
  have hsource : ∀ row ∈ result.sourceReactions, ∀ name, name = row.source ∨ name = row.terminal →
      names'.code codes name = names.code codes name := fun row hrow name hname =>
    h name (Or.inr ⟨row, hrow, hname⟩)
  simp only [tablesOf, McPfResultTables.mk.injEq, true_and, and_true, List.map_inj_left]
  refine ⟨?_, ?_, ?_, ?_, ?_, ?_, ?_, ?_⟩
  · exact fun row hrow => hterminal row hrow _ (Or.inl rfl)
  · exact fun row hrow => hterminal row hrow _ (Or.inr rfl)
  · exact fun port hmem => hport port hmem _ (Or.inl rfl)
  · exact fun port hmem => hport port hmem _ (Or.inr (Or.inl rfl))
  · exact fun port hmem => hport port hmem _ (Or.inr (Or.inr (Or.inl rfl)))
  · exact fun port hmem => hport port hmem _ (Or.inr (Or.inr (Or.inr rfl)))
  · exact fun row hrow => hsource row hrow _ (Or.inl rfl)
  · exact fun row hrow => hsource row hrow _ (Or.inr rfl)

structure Filled (filling : Filling F) (result : McPfResult F) : Prop where
  tables : filling.tables = { tablesOf filling.names result with strings := [] }
  names : ∀ name, name ∈ filling.names.values ↔ name ∈ namesOf result

namespace Filled

variable {filling : Filling F} {result : McPfResult F}

theorem tables_insertAll (h : Filled filling result) (more : List String) :
    filling.tables =
      { tablesOf (filling.names.insertAll more) result with strings := [] } := by
  rw [h.tables]
  refine (tablesOf_congr fun name hname => ?_).symm
  exact Interning.code_insertAll codes ((h.names name).mpr hname) more

theorem code_later (names : Names) (name : String) (later : List String) :
    ((names.insert name).insertAll later).code codes name =
      (names.insert name).code codes name :=
  Interning.code_insertAll codes ((Interning.mem_insert name name).mpr (Or.inr rfl)) later

theorem terminalRow (h : Filled filling result) (row : McTerminalResult F)
    (hports : result.elementPorts = []) (hsources : result.sourceReactions = []) :
    Filled (filling.terminalRow row)
      { result with terminals := result.terminals ++ [row] } := by
  have htables := h.tables_insertAll [row.bus, row.terminal]
  have hbus := code_later filling.names row.bus [row.terminal]
  constructor
  case tables =>
    simp only [Filling.terminalRow, Filling.pushTerminal, Filling.index, htables, tablesOf,
      List.map_append, List.flatMap_append, List.map_cons, List.map_nil, List.flatMap_cons,
      List.flatMap_nil, List.append_nil, Interning.insertAll, List.foldl_cons, List.foldl_nil]
    simp only [Interning.insertAll, List.foldl_cons, List.foldl_nil] at hbus
    rw [hbus]
  case names =>
    intro name
    have hnames := h.names name
    simp only [namesOf, hports, hsources, List.flatMap_append, List.flatMap_cons,
      List.flatMap_nil, List.append_nil, List.mem_append, List.mem_cons,
      List.not_mem_nil, or_false] at hnames ⊢
    change name ∈ ((filling.names.insert row.bus).insert row.terminal).values ↔ _
    rw [Interning.mem_insert, Interning.mem_insert, hnames, or_assoc]

theorem portRow (h : Filled filling result) (port : McElementPort F)
    (hsources : result.sourceReactions = []) :
    Filled (filling.portRow port)
      { result with elementPorts := result.elementPorts ++ [port] } := by
  have htables := h.tables_insertAll [port.element, port.kind, port.bus, port.terminal]
  have helement := code_later filling.names port.element [port.kind, port.bus, port.terminal]
  have hkind := code_later (filling.names.insert port.element) port.kind [port.bus, port.terminal]
  have hbus := code_later ((filling.names.insert port.element).insert port.kind) port.bus
    [port.terminal]
  constructor
  case tables =>
    simp only [Filling.portRow, Filling.pushPort, Filling.index, htables, tablesOf,
      List.map_append, List.flatMap_append, List.map_cons, List.map_nil, List.flatMap_cons,
      List.flatMap_nil, List.append_nil, Interning.insertAll, List.foldl_cons, List.foldl_nil]
    simp only [Interning.insertAll, List.foldl_cons, List.foldl_nil] at helement hkind hbus
    rw [helement, hkind, hbus]
  case names =>
    intro name
    have hnames := h.names name
    simp only [namesOf, hsources, List.flatMap_append, List.flatMap_cons, List.flatMap_nil,
      List.append_nil, List.mem_append, List.mem_cons, List.not_mem_nil, or_false] at hnames ⊢
    change name ∈ ((((filling.names.insert port.element).insert port.kind).insert
      port.bus).insert port.terminal).values ↔ _
    simp only [Interning.mem_insert, hnames, or_assoc]

theorem sourceRow (h : Filled filling result) (row : McSourceReaction F) :
    Filled (filling.sourceRow row)
      { result with sourceReactions := result.sourceReactions ++ [row] } := by
  have htables := h.tables_insertAll [row.source, row.terminal]
  have hsource := code_later filling.names row.source [row.terminal]
  constructor
  case tables =>
    simp only [Filling.sourceRow, Filling.pushSource, Filling.index, htables, tablesOf,
      List.map_append, List.flatMap_append, List.map_cons, List.map_nil, List.flatMap_cons,
      List.flatMap_nil, List.append_nil, Interning.insertAll, List.foldl_cons, List.foldl_nil]
    simp only [Interning.insertAll, List.foldl_cons, List.foldl_nil] at hsource
    rw [hsource]
  case names =>
    intro name
    have hnames := h.names name
    simp only [namesOf, List.flatMap_append, List.flatMap_cons, List.flatMap_nil,
      List.append_nil, List.mem_append, List.mem_cons, List.not_mem_nil, or_false] at hnames ⊢
    change name ∈ ((filling.names.insert row.source).insert row.terminal).values ↔ _
    simp only [Interning.mem_insert, hnames, or_assoc]

theorem terminalRows (h : Filled filling result) (rows : List (McTerminalResult F))
    (hports : result.elementPorts = []) (hsources : result.sourceReactions = []) :
    Filled (rows.foldl Filling.terminalRow filling)
      { result with terminals := result.terminals ++ rows } := by
  induction rows generalizing filling result with
  | nil => simpa using h
  | cons row rest ih =>
    have hrest := ih (h.terminalRow row hports hsources) hports hsources
    simpa using hrest

theorem portRows (h : Filled filling result) (ports : List (McElementPort F))
    (hsources : result.sourceReactions = []) :
    Filled (ports.foldl Filling.portRow filling)
      { result with elementPorts := result.elementPorts ++ ports } := by
  induction ports generalizing filling result with
  | nil => simpa using h
  | cons port rest ih =>
    have hrest := ih (h.portRow port hsources) hsources
    simpa using hrest

theorem sourceRows (h : Filled filling result) (rows : List (McSourceReaction F)) :
    Filled (rows.foldl Filling.sourceRow filling)
      { result with sourceReactions := result.sourceReactions ++ rows } := by
  induction rows generalizing filling result with
  | nil => simpa using h
  | cons row rest ih =>
    have hrest := ih (h.sourceRow row)
    simpa using hrest

end Filled

theorem fromResult_eq (result : McPfResult F) :
    ∃ names : Names, McPfResultTables.fromResult result = tablesOf names result ∧
      ∀ name, name ∈ names.values ↔ name ∈ namesOf result := by
  have hstart : Filled
      (.start result.iterations result.loadModel result.networkScope result.excludedIslands)
      { result with terminals := [], elementPorts := [], sourceReactions := [] } := by
    constructor
    · rfl
    · intro name
      simp [Filling.start, namesOf, Interning.empty]
  have hfilled := ((hstart.terminalRows result.terminals rfl rfl).portRows result.elementPorts
    rfl).sourceRows result.sourceReactions
  refine ⟨_, ?_, hfilled.names⟩
  simp only [McPfResultTables.fromResult, Filling.finish, hfilled.tables]
  rfl

/-! ### Decoding -/

def McPfResultTables.decode (tables : McPfResultTables F) (column : List ℕ) :
    List (Option String) := column.map (tables.strings[·]?)

/-- Every index of every column decodes to the name of its row. -/
structure McPfResultTables.Decodes (tables : McPfResultTables F) (result : McPfResult F) :
    Prop where
  terminalBus : tables.decode tables.terminalBus = result.terminals.map fun row => some row.bus
  terminalName : tables.decode tables.terminalName =
    result.terminals.map fun row => some row.terminal
  portElement : tables.decode tables.portElement =
    result.elementPorts.map fun port => some port.element
  portKind : tables.decode tables.portKind = result.elementPorts.map fun port => some port.kind
  portBus : tables.decode tables.portBus = result.elementPorts.map fun port => some port.bus
  portTerminal : tables.decode tables.portTerminal =
    result.elementPorts.map fun port => some port.terminal
  sourceName : tables.decode tables.sourceName =
    result.sourceReactions.map fun row => some row.source
  sourceTerminal : tables.decode tables.sourceTerminal =
    result.sourceReactions.map fun row => some row.terminal

theorem tablesOf_decodes {names : Names} {result : McPfResult F}
    (hnames : ∀ name, name ∈ names.values ↔ name ∈ namesOf result) :
    (tablesOf names result).Decodes result ↔ names.Decodes codes := by
  have hcolumn : ∀ {α : Type} (rows : List α) (name : α → String),
      (tablesOf names result).decode (rows.map fun row => names.code codes (name row)) =
        (rows.map fun row => some (name row)) ↔
      ∀ row ∈ rows, names.values[names.code codes (name row)]? = some (name row) := by
    intro α rows name
    rw [McPfResultTables.decode, List.map_map, List.map_inj_left]
    rfl
  constructor
  · intro h name hname
    rw [hnames] at hname
    simp only [namesOf, List.mem_append, List.mem_flatMap, List.mem_cons, List.not_mem_nil,
      or_false] at hname
    rcases hname with (⟨row, hrow, rfl | rfl⟩ | ⟨port, hport, rfl | rfl | rfl | rfl⟩) |
      ⟨row, hrow, rfl | rfl⟩
    · exact (hcolumn _ _).mp h.terminalBus row hrow
    · exact (hcolumn _ _).mp h.terminalName row hrow
    · exact (hcolumn _ _).mp h.portElement port hport
    · exact (hcolumn _ _).mp h.portKind port hport
    · exact (hcolumn _ _).mp h.portBus port hport
    · exact (hcolumn _ _).mp h.portTerminal port hport
    · exact (hcolumn _ _).mp h.sourceName row hrow
    · exact (hcolumn _ _).mp h.sourceTerminal row hrow
  · intro h
    have hmem : ∀ name ∈ namesOf result, names.values[names.code codes name]? = some name :=
      fun name hname => h name ((hnames name).mpr hname)
    simp only [namesOf, List.mem_append, List.mem_flatMap, List.mem_cons, List.not_mem_nil,
      or_false] at hmem
    constructor
    · exact (hcolumn _ _).mpr fun row hrow => hmem _ (Or.inl (Or.inl ⟨row, hrow, Or.inl rfl⟩))
    · exact (hcolumn _ _).mpr fun row hrow => hmem _ (Or.inl (Or.inl ⟨row, hrow, Or.inr rfl⟩))
    · exact (hcolumn _ _).mpr fun port hport =>
        hmem _ (Or.inl (Or.inr ⟨port, hport, Or.inl rfl⟩))
    · exact (hcolumn _ _).mpr fun port hport =>
        hmem _ (Or.inl (Or.inr ⟨port, hport, Or.inr (Or.inl rfl)⟩))
    · exact (hcolumn _ _).mpr fun port hport =>
        hmem _ (Or.inl (Or.inr ⟨port, hport, Or.inr (Or.inr (Or.inl rfl))⟩))
    · exact (hcolumn _ _).mpr fun port hport =>
        hmem _ (Or.inl (Or.inr ⟨port, hport, Or.inr (Or.inr (Or.inr rfl))⟩))
    · exact (hcolumn _ _).mpr fun row hrow => hmem _ (Or.inr ⟨row, hrow, Or.inl rfl⟩)
    · exact (hcolumn _ _).mpr fun row hrow => hmem _ (Or.inr ⟨row, hrow, Or.inr rfl⟩)

/-- A code of 32 bits stands for its name as long as there are no more names than codes. -/
theorem fromResult_decodes (result : McPfResult F) :
    (McPfResultTables.fromResult result).strings.Nodup ∧
      ((McPfResultTables.fromResult result).Decodes result ↔
        (McPfResultTables.fromResult result).strings.length ≤ codes) := by
  obtain ⟨names, heq, hnames⟩ := fromResult_eq result
  rw [heq]
  refine ⟨names.nodup, ?_⟩
  rw [tablesOf_decodes hnames, Interning.decodes_iff (by decide)]
  rfl

/-! ### Passes over the rows -/

section Passes

variable [Libm F] [SparseLu F] {prepared : PreparedNetwork F}

def tallyPort (tally : Tally F) (port : McElementPort F) : Tally F :=
  { tally with
    finite := tally.finite && port.finite
    elementPortCount := tally.elementPortCount + 1 }

/-- Visiting the ports of a load as they come is visiting those that it lists. -/
theorem foldlM_loadPorts {σ : Type} (prepared : PreparedNetwork F) (options : McPfOptions F)
    (voltage : Voltage F prepared.index.size) (load : BranchLoad F prepared.index.size)
    (visit : σ → McElementPort F → σ) (state : σ) :
    (List.finRange load.branches).foldlM (fun state branch => do
      let current ← load.branchCurrent branch voltage options
      .ok ((load.incidence branch).foldl (fun state place =>
        visit state (loadPort prepared voltage load branch current place)) state)) state =
      loadPorts prepared options voltage load >>= fun ports =>
        (.ok (ports.foldl visit state) : Except String σ) := by
  have hstep : ∀ (state : σ) (branch : Fin load.branches),
      (do
        let current ← load.branchCurrent branch voltage options
        .ok ((load.incidence branch).foldl (fun state place =>
          visit state (loadPort prepared voltage load branch current place)) state)) =
      branchPorts prepared options voltage load branch >>= fun ports =>
        (.ok (ports.foldl visit state) : Except String σ) := by
    intro state branch
    rw [branchPorts]
    cases load.branchCurrent branch voltage options with
    | error message => rfl
    | ok current =>
      change Except.ok _ = Except.ok _
      rw [List.foldl_map]
  rw [foldlM_blocks hstep, loadPorts]
  cases (List.finRange load.branches).mapM (branchPorts prepared options voltage load) <;> rfl

theorem tallyLoad_eq (prepared : PreparedNetwork F) (options : McPfOptions F)
    (voltage : Voltage F prepared.index.size) (tally : Tally F) (load : BranchLoad F prepared.index.size) :
    tallyLoad options voltage tally load =
      loadPorts prepared options voltage load >>= fun ports => .ok (ports.foldl tallyPort tally) := by
  rw [← foldlM_loadPorts, tallyLoad]
  congr 1
  funext tally branch
  congr 1
  funext current
  congr 2
  funext tally place
  simp [tallyLoadTerminal, tallyPort, McElementPort.finite, loadPort, loadPortValues]

theorem foldl_tallyTerminal (voltage : Voltage F prepared.index.size) (tally : Tally F)
    (terminals : List prepared.Terminals) :
    terminals.foldl (tallyTerminal prepared voltage) tally =
      { tally with
        finite := tally.finite &&
          !(terminals.map (terminalResult prepared voltage)).any fun row => !row.finite } := by
  induction terminals generalizing tally with
  | nil => simp
  | cons i rest ih =>
    rw [List.foldl_cons, ih]
    simp [tallyTerminal, McTerminalResult.finite, terminalResult, Bool.and_assoc]

theorem foldl_tallyPort (tally : Tally F) (ports : List (McElementPort F)) :
    ports.foldl tallyPort tally =
      { tally with
        finite := tally.finite && !ports.any fun port => !port.finite
        elementPortCount := tally.elementPortCount + ports.length } := by
  induction ports generalizing tally with
  | nil => simp
  | cons port rest ih =>
    rw [List.foldl_cons, ih]
    simp [tallyPort, Bool.and_assoc, Nat.add_assoc, Nat.add_comm]

theorem tallyElement_eq (voltage : Voltage F prepared.index.size) (tally : Tally F)
    (element : PreparedElement F prepared.index.size) :
    tallyElement voltage tally element =
      { passivePorts prepared voltage element |>.foldl tallyPort tally with
        passiveLoss := (passivePorts prepared voltage element).foldl
          (fun total port => total + port.powerIntoElement) tally.passiveLoss } := by
  rw [tallyElement, passivePorts]
  generalize List.finRange element.arity = rows
  induction rows generalizing tally with
  | nil => rfl
  | cons row rest ih =>
    rw [List.foldl_cons, ih, List.map_cons, List.foldl_cons, List.foldl_cons]
    simp only [foldl_tallyPort, tallyPort, McElementPort.finite, passivePort, passivePortValues,
      List.all_cons, List.all_nil, Bool.and_true]

theorem foldl_tallyElement (voltage : Voltage F prepared.index.size) (tally : Tally F)
    (elements : List (PreparedElement F prepared.index.size)) :
    elements.foldl (tallyElement voltage) tally =
      { elements.flatMap (passivePorts prepared voltage) |>.foldl tallyPort tally with
        passiveLoss := (elements.flatMap (passivePorts prepared voltage)).foldl
          (fun total port => total + port.powerIntoElement) tally.passiveLoss } := by
  induction elements generalizing tally with
  | nil => rfl
  | cons element rest ih =>
    rw [List.foldl_cons, ih, tallyElement_eq, List.flatMap_cons, List.foldl_append,
      List.foldl_append]
    simp only [foldl_tallyPort]

theorem foldl_tallySource (state : FixedPoint F prepared.index.size) (tally : Tally F)
    (sources : List (SourceTerminal prepared.index.size)) :
    sources.foldl (tallySource prepared state) tally =
      { tally with
        finite := tally.finite &&
          !(sources.map (sourceReaction prepared state)).any fun row => !row.finite
        sourcePower := (sources.map (sourceReaction prepared state)).foldl
          (fun total row => total + row.powerIntoNetwork) tally.sourcePower } := by
  induction sources generalizing tally with
  | nil => simp
  | cons source rest ih =>
    rw [List.foldl_cons, ih]
    simp [tallySource, McSourceReaction.finite, sourceReaction, Bool.and_assoc]

/-! ### The summary of a result -/

def McPfResult.passiveLoss (result : McPfResult F) : Complex64 F :=
  (result.elementPorts.filter fun port => port.kind ≠ "load").foldl
    (fun total port => total + port.powerIntoElement) 0

def McPfResult.sourcePower (result : McPfResult F) : Complex64 F :=
  result.sourceReactions.foldl (fun total row => total + row.powerIntoNetwork) 0

def McPfResult.summary (result : McPfResult F) (solveCount : ℕ) : McPfSummary F where
  networkScope := result.networkScope
  converged := result.converged
  loadModel := result.loadModel
  voltageValid := result.voltageValid
  minVoltagePu := result.minVoltagePu
  maxVoltagePu := result.maxVoltagePu
  voltageViolationCount := result.voltageViolations.length
  iterations := result.iterations
  factorizationCount := result.factorizationCount
  matrixDimension := result.matrixDimension
  matrixNonzeros := result.matrixNonzeros
  voltageChange := result.voltageChange
  physicalKclResidual := result.physicalKclResidual
  scaledKclResidual := result.scaledKclResidual
  terminalCount := result.terminals.length
  elementPortCount := result.elementPorts.length
  sourcePowerIntoNetwork := result.sourcePower
  passiveLoss := result.passiveLoss
  solveCount := solveCount

/-- Equipment of the network matrix is not called a load. -/
def Named (prepared : PreparedNetwork F) : Prop :=
  ∀ element ∈ prepared.elements, element.kind ≠ "load"

theorem branchPorts_kind {options : McPfOptions F} {voltage : Voltage F prepared.index.size}
    {load : BranchLoad F prepared.index.size} {branch : Fin load.branches}
    {ports : List (McElementPort F)}
    (h : branchPorts prepared options voltage load branch = .ok ports) :
    ∀ port ∈ ports, port.kind = "load" ∧ port.element = load.name := by
  simp only [branchPorts, bind_eq_ok, Except.ok.injEq] at h
  obtain ⟨current, -, rfl⟩ := h
  intro port hport
  obtain ⟨place, -, rfl⟩ := List.mem_map.mp hport
  exact ⟨rfl, rfl⟩

theorem loadPorts_kind {options : McPfOptions F} {voltage : Voltage F prepared.index.size}
    {load : BranchLoad F prepared.index.size} {ports : List (McElementPort F)}
    (h : loadPorts prepared options voltage load = .ok ports) :
    ∀ port ∈ ports, port.kind = "load" ∧ port.element = load.name := by
  simp only [loadPorts, bind_eq_ok, Except.ok.injEq] at h
  obtain ⟨blocks, hblocks, rfl⟩ := h
  intro port hport
  obtain ⟨block, hblock, hmem⟩ := List.mem_flatten.mp hport
  obtain ⟨branch, -, hbranch⟩ := forall₂_right (forall₂_of_mapM_ok hblocks) hblock
  exact branchPorts_kind hbranch port hmem

theorem passivePorts_kind {voltage : Voltage F prepared.index.size}
    {element : PreparedElement F prepared.index.size} :
    ∀ port ∈ passivePorts prepared voltage element,
      port.kind = element.kind ∧ port.element = element.name := by
  intro port hport
  obtain ⟨row, -, rfl⟩ := List.mem_map.mp hport
  exact ⟨rfl, rfl⟩

theorem filter_ports (hnamed : Named prepared) {options : McPfOptions F}
    {voltage : Voltage F prepared.index.size} {loads : List (List (McElementPort F))}
    (h : prepared.loads.mapM (loadPorts prepared options voltage) = .ok loads) :
    ((loads.flatten ++ prepared.elements.flatMap (passivePorts prepared voltage)).filter
      fun port => port.kind ≠ "load") =
    prepared.elements.flatMap (passivePorts prepared voltage) := by
  have hloads : (loads.flatten.filter fun port => port.kind ≠ "load") = [] := by
    rw [List.filter_eq_nil_iff]
    intro port hport
    obtain ⟨ports, hports, hmem⟩ := List.mem_flatten.mp hport
    obtain ⟨load, -, hload⟩ := forall₂_right (forall₂_of_mapM_ok h) hports
    simp [(loadPorts_kind hload port hmem).1]
  rw [List.filter_append, hloads, List.nil_append, List.filter_eq_self]
  intro port hport
  obtain ⟨element, helement, hmem⟩ := List.mem_flatMap.mp hport
  rw [(passivePorts_kind port hmem).1]
  exact decide_eq_true (hnamed element helement)

theorem length_violations (visited : List (LoadVoltage F)) :
    (visited.filterMap LoadVoltage.violation).length =
      visited.countP fun x => x.bound.isSome := by
  rw [List.length_filterMap_eq_countP]
  congr 1
  funext x
  exact Option.isSome_map

theorem isEmpty_violations (visited : List (LoadVoltage F)) :
    (visited.filterMap LoadVoltage.violation).isEmpty =
      decide ((visited.countP fun x => x.bound.isSome) = 0) := by
  rw [← length_violations, Bool.eq_iff_iff, List.isEmpty_iff_length_eq_zero, decide_eq_true_iff]

theorem gate_eq (terminals loads elements sources : Bool) :
    (!((((true && !terminals) && !loads) && !elements) && !sources)) =
      ((terminals || (loads || elements)) || sources) := by
  cases terminals <;> cases loads <;> cases elements <;> cases sources <;> rfl

/-- The summary of a fixed point is the summary of its result, or fails as the result does. -/
theorem summarize_eq (hnamed : Named prepared) (options : McPfOptions F)
    (state : FixedPoint F prepared.index.size) (solveCount : ℕ) :
    summarize prepared options state solveCount =
      (buildResult prepared options state).map fun result => result.summary solveCount := by
  simp only [summarize, buildResult, foldl_tallyTerminal, foldl_tallySource,
    foldlM_blocks (tallyLoad_eq prepared options state.voltage)]
  cases hloads : prepared.loads.mapM (loadPorts prepared options state.voltage) with
  | error message => rfl
  | ok loads =>
    have hfilter := filter_ports hnamed hloads
    simp only [bind, Except.bind, foldl_tallyElement, foldl_tallyPort]
    rw [gate_eq, List.any_append]
    split
    case isTrue => rfl
    case isFalse =>
      cases assessLoadModel prepared options state.voltage with
      | error message => rfl
      | ok assessed =>
        have hviolations := length_violations (visitLoadVoltages prepared state.voltage options)
        have hvalid := isEmpty_violations (visitLoadVoltages prepared state.voltage options)
        simp only [Except.map, McPfResult.summary, McPfResult.passiveLoss, hfilter,
          McPfResult.sourcePower, assessLoadVoltages, hviolations, hvalid,
          List.length_map, List.length_finRange, List.length_append, Nat.zero_add]

/-! ### The tables of a result -/

def tablePort (building : Building F) (port : McElementPort F) : Building F :=
  ⟨building.finite && port.finite, building.filling.portRow port⟩

theorem tableLoad_eq (prepared : PreparedNetwork F) (options : McPfOptions F)
    (voltage : Voltage F prepared.index.size) (building : Building F) (load : BranchLoad F prepared.index.size) :
    tableLoad prepared options voltage building load =
      loadPorts prepared options voltage load >>= fun ports =>
        .ok (ports.foldl tablePort building) :=
  foldlM_loadPorts prepared options voltage load tablePort building

theorem foldl_tableTerminal (voltage : Voltage F prepared.index.size) (building : Building F)
    (terminals : List prepared.Terminals) :
    terminals.foldl (tableTerminal prepared voltage) building =
      ⟨building.finite &&
          !(terminals.map (terminalResult prepared voltage)).any fun row => !row.finite,
        (terminals.map (terminalResult prepared voltage)).foldl Filling.terminalRow
          building.filling⟩ := by
  induction terminals generalizing building with
  | nil => simp
  | cons i rest ih =>
    rw [List.foldl_cons, ih]
    simp [tableTerminal, McTerminalResult.finite, terminalResult, Filling.terminalRow,
      Bool.and_assoc]

theorem foldl_tablePort (building : Building F) (ports : List (McElementPort F)) :
    ports.foldl tablePort building =
      ⟨building.finite && !ports.any fun port => !port.finite,
        ports.foldl Filling.portRow building.filling⟩ := by
  induction ports generalizing building with
  | nil => simp
  | cons port rest ih =>
    rw [List.foldl_cons, ih]
    simp [tablePort, Bool.and_assoc]

theorem foldl_tableElement (voltage : Voltage F prepared.index.size) (building : Building F)
    (elements : List (PreparedElement F prepared.index.size)) :
    elements.foldl (tableElement prepared voltage) building =
      (elements.flatMap (passivePorts prepared voltage)).foldl tablePort building := by
  induction elements generalizing building with
  | nil => rfl
  | cons element rest ih =>
    rw [List.foldl_cons, ih, List.flatMap_cons, List.foldl_append, tableElement, passivePorts,
      List.foldl_map]
    rfl

theorem foldl_tableSource (state : FixedPoint F prepared.index.size) (building : Building F)
    (sources : List (SourceTerminal prepared.index.size)) :
    sources.foldl (tableSource prepared state) building =
      ⟨building.finite &&
          !(sources.map (sourceReaction prepared state)).any fun row => !row.finite,
        (sources.map (sourceReaction prepared state)).foldl Filling.sourceRow
          building.filling⟩ := by
  induction sources generalizing building with
  | nil => simp
  | cons source rest ih =>
    rw [List.foldl_cons, ih]
    simp [tableSource, McSourceReaction.finite, sourceReaction, Filling.sourceRow, Bool.and_assoc]

def Filling.withModel (model : Option (McLoadModelAssessment F)) (filling : Filling F) :
    Filling F := { filling with tables := { filling.tables with loadModel := model } }

theorem foldl_withModel {α : Type} (model : Option (McLoadModelAssessment F))
    (push : Filling F → α → Filling F)
    (hpush : ∀ filling a, push (filling.withModel model) a = (push filling a).withModel model)
    (rows : List α) (filling : Filling F) :
    rows.foldl push (filling.withModel model) = (rows.foldl push filling).withModel model :=
  List.foldl_hom (Filling.withModel model) hpush

theorem fromResult_withModel (result : McPfResult F) (model : Option (McLoadModelAssessment F)) :
    McPfResultTables.fromResult { result with loadModel := model } =
      { McPfResultTables.fromResult result with loadModel := model } := by
  have hterminals := foldl_withModel model Filling.terminalRow (fun _ _ => rfl) result.terminals
  have hports := foldl_withModel model Filling.portRow (fun _ _ => rfl) result.elementPorts
  have hsources := foldl_withModel model Filling.sourceRow (fun _ _ => rfl)
    result.sourceReactions
  have hstart : Filling.start result.iterations model result.networkScope
      result.excludedIslands =
      Filling.withModel model (.start result.iterations result.loadModel result.networkScope
        result.excludedIslands) := rfl
  simp only [McPfResultTables.fromResult, hstart, hterminals, hports, hsources]
  rfl

theorem exists_branchCurrent {options : McPfOptions F} {voltage : Voltage F prepared.index.size}
    {ports : List (List (McElementPort F))}
    (h : prepared.loads.mapM (loadPorts prepared options voltage) = .ok ports)
    {load : BranchLoad F prepared.index.size} (hload : load ∈ prepared.loads)
    (branch : Fin load.branches) :
    ∃ current, load.branchCurrent branch voltage options = .ok current := by
  obtain ⟨rows, -, hrows⟩ := forall₂_left (forall₂_of_mapM_ok h) hload
  simp only [loadPorts, bind_eq_ok] at hrows
  obtain ⟨blocks, hblocks, -⟩ := hrows
  obtain ⟨block, -, hblock⟩ := forall₂_left (forall₂_of_mapM_ok hblocks) (List.mem_finRange branch)
  simp only [branchPorts, bind_eq_ok] at hblock
  obtain ⟨current, hcurrent, -⟩ := hblock
  exact ⟨current, hcurrent⟩

theorem exists_assessLoadModel {options : McPfOptions F}
    {voltage : Voltage F prepared.index.size} {ports : List (List (McElementPort F))}
    (h : prepared.loads.mapM (loadPorts prepared options voltage) = .ok ports) :
    ∃ assessed, assessLoadModel prepared options voltage = .ok assessed := by
  have hbranch : ∀ (state : OriginalLaws F prepared.index.size), ∀ load ∈ prepared.loads,
      ∃ next, (List.finRange load.branches).foldlM (compareBranch options voltage load) state =
        .ok next := by
    intro state load hload
    apply exists_foldlM_ok
    intro state branch _
    obtain ⟨current, hcurrent⟩ := exists_branchCurrent h hload branch
    simp only [compareBranch, hcurrent, bind, Except.bind]
    split
    · exact ⟨_, rfl⟩
    · exact ⟨_, rfl⟩
  obtain ⟨laws, hlaws⟩ := exists_foldlM_ok hbranch ⟨fun _ => 0, true, 0, []⟩
  rw [assessLoadModel, hlaws]
  exact ⟨_, rfl⟩

theorem buildTables_eq (options : McPfOptions F) (state : FixedPoint F prepared.index.size) :
    buildTables prepared options state =
      (buildResult prepared options state).map fun result =>
        { McPfResultTables.fromResult result with loadModel := none } := by
  simp only [← fromResult_withModel]
  simp only [buildTables, buildResult, foldl_tableTerminal, foldl_tableSource,
    foldl_tableElement, foldlM_blocks (tableLoad_eq prepared options state.voltage)]
  cases hloads : prepared.loads.mapM (loadPorts prepared options state.voltage) with
  | error message => rfl
  | ok loads =>
    simp only [bind, Except.bind, foldl_tablePort]
    obtain ⟨assessed, hassessed⟩ := exists_assessLoadModel hloads
    rw [gate_eq, List.any_append, hassessed]
    split
    case isTrue => rfl
    case isFalse =>
      simp only [Except.map, McPfResultTables.fromResult, List.foldl_append]

/-! ### Pages of a result -/

/-- The ports of a result that match a query, in their order. -/
def matching (query : McPfDetailQuery) (result : McPfResult F) : List (McElementPort F) :=
  result.elementPorts.filter fun port => wanted query port.element

/-- The page of the matching ports so far. -/
structure OnPage (query : McPfDetailQuery) (stop : ℕ) (seen : List (McElementPort F))
    (page : Page F) : Prop where
  total : page.total = seen.length
  ports : page.ports = Paging.window query.portOffset stop seen

theorem onPage_skip {query : McPfDetailQuery} {stop : ℕ} {seen more : List (McElementPort F)}
    {page : Page F} (h : OnPage query stop seen page)
    (hskip : ¬(query.portOffset < page.total + more.length ∧ page.total < stop)) :
    OnPage query stop (seen ++ more) ⟨page.total + more.length, page.ports⟩ := by
  rw [h.total] at hskip
  constructor
  case total => rw [h.total, List.length_append]
  case ports => rw [h.ports, Paging.window_append_of_disjoint hskip]

theorem onPage_visit {query : McPfDetailQuery} {stop : ℕ} {seen more : List (McElementPort F)}
    {page : Page F} (h : OnPage query stop seen page) :
    OnPage query stop (seen ++ more)
      ⟨page.total + more.length,
        (more.foldl (pagePort query stop) (page.total, page.ports)).2⟩ := by
  constructor
  case total => rw [h.total, List.length_append]
  case ports =>
    have hvisit := Paging.foldl_visit query.portOffset stop seen more
    rw [← h.total, ← h.ports] at hvisit
    change (more.foldl (Paging.visit query.portOffset stop) (page.total, page.ports)).2 = _
    rw [hvisit]

theorem filter_wanted {query : McPfDetailQuery} {name : String} {ports : List (McElementPort F)}
    (h : ∀ port ∈ ports, port.element = name) :
    (ports.filter fun port => wanted query port.element) =
      if wanted query name then ports else [] := by
  split
  case isTrue hwanted =>
    rw [List.filter_eq_self]
    intro port hport
    rw [h port hport, hwanted]
  case isFalse hwanted =>
    rw [List.filter_eq_nil_iff]
    intro port hport
    rw [h port hport]
    exact hwanted

theorem length_loadPorts {options : McPfOptions F} {voltage : Voltage F prepared.index.size}
    {load : BranchLoad F prepared.index.size} {ports : List (McElementPort F)}
    (h : loadPorts prepared options voltage load = .ok ports) :
    ports.length = ((List.finRange load.branches).map fun branch =>
      (load.incidence branch).length).sum := by
  simp only [loadPorts, bind_eq_ok, Except.ok.injEq] at h
  obtain ⟨blocks, hblocks, rfl⟩ := h
  rw [List.length_flatten]
  have hforall := forall₂_of_mapM_ok hblocks
  clear hblocks
  generalize List.finRange load.branches = branches at hforall
  induction hforall with
  | nil => rfl
  | cons hhead _ ih =>
    simp only [branchPorts, bind_eq_ok, Except.ok.injEq] at hhead
    obtain ⟨current, -, rfl⟩ := hhead
    rw [List.map_cons, List.map_cons, List.sum_cons, List.sum_cons, ih, List.length_map]

theorem pageLoad_onPage {options : McPfOptions F} {voltage : Voltage F prepared.index.size}
    {query : McPfDetailQuery} {stop : ℕ} {load : BranchLoad F prepared.index.size}
    {ports : List (McElementPort F)} (hports : loadPorts prepared options voltage load = .ok ports)
    {seen : List (McElementPort F)} {page : Page F} (h : OnPage query stop seen page) :
    ∃ next, pageLoad prepared options voltage query stop page load = .ok next ∧
      OnPage query stop (seen ++ ports.filter fun port => wanted query port.element) next := by
  rw [filter_wanted fun port hport => (loadPorts_kind hports port hport).2, pageLoad,
    ← length_loadPorts hports]
  cases hwanted : wanted query load.name with
  | false =>
    refine ⟨page, rfl, ?_⟩
    rw [if_neg (by simp), List.append_nil]
    exact h
  | true =>
    simp only [Bool.not_true, Bool.false_eq_true, if_false, if_true]
    split
    case isTrue =>
      rw [foldlM_loadPorts, hports]
      exact ⟨_, rfl, onPage_visit h⟩
    case isFalse hskip => exact ⟨_, rfl, onPage_skip h hskip⟩

theorem pageElement_onPage {voltage : Voltage F prepared.index.size} {query : McPfDetailQuery}
    {stop : ℕ} (element : PreparedElement F prepared.index.size)
    {seen : List (McElementPort F)} {page : Page F} (h : OnPage query stop seen page) :
    OnPage query stop
      (seen ++ (passivePorts prepared voltage element).filter fun port =>
        wanted query port.element)
      (pageElement prepared voltage query stop page element) := by
  have hlength : (passivePorts prepared voltage element).length = element.arity := by
    rw [passivePorts, List.length_map, List.length_finRange]
  rw [filter_wanted fun port hport => (passivePorts_kind port hport).2, pageElement]
  cases hwanted : wanted query element.name with
  | false =>
    rw [if_neg (by simp), List.append_nil]
    exact h
  | true =>
    simp only [Bool.not_true, Bool.false_eq_true, if_false, if_true]
    split
    case isTrue =>
      have hvisit : OnPage query stop (seen ++ passivePorts prepared voltage element) _ :=
        onPage_visit h
      rw [hlength, passivePorts, List.foldl_map] at hvisit
      exact hvisit
    case isFalse hskip =>
      rw [← hlength] at hskip ⊢
      exact onPage_skip h hskip

theorem foldlM_pageLoad {options : McPfOptions F} {voltage : Voltage F prepared.index.size}
    {query : McPfDetailQuery} {stop : ℕ} {loads : List (BranchLoad F prepared.index.size)}
    {blocks : List (List (McElementPort F))}
    (hblocks : List.Forall₂ (fun load ports => loadPorts prepared options voltage load = .ok ports)
      loads blocks)
    {seen : List (McElementPort F)} {page : Page F} (h : OnPage query stop seen page) :
    ∃ next, loads.foldlM (pageLoad prepared options voltage query stop) page = .ok next ∧
      OnPage query stop (seen ++ blocks.flatten.filter fun port => wanted query port.element)
        next := by
  induction hblocks generalizing seen page with
  | nil => exact ⟨page, rfl, by simpa using h⟩
  | @cons load ports _ _ hports _ ih =>
    obtain ⟨next, hnext, honPage⟩ := pageLoad_onPage hports h
    obtain ⟨final, hfinal, hlast⟩ := ih honPage
    refine ⟨final, ?_, ?_⟩
    · rw [List.foldlM_cons, hnext]
      exact hfinal
    · rw [List.flatten_cons, List.filter_append, ← List.append_assoc]
      exact hlast

theorem foldl_pageElement (voltage : Voltage F prepared.index.size) {query : McPfDetailQuery}
    {stop : ℕ} (elements : List (PreparedElement F prepared.index.size))
    {seen : List (McElementPort F)} {page : Page F} (h : OnPage query stop seen page) :
    OnPage query stop
      (seen ++ (elements.flatMap (passivePorts prepared voltage)).filter fun port =>
        wanted query port.element)
      (elements.foldl (pageElement prepared voltage query stop) page) := by
  induction elements generalizing seen page with
  | nil => simpa using h
  | cons element rest ih =>
    rw [List.flatMap_cons, List.filter_append, ← List.append_assoc]
    exact ih (pageElement_onPage element h)

theorem buildResult_eq_ok {options : McPfOptions F} {state : FixedPoint F prepared.index.size}
    {result : McPfResult F} (h : buildResult prepared options state = .ok result) :
    ∃ loads assessed, prepared.loads.mapM (loadPorts prepared options state.voltage) = .ok loads ∧
      assessLoadModel prepared options state.voltage = .ok assessed ∧
      result.elementPorts =
        loads.flatten ++ prepared.elements.flatMap (passivePorts prepared state.voltage) ∧
      result.terminals =
        (List.finRange prepared.index.size).map (terminalResult prepared state.voltage) ∧
      result.sourceReactions = prepared.sourceTerminals.map (sourceReaction prepared state) ∧
      result.loadModel = some assessed.1 := by
  simp only [buildResult, bind_eq_ok, ite_error_eq_ok, Except.ok.injEq] at h
  obtain ⟨loads, hloads, -, assessed, hassessed, rfl⟩ := h
  exact ⟨loads, assessed, hloads, hassessed, rfl, rfl, rfl, rfl⟩

/-- A page holds the matching ports of the result from its offset on, up to its size. -/
theorem detail_eq {options : McPfOptions F} {state : FixedPoint F prepared.index.size}
    {result : McPfResult F} (h : buildResult prepared options state = .ok result) (solveCount : ℕ)
    {query : McPfDetailQuery} {limit : ℕ} (hlimit : query.limit = .ok limit) :
    ∃ page, detail prepared options state solveCount query = .ok page ∧
      page.solveCount = solveCount ∧
      page.elementPorts = ((matching query result).drop query.portOffset).take limit ∧
      page.elementPortTotal = (matching query result).length := by
  obtain ⟨loads, -, hloads, -, hports, -, -, -⟩ := buildResult_eq_ok h
  have hstart : OnPage query (query.portOffset + limit) ([] : List (McElementPort F)) ⟨0, []⟩ := by
    constructor
    · rfl
    · simp [Paging.window]
  obtain ⟨next, hnext, honPage⟩ := foldlM_pageLoad (forall₂_of_mapM_ok hloads) hstart
  have hlast := foldl_pageElement state.voltage prepared.elements honPage
  rw [List.nil_append, ← List.filter_append, ← hports] at hlast
  simp only [detail, hlimit, hnext, bind, Except.bind]
  refine ⟨_, rfl, rfl, ?_, hlast.total⟩
  rw [← Paging.window_eq]
  exact hlast.ports

/-! ### Names of the equipment -/

section Prepare

variable {T : Type} [DeviceModels F T] {index : NetworkIndex}

def StampNamed (stamp : Stamp F index.size) : Prop := stamp.element.kind ≠ "load"

theorem stampLine_named {network : MulticonductorNetwork F T} {line : DistLine F}
    {stamp : Stamp F index.size} (h : stampNetworkLine index network line = .ok stamp) :
    StampNamed stamp := by
  unfold stampNetworkLine at h
  split at h
  case h_2 => cases h
  case h_1 =>
    dsimp only [stampLine] at h
    split at h
    case isFalse => cases h
    case isTrue =>
      simp only [bind_eq_ok, Except.ok.injEq] at h
      obtain ⟨_, _, _, _, _, _, _, _, _, _, _, _, _, _, _, _, _, _, rfl⟩ := h
      exact (by decide : "line" ≠ "load")

theorem stampShunt_named {shunt : DistShunt F} {stamp : Stamp F index.size}
    (h : stampShunt index shunt = .ok stamp) : StampNamed stamp := by
  unfold stampShunt at h
  split at h
  · simp only [bind_eq_ok, Except.ok.injEq] at h
    obtain ⟨_, _, rfl⟩ := h
    exact (by decide : "shunt" ≠ "load")
  · cases h

theorem stampCapacitor_named {capacitor : DistCapacitor F} {stamp : Stamp F index.size}
    (h : stampCapacitor index capacitor = .ok stamp) : StampNamed stamp := by
  simp only [stampCapacitor, ite_error_eq_ok, bind_eq_ok, Except.ok.injEq] at h
  obtain ⟨_, _, _, _, _, rfl⟩ := h
  exact (by decide : "capacitor" ≠ "load")

theorem stampTransformers_named {transformers : List (DistTransformer T)}
    {state final : Fixed F index.size × List (Stamp F index.size)}
    (h : transformers.foldlM (stampTransformer index) state = .ok final)
    (hstate : ∀ stamp ∈ state.2, StampNamed stamp) : ∀ stamp ∈ final.2, StampNamed stamp := by
  induction transformers generalizing state with
  | nil =>
    obtain rfl := Except.ok.inj h
    exact hstate
  | cons transformer rest ih =>
    simp only [List.foldlM_cons, bind_eq_ok] at h
    obtain ⟨next, hnext, hrest⟩ := h
    simp only [stampTransformer, bind_eq_ok, Except.ok.injEq] at hnext
    obtain ⟨_, _, _, _, _, _, stamp, hstamp, rfl⟩ := hnext
    apply ih hrest
    intro other hother
    rcases List.mem_append.mp hother with hold | hlast
    · exact hstate other hold
    · obtain rfl := List.mem_singleton.mp hlast
      unfold stampPrimitive at hstamp
      split at hstamp
      · cases hstamp
      · obtain rfl := Except.ok.inj hstamp
        exact (by decide : "transformer" ≠ "load")

theorem named_of_prepare {inst : McAcPfInstance F T} {base : PreparedNetwork F}
    (h : prepare inst = .ok base) : Named base := by
  obtain ⟨index, assembly, terminals, factor, -, hassembly, -, -, rfl⟩ := prepare_eq_ok h
  obtain ⟨parts⟩ := assemble_eq_ok hassembly
  intro element helement
  obtain ⟨stamp, hstamp, rfl⟩ := List.mem_map.mp helement
  rw [parts.stamps] at hstamp
  simp only [List.mem_append] at hstamp
  rcases hstamp with ((hline | hshunt) | hcapacitor) | htransformer
  · obtain ⟨line, -, hline⟩ := forall₂_right (forall₂_of_mapM_ok parts.stampLines) hline
    exact stampLine_named hline
  · obtain ⟨shunt, -, hshunt⟩ := forall₂_right (forall₂_of_mapM_ok parts.stampShunts) hshunt
    exact stampShunt_named hshunt
  · obtain ⟨capacitor, -, hcapacitor⟩ :=
      forall₂_right (forall₂_of_mapM_ok parts.stampCapacitors) hcapacitor
    exact stampCapacitor_named hcapacitor
  · exact stampTransformers_named parts.stampTransformers (by simp) stamp htransformer

end Prepare

/-! ### All views of one operating point -/

def McPfDetailQuery.startingAt (query : McPfDetailQuery) (offset : ℕ) : McPfDetailQuery :=
  { query with portOffset := offset }

/-- The pages that are asked for one after another. -/
def pages (prepared : PreparedNetwork F) (options : McPfOptions F)
    (state : FixedPoint F prepared.index.size) (solveCount : ℕ) (query : McPfDetailQuery)
    (limit count : ℕ) : Except String (List (McPfDetail F)) :=
  (List.range count).mapM fun k =>
    detail prepared options state solveCount (query.startingAt (k * limit))

theorem pages_eq {options : McPfOptions F} {state : FixedPoint F prepared.index.size}
    {result : McPfResult F} (h : buildResult prepared options state = .ok result) (solveCount : ℕ)
    {query : McPfDetailQuery} {limit : ℕ} (hlimit : query.limit = .ok limit) (count : ℕ) :
    ∃ found, pages prepared options state solveCount query limit count = .ok found ∧
      (found.flatMap McPfDetail.elementPorts) = (matching query result).take (count * limit) ∧
      ∀ page ∈ found, page.elementPortTotal = (matching query result).length := by
  have hpage : ∀ k, ∃ page,
      detail prepared options state solveCount (query.startingAt (k * limit)) = .ok page ∧
      page.elementPorts = ((matching query result).drop (k * limit)).take limit ∧
      page.elementPortTotal = (matching query result).length := by
    intro k
    have hlimit' : (query.startingAt (k * limit)).limit = .ok limit := hlimit
    obtain ⟨page, hpage, -, hports, htotal⟩ := detail_eq h solveCount hlimit'
    exact ⟨page, hpage, hports, htotal⟩
  obtain ⟨found, hfound⟩ := exists_mapM_ok (List.range count)
    (fun k => detail prepared options state solveCount (query.startingAt (k * limit)))
    fun k _ => ⟨_, (hpage k).choose_spec.1⟩
  have hforall := forall₂_of_mapM_ok hfound
  refine ⟨found, hfound, ?_, ?_⟩
  · rw [← Paging.flatMap_pages]
    clear hfound
    generalize List.range count = offsets at hforall
    induction hforall with
    | nil => rfl
    | @cons k page _ _ hk _ ih =>
      obtain ⟨page', hpage', hports, -⟩ := hpage k
      obtain rfl := Except.ok.inj (hk.symm.trans hpage')
      rw [List.flatMap_cons, List.flatMap_cons, ih, hports]
  · intro page hmem
    obtain ⟨k, -, hk⟩ := forall₂_right hforall hmem
    obtain ⟨page', hpage', -, htotal⟩ := hpage k
    obtain rfl := Except.ok.inj (hk.symm.trans hpage')
    exact htotal

end Passes

/-! ### The agreement -/

section Main

variable [Libm F] [SparseLu F] {T : Type} [DeviceModels F T]

/-- Every view of an operating point is the view of its complete result. The tables leave the load
model out, and their codes of 32 bits decode while there are no more names than codes. -/
theorem views_agree {inst : McAcPfInstance F T} {base prepared : PreparedNetwork F}
    {edits : List (ℕ × List (Complex64 F))} (hprepare : prepare inst = .ok base)
    (hedits : replaceLoads base edits = .ok prepared) (options : McPfOptions F)
    (state : FixedPoint F prepared.index.size) (solveCount : ℕ) :
    (buildTables prepared options state =
      (buildResult prepared options state).map fun result =>
        { McPfResultTables.fromResult result with loadModel := none }) ∧
    (summarize prepared options state solveCount =
      (buildResult prepared options state).map fun result => result.summary solveCount) ∧
    ∀ result, buildResult prepared options state = .ok result →
      (McPfResultTables.fromResult result).strings.Nodup ∧
      ((McPfResultTables.fromResult result).Decodes result ↔
        (McPfResultTables.fromResult result).strings.length ≤ codes) ∧
      ∀ query limit, query.limit = .ok limit →
        (∃ page, detail prepared options state solveCount query = .ok page ∧
          page.elementPorts = ((matching query result).drop query.portOffset).take limit ∧
          page.elementPortTotal = (matching query result).length) ∧
        ∀ count, (matching query result).length ≤ count * limit →
          ∃ found, pages prepared options state solveCount query limit count = .ok found ∧
            found.flatMap McPfDetail.elementPorts = matching query result ∧
            ∀ page ∈ found, page.elementPortTotal = (matching query result).length := by
  obtain ⟨loads, rfl⟩ := replaceLoads_eq_ok hedits
  have hbase := named_of_prepare hprepare
  have hnamed : Named { base with loads := loads } := hbase
  refine ⟨buildTables_eq options state, summarize_eq hnamed options state solveCount, ?_⟩
  intro result hresult
  obtain ⟨hnodup, hdecodes⟩ := fromResult_decodes result
  refine ⟨hnodup, hdecodes, ?_⟩
  intro query limit hlimit
  constructor
  · obtain ⟨page, hpage, -, hports, htotal⟩ := detail_eq hresult solveCount hlimit
    exact ⟨page, hpage, hports, htotal⟩
  · intro count hcount
    obtain ⟨found, hfound, hports, htotal⟩ := pages_eq hresult solveCount hlimit count
    rw [List.take_of_length_le hcount] at hports
    exact ⟨found, hfound, hports, htotal⟩

end Main

section Witness
variable {F : Type} [Libm F]

@[reducible] def denseLu : SparseLu F where
  Lu dim := Local (Complex64 F) dim
  spLu _ triplets := invertDense (localMatrix triplets)
  solveInPlace {dim} lu rhs :=
    fun i => Complex64.sum ((List.finRange dim).map fun j => lu i j * rhs j)

/-- Options that a few passes meet. -/
def looseOptions : McPfOptions F :=
  { tolerance := lit (1 / 2)
    maxIterations := 5
    damping := 1
    zeroVoltageTolerance := lit (1 / 1000)
    absoluteKclTolerance := 1
    relativeKclTolerance := 0
    voltageEnvelope := true
    vLowPu := lit (1 / 2)
    vMinPu := lit (9 / 10)
    vMaxPu := lit (11 / 10) }

attribute [local instance] plainDevices denseLu

/-- The feeder in doubles. -/
def loneFeeder : McAcPfInstance Float Unit := feederInstance (feederNetwork [] [])

/-- The ports of the lamp, one on each page. -/
def lampQuery : McPfDetailQuery := ⟨none, some "lamp", 0, 1⟩

/-- The elements of the ports of an operating point after an edit, and how many are the lamp's. -/
def feederRun : Result (List String × ℕ) := do
  let base ← prepare loneFeeder
  let prepared ← lift (replaceLoads base [(0, [⟨2, 0⟩])])
  let state ← lift (iterate prepared looseOptions none)
  let result ← lift (buildResult prepared looseOptions state)
  .ok (result.elementPorts.map McElementPort.element, (matching lampQuery result).length)

theorem feederRun_eq : feederRun = .ok (["lamp", "lamp", "conductor", "conductor"], 2) := by
  decide +kernel

/-- After an edit, every view of the lamp's ports is that of the complete result. -/
theorem views_agree_feeder : ∃ base prepared state result summary,
    prepare loneFeeder = .ok base ∧ replaceLoads base [(0, [⟨2, 0⟩])] = .ok prepared ∧
      buildResult prepared looseOptions state = .ok result ∧
      buildTables prepared looseOptions state =
        .ok { McPfResultTables.fromResult result with loadModel := none } ∧
      summarize prepared looseOptions state 2 = .ok summary ∧ summary.elementPortCount = 4 ∧
      ∃ found, pages prepared looseOptions state 2 lampQuery 1 2 = .ok found ∧
        found.flatMap McPfDetail.elementPorts = matching lampQuery result ∧
        ∀ page ∈ found, page.elementPortTotal = 2 := by
  have hrun := feederRun_eq
  simp only [feederRun, bind_eq_ok, lift_eq_ok, Except.ok.injEq, Prod.mk.injEq] at hrun
  obtain ⟨base, hbase, prepared, hedits, state, -, result, hresult, hports, hmatching⟩ := hrun
  obtain ⟨htables, hsummary, hviews⟩ := views_agree hbase hedits looseOptions state 2
  obtain ⟨-, -, hpages⟩ := hviews result hresult
  obtain ⟨found, hfound, hconcat, htotal⟩ := (hpages lampQuery 1 rfl).2 2 (by rw [hmatching])
  rw [hresult] at htables hsummary
  have hcount : result.elementPorts.length = 4 := by
    rw [← List.length_map McElementPort.element, hports]
    rfl
  exact ⟨base, prepared, state, result, _, hbase, hedits, hresult, htables, hsummary, hcount, found,
    hfound, hconcat, fun page hpage => (htotal page hpage).trans hmatching⟩

end Witness

section Results

variable [DecimalText ℝ] [SparseLu ℝ]

/-- Exact arithmetic has no result to refuse, once every branch has a current. -/
theorem exists_buildResult {prepared : PreparedNetwork ℝ} {options : McPfOptions ℝ}
    {state : FixedPoint ℝ prepared.index.size}
    (hcurrent : ∀ load ∈ prepared.loads, ∀ branch,
      ∃ current, load.branchCurrent branch state.voltage options = .ok current) :
    ∃ result, buildResult prepared options state = .ok result := by
  obtain ⟨ports, hports⟩ : ∃ ports,
      prepared.loads.mapM (loadPorts prepared options state.voltage) = .ok ports := by
    apply exists_mapM_ok
    intro load hload
    obtain ⟨blocks, hblocks⟩ := exists_mapM_ok (List.finRange load.branches)
      (branchPorts prepared options state.voltage load) fun branch _ => by
        obtain ⟨current, hcurrent⟩ := hcurrent load hload branch
        rw [branchPorts, hcurrent]
        exact ⟨_, rfl⟩
    rw [loadPorts, hblocks]
    exact ⟨_, rfl⟩
  obtain ⟨assessed, hassessed⟩ := exists_assessLoadModel hports
  have hterminal : ∀ row : McTerminalResult ℝ, row.finite = true := by
    simp [McTerminalResult.finite]
  have hport : ∀ port : McElementPort ℝ, port.finite = true := by simp [McElementPort.finite]
  have hsource : ∀ row : McSourceReaction ℝ, row.finite = true := by
    simp [McSourceReaction.finite]
  have hnone : ∀ {α : Type} (l : List α), (l.any fun _ => false) = false := by simp
  simp only [buildResult, hports, hassessed, bind, Except.bind, hterminal, hport, hsource,
    Bool.not_true, hnone, Bool.or_self, Bool.false_eq_true, if_false]
  exact ⟨_, rfl⟩

end Results

section Counterexample

attribute [local instance] noDevices noText keepNothing

theorem insertTerminals_of_nodup {bus : DistBus} {names : List String}
    {placed : List (String × ℕ)} (hnodup : names.Nodup)
    (hnew : ∀ name ∈ names, placed.lookup name = none) (next : ℕ) :
    ∃ result, NetworkIndex.insertTerminals bus names placed next = .ok result := by
  induction names generalizing placed next with
  | nil => exact ⟨placed, rfl⟩
  | cons name rest ih =>
    rw [List.nodup_cons] at hnodup
    rw [NetworkIndex.insertTerminals, hnew name List.mem_cons_self, if_neg (by simp)]
    apply ih hnodup.2
    intro other hother
    have hne : other ≠ name := fun h => hnodup.1 (h ▸ hother)
    rw [List.lookup_append, hnew other (List.mem_cons_of_mem _ hother), Option.none_or]
    simp [List.lookup_cons, beq_eq_false_iff_ne.mpr hne]

theorem exists_insertBus {index : NetworkIndex} {bus : DistBus} {placed : List (String × ℕ)}
    (hterminals : bus.terminals ≠ []) (hkey : index.positions.lookup bus.key = none)
    (hplaced : NetworkIndex.insertTerminals bus bus.terminals [] index.terminalIds.length =
      .ok placed) (hgrounded : bus.grounded = []) :
    ∃ next, index.insertBus bus = .ok next ∧
      next.terminalIds = index.terminalIds ++ bus.terminals.map (bus.id, ·) ∧
      next.positions = index.positions ++ [(bus.key, placed)] := by
  unfold NetworkIndex.insertBus
  rw [if_neg hterminals, hkey, if_neg (by simp)]
  split
  case h_1 message herror =>
    rw [hplaced] at herror
    cases herror
  case h_2 found hfound =>
    obtain rfl := Except.ok.inj (hplaced.symm.trans hfound)
    split
    case h_1 grounded hfind =>
      rw [hgrounded] at hfind
      cases hfind
    case h_2 => exact ⟨_, rfl, rfl, rfl⟩

theorem exists_prepare_terminals {terminals : List String} (hnodup : ("a" :: terminals).Nodup) :
    ∃ base, prepare (bankInstance [] ("a" :: terminals)) = .ok base ∧ base.loads = [] ∧
      base.index.terminalIds = ("a" :: terminals).map ("bus", ·) := by
  have hindex : ∃ index, NetworkIndex.new (bankNetwork [] ("a" :: terminals)) = .ok index ∧
      index.terminalIds = ("a" :: terminals).map ("bus", ·) ∧
      ∃ i, index.resolve "bus" "a" = .ok i := by
    obtain ⟨placed, hplaced⟩ : ∃ placed, NetworkIndex.insertTerminals
        ⟨"bus", "a" :: terminals, []⟩ ("a" :: terminals) [] 0 = .ok placed :=
      insertTerminals_of_nodup hnodup (by simp) 0
    have hempty : NetworkIndex.empty.positions.lookup
        (DistBus.key ⟨"bus", "a" :: terminals, []⟩) = none := rfl
    obtain ⟨index, hindex, hids, hpositions⟩ :=
      exists_insertBus (List.cons_ne_nil _ _) hempty hplaced rfl
    have hplacement := NetworkIndex.insertTerminals_eq_ok hplaced
    have hposition : index.position "bus" "a" = some 0 := by
      have hkey : toAsciiLowercase "bus" = "bus" := by decide
      rw [NetworkIndex.position, NetworkIndex.busPositions, hpositions, hplacement, DistBus.key,
        hkey]
      rfl
    refine ⟨index, ?_, hids, ⟨0, NetworkIndex.position_lt hposition⟩, ?_⟩
    · change (NetworkIndex.empty.insertBus ⟨"bus", "a" :: terminals, []⟩ >>= pure) = _
      rw [hindex]
      rfl
    · unfold NetworkIndex.resolve
      split
      case h_1 i hi => simp [Option.some.inj (hi.symm.trans hposition)]
      case h_2 hnone =>
        rw [hposition] at hnone
        cases hnone
  obtain ⟨index, hnew, hids, i, ha⟩ := hindex
  obtain ⟨factor, hfactor⟩ := exists_factorRetained
    (Assembly.passive ⟨bankFixed i, [], []⟩) (Assembly.yref ⟨bankFixed i, [], []⟩)
    (Assembly.unknown ⟨bankFixed i, [], []⟩)
  refine ⟨Assembly.prepared ⟨bankFixed i, [], []⟩ [⟨"grid", "a", i⟩] factor, ?_, rfl, hids⟩
  rw [prepare_bank [] ("a" :: terminals) hnew ha]
  simp only [List.mapM_nil, bind, Except.bind, pure, Except.pure, lift, hfactor]

/-- Terminals of as many names as there are codes, beside the one of the source. -/
def manyTerminals : List String :=
  (List.range codes).map fun k => String.ofList (List.replicate (k + 1) 'b')

theorem manyTerminals_nodup : ("a" :: manyTerminals).Nodup := by
  rw [List.nodup_cons]
  constructor
  · rw [manyTerminals, List.mem_map]
    rintro ⟨k, -, hk⟩
    have hlist : List.replicate (k + 1) 'b' = ['a'] := by
      have := congrArg String.toList hk
      simpa using this
    rw [List.replicate_succ] at hlist
    exact absurd (List.cons.inj hlist).1 (by decide)
  · apply List.nodup_range.map
    intro j k hjk
    have hlength := congrArg (fun text => text.toList.length) hjk
    simpa using hlength

theorem names_of_terminals {base : PreparedNetwork ℝ} {state : FixedPoint ℝ base.index.size}
    {result : McPfResult ℝ} {terminals : List String}
    (hids : base.index.terminalIds = terminals.map ("bus", ·))
    (hresult : buildResult base unitOptions state = .ok result) (hnodup : terminals.Nodup)
    {bound : ℕ} (hmany : bound < terminals.length) :
    bound < (McPfResultTables.fromResult result).strings.length := by
  obtain ⟨names, hnames, hmem⟩ := fromResult_eq result
  obtain ⟨_, _, -, -, -, hterminals, -, -⟩ := buildResult_eq_ok hresult
  rw [hnames]
  have hsubset : terminals ⊆ names.values := by
    intro name hname
    rw [hmem]
    have hid : ("bus", name) ∈ base.index.terminalIds := by
      rw [hids]
      exact List.mem_map.mpr ⟨name, hname, rfl⟩
    obtain ⟨i, hi⟩ := List.get_of_mem hid
    have hrow : terminalResult base state.voltage i ∈ result.terminals := by
      rw [hterminals]
      exact List.mem_map.mpr ⟨i, List.mem_finRange i, rfl⟩
    have hterminal : (terminalResult base state.voltage i).terminal = name := congrArg Prod.snd hi
    apply List.mem_append_left
    apply List.mem_append_left
    rw [List.mem_flatMap]
    exact ⟨_, hrow, by simp [hterminal]⟩
  exact Nat.lt_of_lt_of_le hmany (hnodup.subperm hsubset).length_le

/-- The tables leave out the load model, and beyond the codes an index decodes to another name. -/
theorem tables_differ :
    (¬∀ (base : PreparedNetwork ℝ) (state : FixedPoint ℝ base.index.size),
      prepare (bankInstance [] ["a"]) = .ok base →
        buildTables base unitOptions state =
          (buildResult base unitOptions state).map McPfResultTables.fromResult) ∧
    ∃ base state result, prepare (bankInstance [] ("a" :: manyTerminals)) = .ok base ∧
      buildResult base unitOptions state = .ok result ∧
      ¬(McPfResultTables.fromResult result).Decodes result := by
  have hstate : ∀ base : PreparedNetwork ℝ, Nonempty (FixedPoint ℝ base.index.size) := fun base =>
    ⟨fun _ => 0, fun _ => 0, 0, 0, 0, 0⟩
  constructor
  · intro h
    obtain ⟨base, hbase, hloads, -⟩ := exists_prepare_terminals (List.nodup_singleton "a")
    obtain ⟨state⟩ := hstate base
    obtain ⟨result, hresult⟩ : ∃ result, buildResult base unitOptions state = .ok result :=
      exists_buildResult (by simp [hloads])
    have heq := h base state hbase
    obtain ⟨_, assessed, -, -, -, -, -, hmodel⟩ := buildResult_eq_ok hresult
    obtain ⟨names, hnames, -⟩ := fromResult_eq result
    rw [buildTables_eq, hresult] at heq
    have hnone := congrArg McPfResultTables.loadModel (Except.ok.inj heq)
    rw [hnames] at hnone
    change none = result.loadModel at hnone
    rw [hmodel] at hnone
    cases hnone
  · obtain ⟨base, hbase, hloads, hids⟩ := exists_prepare_terminals manyTerminals_nodup
    obtain ⟨state⟩ := hstate base
    obtain ⟨result, hresult⟩ : ∃ result, buildResult base unitOptions state = .ok result :=
      exists_buildResult (by simp [hloads])
    refine ⟨base, state, result, hbase, hresult, ?_⟩
    rw [(fromResult_decodes result).2, Nat.not_le]
    exact names_of_terminals hids hresult manyTerminals_nodup (by
      rw [List.length_cons, manyTerminals, List.length_map, List.length_range]
      exact Nat.lt_succ_self codes)

end Counterexample

end Tellegen.Multiconductor
