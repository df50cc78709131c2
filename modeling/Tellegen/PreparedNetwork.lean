import Tellegen.BranchLoads

/-!
Terminal indexing and passive multiconductor network preparation. Every vector
and matrix over the terminals of an index has the index's size, and a position
that the index resolves is within it.
-/

open Binary64 Outcome

namespace Tellegen.Multiconductor

/-! ### The terminal index -/

structure NetworkIndex where
  terminalIds : List (String × String)
  /-- By folded bus name and exact terminal name. -/
  positions : List (String × List (String × ℕ))
  inRange : ∀ bus ∈ positions, ∀ terminal ∈ bus.2, terminal.2 < terminalIds.length

namespace NetworkIndex

abbrev size (index : NetworkIndex) : ℕ := index.terminalIds.length

def empty : NetworkIndex := ⟨[], [], by simp⟩

def insertTerminals (bus : DistBus) :
    List String → List (String × ℕ) → ℕ → Except String (List (String × ℕ))
  | [], placed, _ => .ok placed
  | terminal :: rest, placed, next =>
    if (placed.lookup terminal).isSome then
      .error ("duplicate terminal identity " ++ bus.id ++ ":" ++ terminal)
    else insertTerminals bus rest (placed ++ [(terminal, next)]) (next + 1)

theorem insertTerminals_eq_ok {bus : DistBus} {names : List String}
    {placed result : List (String × ℕ)} {next : ℕ}
    (h : insertTerminals bus names placed next = .ok result) :
    result = placed ++ names.zipIdx next := by
  induction names generalizing placed next with
  | nil =>
    simp only [insertTerminals, Except.ok.injEq] at h
    simp [← h]
  | cons name rest ih =>
    simp only [insertTerminals, ite_error_eq_ok] at h
    rw [ih h.2, List.zipIdx_cons, List.append_assoc, List.singleton_append]

theorem insertTerminals_inRange {bus : DistBus} {names : List String} {next : ℕ}
    {result : List (String × ℕ)} (h : insertTerminals bus names [] next = .ok result) :
    ∀ terminal ∈ result, terminal.2 < next + names.length := by
  intro terminal hterminal
  rw [insertTerminals_eq_ok h, List.nil_append] at hterminal
  have hrange := List.mk_mem_zipIdx_iff_le_and_getElem?_sub.mp hterminal
  have := (List.getElem?_eq_some_iff.mp hrange.2).1
  omega

def insertBus (index : NetworkIndex) (bus : DistBus) : Except String NetworkIndex :=
  if bus.terminals = [] then .error ("bus `" ++ bus.id ++ "` has no terminals")
  else if (index.positions.lookup bus.key).isSome then
    .error ("duplicate bus identity " ++ bus.id)
  else
    match h : insertTerminals bus bus.terminals [] index.terminalIds.length with
    | .error message => .error message
    | .ok placed =>
      match bus.grounded.find? fun terminal => (placed.lookup terminal).isNone with
      | some grounded =>
        .error ("bus `" ++ bus.id ++ "` grounds unknown terminal `" ++ grounded ++ "`")
      | none =>
        .ok
          { terminalIds := index.terminalIds ++ bus.terminals.map (bus.id, ·)
            positions := index.positions ++ [(bus.key, placed)]
            inRange := by
              intro entry hentry terminal hterminal
              rw [List.length_append, List.length_map]
              rcases List.mem_append.mp hentry with hold | hnew
              · have := index.inRange entry hold terminal hterminal
                omega
              · rw [List.mem_singleton.mp hnew] at hterminal
                exact insertTerminals_inRange h terminal hterminal }

def new {F T : Type} (network : MulticonductorNetwork F T) : Except String NetworkIndex :=
  network.buses.foldlM insertBus empty

variable (index : NetworkIndex)

/-- The terminals of a bus, by its name as it stands or else folded. -/
def busPositions (bus : String) : Option (List (String × ℕ)) :=
  (index.positions.lookup bus).or (index.positions.lookup (toAsciiLowercase bus))

theorem mem_of_lookup {α β : Type} [BEq α] [LawfulBEq α] {l : List (α × β)} {a : α} {b : β}
    (h : l.lookup a = some b) : (a, b) ∈ l := by
  induction l with
  | nil => cases h
  | cons head rest ih =>
    obtain ⟨key, value⟩ := head
    rw [List.lookup_cons] at h
    cases hkey : a == key with
    | true =>
      simp only [hkey, Option.some.injEq] at h
      rw [eq_of_beq hkey, h]
      exact List.mem_cons_self
    | false =>
      simp only [hkey] at h
      exact List.mem_cons_of_mem _ (ih h)

theorem busPositions_mem {index : NetworkIndex} {bus : String} {terminals : List (String × ℕ)}
    (h : index.busPositions bus = some terminals) : ∃ key, (key, terminals) ∈ index.positions := by
  rcases Option.or_eq_some_iff.mp h with hexact | ⟨-, hfolded⟩
  · exact ⟨_, mem_of_lookup hexact⟩
  · exact ⟨_, mem_of_lookup hfolded⟩

def position (bus terminal : String) : Option ℕ :=
  (index.busPositions bus).bind fun terminals => terminals.lookup terminal

theorem position_lt {index : NetworkIndex} {bus terminal : String} {i : ℕ}
    (h : index.position bus terminal = some i) : i < index.size := by
  obtain ⟨terminals, hbus, hterminal⟩ := Option.bind_eq_some_iff.mp h
  obtain ⟨key, hmem⟩ := busPositions_mem hbus
  exact index.inRange _ hmem _ (mem_of_lookup hterminal)

def resolve (bus terminal : String) : Except String (Fin index.size) :=
  match h : index.position bus terminal with
  | some i => .ok ⟨i, position_lt h⟩
  | none => .error ("unknown terminal identity " ++ bus ++ ":" ++ terminal)

def resolveAll (bus : String) : (names : List String) →
    Except String (Fin names.length → Fin index.size)
  | [] => .ok nofun
  | name :: rest => do
      let first ← index.resolve bus name
      let others ← resolveAll bus rest
      .ok (Fin.cons first others)

end NetworkIndex

/-! ### Matrices -/

variable {F : Type} [Libm F]

/-- A value to be added at a row and a column. -/
abbrev Entry (F : Type) (n : ℕ) := Fin n × Fin n × Complex64 F

/-- The admittance accumulator. An entry that cancels is removed. -/
structure StampedMatrix (F : Type) (n : ℕ) where
  values : Fin n → Fin n → Option (Complex64 F)

namespace StampedMatrix

variable {n : ℕ}

def zeros : StampedMatrix F n := ⟨fun _ _ => none⟩

def add (y : StampedMatrix F n) (entry : Entry F n) : StampedMatrix F n :=
  let (row, col, value) := entry
  if value.isZero then y
  else
    let total := (y.values row col).getD 0 + value
    ⟨fun i j =>
      if i = row ∧ j = col then if total.isZero then none else some total else y.values i j⟩

def addAll (y : StampedMatrix F n) (entries : List (Entry F n)) : StampedMatrix F n :=
  entries.foldl add y

end StampedMatrix

/-- Compressed rows, each in ascending column order. -/
structure CsrMatrix (F : Type) (n : ℕ) where
  rows : Fin n → List (Fin n × Complex64 F)

namespace CsrMatrix

variable {n : ℕ}

def fromStamped (y : StampedMatrix F n) : CsrMatrix F n :=
  ⟨fun row => (List.finRange n).filterMap fun col => (y.values row col).map (col, ·)⟩

def rowMul (y : CsrMatrix F n) (row : Fin n) (vector : Fin n → Complex64 F) : Complex64 F :=
  Complex64.sum <| (y.rows row).map fun (c, value) => value * vector c

def rowFixedMul (y : CsrMatrix F n) (row : Fin n) (fixed : Fin n → Option (Complex64 F)) :
    Complex64 F :=
  Complex64.sum <| (y.rows row).filterMap fun (c, value) => (fixed c).map (value * ·)

end CsrMatrix

/-- A dense matrix of `k` rows and columns. -/
abbrev Local (α : Type) (k : ℕ) := Fin k → Fin k → α

def localMatrix {k : ℕ} (entries : List (Entry F k)) : Local (Complex64 F) k :=
  entries.foldl (fun y (row, col, value) i j =>
    if i = row ∧ j = col then y i j + value else y i j) fun _ _ => 0

/-- The matrix of rows that have been checked to be square. -/
def square? {α : Type} (rows : List (List α)) (k : ℕ) : Option (Local α k) :=
  if h : rows.length = k ∧ ∀ row ∈ rows, row.length = k then
    some fun r c => (rows.get (r.cast h.1.symm)).get
      (c.cast (h.2 _ (List.get_mem rows (r.cast h.1.symm))).symm)
  else none

def finiteSquare? (rows : List (List F)) (k : ℕ) : Option (Local F k) :=
  if rows.all fun row => row.all isFinite then square? rows k else none

/-! ### Inverting a dense matrix -/

section Invert

variable {k : ℕ}

def swapRows (y : Local (Complex64 F) k) (a b : Fin k) : Local (Complex64 F) k :=
  fun r => if r = a then y b else if r = b then y a else y r

/-- The row of the largest entry in a column, at the column's own row or below. -/
def pivotRow (m : Local (Complex64 F) k) (col : Fin k) : Fin k :=
  ((List.finRange k).filter fun r => col ≤ r).foldl
    (fun pivot r => if lt (m pivot col).norm (m r col).norm then r else pivot) col

def eliminate (state : Local (Complex64 F) k × Local (Complex64 F) k) (col : Fin k) :
    Except String (Local (Complex64 F) k × Local (Complex64 F) k) :=
  let pivot := pivotRow state.1 col
  if le (state.1 pivot col).norm (lit (1 / 10 ^ 14)) then
    .error "line series impedance matrix is singular"
  else
    let m := swapRows state.1 col pivot
    let out := swapRows state.2 col pivot
    let p := m col col
    let pivotRow := fun c => m col c / p
    let pivotInverse := fun c => out col c / p
    .ok
      (fun r c => if r = col then pivotRow c else m r c - m r col * pivotRow c,
        fun r c => if r = col then pivotInverse c else out r c - m r col * pivotInverse c)

def invertDense (a : Local (Complex64 F) k) : Except String (Local (Complex64 F) k) := do
  let (_, out) ← (List.finRange k).foldlM eliminate (a, fun r c => if r = c then 1 else 0)
  .ok out

end Invert

/-! ### Elements -/

structure PreparedElement (F : Type) (n : ℕ) where
  name : String
  kind : String
  arity : ℕ
  terminals : Fin arity → Fin n
  yprim : Local (Complex64 F) arity

/-- An element, and the entries that it adds to the network matrix in their order. -/
structure Stamp (F : Type) (n : ℕ) where
  element : PreparedElement F n
  entries : List (Entry F n)

/-- Every row and column of a matrix, row by row. -/
def cells (k : ℕ) : List (Fin k × Fin k) :=
  (List.finRange k).flatMap fun r => (List.finRange k).map (r, ·)

/-- An element placed at its terminals as one block. -/
def blockEntries {k n : ℕ} (terminals : Fin k → Fin n) (y : Local (Complex64 F) k) :
    List (Entry F n) :=
  (cells k).map fun (r, c) => (terminals r, terminals c, y r c)

/-- A susceptance between two places, of the network or of an element. -/
def couple {ι : Type} (a b : ι) (susceptance : F) : List (ι × ι × Complex64 F) :=
  let value : Complex64 F := ⟨0, susceptance⟩
  [(a, a, value), (b, b, value), (a, b, -value), (b, a, -value)]

section Elements

variable (index : NetworkIndex) {T : Type}

def lineMatrix (code : DistLineCode F) (name : String) (rows : List (List F)) :
    Except String (Local F code.nConductors) :=
  match finiteSquare? rows code.nConductors with
  | some matrix => .ok matrix
  | none => .error ("linecode `" ++ code.name ++ "` has invalid " ++ name ++ " matrix")

/-- The entries of a line between its ends, in the rows of its own block. -/
def lineEntries {n k : ℕ} (start stop : Fin k → Fin n) (series yf yt : Local (Complex64 F) k) :
    List (Entry F n) :=
  (cells k).flatMap fun (r, c) =>
    [(start r, start c, series r c + yf r c), (stop r, stop c, series r c + yt r c),
      (start r, stop c, -series r c), (stop r, start c, -series r c)]

def stampLine (line : DistLine F) (code : DistLineCode F) :
    Except String (Stamp F index.size) :=
  let n := code.nConductors
  if h : n ≠ 0 ∧ line.terminalMapFrom.length = n ∧ line.terminalMapTo.length = n ∧
      le line.length 0 = false ∧ isFinite line.length = true then do
    let rSeries ← lineMatrix code "r_series" code.rSeries
    let xSeries ← lineMatrix code "x_series" code.xSeries
    let gFrom ← lineMatrix code "g_from" code.gFrom
    let bFrom ← lineMatrix code "b_from" code.bFrom
    let gTo ← lineMatrix code "g_to" code.gTo
    let bTo ← lineMatrix code "b_to" code.bTo
    let scaled := fun (re im : Local F n) r c =>
      (⟨re r c * line.length, im r c * line.length⟩ : Complex64 F)
    let zinv ← invertDense (scaled rSeries xSeries)
    let start ← index.resolveAll line.busFrom line.terminalMapFrom
    let stop ← index.resolveAll line.busTo line.terminalMapTo
    let start := fun r : Fin n => start (r.cast h.2.1.symm)
    let stop := fun r : Fin n => stop (r.cast h.2.2.1.symm)
    let yf := scaled gFrom bFrom
    let yt := scaled gTo bTo
    .ok
      { element :=
          { name := line.name
            kind := "line"
            arity := n + n
            terminals := Fin.append start stop
            yprim := localMatrix (lineEntries (Fin.castAdd n) (Fin.natAdd n) zinv yf yt) }
        entries := lineEntries start stop zinv yf yt }
  else .error ("line `" ++ line.name ++ "` has invalid conductor dimensions or length")

def stampShunt (shunt : DistShunt F) : Except String (Stamp F index.size) :=
  match finiteSquare? shunt.g shunt.terminalMap.length,
      finiteSquare? shunt.b shunt.terminalMap.length with
  | some g, some b => do
      let map ← index.resolveAll shunt.bus shunt.terminalMap
      let y := fun r c => (⟨g r c, b r c⟩ : Complex64 F)
      .ok
        { element :=
            { name := shunt.name
              kind := "shunt"
              arity := shunt.terminalMap.length
              terminals := map
              yprim := y }
          entries := blockEntries map y }
  | _, _ => .error ("shunt `" ++ shunt.name ++ "` has inconsistent matrix dimensions")

/-- `yprim[a]` of a local row. -/
def localRow (k a : ℕ) : Result (Fin k) := if h : a < k then .ok ⟨a, h⟩ else .error .missed

theorem localRow_eq_ok {k a : ℕ} {row : Fin k} : localRow k a = .ok row ↔ row.val = a := by
  unfold localRow
  split
  case isTrue h =>
    rw [Except.ok.injEq, Fin.ext_iff]
    exact eq_comm
  case isFalse h =>
    constructor
    · intro hrow
      cases hrow
    · intro hrow
      exact absurd (hrow ▸ row.isLt) h

theorem mapM_localRow {n k : ℕ} {phases : List (Fin n)} {rows : List (Fin k)}
    (h : phases.mapM (fun phase => localRow k phase.val) = .ok rows) :
    (∀ phase ∈ phases, phase.val < k) ∧ rows = phases.filterMap fun phase =>
      if hrow : phase.val < k then some ⟨phase, hrow⟩ else none := by
  have hforall := forall₂_of_mapM_ok h
  clear h
  induction hforall with
  | nil => simp
  | cons hrow _ ih =>
    rw [localRow_eq_ok] at hrow
    obtain ⟨hrange, hrows⟩ := ih
    constructor
    · intro phase hphase
      rcases List.mem_cons.mp hphase with rfl | hrest
      · rw [← hrow]
        exact Fin.isLt _
      · exact hrange phase hrest
    · rw [hrows, List.filterMap_cons]
      simp [← hrow]

theorem mapM_localRow_of_lt {n k : ℕ} {phases : List (Fin n)} (h : ∀ phase ∈ phases, phase.val < k) :
    ∃ rows, phases.mapM (fun phase => localRow k phase.val) = .ok rows := by
  apply exists_mapM_ok
  intro phase hphase
  exact ⟨⟨phase, h phase hphase⟩, localRow_eq_ok.mpr rfl⟩

/-- The couples of a capacitor, in the network and in its own block. -/
abbrev Couples (F : Type) (n k : ℕ) := List (Fin n × Fin n × F) × List (Fin k × Fin k × F)

def singlePhaseCouples {n : ℕ} (capacitor : DistCapacitor F)
    (map : Fin capacitor.terminalMap.length → Fin n) :
    Result (Couples F n capacitor.terminalMap.length) :=
  if h : capacitor.terminalMap.length = 2 then
    let b := capacitor.qRated / square capacitor.vNom
    let first : Fin capacitor.terminalMap.length := ⟨0, by omega⟩
    let second : Fin capacitor.terminalMap.length := ⟨1, by omega⟩
    .ok ([(map first, map second, b)], [(first, second, b)])
  else
    .error (.error ("single-phase capacitor `" ++ capacitor.name ++ "` requires two terminals"))

/-- The susceptance of a phase: its share of the rating at the phase voltage. -/
def wyeSusceptance (capacitor : DistCapacitor F) : F :=
  capacitor.qRated / ofNat 3 / square (capacitor.vNom / Libm.sqrt (ofNat 3))

theorem zero_lt_of_four {k : ℕ} (h : k = 4) : 0 < k := by omega

theorem one_lt_of_four {k : ℕ} (h : k = 4) : 1 < k := by omega

theorem two_lt_of_four {k : ℕ} (h : k = 4) : 2 < k := by omega

theorem three_lt_of_four {k : ℕ} (h : k = 4) : 3 < k := by omega

/-- The phases and the neutral of a capacitor that has four terminals. -/
def wyePhases {n k : ℕ} (h : k = 4) (map : Fin k → Fin n) : List (Fin n) × Fin n :=
  ([map ⟨0, zero_lt_of_four h⟩, map ⟨1, one_lt_of_four h⟩, map ⟨2, two_lt_of_four h⟩], map ⟨3, three_lt_of_four h⟩)

/-- The local row of a phase is taken at the position of its terminal in the network. -/
def wyeCouples {n : ℕ} (capacitor : DistCapacitor F)
    (map : Fin capacitor.terminalMap.length → Fin n) :
    Result (Couples F n capacitor.terminalMap.length) :=
  if h : capacitor.terminalMap.length = 4 then do
    let b := wyeSusceptance capacitor
    let (phases, neutral) := wyePhases h map
    let rows ← phases.mapM fun phase => localRow capacitor.terminalMap.length phase.val
    .ok (phases.map (·, neutral, b), rows.map (·, ⟨3, by omega⟩, b))
  else
    .error (.error ("wye capacitor `" ++ capacitor.name ++ "` requires exactly three phase" ++
      " terminals followed by an explicit neutral"))

/-- The local row that follows another one, in a ring. -/
def nextRow {k : ℕ} (a : Fin k) : Fin k := ⟨(a.val + 1) % k, Nat.mod_lt _ a.pos⟩

def deltaCouples {n : ℕ} (capacitor : DistCapacitor F)
    (map : Fin capacitor.terminalMap.length → Fin n) :
    Couples F n capacitor.terminalMap.length :=
  let loops := if capacitor.terminalMap.length = 2 then 1 else capacitor.terminalMap.length
  let b := capacitor.qRated / ofNat loops / square capacitor.vNom
  let rows := (List.finRange capacitor.terminalMap.length).take loops
  (rows.map fun a => (map a, map (nextRow a), b), rows.map fun a => (a, nextRow a, b))

def capacitorCouples {n : ℕ} (capacitor : DistCapacitor F)
    (map : Fin capacitor.terminalMap.length → Fin n) :
    Result (Couples F n capacitor.terminalMap.length) :=
  match capacitor.configuration with
  | .singlePhase => singlePhaseCouples capacitor map
  | .wye => wyeCouples capacitor map
  | .delta => .ok (deltaCouples capacitor map)
  | .other =>
    .error (.error ("capacitor `" ++ capacitor.name ++ "` uses unsupported configuration"))

def coupleEntries {n : ℕ} (couples : List (Fin n × Fin n × F)) : List (Entry F n) :=
  couples.flatMap fun (a, b, susceptance) => couple a b susceptance

def stampCapacitor (capacitor : DistCapacitor F) : Result (Stamp F index.size) :=
  if !isFinite capacitor.qRated || le capacitor.vNom 0 ||
      decide (capacitor.terminalMap.length < 2) then
    .error (.error ("capacitor `" ++ capacitor.name ++ "` has invalid fixed shunt data"))
  else do
    let map ← lift (index.resolveAll capacitor.bus capacitor.terminalMap)
    let (stamped, placed) ← capacitorCouples capacitor map
    .ok
      { element :=
          { name := capacitor.name
            kind := "capacitor"
            arity := capacitor.terminalMap.length
            terminals := map
            yprim := localMatrix (coupleEntries placed) }
        entries := coupleEntries stamped }

end Elements

structure TransformerPrimitive (F : Type) where
  name : String
  terminals : List (String × String)
  groundedTerminals : List (String × String)
  yPrim : List (List (Complex64 F))

/-- The models of devices that preparation reads: the primitive of a transformer, and the nominal
voltages of loads that state none. -/
class DeviceModels (F T : Type) where
  prepareTransformer : DistTransformer T → Except String (TransformerPrimitive F)
  inferMissingLoadVoltages : McAcPfInstance F T → Except String (String → Option (List F))

/-- A sparse factorization of a square matrix that is given by its entries. -/
class SparseLu (F : Type) where
  Lu : ℕ → Type
  spLu : (dim : ℕ) → List (Entry F dim) → Except String (Lu dim)
  solveInPlace : {dim : ℕ} → Lu dim → (Fin dim → Complex64 F) → Fin dim → Complex64 F

structure RetainedComplexLu (F : Type) [SparseLu F] (dim : ℕ) where
  nonzeros : ℕ
  factorizationCount : ℕ
  lu : SparseLu.Lu F dim

namespace RetainedComplexLu

variable [SparseLu F] {dim : ℕ}

def factor (triplets : List (Entry F dim)) : Except String (RetainedComplexLu F dim) :=
  if dim = 0 then .error "the unknown terminal system has zero dimension"
  else if triplets.any fun (_, _, value) => !value.isFinite then
    .error "the global admittance contains a non-finite entry"
  else do
    let lu ← SparseLu.spLu dim triplets
    .ok ⟨triplets.length, 1, lu⟩

def solveInto (factor : RetainedComplexLu F dim) (rhs : Fin dim → Complex64 F) :
    Except String (Fin dim → Complex64 F) :=
  if (List.finRange dim).any fun i => !(rhs i).isFinite then
    .error "linear solve RHS contains a non-finite entry"
  else
    let x := SparseLu.solveInPlace factor.lu rhs
    if (List.finRange dim).any fun i => !(x i).isFinite then
      .error "complex sparse LU returned a non-finite solution"
    else .ok x

end RetainedComplexLu

structure SourceTerminal (n : ℕ) where
  source : String
  terminal : String
  index : Fin n

/-- The values that fixed terminals hold. -/
abbrev Fixed (F : Type) (n : ℕ) := Fin n → Option (Complex64 F)

structure PreparedNetwork (F : Type) [SparseLu F] where
  index : NetworkIndex
  passive : CsrMatrix F index.size
  yref : CsrMatrix F index.size
  fixed : Fixed F index.size
  unknown : List (Fin index.size)
  /-- The position of each terminal in `unknown`, if it is not fixed. -/
  unknownPos : Fin index.size → Option (Fin unknown.length)
  /-- The constant right-hand side of the elimination of the fixed terminals. -/
  sourceRhs : Fin unknown.length → Complex64 F
  /-- In the order of the sources of the network and of their terminals. -/
  sourceTerminals : List (SourceTerminal index.size)
  loads : List (BranchLoad F index.size)
  elements : List (PreparedElement F index.size)
  factor : Option (RetainedComplexLu F unknown.length)

/-! ### Preparing -/

section Prepare

variable {T : Type} (index : NetworkIndex)

def groundTerminals (network : MulticonductorNetwork F T) : Except String (Fixed F index.size) :=
  (network.buses.flatMap fun bus => bus.grounded.map (bus.id, ·)).foldlM
    (fun fixed (bus, terminal) => do
      let i ← index.resolve bus terminal
      .ok (Function.update fixed i (some 0))) fun _ => none

/-- The extras of a source that state a finite impedance. -/
def impedanceKeys : List String :=
  ["r1", "x1", "r0", "x0", "r2", "x2", "isc3", "isc1", "mvasc", "mvasc3", "mvasc1", "z_source",
    "z1", "z0", "puz1", "puz0", "bus2"]

/-- The first row of each name. -/
def sourceRow (network : MulticonductorNetwork F T) (name : String) : Option VoltageSource :=
  network.sources.find? fun row => row.name = name

/-- The fixed values so far, and the terminals that sources prescribe. -/
structure Prescribed (F : Type) (n : ℕ) where
  fixed : Fixed F n
  terminals : List (Fin n)

def prescribeTerminal (network : MulticonductorNetwork F T) (source : String)
    (state : Prescribed F index.size) (terminal : String) (mag angle : F) :
    Except String (Prescribed F index.size) :=
  if !isFinite mag || !isFinite angle || lt mag 0 then
    .error ("source `" ++ source ++ "` has a non-finite or negative prescribed voltage")
  else
    match sourceRow network source with
    | none => .error ("instance source `" ++ source ++ "` is absent from its network")
    | some row =>
      match impedanceKeys.find? fun key => key ∈ row.extras with
      | some key =>
        .error ("source `" ++ source ++ "` carries finite impedance metadata `" ++ key ++
          "`; normalize it to a Norton source before MC PF")
      | none => do
          let i ← index.resolve row.bus terminal
          if i ∈ state.terminals then
            .error ("multiple ideal sources prescribe terminal `" ++ row.bus ++ "`:" ++
              terminal ++ "; reaction-current allocation is indeterminate")
          else
            let value := Complex64.fromPolar mag angle
            let terminals := i :: state.terminals
            match state.fixed i with
            | some previous =>
              if lt (lit (1 / 10 ^ 8) * (1 + value.norm)) (previous - value).norm then
                .error ("conflicting ideal source prescriptions at terminal `" ++ terminal ++
                  "`")
              else .ok { state with terminals }
            | none => .ok ⟨Function.update state.fixed i (some value), terminals⟩

def prescribeSource (network : MulticonductorNetwork F T) (state : Prescribed F index.size)
    (source : PrescribedSourceVoltage F) : Except String (Prescribed F index.size) :=
  if source.terminals.length ≠ source.vMagnitude.length ∨
      source.terminals.length ≠ source.vAngle.length then
    .error ("source `" ++ source.source ++
      "` terminal and voltage dimensions are inconsistent")
  else
    (source.terminals.zip (source.vMagnitude.zip source.vAngle)).foldlM
      (fun state (terminal, mag, angle) =>
        prescribeTerminal index network source.source state terminal mag angle) state

def lineCode (network : MulticonductorNetwork F T) (name : String) : Option (DistLineCode F) :=
  network.lineCodes.find? fun code => toAsciiLowercase code.name = toAsciiLowercase name

def stampNetworkLine (network : MulticonductorNetwork F T) (line : DistLine F) :
    Except String (Stamp F index.size) :=
  match lineCode network line.linecode with
  | some code => stampLine index line code
  | none =>
    .error ("line `" ++ line.name ++ "` references unresolved linecode `" ++ line.linecode ++
      "`")

def refuseClosed (switch : DistSwitch) : Except String Unit :=
  if switch.isOpen then .ok ()
  else
    .error ("closed switch `" ++ switch.name ++ "` is unsupported by the fixed linear snapshot")

def groundNeutral (fixed : Fixed F index.size) (grounded : String × String) :
    Except String (Fixed F index.size) := do
  let i ← index.resolve grounded.1 grounded.2
  match fixed i with
  | some previous =>
    if lt (lit (1 / 10 ^ 12)) previous.norm then
      .error ("solid transformer neutral `" ++ grounded.1 ++ "`:" ++ grounded.2 ++
        " conflicts with a prescribed voltage")
    else .ok fixed
  | none => .ok (Function.update fixed i (some 0))

/-- `stamp_local_values`, and the element of the primitive. -/
def stampPrimitive (primitive : TransformerPrimitive F)
    (terminals : Fin primitive.terminals.length → Fin index.size) :
    Except String (Stamp F index.size) :=
  match square? primitive.yPrim primitive.terminals.length with
  | none => .error "component primitive and terminal map dimensions differ"
  | some y =>
    .ok
      { element :=
          { name := primitive.name
            kind := "transformer"
            arity := primitive.terminals.length
            terminals
            yprim := y }
        entries := blockEntries terminals y }

def resolveTerminals : (names : List (String × String)) →
    Except String (Fin names.length → Fin index.size)
  | [] => .ok nofun
  | name :: rest => do
      let first ← index.resolve name.1 name.2
      let others ← resolveTerminals rest
      .ok (Fin.cons first others)

/-- Grounds the neutrals of a transformer and stamps it. -/
def stampTransformer [DeviceModels F T]
    (state : Fixed F index.size × List (Stamp F index.size)) (transformer : DistTransformer T) :
    Except String (Fixed F index.size × List (Stamp F index.size)) := do
  let primitive ← DeviceModels.prepareTransformer transformer
  let fixed ← primitive.groundedTerminals.foldlM (groundNeutral index) state.1
  let terminals ← resolveTerminals index primitive.terminals
  let stamp ← stampPrimitive index primitive terminals
  .ok (fixed, state.2 ++ [stamp])

/-- The first row of each name. -/
def loadRow (network : MulticonductorNetwork F T) (name : String) : Option (DistLoad F T) :=
  network.loads.find? fun row => row.name = name

/-- A load at the prescribed powers of its instance, which is the calculation boundary. -/
def effectiveLoad (row : DistLoad F T) (load : PrescribedLoad F) : DistLoad F T :=
  { row with
    pNom := load.pW
    qNom := load.qVar
    terminalMap := load.terminals
    voltageModel := load.voltageModel }

def prepareInstanceLoad (network : MulticonductorNetwork F T)
    (inferred : String → Option (List F)) (load : PrescribedLoad F) :
    Except String (BranchLoad F index.size) :=
  match loadRow network load.load with
  | none => .error ("instance load `" ++ load.load ++ "` is absent from its network")
  | some row =>
    let effective := effectiveLoad row load
    prepareLoad effective (index.resolve effective.bus) (inferred effective.name)

/-- The entries of the compensation admittance of a load. -/
def BranchLoad.yrefEntries {n : ℕ} (load : BranchLoad F n) : List (Entry F n) :=
  (List.finRange load.branches).flatMap fun branch =>
    (load.incidence branch).flatMap fun (i, ci) =>
      (load.incidence branch).map fun (j, cj) =>
        (i, j, ci.conj * load.referenceAdmittance branch * cj)

/-- The sum of two admittances at a place where one of them is stored. -/
def retainedValue {n : ℕ} (passive yref : StampedMatrix F n) (i j : Fin n) :
    Option (Complex64 F) :=
  match passive.values i j, yref.values i j with
  | none, none => none
  | some y, none => some (0 + y)
  | none, some y => some (0 + y)
  | some y, some y' => some (0 + y + y')

/-- A value of the retained matrix, at the positions of two unknown terminals. -/
def triplet {n dim : ℕ} (passive yref : StampedMatrix F n) (position : Fin n → Option (Fin dim))
    (cell : Fin n × Fin n) : Option (Entry F dim) :=
  match position cell.1, position cell.2, retainedValue passive yref cell.1 cell.2 with
  | some r, some c, some value => if lt 0 value.norm then some (r, c, value) else none
  | _, _, _ => none

/-- The retained matrix between unknown terminals. -/
def triplets {n dim : ℕ} (passive yref : StampedMatrix F n)
    (position : Fin n → Option (Fin dim)) : List (Entry F dim) :=
  (cells n).filterMap (triplet passive yref position)

/-- The terminals of a source, by the first prescribed voltage of its name. -/
def rowTerminals (inst : McAcPfInstance F T) (row : VoltageSource) :
    Except String (List (SourceTerminal index.size)) :=
  match inst.sources.find? fun source => source.source = row.name with
  | none => .error ("instance source `" ++ row.name ++ "` is absent from its network")
  | some source =>
    source.terminals.mapM fun terminal => do
      let i ← index.resolve row.bus terminal
      .ok ⟨source.source, terminal, i⟩

def sourceTerminals (inst : McAcPfInstance F T) :
    Except String (List (SourceTerminal index.size)) := do
  let rows ← inst.network.sources.mapM (rowTerminals index inst)
  .ok rows.flatten

variable [SparseLu F] [DeviceModels F T]

/-- What the assembly of a network collects before its matrix is factored. -/
structure Assembly (F : Type) (n : ℕ) where
  fixed : Fixed F n
  stamps : List (Stamp F n)
  loads : List (BranchLoad F n)

def refuseUnsupported (inst : McAcPfInstance F T) : Except String Unit :=
  if inst.isolatedTerminals ≠ [] then
    .error "isolated terminals are not supported by the fixed-point PF snapshot"
  else if inst.controlModes ≠ [] then
    .error ("active regulator/capacitor controls are unsupported; solve a fixed operating" ++
      " snapshot")
  else if inst.network.untypedObjects ≠ [] then
    .error ("network retains unsupported untyped active objects: " ++
      String.join (inst.network.untypedObjects.map fun o => o.1 ++ "." ++ o.2 ++ ","))
  else .ok ()

def assemble (inst : McAcPfInstance F T) : Result (Assembly F index.size) := do
  let network := inst.network
  let grounded ← lift (groundTerminals index network)
  let prescribed ← lift (inst.sources.foldlM (prescribeSource index network) ⟨grounded, []⟩)
  let lines ← lift (network.lines.mapM (stampNetworkLine index network))
  lift (network.switches.forM refuseClosed)
  let shunts ← lift (network.shunts.mapM (stampShunt index))
  let capacitors ← network.capacitors.mapM (stampCapacitor index)
  let (fixed, transformers) ←
    lift (network.transformers.foldlM (stampTransformer index) (prescribed.fixed, []))
  refuse (network.generators ≠ [] ∨ network.ibrs ≠ [])
    "fixed-point MC PF does not yet support generator or IBR injections"
  let inferred ← lift (DeviceModels.inferMissingLoadVoltages inst)
  let loads ← lift (inst.loads.mapM (prepareInstanceLoad index network inferred))
  .ok ⟨fixed, lines ++ shunts ++ capacitors ++ transformers, loads⟩

structure Assembly.Parts (inst : McAcPfInstance F T) (assembly : Assembly F index.size) where
  grounded : Fixed F index.size
  prescribed : Prescribed F index.size
  lines : List (Stamp F index.size)
  shunts : List (Stamp F index.size)
  capacitors : List (Stamp F index.size)
  transformers : List (Stamp F index.size)
  inferred : String → Option (List F)
  groundTerminals : groundTerminals index inst.network = .ok grounded
  prescribe : inst.sources.foldlM (prescribeSource index inst.network) ⟨grounded, []⟩ =
    .ok prescribed
  stampLines : inst.network.lines.mapM (stampNetworkLine index inst.network) = .ok lines
  stampShunts : inst.network.shunts.mapM (stampShunt index) = .ok shunts
  stampCapacitors : inst.network.capacitors.mapM (stampCapacitor index) = .ok capacitors
  stampTransformers : inst.network.transformers.foldlM (stampTransformer index)
    (prescribed.fixed, []) = .ok (assembly.fixed, transformers)
  prepareLoads : inst.loads.mapM (prepareInstanceLoad index inst.network inferred) =
    .ok assembly.loads
  stamps : assembly.stamps = lines ++ shunts ++ capacitors ++ transformers

omit [SparseLu F] in
theorem assemble_eq_ok {inst : McAcPfInstance F T} {index : NetworkIndex}
    {assembly : Assembly F index.size} (h : assemble index inst = .ok assembly) :
    Nonempty (assembly.Parts index inst) := by
  simp only [assemble, bind_eq_ok, lift_eq_ok, refuse_eq_ok, Except.ok.injEq] at h
  obtain ⟨grounded, hgrounded, prescribed, hprescribed, lines, hlines, -, -, shunts, hshunts,
    capacitors, hcapacitors, ⟨fixed, transformers⟩, htransformers, -, -, inferred, -, loads,
    hloads, rfl⟩ := h
  exact ⟨grounded, prescribed, lines, shunts, capacitors, transformers, inferred,
    hgrounded, hprescribed, hlines, hshunts, hcapacitors, htransformers, hloads, rfl⟩

/-- `eliminate_fixed_terminals` -/
def eliminateFixedTerminals {n : ℕ} (passive yref : CsrMatrix F n) (fixed : Fixed F n)
    (unknown : List (Fin n)) (u : Fin unknown.length) : Complex64 F :=
  -(passive.rowFixedMul (unknown.get u) fixed + yref.rowFixedMul (unknown.get u) fixed)

def factorRetained {n : ℕ} (passive yref : StampedMatrix F n) (unknown : List (Fin n)) :
    Except String (Option (RetainedComplexLu F unknown.length)) :=
  if unknown = [] then .ok none
  else do
    let factor ← RetainedComplexLu.factor (triplets passive yref fun i => unknown.finIdxOf? i)
    .ok (some factor)

def Assembly.passive {n : ℕ} (assembly : Assembly F n) : StampedMatrix F n :=
  StampedMatrix.zeros.addAll (assembly.stamps.flatMap Stamp.entries)

def Assembly.yref {n : ℕ} (assembly : Assembly F n) : StampedMatrix F n :=
  StampedMatrix.zeros.addAll (assembly.loads.flatMap BranchLoad.yrefEntries)

def Assembly.unknown {n : ℕ} (assembly : Assembly F n) : List (Fin n) :=
  (List.finRange n).filter fun i => (assembly.fixed i).isNone

omit [Libm F] [SparseLu F] in
theorem Assembly.mem_unknown {n : ℕ} {assembly : Assembly F n} (i : Fin n) :
    i ∈ assembly.unknown ↔ assembly.fixed i = none := by
  simp [Assembly.unknown]

/-- The prepared network of an assembly, with its factored matrix. -/
def Assembly.prepared {index : NetworkIndex} (assembly : Assembly F index.size)
    (sourceTerminals : List (SourceTerminal index.size))
    (factor : Option (RetainedComplexLu F assembly.unknown.length)) : PreparedNetwork F :=
  { index
    passive := .fromStamped assembly.passive
    yref := .fromStamped assembly.yref
    fixed := assembly.fixed
    unknown := assembly.unknown
    unknownPos := fun i => assembly.unknown.finIdxOf? i
    sourceRhs :=
      eliminateFixedTerminals (.fromStamped assembly.passive) (.fromStamped assembly.yref)
        assembly.fixed assembly.unknown
    sourceTerminals
    loads := assembly.loads
    elements := assembly.stamps.map Stamp.element
    factor }

def prepare (inst : McAcPfInstance F T) : Result (PreparedNetwork F) := do
  lift (refuseUnsupported inst)
  let index ← lift (NetworkIndex.new inst.network)
  let assembly ← assemble index inst
  let sourceTerminals ← lift (sourceTerminals index inst)
  let factor ← lift (factorRetained assembly.passive assembly.yref assembly.unknown)
  .ok (assembly.prepared sourceTerminals factor)

theorem prepare_eq_ok {inst : McAcPfInstance F T} {prepared : PreparedNetwork F}
    (h : prepare inst = .ok prepared) :
    ∃ (index : NetworkIndex) (assembly : Assembly F index.size)
      (terminals : List (SourceTerminal index.size))
      (factor : Option (RetainedComplexLu F assembly.unknown.length)),
      NetworkIndex.new inst.network = .ok index ∧ assemble index inst = .ok assembly ∧
      sourceTerminals index inst = .ok terminals ∧
      factorRetained assembly.passive assembly.yref assembly.unknown = .ok factor ∧
      prepared = assembly.prepared terminals factor := by
  simp only [prepare, bind_eq_ok, lift_eq_ok, Except.ok.injEq] at h
  obtain ⟨_, _, index, hindex, assembly, hassembly, terminals, hterminals, factor, hfactor, rfl⟩ := h
  exact ⟨index, assembly, terminals, factor, hindex, hassembly, hterminals, hfactor, rfl⟩

theorem prepare_of_assemble {inst : McAcPfInstance F T} {index : NetworkIndex}
    (hsupported : refuseUnsupported inst = .ok ())
    (hnew : NetworkIndex.new inst.network = .ok index) :
    prepare inst = (do
      let assembly ← assemble index inst
      let terminals ← lift (sourceTerminals index inst)
      let factor ← lift (factorRetained assembly.passive assembly.yref assembly.unknown)
      .ok (assembly.prepared terminals factor)) := by
  rw [prepare, hsupported, hnew]
  rfl

end Prepare

end Tellegen.Multiconductor
