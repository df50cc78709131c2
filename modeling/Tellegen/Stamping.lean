import Tellegen.FixedPoint

/-!
The network matrix as the sum of its elements, over the reals. The entries that
an element adds to the matrix are those of its own block at its terminals,
except that a wye capacitor writes its block in the rows that the network
positions of its phases name.
-/

set_option linter.unusedSectionVars false

open Binary64 Outcome

namespace Tellegen.Multiconductor

section Exact

variable [DecimalText ℝ] {n k : ℕ}

/-! ### Sums -/

theorem sum_filterMap_finRange (f : Fin n → Option (Complex64 ℝ)) :
    ((List.finRange n).filterMap f).sum = ∑ i, (f i).getD 0 := by
  rw [Fin.sum_univ_def]
  induction List.finRange n with
  | nil => rfl
  | cons i rest ih =>
    rw [List.filterMap_cons, List.map_cons, List.sum_cons, ← ih]
    cases f i with
    | none => exact (zero_add _).symm
    | some value => rfl

/-- The sum of the entries at a row and a column. -/
noncomputable def total (entries : List (Entry ℝ n)) (i j : Fin n) : Complex64 ℝ :=
  (entries.map fun (r, c, value) => if i = r ∧ j = c then value else 0).sum

@[simp] theorem total_nil (i j : Fin n) : total [] i j = 0 := rfl

theorem total_cons (r c : Fin n) (value : Complex64 ℝ) (rest : List (Entry ℝ n)) (i j : Fin n) :
    total ((r, c, value) :: rest) i j =
      (if i = r ∧ j = c then value else 0) + total rest i j := rfl

theorem total_append (first second : List (Entry ℝ n)) (i j : Fin n) :
    total (first ++ second) i j = total first i j + total second i j := by
  rw [total, List.map_append, List.sum_append]
  rfl

theorem total_flatMap {α : Type} (l : List α) (f : α → List (Entry ℝ n)) (i j : Fin n) :
    total (l.flatMap f) i j = (l.map fun a => total (f a) i j).sum := by
  induction l with
  | nil => rfl
  | cons a rest ih => rw [List.flatMap_cons, total_append, ih, List.map_cons, List.sum_cons]

/-! ### Matrices -/

namespace StampedMatrix

noncomputable def get (y : StampedMatrix ℝ n) (i j : Fin n) : Complex64 ℝ := (y.values i j).getD 0

@[simp] theorem zeros_get (i j : Fin n) : (zeros : StampedMatrix ℝ n).get i j = 0 := rfl

theorem add_get (y : StampedMatrix ℝ n) (r c : Fin n) (value : Complex64 ℝ) (i j : Fin n) :
    (y.add (r, c, value)).get i j = y.get i j + if i = r ∧ j = c then value else 0 := by
  simp only [add]
  split
  case isTrue hzero => simp [(Complex64.isZero_iff value).mp hzero]
  case isFalse =>
    by_cases hij : i = r ∧ j = c
    · obtain ⟨rfl, rfl⟩ := hij
      simp only [get, and_self, if_true]
      split
      case isTrue htotal => exact ((Complex64.isZero_iff _).mp htotal).symm
      case isFalse => rfl
    · simp [get, hij]

theorem addAll_get (y : StampedMatrix ℝ n) (entries : List (Entry ℝ n)) (i j : Fin n) :
    (y.addAll entries).get i j = y.get i j + total entries i j := by
  induction entries generalizing y with
  | nil => simp [addAll]
  | cons entry rest ih =>
    obtain ⟨r, c, value⟩ := entry
    rw [addAll, List.foldl_cons, ← addAll, ih, add_get, total_cons, add_assoc]

end StampedMatrix

namespace CsrMatrix

noncomputable def entry (y : CsrMatrix ℝ n) (i j : Fin n) : Complex64 ℝ :=
  ((y.rows i).filterMap fun (c, value) => if c = j then some value else none).sum

theorem entry_fromStamped (y : StampedMatrix ℝ n) (i j : Fin n) :
    (fromStamped y).entry i j = y.get i j := by
  rw [entry, fromStamped, List.filterMap_filterMap, sum_filterMap_finRange,
    Finset.sum_eq_single j]
  · cases hvalue : y.values i j <;> simp [StampedMatrix.get, hvalue]
  · intro c _ hne
    cases y.values i c <;> simp [hne]
  · intro hmem
    exact absurd (Finset.mem_univ j) hmem

theorem rowMul_fromStamped (y : StampedMatrix ℝ n) (i : Fin n) (v : Voltage ℝ n) :
    (fromStamped y).rowMul i v = ∑ j, y.get i j * v j := by
  rw [rowMul, fromStamped, Complex64.sum_eq, List.map_filterMap, sum_filterMap_finRange]
  apply Finset.sum_congr rfl
  intro j _
  cases hvalue : y.values i j <;> simp [StampedMatrix.get, hvalue]

theorem rowFixedMul_fromStamped (y : StampedMatrix ℝ n) (i : Fin n) (fixed : Fixed ℝ n) :
    (fromStamped y).rowFixedMul i fixed = ∑ j, y.get i j * (fixed j).getD 0 := by
  rw [rowFixedMul, fromStamped, Complex64.sum_eq, List.filterMap_filterMap, sum_filterMap_finRange]
  apply Finset.sum_congr rfl
  intro j _
  cases hvalue : y.values i j <;> cases hfixed : fixed j <;> simp [StampedMatrix.get, hvalue, hfixed]

end CsrMatrix

/-! ### Blocks -/

/-- A block placed at terminals. A terminal that is used twice gets both shares. -/
noncomputable def placed (terminals : Fin k → Fin n) (y : Local (Complex64 ℝ) k) (i j : Fin n) :
    Complex64 ℝ := ∑ r, ∑ c, if terminals r = i ∧ terminals c = j then y r c else 0

noncomputable def PreparedElement.placed (element : PreparedElement ℝ n) :
    Fin n → Fin n → Complex64 ℝ := Multiconductor.placed element.terminals element.yprim

def atTerminals (terminals : Fin k → Fin n) : Entry ℝ k → Entry ℝ n :=
  fun (r, c, value) => (terminals r, terminals c, value)

theorem localMatrix_eq_total (entries : List (Entry ℝ k)) : localMatrix entries = total entries := by
  suffices h : ∀ y : Local (Complex64 ℝ) k,
      entries.foldl (fun y (row, col, value) i j =>
        if i = row ∧ j = col then y i j + value else y i j) y =
      fun i j => y i j + total entries i j by
    rw [localMatrix, h]
    funext i j
    exact zero_add _
  induction entries with
  | nil => simp
  | cons entry rest ih =>
    intro y
    obtain ⟨r, c, value⟩ := entry
    rw [List.foldl_cons, ih]
    funext i j
    rw [total_cons]
    by_cases hij : i = r ∧ j = c
    · simp only [hij, and_self, if_true, add_assoc]
    · simp only [hij, if_false, zero_add]

theorem placed_single (terminals : Fin k → Fin n) (r c : Fin k) (value : Complex64 ℝ)
    (i j : Fin n) :
    placed terminals (fun a b => if a = r ∧ b = c then value else 0) i j =
      if i = terminals r ∧ j = terminals c then value else 0 := by
  rw [placed, Finset.sum_eq_single r, Finset.sum_eq_single c]
  · simp [eq_comm]
  · intro b _ hne
    simp [hne]
  · intro hmem
    exact absurd (Finset.mem_univ c) hmem
  · intro a _ hne
    simp [hne]
  · intro hmem
    exact absurd (Finset.mem_univ r) hmem

theorem placed_add (terminals : Fin k → Fin n) (y z : Local (Complex64 ℝ) k) (i j : Fin n) :
    placed terminals (fun r c => y r c + z r c) i j =
      placed terminals y i j + placed terminals z i j := by
  simp only [placed, ← Finset.sum_add_distrib]
  apply Finset.sum_congr rfl
  intro r _
  apply Finset.sum_congr rfl
  intro c _
  split
  · rfl
  · exact (add_zero _).symm

theorem total_atTerminals (terminals : Fin k → Fin n) (entries : List (Entry ℝ k)) (i j : Fin n) :
    total (entries.map (atTerminals terminals)) i j = placed terminals (total entries) i j := by
  induction entries with
  | nil => simp [placed]
  | cons entry rest ih =>
    obtain ⟨r, c, value⟩ := entry
    rw [List.map_cons, atTerminals, total_cons, ih, ← placed_single, ← placed_add]
    rfl

theorem total_cells (y : Local (Complex64 ℝ) k) :
    total ((cells k).map fun (r, c) => (r, c, y r c)) = y := by
  funext i j
  rw [cells, List.map_flatMap, total_flatMap, ← Fin.sum_univ_def, Finset.sum_eq_single i]
  · rw [total, List.map_map, List.map_map, ← Fin.sum_univ_def, Finset.sum_eq_single j]
    · simp
    · intro c _ hne
      simp [hne.symm]
    · intro hmem
      exact absurd (Finset.mem_univ j) hmem
  · intro r _ hne
    rw [total, List.map_map, List.map_map, ← Fin.sum_univ_def]
    apply Finset.sum_eq_zero
    intro c _
    simp [hne.symm]
  · intro hmem
    exact absurd (Finset.mem_univ i) hmem

theorem total_blockEntries (terminals : Fin k → Fin n) (y : Local (Complex64 ℝ) k) (i j : Fin n) :
    total (blockEntries terminals y) i j = placed terminals y i j := by
  have hentries : blockEntries terminals y =
      ((cells k).map fun (r, c) => (r, c, y r c)).map (atTerminals terminals) := by
    rw [blockEntries, List.map_map]
    rfl
  rw [hentries, total_atTerminals, total_cells]

/-! ### What each kind of element stamps -/

/-- The entries of an element are those of its block at its terminals. -/
def Stamp.Faithful (stamp : Stamp ℝ n) : Prop :=
  ∀ i j, total stamp.entries i j = stamp.element.placed i j

theorem lineEntries_map {m : ℕ} (f : Fin n → Fin m) (start stop : Fin k → Fin n)
    (series yf yt : Local (Complex64 ℝ) k) :
    (lineEntries start stop series yf yt).map (atTerminals f) =
      lineEntries (f ∘ start) (f ∘ stop) series yf yt := by
  rw [lineEntries, List.map_flatMap]
  rfl

theorem coupleEntries_map (terminals : Fin k → Fin n) (couples : List (Fin k × Fin k × ℝ)) :
    (coupleEntries couples).map (atTerminals terminals) =
      coupleEntries (couples.map fun (a, b, y) => (terminals a, terminals b, y)) := by
  rw [coupleEntries, List.map_flatMap, coupleEntries, List.flatMap_map]
  rfl

section Elements

variable {index : NetworkIndex}

theorem stampLine_faithful {line : DistLine ℝ} {code : DistLineCode ℝ}
    {stamp : Stamp ℝ index.size} (h : stampLine index line code = .ok stamp) : stamp.Faithful := by
  dsimp only [stampLine] at h
  split at h
  case isFalse => cases h
  case isTrue =>
    simp only [bind_eq_ok, Except.ok.injEq] at h
    obtain ⟨_, _, _, _, _, _, _, _, _, _, _, _, zinv, _, start, _, stop, _, rfl⟩ := h
    intro i j
    simp only [PreparedElement.placed]
    rw [localMatrix_eq_total, ← total_atTerminals, lineEntries_map]
    congr 2
    · funext r
      simp only [Function.comp_apply, Fin.append_left]
    · funext r
      simp only [Function.comp_apply, Fin.append_right]

theorem stampShunt_faithful {shunt : DistShunt ℝ} {stamp : Stamp ℝ index.size}
    (h : stampShunt index shunt = .ok stamp) : stamp.Faithful := by
  unfold stampShunt at h
  split at h
  case h_2 => cases h
  case h_1 =>
    simp only [bind_eq_ok, Except.ok.injEq] at h
    obtain ⟨map, _, rfl⟩ := h
    intro i j
    simp only [PreparedElement.placed, total_blockEntries]

theorem stampPrimitive_faithful {primitive : TransformerPrimitive ℝ}
    {terminals : Fin primitive.terminals.length → Fin index.size} {stamp : Stamp ℝ index.size}
    (h : stampPrimitive index primitive terminals = .ok stamp) : stamp.Faithful := by
  unfold stampPrimitive at h
  split at h
  case h_1 => cases h
  case h_2 =>
    rw [← Except.ok.inj h]
    intro i j
    simp only [PreparedElement.placed, total_blockEntries]

/-! ### Capacitors -/

/-- The rows that the phases of a wye capacitor have in its own block. -/
def phaseRows (h : k = 4) : List (Fin k) := [⟨0, zero_lt_of_four h⟩, ⟨1, one_lt_of_four h⟩, ⟨2, two_lt_of_four h⟩]

/-- The rows in which the code writes the phases, as far as the block has them. -/
def writtenRows (h : k = 4) (map : Fin k → Fin n) : List (Fin k) :=
  (wyePhases h map).1.filterMap fun phase : Fin n =>
    if hrow : phase.val < k then some ⟨phase.val, hrow⟩ else none

/-- The block of a wye capacitor whose phases have the given rows. -/
noncomputable def wyeBlock (h : k = 4) (b : ℝ) (rows : List (Fin k)) : Local (Complex64 ℝ) k :=
  total (coupleEntries (rows.map (·, ⟨3, three_lt_of_four h⟩, b)))

theorem placed_wyeBlock (h : k = 4) (map : Fin k → Fin n) (b : ℝ) (rows : List (Fin k))
    (i j : Fin n) :
    placed map (wyeBlock h b rows) i j =
      total (coupleEntries (rows.map fun a => (map a, map ⟨3, three_lt_of_four h⟩, b))) i j := by
  rw [wyeBlock, ← total_atTerminals, coupleEntries_map, List.map_map]
  rfl

/-- What the written block of a wye capacitor lacks in the network. -/
noncomputable def displacement (index : NetworkIndex) (capacitor : DistCapacitor ℝ)
    (i j : Fin index.size) : Complex64 ℝ :=
  if capacitor.configuration = .wye then
    match index.resolveAll capacitor.bus capacitor.terminalMap with
    | .error _ => 0
    | .ok map =>
      if h : capacitor.terminalMap.length = 4 then
        let b := wyeSusceptance capacitor
        placed map (wyeBlock h b (phaseRows h)) i j -
          placed map (wyeBlock h b (writtenRows h map)) i j
      else 0
  else 0

theorem displacement_eq {index : NetworkIndex} {capacitor : DistCapacitor ℝ}
    {map : Fin capacitor.terminalMap.length → Fin index.size}
    (hwye : capacitor.configuration = .wye)
    (hmap : index.resolveAll capacitor.bus capacitor.terminalMap = .ok map)
    (h : capacitor.terminalMap.length = 4) (i j : Fin index.size) :
    displacement index capacitor i j =
      placed map (wyeBlock h (wyeSusceptance capacitor) (phaseRows h)) i j -
        placed map (wyeBlock h (wyeSusceptance capacitor) (writtenRows h map)) i j := by
  rw [displacement, if_pos hwye, hmap]
  simp only [h, dif_pos]

/-- Every phase of a wye capacitor has its terminal among the first four of the network. -/
def PhasesInRange (index : NetworkIndex) (capacitor : DistCapacitor ℝ) : Prop :=
  capacitor.configuration = .wye → ∀ map,
    index.resolveAll capacitor.bus capacitor.terminalMap = .ok map →
    ∀ h : capacitor.terminalMap.length = 4, ∀ phase ∈ (wyePhases h map).1, phase.val < 4

/-- What the block of an element lacks of its entries. -/
noncomputable def Stamp.deficit (stamp : Stamp ℝ n) (i j : Fin n) : Complex64 ℝ :=
  total stamp.entries i j - stamp.element.placed i j

theorem Stamp.Faithful.deficit_eq_zero {stamp : Stamp ℝ n} (h : stamp.Faithful) (i j : Fin n) :
    stamp.deficit i j = 0 := sub_eq_zero.mpr (h i j)

theorem capacitorCouples_eq_ok {capacitor : DistCapacitor ℝ}
    {map : Fin capacitor.terminalMap.length → Fin n}
    {couples : Couples ℝ n capacitor.terminalMap.length}
    (h : capacitorCouples capacitor map = .ok couples) :
    (capacitor.configuration ≠ .wye ∧
      couples.1 = couples.2.map fun (a, b, y) => (map a, map b, y)) ∨
    (capacitor.configuration = .wye ∧ ∃ hfour : capacitor.terminalMap.length = 4,
      (∀ phase ∈ (wyePhases hfour map).1, phase.val < 4) ∧
      couples.1 = (phaseRows hfour).map (fun a => (map a, map ⟨3, by omega⟩, wyeSusceptance capacitor)) ∧
      couples.2 = (writtenRows hfour map).map (·, ⟨3, by omega⟩, wyeSusceptance capacitor)) := by
  unfold capacitorCouples at h
  split at h
  case h_1 hconfiguration =>
    left
    unfold singlePhaseCouples at h
    split at h
    case isFalse => cases h
    case isTrue =>
      rw [← Except.ok.inj h, hconfiguration]
      exact ⟨by simp, rfl⟩
  case h_2 hconfiguration =>
    right
    unfold wyeCouples at h
    split at h
    case isFalse => cases h
    case isTrue hfour =>
      simp only [bind_eq_ok, Except.ok.injEq] at h
      obtain ⟨rows, hrows, rfl⟩ := h
      obtain ⟨hrange, hwritten⟩ := mapM_localRow hrows
      refine ⟨hconfiguration, hfour, ?_, rfl, ?_⟩
      · intro phase hphase
        exact hfour ▸ hrange phase hphase
      · rw [hwritten]
        rfl
  case h_3 hconfiguration =>
    left
    rw [← Except.ok.inj h, hconfiguration]
    refine ⟨by simp, ?_⟩
    simp only [deltaCouples, List.map_map]
    rfl
  case h_4 => cases h

theorem stampCapacitor_eq_ok {capacitor : DistCapacitor ℝ} {stamp : Stamp ℝ index.size}
    (h : stampCapacitor index capacitor = .ok stamp) :
    PhasesInRange index capacitor ∧ ∀ i j, stamp.deficit i j = displacement index capacitor i j := by
  unfold stampCapacitor at h
  split at h
  case isTrue => cases h
  case isFalse =>
    simp only [bind_eq_ok, lift_eq_ok, Except.ok.injEq] at h
    obtain ⟨map, hmap, couples, hcouples, rfl⟩ := h
    rcases capacitorCouples_eq_ok hcouples with ⟨hother, hsame⟩ | ⟨hwye, hfour, hrange, hstamped, hplaced⟩
    · constructor
      · intro hwye
        exact absurd hwye hother
      · intro i j
        rw [displacement, if_neg hother]
        apply Stamp.Faithful.deficit_eq_zero
        intro i j
        simp only [PreparedElement.placed]
        rw [localMatrix_eq_total, ← total_atTerminals, coupleEntries_map, hsame]
    · constructor
      · intro _ map' hmap' _
        rw [hmap, Except.ok.injEq] at hmap'
        rw [← hmap']
        exact hrange
      · intro i j
        rw [displacement_eq hwye hmap hfour]
        simp only [Stamp.deficit, PreparedElement.placed]
        rw [localMatrix_eq_total, hplaced, hstamped, placed_wyeBlock]
        rfl

theorem safe_stampCapacitor {capacitor : DistCapacitor ℝ} (h : PhasesInRange index capacitor) :
    Safe (stampCapacitor index capacitor) := by
  unfold stampCapacitor
  rw [safe_ite]
  constructor
  · intro _
    exact safe_error _
  · intro _
    rw [safe_bind]
    refine ⟨safe_lift _, ?_⟩
    intro map hmap
    rw [safe_bind]
    refine ⟨?_, fun _ _ => safe_ok _⟩
    unfold capacitorCouples
    split
    case h_1 =>
      unfold singlePhaseCouples
      split <;> trivial
    case h_2 hwye =>
      unfold wyeCouples
      split
      case isFalse => exact safe_error _
      case isTrue hfour =>
        have hrange := h hwye map ((lift_eq_ok _ _).mp hmap) hfour
        obtain ⟨rows, hrows⟩ := mapM_localRow_of_lt (k := capacitor.terminalMap.length)
          fun phase hphase => hfour.symm ▸ hrange phase hphase
        simp only [hrows]
        exact safe_ok _
    case h_3 => exact safe_ok _
    case h_4 => exact safe_error _

end Elements

/-! ### The network matrix -/

section Network

variable {T : Type} [DeviceModels ℝ T] {index : NetworkIndex}

theorem stampTransformers_faithful {transformers : List (DistTransformer T)}
    {state result : Fixed ℝ index.size × List (Stamp ℝ index.size)}
    (hstate : ∀ stamp ∈ state.2, stamp.Faithful)
    (h : transformers.foldlM (stampTransformer index) state = .ok result) :
    ∀ stamp ∈ result.2, stamp.Faithful := by
  induction transformers generalizing state with
  | nil =>
    simp only [List.foldlM_nil, pure_eq_ok] at h
    exact h ▸ hstate
  | cons transformer rest ih =>
    rw [List.foldlM_cons, bind_eq_ok] at h
    obtain ⟨next, hnext, hrest⟩ := h
    simp only [stampTransformer, bind_eq_ok, Except.ok.injEq] at hnext
    obtain ⟨_, _, _, _, _, _, stamp, hstamp, rfl⟩ := hnext
    apply ih _ hrest
    intro other hother
    rcases List.mem_append.mp hother with hold | hnew
    · exact hstate other hold
    · rw [List.mem_singleton.mp hnew]
      exact stampPrimitive_faithful hstamp

theorem faithful_of_mapM {α : Type} {l : List α} {f : α → Except String (Stamp ℝ n)}
    {stamps : List (Stamp ℝ n)} (hf : ∀ a stamp, f a = .ok stamp → stamp.Faithful)
    (h : l.mapM f = .ok stamps) : ∀ stamp ∈ stamps, stamp.Faithful := by
  intro stamp hstamp
  obtain ⟨a, _, ha⟩ := forall₂_right (forall₂_of_mapM_ok h) hstamp
  exact hf a stamp ha

theorem sum_deficit_of_faithful {stamps : List (Stamp ℝ n)} (h : ∀ stamp ∈ stamps, stamp.Faithful)
    (i j : Fin n) : (stamps.map fun stamp => stamp.deficit i j).sum = 0 := by
  apply List.sum_eq_zero
  intro x hx
  obtain ⟨stamp, hstamp, rfl⟩ := List.mem_map.mp hx
  exact (h stamp hstamp).deficit_eq_zero i j

theorem sum_deficit_capacitors {capacitors : List (DistCapacitor ℝ)}
    {stamps : List (Stamp ℝ index.size)}
    (h : List.Forall₂ (fun capacitor stamp => stampCapacitor index capacitor = .ok stamp)
      capacitors stamps) (i j : Fin index.size) :
    (stamps.map fun stamp => stamp.deficit i j).sum =
      (capacitors.map fun capacitor => displacement index capacitor i j).sum := by
  induction h with
  | nil => rfl
  | cons hstamp _ ih =>
    rw [List.map_cons, List.map_cons, List.sum_cons, List.sum_cons, ih,
      (stampCapacitor_eq_ok hstamp).2]

/-- All that the entries of an assembly exceed its blocks by comes from wye capacitors. -/
theorem assemble_deficit {inst : McAcPfInstance ℝ T} {assembly : Assembly ℝ index.size}
    (h : assemble index inst = .ok assembly) :
    (∀ capacitor ∈ inst.network.capacitors, PhasesInRange index capacitor) ∧
    ∀ i j, (assembly.stamps.map fun stamp => stamp.deficit i j).sum =
      (inst.network.capacitors.map fun capacitor => displacement index capacitor i j).sum := by
  simp only [assemble, bind_eq_ok, lift_eq_ok, Except.ok.injEq] at h
  obtain ⟨_, _, _, _, lines, hlines, _, _, shunts, hshunts, capacitors, hcapacitors,
    ⟨_, transformers⟩, htransformers, _, _, _, _, _, _, rfl⟩ := h
  have hforall := forall₂_of_mapM_ok hcapacitors
  have hline : ∀ stamp ∈ lines, stamp.Faithful := by
    apply faithful_of_mapM _ hlines
    intro line stamp hstamp
    unfold stampNetworkLine at hstamp
    split at hstamp
    · exact stampLine_faithful hstamp
    · cases hstamp
  have hshunt : ∀ stamp ∈ shunts, stamp.Faithful :=
    faithful_of_mapM (fun _ _ => stampShunt_faithful) hshunts
  have htransformer : ∀ stamp ∈ transformers, stamp.Faithful :=
    stampTransformers_faithful (by simp) htransformers
  constructor
  · intro capacitor hcapacitor
    obtain ⟨stamp, _, hstamp⟩ := forall₂_left hforall hcapacitor
    exact (stampCapacitor_eq_ok hstamp).1
  · intro i j
    simp only [List.map_append, List.sum_append, sum_deficit_of_faithful hline,
      sum_deficit_of_faithful hshunt, sum_deficit_of_faithful htransformer, zero_add, add_zero]
    exact sum_deficit_capacitors hforall i j

theorem safe_assemble {inst : McAcPfInstance ℝ T}
    (h : ∀ capacitor ∈ inst.network.capacitors, PhasesInRange index capacitor) :
    Safe (assemble index inst) := by
  have hcapacitors : Safe (inst.network.capacitors.mapM (stampCapacitor index)) :=
    safe_mapM _ _ fun capacitor hcapacitor => safe_stampCapacitor (h capacitor hcapacitor)
  simp only [assemble, safe_bind, safe_lift, safe_refuse, safe_ok, hcapacitors, true_and,
    implies_true]

/-! ### The sum of the elements -/

variable [SparseLu ℝ]

/-- The current that an element draws at a terminal, summed over its ports there. -/
noncomputable def PreparedElement.portSum (element : PreparedElement ℝ n) (voltage : Voltage ℝ n)
    (i : Fin n) : Complex64 ℝ :=
  ∑ row, if element.terminals row = i then
    elementPortCurrent element row (element.portVoltages voltage) else 0

/-- The matrix is the sum of the placed blocks, and its currents are those of the ports. -/
structure SumOfElements (prepared : PreparedNetwork ℝ) : Prop where
  matrix : ∀ i j, prepared.passive.entry i j =
    (prepared.elements.map fun element => element.placed i j).sum
  currents : ∀ voltage i, passiveCurrent prepared voltage i =
    (prepared.elements.map fun element => element.portSum voltage i).sum

/-- Every phase of a wye capacitor is in range, and what the written blocks displace cancels. -/
structure PhasesInPlace (inst : McAcPfInstance ℝ T) : Prop where
  inRange : ∀ index, NetworkIndex.new inst.network = .ok index →
    ∀ capacitor ∈ inst.network.capacitors, PhasesInRange index capacitor
  cancels : ∀ index, NetworkIndex.new inst.network = .ok index → ∀ i j,
    (inst.network.capacitors.map fun capacitor => displacement index capacitor i j).sum = 0

theorem elementPortCurrent_eq (element : PreparedElement ℝ n) (voltage : Voltage ℝ n)
    (row : Fin element.arity) :
    elementPortCurrent element row (element.portVoltages voltage) =
      ∑ c, element.yprim row c * voltage (element.terminals c) := by
  rw [elementPortCurrent, Complex64.sum_eq, Fin.sum_univ_def]
  rfl

theorem portSum_eq (element : PreparedElement ℝ n) (voltage : Voltage ℝ n) (i : Fin n) :
    element.portSum voltage i = ∑ j, element.placed i j * voltage j := by
  simp only [PreparedElement.portSum, PreparedElement.placed, placed, Finset.sum_mul,
    elementPortCurrent_eq]
  rw [Finset.sum_comm]
  apply Finset.sum_congr rfl
  intro row _
  by_cases hrow : element.terminals row = i
  · rw [if_pos hrow, Finset.sum_comm]
    apply Finset.sum_congr rfl
    intro c _
    rw [Finset.sum_eq_single (element.terminals c)]
    · simp [hrow]
    · intro j _ hne
      simp [hne.symm]
    · intro hmem
      exact absurd (Finset.mem_univ _) hmem
  · simp [hrow]

/-- The matrix of an assembly exceeds the sum of its placed blocks by the displacement of its wye
capacitors. -/
theorem passive_get {inst : McAcPfInstance ℝ T} {assembly : Assembly ℝ index.size}
    (h : assemble index inst = .ok assembly) (i j : Fin index.size) :
    assembly.passive.get i j =
      (assembly.stamps.map fun stamp => stamp.element.placed i j).sum +
        (inst.network.capacitors.map fun capacitor => displacement index capacitor i j).sum := by
  rw [← (assemble_deficit h).2, ← List.sum_map_add, Assembly.passive, StampedMatrix.addAll_get,
    StampedMatrix.zeros_get, zero_add, total_flatMap]
  congr 1
  apply List.map_congr_left
  intro stamp _
  exact (add_sub_cancel _ _).symm

theorem sum_placed_mul (elements : List (PreparedElement ℝ n)) (voltage : Voltage ℝ n)
    (i : Fin n) :
    ∑ j, (elements.map fun element => element.placed i j).sum * voltage j =
      (elements.map fun element => element.portSum voltage i).sum := by
  induction elements with
  | nil => simp
  | cons element rest ih =>
    simp only [List.map_cons, List.sum_cons, add_mul, Finset.sum_add_distrib, ih, portSum_eq]

theorem sumOfElements_iff {assembly : Assembly ℝ index.size}
    {terminals : List (SourceTerminal index.size)}
    {factor : Option (RetainedComplexLu ℝ assembly.unknown.length)} :
    SumOfElements (assembly.prepared terminals factor) ↔ ∀ i j, assembly.passive.get i j =
      (assembly.stamps.map fun stamp => stamp.element.placed i j).sum := by
  constructor
  · intro hsum i j
    have hentry := hsum.matrix i j
    simp only [Assembly.prepared, CsrMatrix.entry_fromStamped, List.map_map] at hentry
    exact hentry
  · intro hget
    have hmatrix : ∀ i j : Fin index.size, (CsrMatrix.fromStamped assembly.passive).entry i j =
        ((assembly.stamps.map Stamp.element).map fun element => element.placed i j).sum := by
      intro i j
      rw [CsrMatrix.entry_fromStamped, hget i j, List.map_map]
      rfl
    have hcurrents : ∀ (voltage : Voltage ℝ index.size) (i : Fin index.size),
        (CsrMatrix.fromStamped assembly.passive).rowMul i voltage =
          ((assembly.stamps.map Stamp.element).map fun element =>
            element.portSum voltage i).sum := by
      intro voltage i
      rw [CsrMatrix.rowMul_fromStamped, ← sum_placed_mul]
      apply Finset.sum_congr rfl
      intro j _
      rw [hget i j, List.map_map]
      rfl
    exact ⟨hmatrix, hcurrents⟩

end Network

/-! ### Three banks -/

section Banks

@[reducible] def noDevices : DeviceModels ℝ Empty where
  prepareTransformer transformer := transformer.rest.elim
  inferMissingLoadVoltages _ := .ok fun _ => none

attribute [local instance] noDevices

/-- One bus with a source at its terminal `a`, and capacitors. -/
noncomputable def bankNetwork (capacitors : List (DistCapacitor ℝ)) (terminals : List String) :
    MulticonductorNetwork ℝ Empty :=
  { buses := [⟨"bus", terminals, []⟩]
    lineCodes := []
    lines := []
    switches := []
    transformers := []
    loads := []
    generators := []
    ibrs := []
    shunts := []
    capacitors
    sources := [⟨"grid", "bus", ["a"], []⟩]
    componentLocations := []
    untypedObjects := [] }

noncomputable def bankInstance (capacitors : List (DistCapacitor ℝ)) (terminals : List String) :
    McAcPfInstance ℝ Empty :=
  { network := bankNetwork capacitors terminals
    isolatedTerminals := []
    controlModes := []
    sources := [⟨"grid", ["a"], [1], [0]⟩]
    loads := [] }

section Prepare

variable {index : NetworkIndex} (capacitors : List (DistCapacitor ℝ)) (terminals : List String)

theorem prescribeTerminal_eq {T : Type} {network : MulticonductorNetwork ℝ T}
    {source terminal : String} {state : Prescribed ℝ index.size} {mag angle : ℝ}
    {row : VoltageSource} {i : Fin index.size}
    (hmag : 0 ≤ mag) (hrow : sourceRow network source = some row) (hextras : row.extras = [])
    (hi : index.resolve row.bus terminal = .ok i) (hnew : i ∉ state.terminals)
    (hfree : state.fixed i = none) :
    prescribeTerminal index network source state terminal mag angle =
      .ok ⟨Function.update state.fixed i (some (Complex64.fromPolar mag angle)),
        i :: state.terminals⟩ := by
  have hsign : lt mag 0 = false := decide_eq_false (not_lt.mpr hmag)
  have hfinite : ∀ x : ℝ, isFinite x = true := fun _ => rfl
  have hkeys : (impedanceKeys.find? fun key => decide (key ∈ row.extras)) = none := by
    rw [List.find?_eq_none, hextras]
    simp
  unfold prescribeTerminal
  rw [hfinite, hfinite, hsign]
  simp only [hrow, hkeys, hi, Bool.not_true, Bool.or_false, Bool.false_eq_true, if_false]
  simp only [bind, Except.bind, hnew, if_false, hfree]

/-- The terminal of the source is fixed, and no other. -/
noncomputable def bankFixed (i : Fin index.size) : Fixed ℝ index.size :=
  Function.update (fun _ => none) i (some (Complex64.fromPolar 1 0))

theorem prescribe_bank {i : Fin index.size} (ha : index.resolve "bus" "a" = .ok i) :
    (bankInstance capacitors terminals).sources.foldlM
      (prescribeSource index (bankNetwork capacitors terminals)) ⟨fun _ => none, []⟩ =
        .ok ⟨bankFixed i, [i]⟩ := by
  have hrow : sourceRow (bankNetwork capacitors terminals) "grid" =
      some ⟨"grid", "bus", ["a"], []⟩ := rfl
  have hnext : prescribeTerminal index (bankNetwork capacitors terminals) "grid"
      ⟨fun _ => none, []⟩ "a" 1 0 = .ok ⟨bankFixed i, [i]⟩ :=
    prescribeTerminal_eq (by norm_num) hrow rfl ha (by simp) rfl
  simp only [bankInstance, List.foldlM_cons, List.foldlM_nil, prescribeSource, List.length_cons,
    List.length_nil, ne_eq, not_true_eq_false, or_self, if_false, List.zip_cons_cons,
    List.zip_nil_right, hnext]
  rfl

theorem assemble_bank {i : Fin index.size} (ha : index.resolve "bus" "a" = .ok i) :
    assemble index (bankInstance capacitors terminals) =
      (capacitors.mapM (stampCapacitor index)).bind fun stamps => .ok ⟨bankFixed i, stamps, []⟩ := by
  have hground : groundTerminals index (bankNetwork capacitors terminals) = .ok fun _ => none := rfl
  unfold assemble
  change (lift (groundTerminals index (bankNetwork capacitors terminals)) >>= fun grounded =>
    lift ((bankInstance capacitors terminals).sources.foldlM
      (prescribeSource index (bankNetwork capacitors terminals)) ⟨grounded, []⟩) >>= _) = _
  rw [hground]
  change (lift ((bankInstance capacitors terminals).sources.foldlM
      (prescribeSource index (bankNetwork capacitors terminals)) ⟨fun _ => none, []⟩) >>= _) = _
  rw [prescribe_bank capacitors terminals ha]
  change (capacitors.mapM (stampCapacitor index) >>= _) = _
  cases capacitors.mapM (stampCapacitor index) with
  | error failure => rfl
  | ok stamps =>
    change Except.ok (⟨bankFixed i, [] ++ [] ++ stamps ++ [], []⟩ : Assembly ℝ index.size) = _
    rw [List.append_nil]
    rfl

theorem sourceTerminals_bank {i : Fin index.size} (ha : index.resolve "bus" "a" = .ok i) :
    sourceTerminals index (bankInstance capacitors terminals) = .ok [⟨"grid", "a", i⟩] := by
  have hfind : ((bankInstance capacitors terminals).sources.find? fun source =>
      source.source = "grid") = some ⟨"grid", ["a"], [1], [0]⟩ := rfl
  have hrow : rowTerminals index (bankInstance capacitors terminals) ⟨"grid", "bus", ["a"], []⟩ =
      .ok [⟨"grid", "a", i⟩] := by
    simp only [rowTerminals, hfind, List.mapM_cons, List.mapM_nil, ha]
    rfl
  change ([⟨"grid", "bus", ["a"], []⟩].mapM
    (rowTerminals index (bankInstance capacitors terminals)) >>= _) = _
  rw [List.mapM_cons, hrow]
  rfl

variable [SparseLu ℝ]

theorem prepare_bank {i : Fin index.size}
    (hnew : NetworkIndex.new (bankNetwork capacitors terminals) = .ok index)
    (ha : index.resolve "bus" "a" = .ok i) :
    prepare (bankInstance capacitors terminals) = (do
      let stamps ← capacitors.mapM (stampCapacitor index)
      let assembly : Assembly ℝ index.size := ⟨bankFixed i, stamps, []⟩
      let factor ← lift (factorRetained assembly.passive assembly.yref assembly.unknown)
      .ok (assembly.prepared [⟨"grid", "a", i⟩] factor)) := by
  rw [prepare_of_assemble rfl hnew, assemble_bank capacitors terminals ha,
    sourceTerminals_bank capacitors terminals ha]
  cases capacitors.mapM (stampCapacitor index) <;> rfl

end Prepare

@[reducible] def keepNothing : SparseLu ℝ where
  Lu _ := Unit
  spLu _ _ := .ok ()
  solveInPlace _ rhs := rhs

attribute [local instance] keepNothing

theorem factor_keepNothing {dim : ℕ} (hdim : dim ≠ 0) (triplets : List (Entry ℝ dim)) :
    RetainedComplexLu.factor triplets = .ok ⟨triplets.length, 1, ()⟩ := by
  rw [RetainedComplexLu.factor, if_neg hdim, if_neg (by simp)]
  rfl

theorem exists_factorRetained (passive yref : StampedMatrix ℝ n) (unknown : List (Fin n)) :
    ∃ factor, factorRetained passive yref unknown = .ok factor := by
  unfold factorRetained
  split
  case isTrue => exact ⟨none, rfl⟩
  case isFalse hunknown =>
    rw [factor_keepNothing fun h => hunknown (List.length_eq_zero_iff.mp h)]
    exact ⟨_, rfl⟩

noncomputable def bank : DistCapacitor ℝ := ⟨"bank", "bus", .wye, ["a", "b", "c", "n"], 3, 1⟩

/-- The phases are the first terminals of the network. -/
def straightIndex : NetworkIndex :=
  { terminalIds := [("bus", "a"), ("bus", "b"), ("bus", "c"), ("bus", "n")]
    positions := [("bus", [("a", 0), ("b", 1), ("c", 2), ("n", 3)])]
    inRange := by decide }

/-- The neutral comes first. -/
def shiftedIndex : NetworkIndex :=
  { terminalIds := [("bus", "n"), ("bus", "a"), ("bus", "b"), ("bus", "c")]
    positions := [("bus", [("n", 0), ("a", 1), ("b", 2), ("c", 3)])]
    inRange := by decide }

/-- A neutral and a ground come first. -/
def displacedIndex : NetworkIndex :=
  { terminalIds := [("bus", "n"), ("bus", "g"), ("bus", "a"), ("bus", "b"), ("bus", "c")]
    positions := [("bus", [("n", 0), ("g", 1), ("a", 2), ("b", 3), ("c", 4)])]
    inRange := by decide }

variable {index : NetworkIndex}

theorem exists_prepare_bank {terminals : List String} {i : Fin index.size}
    (hnew : NetworkIndex.new (bankNetwork [bank] terminals) = .ok index)
    (ha : index.resolve "bus" "a" = .ok i)
    (hstamp : ∃ stamp, stampCapacitor index bank = .ok stamp) :
    ∃ prepared, prepare (bankInstance [bank] terminals) = .ok prepared := by
  obtain ⟨stamp, hstamp⟩ := hstamp
  obtain ⟨factor, hfactor⟩ := exists_factorRetained
    (Assembly.passive ⟨bankFixed i, [stamp], []⟩) (Assembly.yref ⟨bankFixed i, [stamp], []⟩)
    (Assembly.unknown ⟨bankFixed i, [stamp], []⟩)
  refine ⟨Assembly.prepared ⟨bankFixed i, [stamp], []⟩ [⟨"grid", "a", i⟩] factor, ?_⟩
  rw [prepare_bank [bank] terminals hnew ha, List.mapM_cons, hstamp]
  simp only [List.mapM_nil, bind, Except.bind, pure, Except.pure, lift, hfactor]

theorem stampCapacitor_bank {map : Fin 4 → Fin index.size}
    (hmap : index.resolveAll "bus" ["a", "b", "c", "n"] = .ok map) :
    stampCapacitor index bank = (wyeCouples bank map).bind fun couples =>
      .ok ⟨⟨"bank", "capacitor", 4, map, localMatrix (coupleEntries couples.2)⟩,
        coupleEntries couples.1⟩ := by
  have hvalid : (!isFinite bank.qRated || le bank.vNom 0 ||
      decide (bank.terminalMap.length < 2)) = false := by
    have hpositive : le (1 : ℝ) 0 = false := decide_eq_false (by norm_num)
    change (false || le (1 : ℝ) 0 || false) = false
    rw [hpositive]
    rfl
  rw [stampCapacitor, hvalid]
  change (lift (index.resolveAll "bus" ["a", "b", "c", "n"]) >>= _) = _
  rw [hmap]
  rfl

theorem stamp_straight : ∃ stamp, stampCapacitor straightIndex bank = .ok stamp := by
  obtain ⟨map, hmap, hphases⟩ : ∃ map : Fin 4 → Fin 4,
      straightIndex.resolveAll "bus" ["a", "b", "c", "n"] = .ok map ∧
      (wyePhases rfl map).1 = [0, 1, 2] := ⟨_, rfl, rfl⟩
  rw [stampCapacitor_bank hmap]
  change ∃ stamp, Except.bind (List.mapM (fun phase : Fin 4 => localRow 4 phase.val)
    (wyePhases rfl map).1 >>= _) _ = .ok stamp
  rw [hphases]
  exact ⟨_, rfl⟩

theorem stamp_displaced : stampCapacitor displacedIndex bank = .error .missed := by
  obtain ⟨map, hmap, hphases⟩ : ∃ map : Fin 4 → Fin 5,
      displacedIndex.resolveAll "bus" ["a", "b", "c", "n"] = .ok map ∧
      (wyePhases rfl map).1 = [2, 3, 4] := ⟨_, rfl, rfl⟩
  rw [stampCapacitor_bank hmap]
  change Except.bind (List.mapM (fun phase : Fin 5 => localRow 4 phase.val)
    (wyePhases rfl map).1 >>= _) _ = _
  rw [hphases]
  rfl

theorem wyeSusceptance_bank_pos : 0 < wyeSusceptance bank := by
  have hthree : (ofNat 3 : ℝ) = 3 := by
    change ((3 : ℚ) : ℝ) = 3
    norm_num
  have hroot : 0 < Real.sqrt (ofNat 3) := by
    rw [hthree]
    exact Real.sqrt_pos.mpr (by norm_num)
  have hphase : 0 < square (1 / Real.sqrt (ofNat 3) : ℝ) :=
    mul_pos (div_pos one_pos hroot) (div_pos one_pos hroot)
  change 0 < (3 : ℝ) / ofNat 3 / square (1 / Real.sqrt (ofNat 3))
  rw [hthree] at hphase ⊢
  exact div_pos (by norm_num) hphase

theorem displacement_shifted : displacement shiftedIndex bank (1 : Fin 4) (1 : Fin 4) ≠ 0 := by
  obtain ⟨map, hmap, hplaces, hphases⟩ : ∃ map : Fin 4 → Fin 4,
      shiftedIndex.resolveAll "bus" ["a", "b", "c", "n"] = .ok map ∧
      (map 0 = 1 ∧ map 1 = 2 ∧ map 2 = 3 ∧ map 3 = 0) ∧
      (wyePhases rfl map).1 = [1, 2, 3] := ⟨_, rfl, ⟨rfl, rfl, rfl, rfl⟩, rfl⟩
  have hdisplacement : displacement shiftedIndex bank (1 : Fin 4) (1 : Fin 4) =
      placed map (wyeBlock rfl (wyeSusceptance bank) (phaseRows rfl)) 1 1 -
        placed map (wyeBlock rfl (wyeSusceptance bank) (writtenRows rfl map)) 1 1 :=
    displacement_eq rfl hmap rfl _ _
  obtain ⟨h0, h1, h2, h3⟩ := hplaces
  have htrue : placed map (wyeBlock rfl (wyeSusceptance bank) (phaseRows rfl)) 1 1 =
      ⟨0, wyeSusceptance bank⟩ := by
    rw [placed_wyeBlock]
    simp [phaseRows, coupleEntries, couple, total, h0, h1, h2, h3]
  have hwritten : placed map (wyeBlock rfl (wyeSusceptance bank) (writtenRows rfl map)) 1 1 = 0 := by
    rw [placed_wyeBlock, writtenRows, hphases]
    simp [coupleEntries, couple, total, h1, h2, h3]
  rw [hdisplacement, htrue, hwritten, sub_zero]
  intro hzero
  exact wyeSusceptance_bank_pos.ne' (congrArg Complex64.im hzero)

theorem stamp_shifted : ∃ stamp, stampCapacitor shiftedIndex bank = .ok stamp := by
  obtain ⟨map, hmap, hphases⟩ : ∃ map : Fin 4 → Fin 4,
      shiftedIndex.resolveAll "bus" ["a", "b", "c", "n"] = .ok map ∧
      (wyePhases rfl map).1 = [1, 2, 3] := ⟨_, rfl, rfl⟩
  rw [stampCapacitor_bank hmap]
  change ∃ stamp, Except.bind (List.mapM (fun phase : Fin 4 => localRow 4 phase.val)
    (wyePhases rfl map).1 >>= _) _ = .ok stamp
  rw [hphases]
  exact ⟨_, rfl⟩

end Banks

/-! ### The sum of the elements of every instance -/

section Main

variable {T : Type} [DeviceModels ℝ T] [SparseLu ℝ]

/-- On an instance that preparation does not refuse, it succeeds with a matrix that is the sum of
its elements exactly when the phases of the wye capacitors are in place. -/
theorem matrix_is_sum_of_elements_iff (inst : McAcPfInstance ℝ T)
    (haccepted : ∀ message, prepare (F := ℝ) inst ≠ .error (.error message)) :
    (∃ prepared, prepare inst = .ok prepared ∧ SumOfElements prepared) ↔ PhasesInPlace inst := by
  constructor
  · rintro ⟨prepared, hprepare, hsum⟩
    obtain ⟨index, assembly, terminals, factor, hindex, hassembly, _, _, rfl⟩ :=
      prepare_eq_ok hprepare
    rw [sumOfElements_iff] at hsum
    constructor
    case inRange =>
      intro index' hindex'
      rw [hindex, Except.ok.injEq] at hindex'
      exact hindex' ▸ (assemble_deficit hassembly).1
    case cancels =>
      intro index' hindex'
      rw [hindex, Except.ok.injEq] at hindex'
      subst hindex'
      intro i j
      have hget := passive_get hassembly i j
      rw [hsum i j] at hget
      exact left_eq_add.mp hget
  · rintro ⟨hrange, hcancels⟩
    have hsafe : Safe (prepare (F := ℝ) inst) := by
      simp only [prepare, safe_bind, safe_lift, safe_ok, true_and, implies_true, and_true,
        lift_eq_ok]
      intro _ _ index hindex
      exact safe_assemble (hrange index hindex)
    cases hprepare : prepare (F := ℝ) inst with
    | error failure =>
      rw [hprepare] at hsafe haccepted
      cases failure with
      | error message => exact absurd rfl (haccepted message)
      | missed => exact absurd hsafe id
      | unbounded => exact absurd hsafe id
      | underflow => exact absurd hsafe id
    | ok prepared =>
      obtain ⟨index, assembly, terminals, factor, hindex, hassembly, _, _, rfl⟩ :=
        prepare_eq_ok hprepare
      refine ⟨_, rfl, sumOfElements_iff.mpr ?_⟩
      intro i j
      rw [passive_get hassembly, hcancels index hindex, add_zero]

end Main

end Exact

/-! ### A straight bank, and two that are not -/

section Witness

@[reducible] def noText : DecimalText ℝ := ⟨fun _ => "0"⟩

attribute [local instance] noDevices keepNothing noText

theorem matrix_is_sum_of_elements_iff_straight :
    (∃ prepared, prepare (F := ℝ) (bankInstance [bank] ["a", "b", "c", "n"]) = .ok prepared ∧
      SumOfElements prepared) ↔ PhasesInPlace (bankInstance [bank] ["a", "b", "c", "n"]) := by
  apply matrix_is_sum_of_elements_iff
  intro message
  have hnew : NetworkIndex.new (bankNetwork [bank] ["a", "b", "c", "n"]) = .ok straightIndex := rfl
  have ha : straightIndex.resolve "bus" "a" = .ok (0 : Fin 4) := rfl
  obtain ⟨prepared, hprepared⟩ := exists_prepare_bank hnew ha stamp_straight
  rw [hprepared]
  exact nofun

/-- A phase at the fifth terminal of the network is out of range. Behind a neutral that comes
first, the phases are written in the rows that follow theirs. -/
theorem wye_capacitor_is_displaced :
    prepare (F := ℝ) (bankInstance [bank] ["n", "g", "a", "b", "c"]) = .error .missed ∧
    ∃ prepared, prepare (F := ℝ) (bankInstance [bank] ["n", "a", "b", "c"]) = .ok prepared ∧
      ¬ SumOfElements prepared := by
  constructor
  · have hnew : NetworkIndex.new (bankNetwork [bank] ["n", "g", "a", "b", "c"]) =
        .ok displacedIndex := rfl
    have ha : displacedIndex.resolve "bus" "a" = .ok (2 : Fin 5) := rfl
    rw [prepare_bank _ _ hnew ha, List.mapM_cons, stamp_displaced]
    rfl
  · have hnew : NetworkIndex.new (bankNetwork [bank] ["n", "a", "b", "c"]) = .ok shiftedIndex := rfl
    have ha : shiftedIndex.resolve "bus" "a" = .ok (1 : Fin 4) := rfl
    obtain ⟨prepared, hprepared⟩ := exists_prepare_bank hnew ha stamp_shifted
    refine ⟨prepared, hprepared, ?_⟩
    intro hsum
    obtain ⟨index, assembly, terminals, factor, hindex, hassembly, _, _, rfl⟩ :=
      prepare_eq_ok hprepared
    obtain rfl : shiftedIndex = index := Except.ok.inj (hnew.symm.trans hindex)
    have hget := passive_get hassembly (1 : Fin 4) (1 : Fin 4)
    have hzero := left_eq_add.mp ((sumOfElements_iff.mp hsum _ _).symm.trans hget)
    rw [bankInstance, bankNetwork, List.map_singleton, List.sum_singleton] at hzero
    exact displacement_shifted hzero

end Witness

end Tellegen.Multiconductor
