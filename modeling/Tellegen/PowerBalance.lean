import Tellegen.Lib.Guarantee
import Tellegen.OperatingViews

/-!
The power balance of a summary. In exact arithmetic, the power of a pass over
ports is a sum over terminals of voltage times conjugate current; the currents
of the matrix are those of the ports and what the written blocks of wye
capacitors displace, and a terminal that no source prescribes is at zero
voltage or unknown.
-/

set_option linter.unusedSectionVars false

open Binary64 Guarantee Outcome

namespace Tellegen.Multiconductor

section Exact

variable [DecimalText ℝ] [SparseLu ℝ] {n : ℕ}

/-! ### Powers of currents -/

/-- The power of currents at the terminals of a network. -/
noncomputable def powerOf (voltage current : Voltage ℝ n) : Complex64 ℝ :=
  ∑ i, voltage i * (current i).conj

theorem powerOf_add (voltage first second : Voltage ℝ n) :
    (powerOf voltage fun i => first i + second i) =
      powerOf voltage first + powerOf voltage second := by
  simp only [powerOf, Complex64.conj_add, mul_add, Finset.sum_add_distrib]

@[simp] theorem powerOf_zero (voltage : Voltage ℝ n) : (powerOf voltage fun _ => 0) = 0 := by
  simp [powerOf]

theorem powerOf_update (voltage current : Voltage ℝ n) (i : Fin n) (x : Complex64 ℝ) :
    powerOf voltage (Function.update current i (current i + x)) =
      powerOf voltage current + voltage i * x.conj := by
  have hsingle : powerOf voltage (fun j => if j = i then x else 0) = voltage i * x.conj := by
    rw [powerOf, Finset.sum_eq_single i]
    · rw [if_pos rfl]
    · intro j _ hne
      rw [if_neg hne, Complex64.conj_zero, mul_zero]
    · intro hmem
      exact absurd (Finset.mem_univ i) hmem
  rw [← hsingle, ← powerOf_add]
  congr 1
  funext j
  by_cases hj : j = i
  · subst hj
    rw [Function.update_self, if_pos rfl]
  · rw [Function.update_of_ne hj, if_neg hj, add_zero]

theorem powerOf_listSum {α : Type} (voltage : Voltage ℝ n) (l : List α)
    (current : α → Voltage ℝ n) :
    (powerOf voltage fun i => (l.map fun a => current a i).sum) =
      (l.map fun a => powerOf voltage (current a)).sum := by
  induction l with
  | nil => simp
  | cons a rest ih =>
    simp only [List.map_cons, List.sum_cons]
    rw [powerOf_add, ih]

theorem foldl_add_eq {α : Type} (f : α → Complex64 ℝ) (l : List α) (start : Complex64 ℝ) :
    l.foldl (fun total a => total + f a) start = start + (l.map f).sum := by
  induction l generalizing start with
  | nil => simp
  | cons a rest ih => rw [List.foldl_cons, ih, List.map_cons, List.sum_cons, add_assoc]

/-! ### The ports of the loads -/

variable {prepared : PreparedNetwork ℝ}

theorem addBranch_power (voltage : Voltage ℝ prepared.index.size)
    (load : BranchLoad ℝ prepared.index.size) (branch : Fin load.branches)
    (current : Complex64 ℝ) (incidence : Incidence ℝ prepared.index.size)
    (total : Voltage ℝ prepared.index.size) :
    powerOf voltage (BranchLoad.addBranch total incidence current) =
      powerOf voltage total + ((incidence.map (loadPort prepared voltage load branch current)).map
        McElementPort.powerIntoElement).sum := by
  induction incidence generalizing total with
  | nil => simp [BranchLoad.addBranch]
  | cons place rest ih =>
    obtain ⟨i, c⟩ := place
    change powerOf voltage (BranchLoad.addBranch _ rest current) = _
    rw [ih, powerOf_update, List.map_cons, List.map_cons, List.sum_cons, add_assoc]
    rfl

theorem addBranches_power {options : McPfOptions ℝ} {voltage : Voltage ℝ prepared.index.size}
    {load : BranchLoad ℝ prepared.index.size} {branches : List (Fin load.branches)}
    {blocks : List (List (McElementPort ℝ))}
    (hblocks : branches.mapM (branchPorts prepared options voltage load) = .ok blocks)
    {total final : Voltage ℝ prepared.index.size}
    (hfinal : branches.foldlM (fun result branch => do
      let current ← load.branchCurrent branch voltage options
      (.ok (BranchLoad.addBranch result (load.incidence branch) current) : Except String _)) total =
        .ok final) :
    powerOf voltage final =
      powerOf voltage total + (blocks.flatten.map McElementPort.powerIntoElement).sum := by
  induction branches generalizing total blocks with
  | nil =>
    obtain rfl := Except.ok.inj hblocks
    obtain rfl := Except.ok.inj hfinal
    simp
  | cons branch rest ih =>
    simp only [List.mapM_cons, bind_eq_ok, pure_eq_ok, branchPorts, Except.ok.injEq] at hblocks
    simp only [List.foldlM_cons, bind_eq_ok, Except.ok.injEq] at hfinal
    obtain ⟨_, ⟨current, hcurrent, rfl⟩, others, hothers, rfl⟩ := hblocks
    obtain ⟨_, ⟨current', hcurrent', rfl⟩, hrest⟩ := hfinal
    obtain rfl := Except.ok.inj (hcurrent.symm.trans hcurrent')
    rw [ih hothers hrest, addBranch_power voltage load branch, List.flatten_cons, List.map_append,
      List.sum_append, add_assoc]

theorem addLoads_power {options : McPfOptions ℝ} {voltage : Voltage ℝ prepared.index.size}
    {loads : List (BranchLoad ℝ prepared.index.size)} {blocks : List (List (McElementPort ℝ))}
    (hblocks : loads.mapM (loadPorts prepared options voltage) = .ok blocks)
    {total final : Voltage ℝ prepared.index.size}
    (hfinal : loads.foldlM (fun current load => load.addCurrent voltage options current) total =
      .ok final) :
    powerOf voltage final =
      powerOf voltage total + (blocks.flatten.map McElementPort.powerIntoElement).sum := by
  induction loads generalizing total blocks with
  | nil =>
    obtain rfl := Except.ok.inj hblocks
    obtain rfl := Except.ok.inj hfinal
    simp
  | cons load rest ih =>
    simp only [List.mapM_cons, bind_eq_ok, pure_eq_ok, loadPorts, Except.ok.injEq] at hblocks
    simp only [List.foldlM_cons, bind_eq_ok] at hfinal
    obtain ⟨_, ⟨ports, hports, rfl⟩, others, hothers, rfl⟩ := hblocks
    obtain ⟨next, hnext, hrest⟩ := hfinal
    rw [ih hothers hrest, addBranches_power hports hnext, List.flatten_cons, List.map_append,
      List.sum_append, add_assoc]

noncomputable def McPfResult.loadPower (result : McPfResult ℝ) : Complex64 ℝ :=
  ((result.elementPorts.filter fun port => port.kind = "load").map
    McElementPort.powerIntoElement).sum

theorem filter_loads (hnamed : Named prepared) {options : McPfOptions ℝ}
    {voltage : Voltage ℝ prepared.index.size} {loads : List (List (McElementPort ℝ))}
    (h : prepared.loads.mapM (loadPorts prepared options voltage) = .ok loads) :
    ((loads.flatten ++ prepared.elements.flatMap (passivePorts prepared voltage)).filter
      fun port => port.kind = "load") = loads.flatten := by
  have hpassive : ((prepared.elements.flatMap (passivePorts prepared voltage)).filter
      fun port => port.kind = "load") = [] := by
    rw [List.filter_eq_nil_iff]
    intro port hport
    obtain ⟨element, helement, hmem⟩ := List.mem_flatMap.mp hport
    rw [(passivePorts_kind port hmem).1, decide_eq_true_iff]
    exact hnamed element helement
  rw [List.filter_append, hpassive, List.append_nil, List.filter_eq_self]
  intro port hport
  obtain ⟨ports, hports, hmem⟩ := List.mem_flatten.mp hport
  obtain ⟨load, -, hload⟩ := forall₂_right (forall₂_of_mapM_ok h) hports
  exact decide_eq_true (loadPorts_kind hload port hmem).1

theorem loadPower_eq (hnamed : Named prepared) {options : McPfOptions ℝ}
    {state : FixedPoint ℝ prepared.index.size} {result : McPfResult ℝ}
    (hload : totalLoadCurrent prepared state.voltage options = .ok state.loadCurrent)
    (hresult : buildResult prepared options state = .ok result) :
    result.loadPower = powerOf state.voltage state.loadCurrent := by
  obtain ⟨loads, -, hloads, -, hports, -, -, -⟩ := buildResult_eq_ok hresult
  rw [McPfResult.loadPower, hports, filter_loads hnamed hloads, addLoads_power hloads hload,
    powerOf_zero, zero_add]

/-! ### The ports of the elements -/

theorem portSum_power (voltage : Voltage ℝ prepared.index.size)
    (element : PreparedElement ℝ prepared.index.size) :
    powerOf voltage (element.portSum voltage) =
      ((passivePorts prepared voltage element).map McElementPort.powerIntoElement).sum := by
  have hrows : ((passivePorts prepared voltage element).map McElementPort.powerIntoElement).sum =
      ∑ row, voltage (element.terminals row) *
        (elementPortCurrent element row (element.portVoltages voltage)).conj := by
    rw [Fin.sum_univ_def, passivePorts, List.map_map]
    rfl
  rw [hrows, powerOf]
  simp only [PreparedElement.portSum, Complex64.conj_sum, Finset.mul_sum]
  rw [Finset.sum_comm]
  apply Finset.sum_congr rfl
  intro row _
  rw [Finset.sum_eq_single (element.terminals row)]
  · rw [if_pos rfl]
  · intro i _ hne
    rw [if_neg hne.symm, Complex64.conj_zero, mul_zero]
  · intro hmem
    exact absurd (Finset.mem_univ _) hmem

theorem passiveLoss_eq (hnamed : Named prepared) {options : McPfOptions ℝ}
    {state : FixedPoint ℝ prepared.index.size} {result : McPfResult ℝ}
    (hresult : buildResult prepared options state = .ok result) :
    result.passiveLoss = powerOf state.voltage fun i =>
      (prepared.elements.map fun element => element.portSum state.voltage i).sum := by
  obtain ⟨loads, -, hloads, -, hports, -, -, -⟩ := buildResult_eq_ok hresult
  rw [McPfResult.passiveLoss, hports, filter_ports hnamed hloads, foldl_add_eq, zero_add,
    powerOf_listSum]
  induction prepared.elements with
  | nil => rfl
  | cons element rest ih =>
    rw [List.flatMap_cons, List.map_append, List.sum_append, List.map_cons, List.sum_cons,
      portSum_power, ih]

/-! ### Terminals that sources hold -/

section Prepare

variable {T : Type} {index : NetworkIndex}

def resolved (index : NetworkIndex) (bus : String) (terminals : List String) :
    List (Fin index.size) :=
  terminals.filterMap fun terminal => (index.resolve bus terminal).toOption

/-- The terminals that the sources of an instance prescribe, at the bus of the first row of their
name. -/
def heldTerminals (index : NetworkIndex) (inst : McAcPfInstance ℝ T) : List (Fin index.size) :=
  inst.sources.flatMap fun source =>
    (sourceRow inst.network source.source).elim [] fun row =>
      resolved index row.bus source.terminals

/-- The terminals of the rows of a network, by the first prescribed voltage of their name. -/
def listedTerminals (index : NetworkIndex) (inst : McAcPfInstance ℝ T) : List (Fin index.size) :=
  inst.network.sources.flatMap fun row =>
    (inst.sources.find? fun source => source.source = row.name).elim [] fun source =>
      resolved index row.bus source.terminals

/-- Terminals that are prescribed, each once. All others that are fixed are at zero. -/
structure Prescribes (state : Prescribed ℝ index.size) (held : List (Fin index.size)) : Prop where
  terminals : state.terminals.Perm held
  nodup : state.terminals.Nodup
  fixed : ∀ i ∈ state.terminals, (state.fixed i).isSome
  grounded : ∀ i, i ∉ state.terminals → ∀ value, state.fixed i = some value → value = 0

theorem groundTerminals_prescribes {network : MulticonductorNetwork ℝ T} {fixed : Fixed ℝ index.size}
    (h : groundTerminals index network = .ok fixed) : Prescribes ⟨fixed, []⟩ [] := by
  have hzero : Guarantees (fun fixed : Fixed ℝ index.size => ∀ i value, fixed i = some value → value = 0)
      (fun _ => True) (groundTerminals index network) := by
    apply Guarantees.foldlM_keep
    · intro name _ start hstart
      apply guarantees_of_ok
      intro next hnext
      simp only [bind_eq_ok, Except.ok.injEq] at hnext
      obtain ⟨i, -, rfl⟩ := hnext
      intro j value hvalue
      by_cases hj : j = i
      · subst hj
        rw [Function.update_self] at hvalue
        exact (Option.some.inj hvalue).symm
      · rw [Function.update_of_ne hj] at hvalue
        exact hstart j value hvalue
    · simp
  constructor
  case terminals => exact .refl _
  case nodup => exact List.nodup_nil
  case fixed => simp
  case grounded => exact fun i _ => hzero.of_ok h i

theorem prescribeTerminal_eq_ok {network : MulticonductorNetwork ℝ T} {source terminal : String}
    {state next : Prescribed ℝ index.size} {mag angle : ℝ}
    (h : prescribeTerminal index network source state terminal mag angle = .ok next) :
    ∃ row i, sourceRow network source = some row ∧ index.resolve row.bus terminal = .ok i ∧
      i ∉ state.terminals ∧ next.terminals = i :: state.terminals ∧
      (next.fixed = state.fixed ∧ (state.fixed i).isSome ∨
        ∃ value, next.fixed = Function.update state.fixed i (some value)) := by
  unfold prescribeTerminal at h
  rw [ite_error_eq_ok] at h
  obtain ⟨-, h⟩ := h
  split at h
  case h_1 => cases h
  case h_2 row hrow =>
    split at h
    case h_1 => cases h
    case h_2 =>
      simp only [bind_eq_ok, ite_error_eq_ok] at h
      obtain ⟨i, hi, hnew, h⟩ := h
      refine ⟨row, i, hrow, hi, hnew, ?_⟩
      split at h
      case h_1 previous hprevious =>
        rw [ite_error_eq_ok] at h
        obtain rfl := Except.ok.inj h.2
        exact ⟨rfl, Or.inl ⟨rfl, by rw [hprevious]; rfl⟩⟩
      case h_2 =>
        obtain rfl := Except.ok.inj h
        exact ⟨rfl, Or.inr ⟨_, rfl⟩⟩

theorem prescribeTerminal_prescribes {network : MulticonductorNetwork ℝ T}
    {source terminal : String} {state next : Prescribed ℝ index.size} {mag angle : ℝ}
    (h : prescribeTerminal index network source state terminal mag angle = .ok next)
    {held : List (Fin index.size)} (hstate : Prescribes state held) :
    Prescribes next (held ++ (sourceRow network source).elim [] fun row =>
      resolved index row.bus [terminal]) := by
  obtain ⟨row, i, hrow, hi, hnew, hterminals, hfixed⟩ := prescribeTerminal_eq_ok h
  have hresolved : ((sourceRow network source).elim [] fun row =>
      resolved index row.bus [terminal]) = [i] := by
    rw [hrow, Option.elim_some, resolved, List.filterMap_cons, hi]
    rfl
  rw [hresolved]
  constructor
  case terminals =>
    rw [hterminals]
    exact (List.Perm.cons i hstate.terminals).trans (List.perm_append_singleton i held).symm
  case nodup =>
    rw [hterminals]
    exact List.nodup_cons.mpr ⟨hnew, hstate.nodup⟩
  case fixed =>
    intro j hj
    rw [hterminals] at hj
    rcases hfixed with ⟨hsame, hsome⟩ | ⟨value, hupdate⟩
    · rw [hsame]
      rcases List.mem_cons.mp hj with rfl | hj
      · exact hsome
      · exact hstate.fixed j hj
    · rw [hupdate]
      by_cases hji : j = i
      · subst hji
        rw [Function.update_self]
        rfl
      · rw [Function.update_of_ne hji]
        exact hstate.fixed j ((List.mem_cons.mp hj).resolve_left hji)
  case grounded =>
    intro j hj value hvalue
    rw [hterminals] at hj
    rw [List.mem_cons, not_or] at hj
    obtain ⟨hji, hj⟩ := hj
    apply hstate.grounded j hj value
    rcases hfixed with ⟨hsame, -⟩ | ⟨_, hupdate⟩
    · rw [← hsame]
      exact hvalue
    · rw [hupdate, Function.update_of_ne hji] at hvalue
      exact hvalue

theorem prescribeSource_prescribes {network : MulticonductorNetwork ℝ T}
    {source : PrescribedSourceVoltage ℝ} {state next : Prescribed ℝ index.size}
    (h : prescribeSource index network state source = .ok next) {held : List (Fin index.size)}
    (hstate : Prescribes state held) :
    Prescribes next (held ++ (sourceRow network source.source).elim [] fun row =>
      resolved index row.bus source.terminals) := by
  have hrun : ∀ (parts : List (String × ℝ × ℝ)) (state next : Prescribed ℝ index.size)
      (held : List (Fin index.size)),
      parts.foldlM (fun state (terminal, mag, angle) =>
        prescribeTerminal index network source.source state terminal mag angle) state = .ok next →
      Prescribes state held →
      Prescribes next (held ++ (sourceRow network source.source).elim [] fun row =>
        resolved index row.bus (parts.map Prod.fst)) := by
    intro parts
    induction parts with
    | nil =>
      intro state next held hnext hstate
      obtain rfl := Except.ok.inj hnext
      cases sourceRow network source.source <;> simpa [resolved] using hstate
    | cons part rest ih =>
      intro state next held hnext hstate
      simp only [List.foldlM_cons, bind_eq_ok] at hnext
      obtain ⟨middle, hmiddle, hrest⟩ := hnext
      have hlast := ih _ _ _ hrest (prescribeTerminal_prescribes hmiddle hstate)
      obtain ⟨row, -, hrow, -⟩ := prescribeTerminal_eq_ok hmiddle
      simp only [hrow, Option.elim_some] at hlast ⊢
      rw [List.append_assoc] at hlast
      rw [List.map_cons, ← List.singleton_append, resolved, List.filterMap_append]
      exact hlast
  rw [prescribeSource, ite_error_eq_ok] at h
  have hlengths := not_or.mp h.1
  rw [not_not, not_not] at hlengths
  have hnames : (source.terminals.zip (source.vMagnitude.zip source.vAngle)).map Prod.fst =
      source.terminals := by
    apply List.map_fst_zip
    rw [List.length_zip]
    omega
  have hlast := hrun _ _ _ _ h.2 hstate
  rw [hnames] at hlast
  exact hlast

theorem prescribe_prescribes {network : MulticonductorNetwork ℝ T}
    {sources : List (PrescribedSourceVoltage ℝ)} {state next : Prescribed ℝ index.size}
    (h : sources.foldlM (prescribeSource index network) state = .ok next)
    {held : List (Fin index.size)} (hstate : Prescribes state held) :
    Prescribes next (held ++ sources.flatMap fun source =>
      (sourceRow network source.source).elim [] fun row =>
        resolved index row.bus source.terminals) := by
  induction sources generalizing state held with
  | nil =>
    obtain rfl := Except.ok.inj h
    rw [List.flatMap_nil, List.append_nil]
    exact hstate
  | cons source rest ih =>
    simp only [List.foldlM_cons, bind_eq_ok] at h
    obtain ⟨middle, hmiddle, hrest⟩ := h
    rw [List.flatMap_cons, ← List.append_assoc]
    exact ih hrest (prescribeSource_prescribes hmiddle hstate)

theorem groundNeutral_prescribes {fixed next : Fixed ℝ index.size} {name : String × String}
    (h : groundNeutral index fixed name = .ok next) {terminals held : List (Fin index.size)}
    (hstate : Prescribes ⟨fixed, terminals⟩ held) : Prescribes ⟨next, terminals⟩ held := by
  simp only [groundNeutral, bind_eq_ok] at h
  obtain ⟨i, -, h⟩ := h
  split at h
  case h_1 =>
    rw [ite_error_eq_ok] at h
    obtain rfl := Except.ok.inj h.2
    exact hstate
  case h_2 hfree =>
    obtain rfl := Except.ok.inj h
    refine ⟨hstate.terminals, hstate.nodup, ?_, ?_⟩
    · intro j hj
      have hsome : (fixed j).isSome := hstate.fixed j hj
      have hji : j ≠ i := by
        rintro rfl
        rw [hfree] at hsome
        cases hsome
      change (Function.update fixed i (some 0) j).isSome
      rw [Function.update_of_ne hji]
      exact hsome
    · intro j hj value hvalue
      change Function.update fixed i (some 0) j = some value at hvalue
      by_cases hji : j = i
      · subst hji
        rw [Function.update_self] at hvalue
        exact (Option.some.inj hvalue).symm
      · rw [Function.update_of_ne hji] at hvalue
        exact hstate.grounded j hj value hvalue

theorem groundNeutrals_prescribes {names : List (String × String)} {fixed next : Fixed ℝ index.size}
    (h : names.foldlM (groundNeutral index) fixed = .ok next)
    {terminals held : List (Fin index.size)} (hstate : Prescribes ⟨fixed, terminals⟩ held) :
    Prescribes ⟨next, terminals⟩ held := by
  induction names generalizing fixed with
  | nil =>
    obtain rfl := Except.ok.inj h
    exact hstate
  | cons name rest ih =>
    simp only [List.foldlM_cons, bind_eq_ok] at h
    obtain ⟨middle, hmiddle, hrest⟩ := h
    exact ih hrest (groundNeutral_prescribes hmiddle hstate)

variable [DeviceModels ℝ T]

theorem stampTransformers_prescribes {transformers : List (DistTransformer T)}
    {state final : Fixed ℝ index.size × List (Stamp ℝ index.size)}
    (h : transformers.foldlM (stampTransformer index) state = .ok final)
    {terminals held : List (Fin index.size)} (hstate : Prescribes ⟨state.1, terminals⟩ held) :
    Prescribes ⟨final.1, terminals⟩ held := by
  induction transformers generalizing state with
  | nil =>
    obtain rfl := Except.ok.inj h
    exact hstate
  | cons transformer rest ih =>
    simp only [List.foldlM_cons, bind_eq_ok] at h
    obtain ⟨next, hnext, hrest⟩ := h
    simp only [stampTransformer, bind_eq_ok, Except.ok.injEq] at hnext
    obtain ⟨_, _, fixed, hfixed, _, _, _, _, rfl⟩ := hnext
    exact ih hrest (groundNeutrals_prescribes hfixed hstate)

theorem assemble_prescribes {inst : McAcPfInstance ℝ T} {assembly : Assembly ℝ index.size}
    (h : assemble index inst = .ok assembly) :
    ∃ terminals, Prescribes ⟨assembly.fixed, terminals⟩ (heldTerminals index inst) := by
  obtain ⟨parts⟩ := assemble_eq_ok h
  have hprescribed := prescribe_prescribes parts.prescribe
    (groundTerminals_prescribes parts.groundTerminals)
  rw [List.nil_append] at hprescribed
  exact ⟨parts.prescribed.terminals,
    stampTransformers_prescribes parts.stampTransformers hprescribed⟩

theorem sourceTerminals_listed {inst : McAcPfInstance ℝ T}
    {terminals : List (SourceTerminal index.size)}
    (h : sourceTerminals index inst = .ok terminals) :
    terminals.map SourceTerminal.index = listedTerminals index inst := by
  simp only [sourceTerminals, bind_eq_ok, Except.ok.injEq] at h
  obtain ⟨rows, hrows, rfl⟩ := h
  rw [listedTerminals]
  have hforall := forall₂_of_mapM_ok hrows
  clear hrows
  generalize inst.network.sources = network at hforall
  induction hforall with
  | nil => rfl
  | @cons row found _ _ hfound _ ih =>
    rw [List.flatten_cons, List.map_append, ih, List.flatMap_cons]
    congr 1
    unfold rowTerminals at hfound
    split at hfound
    case h_1 => cases hfound
    case h_2 source hsource =>
      rw [hsource, Option.elim_some]
      have hterminals := forall₂_of_mapM_ok hfound
      clear hfound hsource
      generalize source.terminals = names at hterminals
      induction hterminals with
      | nil => rfl
      | cons hterminal _ ih =>
        simp only [bind_eq_ok, Except.ok.injEq] at hterminal
        obtain ⟨i, hi, rfl⟩ := hterminal
        rw [List.map_cons, ih, resolved, resolved, List.filterMap_cons, hi]
        rfl

end Prepare

/-! ### The balance -/

section Balance

variable {T : Type}

/-- Rows of the network and prescribed voltages of one name meet, so that the rows list the
terminals that are held. -/
def SourcesAgree (index : NetworkIndex) (inst : McAcPfInstance ℝ T) : Prop :=
  (listedTerminals index inst).Perm (heldTerminals index inst)

/-- The power of what the written blocks of wye capacitors displace. -/
noncomputable def displacedPower (index : NetworkIndex) (inst : McAcPfInstance ℝ T)
    (voltage : Voltage ℝ index.size) : Complex64 ℝ :=
  powerOf voltage fun i =>
    ∑ j, (inst.network.capacitors.map fun capacitor => displacement index capacitor i j).sum *
      voltage j

noncomputable def residualCurrent (prepared : PreparedNetwork ℝ)
    (state : FixedPoint ℝ prepared.index.size) (i : prepared.Terminals) : Complex64 ℝ :=
  passiveCurrent prepared state.voltage i + state.loadCurrent i

/-- The reported source power is what the elements and the loads take, less what is left over at
unknown terminals; and each terminal that a source holds is counted once. -/
structure Balances (inst : McAcPfInstance ℝ T) (prepared : PreparedNetwork ℝ)
    (state : FixedPoint ℝ prepared.index.size) (summary : McPfSummary ℝ)
    (result : McPfResult ℝ) : Prop where
  counted : (prepared.sourceTerminals.map SourceTerminal.index).Perm
    (heldTerminals prepared.index inst)
  power : summary.sourcePowerIntoNetwork = summary.passiveLoss + result.loadPower -
    (prepared.unknown.map fun i =>
      state.voltage i * (residualCurrent prepared state i).conj).sum

/-- A sum over all terminals is that over the unknown and the held ones, if nothing is left at the
others. -/
theorem sum_eq_of_partition {f : Fin n → Complex64 ℝ} {unknown held : List (Fin n)}
    (hnodup : (unknown ++ held).Nodup) (hrest : ∀ i, i ∉ unknown → i ∉ held → f i = 0) :
    ∑ i, f i = (unknown.map f).sum + (held.map f).sum := by
  rw [← List.sum_append, ← List.map_append, ← List.sum_toFinset f hnodup]
  symm
  apply Finset.sum_subset (Finset.subset_univ _)
  intro i _ hi
  rw [List.mem_toFinset, List.mem_append, not_or] at hi
  exact hrest i hi.1 hi.2

variable [DeviceModels ℝ T]

theorem passiveCurrent_eq {index : NetworkIndex} {inst : McAcPfInstance ℝ T}
    {assembly : Assembly ℝ index.size} (h : assemble index inst = .ok assembly)
    (terminals : List (SourceTerminal index.size))
    (factor : Option (RetainedComplexLu ℝ assembly.unknown.length))
    (voltage : Voltage ℝ index.size) (i : Fin index.size) :
    passiveCurrent (assembly.prepared terminals factor) voltage i =
      ((assembly.stamps.map Stamp.element).map fun element => element.portSum voltage i).sum +
        ∑ j, (inst.network.capacitors.map fun capacitor =>
          displacement index capacitor i j).sum * voltage j := by
  change (CsrMatrix.fromStamped assembly.passive).rowMul i voltage = _
  rw [CsrMatrix.rowMul_fromStamped, ← sum_placed_mul, ← Finset.sum_add_distrib]
  apply Finset.sum_congr rfl
  intro j _
  rw [passive_get h, add_mul, List.map_map]
  rfl

/-- What preparation fixes of the terminals and the currents of a network. -/
structure Accounts (inst : McAcPfInstance ℝ T) (base : PreparedNetwork ℝ) : Prop where
  nodup : (base.unknown ++ heldTerminals base.index inst).Nodup
  grounded : ∀ i, i ∉ base.unknown → i ∉ heldTerminals base.index inst → base.fixed i = some 0
  current : ∀ voltage i, passiveCurrent base voltage i =
    (base.elements.map fun element => element.portSum voltage i).sum +
      ∑ j, (inst.network.capacitors.map fun capacitor =>
        displacement base.index capacitor i j).sum * voltage j
  listed : base.sourceTerminals.map SourceTerminal.index = listedTerminals base.index inst

theorem accounts_of_prepare {inst : McAcPfInstance ℝ T} {base : PreparedNetwork ℝ}
    (h : prepare inst = .ok base) : Accounts inst base := by
  obtain ⟨index, assembly, terminals, factor, -, hassembly, hterminals, -, rfl⟩ :=
    prepare_eq_ok h
  obtain ⟨held, hheld⟩ := assemble_prescribes hassembly
  constructor
  case nodup =>
    change (assembly.unknown ++ heldTerminals index inst).Nodup
    rw [List.nodup_append]
    refine ⟨(List.nodup_finRange _).filter _, hheld.terminals.nodup hheld.nodup, ?_⟩
    rintro i hunknown j hj rfl
    have hsome : (assembly.fixed i).isSome := hheld.fixed i (hheld.terminals.mem_iff.mpr hj)
    rw [(Assembly.mem_unknown i).mp hunknown] at hsome
    cases hsome
  case grounded =>
    intro (i : Fin index.size) (hunknown : i ∉ assembly.unknown) hnot
    change assembly.fixed i = some 0
    rw [Assembly.mem_unknown] at hunknown
    obtain ⟨value, hvalue⟩ := Option.ne_none_iff_exists'.mp hunknown
    rw [hvalue, hheld.grounded i (fun h => hnot (hheld.terminals.mem_iff.mp h)) value hvalue]
  case current => exact passiveCurrent_eq hassembly terminals factor
  case listed => exact sourceTerminals_listed hterminals

/-- What the summary reports of the sources, when it counts the terminals that they hold. -/
theorem sourcePower_eq {inst : McAcPfInstance ℝ T} {base : PreparedNetwork ℝ}
    (haccounts : Accounts inst base) (hbase : Named base)
    (loads : List (BranchLoad ℝ base.index.size)) {options : McPfOptions ℝ}
    {state : FixedPoint ℝ base.index.size} {result : McPfResult ℝ}
    (hholds : HoldsFixed base state.voltage)
    (hload : totalLoadCurrent { base with loads := loads } state.voltage options =
      .ok state.loadCurrent)
    (hresult : buildResult { base with loads := loads } options state = .ok result)
    (hcounted : (base.sourceTerminals.map SourceTerminal.index).Perm
      (heldTerminals base.index inst)) :
    result.sourcePower = result.passiveLoss + displacedPower base.index inst state.voltage +
      result.loadPower - (base.unknown.map fun i =>
        state.voltage i * (residualCurrent base state i).conj).sum := by
  have hnamed : Named { base with loads := loads } := hbase
  have hloss := passiveLoss_eq hnamed hresult
  have hloads := loadPower_eq hnamed hload hresult
  obtain ⟨_, _, -, -, -, -, hsources, -⟩ := buildResult_eq_ok hresult
  have hsum : result.sourcePower =
      ((base.sourceTerminals.map SourceTerminal.index).map fun i =>
        state.voltage i * (residualCurrent base state i).conj).sum := by
    rw [McPfResult.sourcePower, hsources, foldl_add_eq, zero_add, List.map_map, List.map_map]
    rfl
  have htotal : powerOf state.voltage (residualCurrent base state) =
      result.passiveLoss + displacedPower base.index inst state.voltage + result.loadPower := by
    rw [hloss, hloads, displacedPower, ← powerOf_add, ← powerOf_add]
    congr 1
    funext i
    rw [residualCurrent, haccounts.current]
  have hsplit : powerOf state.voltage (residualCurrent base state) = _ :=
    sum_eq_of_partition haccounts.nodup fun i hunknown hnot => by
      rw [hholds i 0 (haccounts.grounded i hunknown hnot), zero_mul]
  rw [hsum, (hcounted.map _).sum_eq, eq_sub_iff_add_eq, ← htotal, hsplit, add_comm]

/-- The summary counts each held terminal once and balances exactly when the rows of the sources
meet their prescribed voltages and what wye capacitors displace takes no power. -/
theorem power_balance_iff {inst : McAcPfInstance ℝ T} {base prepared : PreparedNetwork ℝ}
    {edits : List (ℕ × List (Complex64 ℝ))} (hprepare : prepare inst = .ok base)
    (hedits : replaceLoads base edits = .ok prepared) {options : McPfOptions ℝ}
    {state : FixedPoint ℝ prepared.index.size} {solveCount : ℕ} {summary : McPfSummary ℝ}
    {result : McPfResult ℝ} (hholds : HoldsFixed prepared state.voltage)
    (hload : totalLoadCurrent prepared state.voltage options = .ok state.loadCurrent)
    (hresult : buildResult prepared options state = .ok result)
    (hsummary : summarize prepared options state solveCount = .ok summary) :
    Balances inst prepared state summary result ↔
      SourcesAgree prepared.index inst ∧
        displacedPower prepared.index inst state.voltage = 0 := by
  have haccounts := accounts_of_prepare hprepare
  have hbase := named_of_prepare hprepare
  obtain ⟨loads, rfl⟩ := replaceLoads_eq_ok hedits
  have hnamed : Named { base with loads := loads } := hbase
  rw [summarize_eq hnamed, hresult] at hsummary
  obtain rfl := Except.ok.inj hsummary
  have hlisted : SourcesAgree base.index inst ↔
      (base.sourceTerminals.map SourceTerminal.index).Perm (heldTerminals base.index inst) := by
    rw [SourcesAgree, haccounts.listed]
  constructor
  · rintro ⟨hcounted, hpower⟩
    refine ⟨hlisted.mpr hcounted, ?_⟩
    have heq := sourcePower_eq haccounts hbase loads hholds hload hresult hcounted
    have hdisplaced : result.passiveLoss + displacedPower base.index inst state.voltage +
        result.loadPower - (base.unknown.map fun i =>
          state.voltage i * (residualCurrent base state i).conj).sum =
        result.passiveLoss + result.loadPower - (base.unknown.map fun i =>
          state.voltage i * (residualCurrent base state i).conj).sum := heq.symm.trans hpower
    rw [sub_left_inj, add_left_inj] at hdisplaced
    exact left_eq_add.mp hdisplaced.symm
  · rintro ⟨hagree, hdisplaced⟩
    have hcounted := hlisted.mp hagree
    refine ⟨hcounted, ?_⟩
    have heq := sourcePower_eq haccounts hbase loads hholds hload hresult hcounted
    change displacedPower base.index inst state.voltage = 0 at hdisplaced
    rw [hdisplaced, add_zero] at heq
    exact heq

end Balance

end Exact

/-! ### A feeder that balances -/

section Feeder

attribute [local instance] plainDevices noText inverseLu

/-- A point of given voltages and load currents. -/
noncomputable def pointAt {n : ℕ} (voltage loadCurrent : Voltage ℝ n) : FixedPoint ℝ n :=
  { voltage
    loadCurrent
    iterations := 0
    voltageChange := 0
    physicalKclResidual := 0
    scaledKclResidual := 0 }

/-- Of the power at the source, the lamp takes a third after its edit. -/
theorem power_balance_iff_feeder : ∃ base prepared state result summary,
    prepare feeder = .ok base ∧ replaceLoads base [(0, [⟨2, 0⟩])] = .ok prepared ∧
      List.ofFn state.voltage = [1, ⟨1 / 3, 0⟩, 0] ∧
      buildResult prepared unitOptions state = .ok result ∧
      summarize prepared unitOptions state 2 = .ok summary ∧
      Balances feeder prepared state summary result ∧ result.loadPower = ⟨2 / 9, 0⟩ := by
  obtain ⟨stamp, factor, hbase, hedits, -⟩ := exists_prepare_feeder
  let prepared : PreparedNetwork ℝ := feederEdited stamp factor
  let state : FixedPoint ℝ prepared.index.size := pointAt feederVoltage feederCurrent
  have hholds : HoldsFixed prepared state.voltage := feederVoltage_holdsFixed
  have hload : totalLoadCurrent prepared state.voltage unitOptions = .ok state.loadCurrent :=
    totalLoadCurrent_feeder
  obtain ⟨result, hresult⟩ : ∃ result, buildResult prepared unitOptions state = .ok result := by
    apply exists_buildResult
    intro load hmem branch
    obtain rfl := List.mem_singleton.mp hmem
    exact ⟨_, branchCurrent_feederVoltage branch⟩
  have hnamed : Named prepared := by
    have hbaseNamed := named_of_prepare hbase
    exact hbaseNamed
  have hsummary := summarize_eq hnamed unitOptions state 2
  rw [hresult] at hsummary
  have hiff := power_balance_iff hbase hedits hholds hload hresult hsummary
  have hagree : SourcesAgree prepared.index feeder := List.Perm.refl _
  have hdisplaced : displacedPower prepared.index feeder state.voltage = 0 := by
    simp [displacedPower, feederInstance, feederNetwork]
  have hpower : result.loadPower = ⟨2 / 9, 0⟩ := by
    rw [loadPower_eq hnamed hload hresult]
    change ∑ i, feederVoltage i * (feederCurrent i).conj = _
    rw [sum_feeder]
    ext <;> norm_num [feederVoltage, feederCurrent, feederTerminal_eq_iff, last_terminal,
      Complex64.conj]
  exact ⟨_, prepared, state, result, _, hbase, hedits, ofFn_feederVoltage, hresult, hsummary,
    hiff.mpr ⟨hagree, hdisplaced⟩, hpower⟩

end Feeder

/-! ### A bank that does not balance -/

section Witness

attribute [local instance] noDevices noText keepNothing

/-- The second terminal of the shifted bank, which its source holds. -/
def bankTerminal : Fin shiftedIndex.size := (1 : Fin 4)

noncomputable def bankVoltage : Voltage ℝ shiftedIndex.size :=
  fun i => (bankFixed bankTerminal i).getD 0

theorem fromPolar_one : (Complex64.fromPolar 1 0 : Complex64 ℝ) = 1 := by
  ext
  · change (1 : ℝ) * Real.cos 0 = 1
    rw [Real.cos_zero, mul_one]
  · change (1 : ℝ) * Real.sin 0 = 0
    rw [Real.sin_zero, mul_zero]

theorem bankVoltage_eq (i : Fin shiftedIndex.size) :
    bankVoltage i = if i = bankTerminal then 1 else 0 := by
  unfold bankVoltage bankFixed
  split
  case isTrue h => rw [h, Function.update_self, Option.getD_some, fromPolar_one]
  case isFalse h => rw [Function.update_of_ne h, Option.getD_none]

theorem displacedPower_bank (terminals : List String) :
    displacedPower shiftedIndex (bankInstance [bank] terminals) bankVoltage ≠ 0 := by
  have hcurrent : ∀ i, (∑ j, ((bankInstance [bank] terminals).network.capacitors.map fun capacitor =>
      displacement shiftedIndex capacitor i j).sum * bankVoltage j) =
      displacement shiftedIndex bank i bankTerminal := by
    intro i
    have hcapacitors : (bankInstance [bank] terminals).network.capacitors = [bank] := rfl
    rw [Finset.sum_eq_single bankTerminal]
    · rw [hcapacitors, List.map_singleton, List.sum_singleton, bankVoltage_eq, if_pos rfl, mul_one]
    · intro j _ hne
      rw [bankVoltage_eq, if_neg hne, mul_zero]
    · intro hmem
      exact absurd (Finset.mem_univ _) hmem
  have hpower : displacedPower shiftedIndex (bankInstance [bank] terminals) bankVoltage =
      (displacement shiftedIndex bank bankTerminal bankTerminal).conj := by
    rw [displacedPower, powerOf, Finset.sum_eq_single bankTerminal]
    · rw [hcurrent, bankVoltage_eq, if_pos rfl, one_mul]
    · intro i _ hne
      rw [bankVoltage_eq, if_neg hne, zero_mul]
    · intro hmem
      exact absurd (Finset.mem_univ _) hmem
  rw [hpower]
  intro hzero
  have hdisplacement := congrArg Complex64.conj hzero
  rw [Complex64.conj_conj, Complex64.conj_zero] at hdisplacement
  exact displacement_shifted hdisplacement

/-- Behind a neutral that comes first, a wye capacitor takes power that its ports do not. -/
theorem displaced_bank_does_not_balance :
    ∃ base state result summary,
      prepare (bankInstance [bank] ["n", "a", "b", "c"]) = .ok base ∧
      HoldsFixed base state.voltage ∧
      totalLoadCurrent base state.voltage unitOptions = .ok state.loadCurrent ∧
      buildResult base unitOptions state = .ok result ∧
      summarize base unitOptions state 1 = .ok summary ∧
      summary.sourcePowerIntoNetwork ≠ summary.passiveLoss + result.loadPower -
        (base.unknown.map fun i =>
          state.voltage i * (residualCurrent base state i).conj).sum := by
  have hnew : NetworkIndex.new (bankNetwork [bank] ["n", "a", "b", "c"]) = .ok shiftedIndex := rfl
  have ha : shiftedIndex.resolve "bus" "a" = .ok bankTerminal := rfl
  obtain ⟨stamp, hstamp⟩ := stamp_shifted
  obtain ⟨factor, hfactor⟩ := exists_factorRetained
    (Assembly.passive ⟨bankFixed bankTerminal, [stamp], []⟩)
    (Assembly.yref ⟨bankFixed bankTerminal, [stamp], []⟩)
    (Assembly.unknown ⟨bankFixed bankTerminal, [stamp], []⟩)
  have hprepare : prepare (bankInstance [bank] ["n", "a", "b", "c"]) =
      .ok (Assembly.prepared ⟨bankFixed bankTerminal, [stamp], []⟩
        [⟨"grid", "a", bankTerminal⟩] factor) := by
    rw [prepare_bank [bank] _ hnew ha, List.mapM_cons, hstamp]
    simp only [List.mapM_nil, bind, Except.bind, pure, Except.pure, lift, hfactor]
  let base : PreparedNetwork ℝ := Assembly.prepared ⟨bankFixed bankTerminal, [stamp], []⟩
    [⟨"grid", "a", bankTerminal⟩] factor
  let state : FixedPoint ℝ base.index.size := pointAt bankVoltage fun _ => 0
  have hloads : base.loads = [] := rfl
  obtain ⟨result, hresult⟩ : ∃ result, buildResult base unitOptions state = .ok result :=
    exists_buildResult (by simp [hloads])
  have hsummary := summarize_eq (named_of_prepare hprepare) unitOptions state 1
  rw [hresult] at hsummary
  have hholds : HoldsFixed base state.voltage := by
    intro (i : Fin shiftedIndex.size) value (hvalue : bankFixed bankTerminal i = some value)
    change (bankFixed bankTerminal i).getD 0 = value
    rw [hvalue, Option.getD_some]
  have hload : totalLoadCurrent base state.voltage unitOptions = .ok state.loadCurrent := rfl
  refine ⟨base, state, result, _, hprepare, hholds, hload, hresult, hsummary, ?_⟩
  intro hpower
  have hcounted : (base.sourceTerminals.map SourceTerminal.index).Perm
      (heldTerminals base.index (bankInstance [bank] ["n", "a", "b", "c"])) := by
    have hheld : heldTerminals shiftedIndex (bankInstance [bank] ["n", "a", "b", "c"]) =
        [bankTerminal] := rfl
    change [bankTerminal].Perm (heldTerminals shiftedIndex _)
    rw [hheld]
  have heq := sourcePower_eq (accounts_of_prepare hprepare) (named_of_prepare hprepare) []
    hholds hload hresult hcounted
  have hdisplaced : result.passiveLoss +
      displacedPower shiftedIndex (bankInstance [bank] ["n", "a", "b", "c"]) bankVoltage +
        result.loadPower - (base.unknown.map fun i =>
          state.voltage i * (residualCurrent base state i).conj).sum =
      result.passiveLoss + result.loadPower - (base.unknown.map fun i =>
          state.voltage i * (residualCurrent base state i).conj).sum := heq.symm.trans hpower
  rw [sub_left_inj, add_left_inj] at hdisplaced
  exact displacedPower_bank _ (left_eq_add.mp hdisplaced.symm)

end Witness

end Tellegen.Multiconductor
