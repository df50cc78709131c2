import Tellegen.AcPowerFlow
import Tellegen.Lib.Outcome

/-!
An accepted AC power flow against its bus types. The typing, the schedule and
the voltages of one round stay together through the switching loop, and only a
round that switches nothing is accepted.
-/

set_option linter.unusedSectionVars false

open Binary64

namespace Tellegen.Ac

/-- Facts of IEEE doubles about the norm, the tolerance and the angles of a start. A number is
equal to itself, unless it is none. -/
class LawfulNewton (F : Type) [Libm F] : Prop where
  self_of_lt {a b : F} : lt a b = true → eq a a = true
  not_le_of_lt {a b : F} : lt a b = true → le b a = false
  lt_of_not_le {a : F} : eq a a = true → le (tol : F) a = false → lt a tol = true
  not_infinity_lt : lt (Libm.infinity : F) tol = false
  self_zero : eq (0 : F) 0 = true
  self_abs {a : F} : eq a a = true → eq (Binary64.abs a) (Binary64.abs a) = true
  self_max {a b : F} : eq a a = true → eq b b = true →
    eq (Binary64.max a b) (Binary64.max a b) = true
  lt_of_max_lt {a b c : F} : eq a a = true → eq b b = true → lt (Binary64.max a b) c = true →
    lt a c = true ∧ lt b c = true
  finite_zero : isFinite (0 : F) = true
  self_of_finite {a : F} : isFinite a = true → eq a a = true
  sub_self {a : F} : isFinite a = true → a - a = 0
  not_finite_sub_zero {a : F} : isFinite a = false → isFinite (a - 0) = false
  add_zero {a : F} : isFinite a = true → eq (a + 0) a = true

/-! ### Layout -/

section Layout

variable {n : ℕ} {select : Fin n → Bool} {next : ℕ}

/-- The number of selected buses before a position. -/
def before (select : Fin n → Bool) (position : ℕ) : ℕ :=
  (((List.finRange n).take position).filter select).length

theorem before_mono (select : Fin n → Bool) {i j : ℕ} (h : i ≤ j) :
    before select i ≤ before select j := by
  have htake : ((List.finRange n).take i).Sublist ((List.finRange n).take j) :=
    (List.take_prefix_take_left h).sublist
  exact (htake.filter select).length_le

theorem before_succ {b : Fin n} (h : select b = true) :
    before select (b + 1) = before select b + 1 := by
  have hlt : (b : ℕ) < (List.finRange n).length := by
    rw [List.length_finRange]
    exact b.isLt
  have hget : (List.finRange n)[(b : ℕ)] = b := by simp
  rw [before, List.take_succ_eq_append_getElem hlt, hget, List.filter_append, List.length_append]
  simp [before, h]

theorem before_le_count (select : Fin n → Bool) (position : ℕ) :
    before select position ≤ count select :=
  ((List.take_sublist position (List.finRange n)).filter select).length_le

theorem number_eq_some {b : Fin n} {r : ℕ} (h : number select next b = some r) :
    select b = true ∧ r = next + before select b := by
  rw [number] at h
  split at h
  case isTrue hselect => exact ⟨hselect, (Option.some.inj h).symm⟩
  case isFalse => cases h

theorem number_eq_none {b : Fin n} (h : select b = false) : number select next b = none := by
  rw [number, h]
  rfl

theorem number_isSome {b : Fin n} (h : select b = true) :
    number select next b = some (next + before select b) := by
  rw [number, if_pos h]
  rfl

theorem number_lt {b : Fin n} {r : ℕ} (h : number select next b = some r) :
    next ≤ r ∧ r < next + count select := by
  obtain ⟨hselect, rfl⟩ := number_eq_some h
  have hsucc := before_succ hselect
  have hcount := before_le_count select (b + 1)
  omega

theorem number_injective {a b : Fin n} {r : ℕ} (ha : number select next a = some r)
    (hb : number select next b = some r) : a = b := by
  obtain ⟨hselectA, hra⟩ := number_eq_some ha
  obtain ⟨hselectB, hrb⟩ := number_eq_some hb
  have hsuccA := before_succ hselectA
  have hsuccB := before_succ hselectB
  rcases Nat.lt_trichotomy a b with hlt | heq | hgt
  · have hmono := before_mono select (i := a + 1) (j := b) hlt
    omega
  · exact Fin.ext heq
  · have hmono := before_mono select (i := b + 1) (j := a) hgt
    omega

theorem foldl_set_of_mem {α : Type} {k : ℕ} {x : α} {writes : List (ℕ × α)}
    (hall : ∀ y, (k, y) ∈ writes → y = x) {v : List α} (hk : k < v.length)
    (h : (k, x) ∈ writes ∨ v[k]? = some x) :
    (writes.foldl (fun v w => v.set w.1 w.2) v)[k]? = some x := by
  induction writes generalizing v with
  | nil => simpa using h
  | cons w rest ih =>
    obtain ⟨key, value⟩ := w
    have hrest : ∀ y, (k, y) ∈ rest → y = x := fun y hy => hall y (List.mem_cons_of_mem _ hy)
    rw [List.foldl_cons]
    apply ih hrest
    · rwa [List.length_set]
    · by_cases hkey : key = k
      · subst hkey
        obtain rfl := hall value List.mem_cons_self
        exact .inr (List.getElem?_set_self hk)
      · rcases h with hmem | hv
        · rcases List.mem_cons.mp hmem with hhead | htail
          · exact absurd (congrArg Prod.fst hhead).symm hkey
          · exact .inl htail
        · exact .inr (by rw [List.getElem?_set_ne hkey, hv])

end Layout

section Residual

variable {F : Type} [Libm F] {net : AcNetwork F} (pg qg pCalc qCalc : Fin net.n → F)

/-- The entries of the mismatch that a bus writes. -/
def mismatches (layout : AcPfLayout net.n) (b : Fin net.n) : List (ℕ × F) :=
  ((layout.pOf b).toList.map fun row => (row, (pg b - net.pd b) - pCalc b)) ++
    (layout.qOf b).toList.map fun row => (row, (qg b - net.qd b) - qCalc b)

theorem residual_eq (layout : AcPfLayout net.n) :
    layout.residual net pg qg pCalc qCalc =
      ((List.finRange net.n).flatMap (mismatches pg qg pCalc qCalc layout)).foldl
        (fun r w => r.set w.1 w.2) (List.replicate layout.dim 0) := by
  rw [List.foldl_flatMap]
  apply List.foldl_ext
  intro r b _
  simp only [mismatches]
  cases layout.pOf b <;> cases layout.qOf b <;> rfl

variable {kinds : Fin net.n → BusKind}

theorem mem_mismatches {row : ℕ} {x : F}
    (h : (row, x) ∈ (List.finRange net.n).flatMap
      (mismatches pg qg pCalc qCalc (AcPfLayout.withKinds kinds))) :
    ∃ b, (number (nonSlack kinds) 0 b = some row ∧ x = (pg b - net.pd b) - pCalc b) ∨
      (number (isPq kinds) (count (nonSlack kinds)) b = some row ∧
        x = (qg b - net.qd b) - qCalc b) := by
  obtain ⟨b, -, hb⟩ := List.mem_flatMap.mp h
  refine ⟨b, ?_⟩
  rcases List.mem_append.mp hb with hp | hq
  · obtain ⟨other, hother, heq⟩ := List.mem_map.mp hp
    rw [Prod.mk.injEq] at heq
    obtain ⟨rfl, rfl⟩ := heq
    exact .inl ⟨Option.mem_toList.mp hother, rfl⟩
  · obtain ⟨other, hother, heq⟩ := List.mem_map.mp hq
    rw [Prod.mk.injEq] at heq
    obtain ⟨rfl, rfl⟩ := heq
    exact .inr ⟨Option.mem_toList.mp hother, rfl⟩

theorem active_mem_residual {b : Fin net.n} (h : kinds b ≠ .slack) :
    (pg b - net.pd b) - pCalc b ∈
      (AcPfLayout.withKinds kinds).residual net pg qg pCalc qCalc := by
  have hrow : number (nonSlack kinds) 0 b = some (0 + before (nonSlack kinds) b) :=
    number_isSome (decide_eq_true h)
  obtain ⟨-, hlt⟩ := number_lt hrow
  rw [residual_eq]
  apply List.mem_of_getElem?
  apply foldl_set_of_mem (k := 0 + before (nonSlack kinds) b)
  · intro y hy
    obtain ⟨other, ⟨hother, rfl⟩ | ⟨hother, -⟩⟩ := mem_mismatches pg qg pCalc qCalc hy
    · rw [number_injective hrow hother]
    · obtain ⟨hge, -⟩ := number_lt hother
      omega
  · rw [List.length_replicate]
    simp only [AcPfLayout.withKinds]
    omega
  · refine .inl (List.mem_flatMap.mpr ⟨b, List.mem_finRange b, List.mem_append_left _ ?_⟩)
    exact List.mem_map.mpr ⟨_, Option.mem_toList.mpr hrow, rfl⟩

theorem reactive_mem_residual {b : Fin net.n} (h : kinds b = .pq) :
    (qg b - net.qd b) - qCalc b ∈
      (AcPfLayout.withKinds kinds).residual net pg qg pCalc qCalc := by
  have hrow : number (isPq kinds) (count (nonSlack kinds)) b =
      some (count (nonSlack kinds) + before (isPq kinds) b) := number_isSome (decide_eq_true h)
  obtain ⟨-, hlt⟩ := number_lt hrow
  rw [residual_eq]
  apply List.mem_of_getElem?
  apply foldl_set_of_mem (k := count (nonSlack kinds) + before (isPq kinds) b)
  · intro y hy
    obtain ⟨other, ⟨hother, -⟩ | ⟨hother, rfl⟩⟩ := mem_mismatches pg qg pCalc qCalc hy
    · obtain ⟨-, hle⟩ := number_lt hother
      omega
    · rw [number_injective hrow hother]
  · rw [List.length_replicate]
    exact hlt
  · refine .inl (List.mem_flatMap.mpr ⟨b, List.mem_finRange b, List.mem_append_right _ ?_⟩)
    exact List.mem_map.mpr ⟨_, Option.mem_toList.mpr hrow, rfl⟩

end Residual

/-! ### The norm -/

section Norm

variable {F : Type} [Libm F] [LawfulNewton F]

open LawfulNewton

theorem lt_of_normFrom_lt {t norm : F} {v : List F} (hnorm : eq norm norm = true)
    (h : lt (normFrom norm v) t = true) :
    lt norm t = true ∧ ∀ x ∈ v, lt (Binary64.abs x) t = true := by
  induction v generalizing norm with
  | nil => exact ⟨h, by simp⟩
  | cons x rest ih =>
    rw [normFrom] at h
    split at h
    case isTrue hnan =>
      rw [isNan, self_of_lt h] at hnan
      cases hnan
    case isFalse hnumber =>
      have hx : eq x x = true := by simpa [isNan] using hnumber
      obtain ⟨hmax, hrest⟩ := ih (self_max hnorm (self_abs hx)) h
      obtain ⟨hlt, habs⟩ := lt_of_max_lt hnorm (self_abs hx) hmax
      exact ⟨hlt, List.forall_mem_cons.mpr ⟨habs, hrest⟩⟩

theorem lt_of_infNorm_lt {t : F} {v : List F} (h : lt (infNorm v) t = true) :
    ∀ x ∈ v, lt (Binary64.abs x) t = true := (lt_of_normFrom_lt self_zero h).2

end Norm

/-! ### Newton -/

section Newton

variable {F : Type} [Libm F] (f : AcPfFormulation F) (net : AcNetwork F)

/-- What an iterate keeps of the start: it is measured where it stands, and an unknown that has no
column stays where it was. -/
structure Stepped (layout : AcPfLayout net.n) (pg qg vm va : Fin net.n → F)
    (point : Iterate F net.n) : Prop where
  measured : point = measure f net layout pg qg point.vm point.va
  magnitudes : ∀ b, layout.vmOf b = none → point.vm b = vm b
  angles : ∀ b, layout.vaOf b = none → point.va b = va b

variable {f net} {layout : AcPfLayout net.n} {pg qg vm va : Fin net.n → F}

theorem Stepped.backtrack {current next : Iterate F net.n} {dx : ℕ → F}
    (h : Stepped f net layout pg qg vm va current) {rest : ℕ} {alpha : F}
    (hnext : backtrack f net layout pg qg current dx rest alpha = some next) :
    Stepped f net layout pg qg vm va next := by
  induction rest generalizing alpha with
  | zero => cases hnext
  | succ rest ih =>
    simp only [Ac.backtrack] at hnext
    split at hnext
    case isTrue => exact ih hnext
    case isFalse =>
      split at hnext
      case isTrue =>
        obtain rfl := Option.some.inj hnext
        constructor
        case measured => rfl
        case magnitudes =>
          intro b hb
          rw [← h.magnitudes b hb]
          simp only [measure, takeStep, hb]
        case angles =>
          intro b hb
          rw [← h.angles b hb]
          simp only [measure, takeStep, hb]
      case isFalse => exact ih hnext

variable [LinearSolver F]

theorem Stepped.newtonLoop {current : Iterate F net.n}
    (h : Stepped f net layout pg qg vm va current) (rest it : ℕ) :
    Stepped f net layout pg qg vm va (newtonLoop f net layout pg qg rest it current).1 := by
  induction rest generalizing it current with
  | zero => exact h
  | succ rest ih =>
    rw [Ac.newtonLoop]
    split
    case isTrue => exact h
    case isFalse =>
      dsimp only
      split
      case h_1 => exact h
      case h_2 =>
        split
        case h_1 => exact h
        case h_2 hnext => exact ih (h.backtrack hnext) (it + 1)

/-- Whatever the solver returns, the point is measured and the regulated unknowns are kept. -/
theorem newton_stepped (layout : AcPfLayout net.n) (pg qg vm va : Fin net.n → F) :
    Stepped f net layout pg qg vm va (newton f net layout pg qg vm va).1 := by
  apply Stepped.newtonLoop
  constructor
  case measured => rfl
  case magnitudes => exact fun _ _ => rfl
  case angles => exact fun _ _ => rfl

end Newton

/-! ### Switching -/

section Switching

variable {F : Type} [Libm F] {net : AcNetwork F}

/-- A bus is of its default type on its own schedule, or a PV bus fixed at one of its limits. -/
def Typed (net : AcNetwork F) (b : Fin net.n) (state : BusState F) : Prop :=
  (state.kind = defaultKinds net b ∧ state.qsched = net.qg b ∧ state.converted = 0) ∨
    (defaultKinds net b = .pv ∧ state.kind = .pq ∧
      ((state.converted = 1 ∧ state.qsched = aggregate net net.qmax b) ∨
        (state.converted = -1 ∧ state.qsched = aggregate net net.qmin b)))

theorem Typed.withVm {b : Fin net.n} {state : BusState F} (h : Typed net b state) (vm : F) :
    Typed net b { state with vm := vm } := h

theorem Typed.pin {b : Fin net.n} {state : BusState F} (h : Typed net b state) :
    Typed net b (pin net b state) := by
  rw [Ac.pin]
  split
  case isTrue => exact h.withVm _
  case isFalse => exact h

@[simp] theorem pin_kind (b : Fin net.n) (state : BusState F) :
    (pin net b state).kind = state.kind := by
  rw [pin]
  split <;> rfl

theorem pin_vm {b : Fin net.n} {state : BusState F} (h : state.kind ≠ .pq) :
    (pin net b state).vm = net.vmSet b := by
  rw [pin, if_pos h]

theorem Typed.switchBus {qCalc : Fin net.n → F} {b : Fin net.n} {state : BusState F}
    (h : Typed net b state) : Typed net b (switchBus net qCalc b state).1 := by
  rw [Ac.switchBus]
  split
  case isTrue => exact h
  case isFalse =>
    split
    case isTrue hpv =>
      have hdefault : defaultKinds net b = .pv := by
        rcases h with ⟨hkind, -⟩ | ⟨-, hkind, -⟩
        · rw [← hkind, hpv]
        · rw [hpv] at hkind
          cases hkind
      simp only
      split
      case isTrue => exact .inr ⟨hdefault, rfl, .inl ⟨rfl, rfl⟩⟩
      case isFalse =>
        split
        case isTrue => exact .inr ⟨hdefault, rfl, .inr ⟨rfl, rfl⟩⟩
        case isFalse => exact h
    case isFalse =>
      split
      case isTrue hconverted =>
        split
        case isTrue =>
          rcases h with ⟨-, -, hzero⟩ | ⟨hdefault, -⟩
          · exact absurd hzero hconverted.1
          · exact .inl ⟨hdefault.symm, rfl, rfl⟩
        case isFalse => exact h
      case isFalse => exact h

theorem within_of_quiet {qCalc : Fin net.n → F} {b : Fin net.n} {state : BusState F}
    (hpv : state.kind = .pv) (hgen : hasGen net b = true)
    (h : (switchBus net qCalc b state).2 = false) :
    lt (aggregate net net.qmax b + qTol) (qCalc b + net.qd b) = false ∧
      lt (qCalc b + net.qd b) (aggregate net net.qmin b - qTol) = false := by
  have hstart : ¬ (state.kind = .slack ∨ hasGen net b = false) := by
    rw [hpv, hgen]
    simp
  rw [switchBus, if_neg hstart, if_pos hpv] at h
  simp only at h
  split at h
  case isTrue => cases h
  case isFalse hupper =>
    split at h
    case isTrue => cases h
    case isFalse hlower => exact ⟨by simpa using hupper, by simpa using hlower⟩

end Switching

/-! ### The loop -/

section Loop

variable {F : Type} [Libm F] [LinearSolver F] {f : AcPfFormulation F} {net : AcNetwork F}

/-- A round that switched nothing, with the typing and schedule that its voltages were solved
under. -/
structure Settled (f : AcPfFormulation F) (net : AcNetwork F) (va : Fin net.n → F)
    (result : QlimSolve F net.n) (buses : Fin net.n → BusState F) : Prop where
  kinds : result.kinds = fun b => (buses b).kind
  typed : ∀ b, Typed net b (buses b)
  held : ∀ b, (buses b).kind ≠ .pq → result.vm b = net.vmSet b
  angles : ∀ b, defaultKinds net b = .slack → result.va b = va b
  residual : result.residual = (measure f net (AcPfLayout.withKinds result.kinds) net.pg
    (fun b => (buses b).qsched) result.vm result.va).residual
  quiet : ∀ b, (switchBus net (f.injections net.ybus result.vm result.va).q b
    { buses b with vm := result.vm b }).2 = false

theorem Typed.slack {b : Fin net.n} {state : BusState F} (h : Typed net b state)
    (hdefault : defaultKinds net b = .slack) : state.kind = .slack := by
  rcases h with ⟨hkind, -⟩ | ⟨hpv, -⟩
  · rw [hkind, hdefault]
  · rw [hdefault] at hpv
    cases hpv

theorem qlimLoop_settled (rest : ℕ) {buses : Fin net.n → BusState F} {va start : Fin net.n → F}
    {last result : QlimSolve F net.n} (htyped : ∀ b, Typed net b (buses b))
    (hheld : ∀ b, (buses b).kind ≠ .pq → (buses b).vm = net.vmSet b)
    (hangles : ∀ b, defaultKinds net b = .slack → va b = start b)
    (h : qlimLoop f net rest buses va last = (result, true)) :
    le tol result.residual = true ∨ ∃ final, Settled f net start result final := by
  induction rest generalizing buses va last with
  | zero => cases h
  | succ rest ih =>
    have hstepped := newton_stepped (f := f) (AcPfLayout.withKinds fun b => (buses b).kind)
      net.pg (fun b => (buses b).qsched) (fun b => (buses b).vm) va
    rw [qlimLoop] at h
    simp only at h
    generalize hpoint : newton f net (AcPfLayout.withKinds fun b => (buses b).kind) net.pg
      (fun b => (buses b).qsched) (fun b => (buses b).vm) va = point at h hstepped
    have hvm : ∀ b, (buses b).kind ≠ .pq → point.1.vm b = net.vmSet b := by
      intro b hb
      rw [hstepped.magnitudes b (number_eq_none (decide_eq_false hb))]
      exact hheld b hb
    have hva : ∀ b, defaultKinds net b = .slack → point.1.va b = start b := by
      intro b hb
      have hslack : (buses b).kind = .slack := (htyped b).slack hb
      have hnone : nonSlack (fun b => (buses b).kind) b = false := by
        simp [nonSlack, hslack]
      rw [hstepped.angles b (number_eq_none hnone)]
      exact hangles b hb
    split at h
    case isTrue hfar =>
      obtain ⟨rfl, -⟩ := Prod.mk.inj h
      exact .inl hfar
    case isFalse =>
      split at h
      case isTrue =>
        apply ih _ _ hva h
        · intro b
          exact ((htyped b).withVm _).switchBus.pin
        · intro b hb
          rw [pin_kind] at hb
          exact pin_vm hb
      case isFalse hquiet =>
        obtain ⟨rfl, -⟩ := Prod.mk.inj h
        refine .inr ⟨buses, ?_⟩
        constructor
        case kinds => rfl
        case typed => exact htyped
        case held => exact hvm
        case angles => exact hva
        case residual => exact congrArg Iterate.residual hstepped.measured
        case quiet =>
          intro b
          have hall := (List.any_eq_false.mp (by simpa using hquiet)) b (List.mem_finRange b)
          simpa using hall

variable [LawfulNewton F]

open LawfulNewton

theorem typed_startBuses (vm : Fin net.n → F) (b : Fin net.n) :
    Typed net b (startBuses net vm b) := Typed.pin (.inl ⟨rfl, rfl, rfl⟩)

theorem solveQlim_settled {vm va : Fin net.n → F}
    (h : lt (solveQlim f net vm va).residual tol = true) :
    ∃ buses, Settled f net va (solveQlim f net vm va) buses := by
  rw [solveQlim] at h ⊢
  simp only at h ⊢
  generalize hloop : qlimLoop f net maxOuter (startBuses net vm) va _ = outcome at h ⊢
  obtain ⟨result, settled⟩ := outcome
  cases settled with
  | false =>
    simp only [Bool.false_eq_true, if_false] at h
    rw [not_infinity_lt] at h
    cases h
  | true =>
    simp only [if_true] at h ⊢
    have hheld : ∀ b, (startBuses net vm b).kind ≠ .pq →
        (startBuses net vm b).vm = net.vmSet b := by
      intro b hb
      rw [startBuses, pin_kind] at hb
      exact pin_vm hb
    rcases qlimLoop_settled maxOuter (typed_startBuses vm) hheld (fun _ _ => rfl)
      hloop with hfar | hsettled
    · rw [not_le_of_lt h] at hfar
      cases hfar
    · exact hsettled

/-- A result that converges came from one of the starts. -/
def FromStart (f : AcPfFormulation F) (net : AcNetwork F)
    (starts : List ((Fin net.n → F) × (Fin net.n → F))) (result : QlimSolve F net.n) : Prop :=
  lt result.residual tol = true → ∃ start ∈ starts, ∃ buses, Settled f net start.2 result buses

theorem bestOf_fromStart {all rest : List ((Fin net.n → F) × (Fin net.n → F))}
    {best : Option (QlimSolve F net.n)} {result : QlimSolve F net.n}
    (hbest : ∀ r, best = some r → FromStart f net all r) (hrest : ∀ s ∈ rest, s ∈ all)
    (h : bestOf f net best rest = some result) : FromStart f net all result := by
  induction rest generalizing best with
  | nil => exact hbest result h
  | cons start rest ih =>
    obtain ⟨vm, va⟩ := start
    obtain ⟨hstart, hrest⟩ := List.forall_mem_cons.mp hrest
    have hsolve : FromStart f net all (solveQlim f net vm va) := fun hlt =>
      ⟨_, hstart, solveQlim_settled hlt⟩
    have hbetter : FromStart f net all (better best (solveQlim f net vm va)) := by
      cases best with
      | none => exact hsolve
      | some r =>
        rw [better]
        split
        case isTrue => exact hsolve
        case isFalse => exact hbest r rfl
    rw [bestOf] at h
    split at h
    case isTrue =>
      obtain rfl := Option.some.inj h
      exact hbetter
    case isFalse => exact ih (fun r hr => Option.some.inj hr ▸ hbetter) hrest h

end Loop

/-! ### Starts -/

section Starts

variable {F : Type} [Libm F] {net : AcNetwork F}

theorem foldl_update_of_mem {κ α β : Type} [DecidableEq κ] (key : α → κ) (value : α → β)
    {l : List α} (hdistinct : l.Pairwise fun a c => key a ≠ key c) {a : α} (ha : a ∈ l)
    (table : κ → β) :
    l.foldl (fun table a => Function.update table (key a) (value a)) table (key a) = value a := by
  induction l generalizing table with
  | nil => cases ha
  | cons head rest ih =>
    obtain ⟨hhead, hrest⟩ := List.pairwise_cons.mp hdistinct
    rw [List.foldl_cons]
    rcases List.mem_cons.mp ha with rfl | htail
    · have hkeep : ∀ (l : List α) (table : κ → β), (∀ c ∈ l, key a ≠ key c) →
          l.foldl (fun table a => Function.update table (key a) (value a)) table (key a) =
            table (key a) := by
        intro l
        induction l with
        | nil => intro table _; rfl
        | cons c l ih =>
          intro table hne
          obtain ⟨hc, hl⟩ := List.forall_mem_cons.mp hne
          rw [List.foldl_cons, ih _ hl, Function.update_of_ne hc]
      rw [hkeep rest _ hhead, Function.update_self]
    · exact ih hrest htail _

theorem islandReferences_slack {s : Fin net.n} {va : F} (h : (s, va) ∈ net.slacks.zip net.vaSlacks) :
    islandReferences net s = (some s, va) := by
  have hdistinct : (net.slacks.zip net.vaSlacks).Pairwise fun a c =>
      denseIslands net.brFrom net.brTo a.1 ≠ denseIslands net.brFrom net.brTo c.1 := by
    have hfst : (net.slacks.zip net.vaSlacks).map Prod.fst = net.slacks :=
      List.map_fst_zip (Nat.le_of_eq net.anglesStated.symm)
    have hseparate := net.separate
    rw [← hfst, List.pairwise_map] at hseparate
    exact hseparate
  exact foldl_update_of_mem (fun a : Fin net.n × F => denseIslands net.brFrom net.brTo a.1)
    (fun a => (some a.1, a.2)) hdistinct h _

theorem mem_slacks {s : Fin net.n} {va : F} (h : (s, va) ∈ net.slacks.zip net.vaSlacks) :
    s ∈ net.slacks ∧ isFinite va = true :=
  ⟨(List.of_mem_zip h).1, net.anglesFinite va (List.of_mem_zip h).2⟩

variable [LawfulNewton F]

open LawfulNewton

theorem finiteOr_slack (stored : F) : finiteOr (stored - finiteOr stored 0) 0 = 0 := by
  by_cases hfinite : isFinite stored = true
  · have hsub : stored - finiteOr stored 0 = 0 := by
      rw [finiteOr, if_pos hfinite]
      exact LawfulNewton.sub_self hfinite
    rw [hsub, finiteOr, if_pos finite_zero]
  · have hfalse : isFinite stored = false := by simpa using hfinite
    have hsub : isFinite (stored - finiteOr stored 0) = false := by
      rw [finiteOr, if_neg hfinite]
      exact not_finite_sub_zero hfalse
    rw [finiteOr, hsub]
    rfl

theorem starts_slack {start : AcStart} {s : Fin net.n} {va : F}
    (h : (s, va) ∈ net.slacks.zip net.vaSlacks) {first : (Fin net.n → F) × (Fin net.n → F)}
    (hfirst : first ∈ starts net start) : eq (first.2 s) va = true := by
  obtain ⟨hmem, hfinite⟩ := mem_slacks h
  have hself : eq va va = true := self_of_finite hfinite
  have href := islandReferences_slack h
  rw [starts] at hfirst
  rcases List.mem_append.mp hfirst with hstored | hrest
  · split at hstored
    case isTrue =>
      obtain rfl := List.mem_singleton.mp hstored
      simp only [caseStart, href]
      rw [finiteOr_slack]
      exact LawfulNewton.add_zero hfinite
    case isFalse => cases hstored
  · rcases List.mem_cons.mp hrest with rfl | hperturbed
    · simp only [flatStart, href]
      exact hself
    · obtain ⟨restart, -, rfl⟩ := List.mem_map.mp hperturbed
      simp only [perturbed, href, hmem, if_true]
      exact hself

end Starts

/-! ### Accepted solutions -/

section Accepted

variable {F : Type} [Libm F]

/-- What an accepted power flow promises of its bus types and limits. -/
structure Respects (f : AcPfFormulation F) (net : AcNetwork F) (sol : AcPfSolution F net.n) :
    Prop where
  slackKinds : ∀ b, sol.kinds b = .slack ↔ b ∈ net.slacks
  slackMagnitudes : ∀ s ∈ net.slacks, sol.vm s = net.vmSet s
  slackAngles : ∀ s va, (s, va) ∈ net.slacks.zip net.vaSlacks → eq (sol.va s) va = true
  pvMagnitudes : ∀ b, sol.kinds b = .pv → sol.vm b = net.vmSet b
  /-- The recovered reactive generation is not beyond the aggregate limits. -/
  pvLimits : ∀ b, sol.kinds b = .pv → hasGen net b = true →
    lt (aggregate net net.qmax b + qTol) (sol.q b + net.qd b) = false ∧
      lt (sol.q b + net.qd b) (aggregate net net.qmin b - qTol) = false
  released : ∀ b, defaultKinds net b = .pv → sol.kinds b = .pq →
    lt (Binary64.abs ((aggregate net net.qmax b - net.qd b) - sol.q b)) tol = true ∨
      lt (Binary64.abs ((aggregate net net.qmin b - net.qd b) - sol.q b)) tol = true
  /-- No other bus changes its type. -/
  kept : ∀ b, defaultKinds net b ≠ .pv → sol.kinds b = defaultKinds net b
  active : ∀ b, sol.kinds b ≠ .slack →
    lt (Binary64.abs ((net.pg b - net.pd b) - sol.p b)) tol = true
  reactive : ∀ b, defaultKinds net b = .pq →
    lt (Binary64.abs ((net.qg b - net.qd b) - sol.q b)) tol = true
  injections : sol.p = (f.injections net.ybus sol.vm sol.va).p ∧
    sol.q = (f.injections net.ybus sol.vm sol.va).q
  /-- The residual is the norm of the mismatch at the reported voltages, under the reported typing
  and the schedule that goes with it. -/
  residual : ∃ qsched : Fin net.n → F,
    sol.residual = infNorm ((AcPfLayout.withKinds sol.kinds).residual net net.pg qsched sol.p
      sol.q) ∧
    ∀ b, (sol.kinds b = defaultKinds net b ∧ qsched b = net.qg b) ∨
      (sol.kinds b = .pq ∧ (qsched b = aggregate net net.qmax b ∨
        qsched b = aggregate net net.qmin b))

variable [LinearSolver F] [LawfulNewton F] {f : AcPfFormulation F} {net : AcNetwork F}

open LawfulNewton

theorem mem_slacks_iff {b : Fin net.n} : b ∈ net.slacks ↔ defaultKinds net b = .slack := by
  rw [defaultKinds]
  split
  case isTrue hmem => simp [hmem]
  case isFalse hnot => split <;> simp [hnot]

theorem Typed.kept {b : Fin net.n} {state : BusState F} (h : Typed net b state)
    (hne : defaultKinds net b ≠ .pv) :
    state.kind = defaultKinds net b ∧ state.qsched = net.qg b := by
  rcases h with ⟨hkind, hsched, -⟩ | ⟨hpv, -⟩
  · exact ⟨hkind, hsched⟩
  · exact absurd hpv hne

theorem Typed.released {b : Fin net.n} {state : BusState F} (h : Typed net b state)
    (hdefault : defaultKinds net b = .pv) (hkind : state.kind = .pq) :
    state.qsched = aggregate net net.qmax b ∨ state.qsched = aggregate net net.qmin b := by
  rcases h with ⟨hsame, -⟩ | ⟨-, -, ⟨-, hupper⟩ | ⟨-, hlower⟩⟩
  · rw [hkind, hdefault] at hsame
    cases hsame
  · exact .inl hupper
  · exact .inr hlower

theorem Typed.scheduled {b : Fin net.n} {state : BusState F} (h : Typed net b state) :
    (state.kind = defaultKinds net b ∧ state.qsched = net.qg b) ∨
      (state.kind = .pq ∧ (state.qsched = aggregate net net.qmax b ∨
        state.qsched = aggregate net net.qmin b)) := by
  rcases h with ⟨hkind, hsched, -⟩ | ⟨-, hkind, ⟨-, hupper⟩ | ⟨-, hlower⟩⟩
  · exact .inl ⟨hkind, hsched⟩
  · exact .inr ⟨hkind, .inl hupper⟩
  · exact .inr ⟨hkind, .inr hlower⟩

theorem Settled.respects {va : Fin net.n → F} {result : QlimSolve F net.n}
    {buses : Fin net.n → BusState F} (h : Settled f net va result buses)
    (hconverged : lt result.residual tol = true)
    (hangles : ∀ s angle, (s, angle) ∈ net.slacks.zip net.vaSlacks → eq (va s) angle = true) :
    Respects f net
      { vm := result.vm, va := result.va, p := (f.injections net.ybus result.vm result.va).p,
        q := (f.injections net.ybus result.vm result.va).q, iterations := result.iterations,
        residual := result.residual, kinds := result.kinds } := by
  have hkind : ∀ b, result.kinds b = (buses b).kind := fun b => congrFun h.kinds b
  have hmismatch := h.residual
  rw [hmismatch] at hconverged
  have hall := lt_of_infNorm_lt hconverged
  have hreactive : ∀ b, result.kinds b = .pq →
      lt (Binary64.abs (((buses b).qsched - net.qd b) -
        (f.injections net.ybus result.vm result.va).q b)) tol = true := fun b hb =>
    hall _ (reactive_mem_residual _ _ _ _ hb)
  constructor
  case slackKinds =>
    intro b
    change result.kinds b = .slack ↔ b ∈ net.slacks
    rw [hkind b, mem_slacks_iff]
    constructor
    · intro hslack
      rcases h.typed b with ⟨hsame, -⟩ | ⟨-, hpq, -⟩
      · rw [← hsame, hslack]
      · rw [hslack] at hpq
        cases hpq
    · exact (h.typed b).slack
  case slackMagnitudes =>
    intro s hs
    apply h.held
    rw [(h.typed s).slack (mem_slacks_iff.mp hs)]
    intro hne
    cases hne
  case slackAngles =>
    intro s angle hs
    change eq (result.va s) angle = true
    rw [h.angles s (mem_slacks_iff.mp (mem_slacks hs).1)]
    exact hangles s angle hs
  case pvMagnitudes =>
    intro b hb
    have hpv : (buses b).kind = .pv := (hkind b).symm.trans hb
    apply h.held
    rw [hpv]
    intro hne
    cases hne
  case pvLimits =>
    intro b hb hgen
    have hpv : ({ buses b with vm := result.vm b } : BusState F).kind = .pv :=
      (hkind b).symm.trans hb
    exact within_of_quiet hpv hgen (h.quiet b)
  case released =>
    intro b hdefault hb
    have hlt := hreactive b hb
    rcases (h.typed b).released hdefault ((hkind b).symm.trans hb) with hupper | hlower
    · rw [hupper] at hlt
      exact .inl hlt
    · rw [hlower] at hlt
      exact .inr hlt
  case kept =>
    intro b hne
    exact (hkind b).trans ((h.typed b).kept hne).1
  case active =>
    intro b hb
    exact hall _ (active_mem_residual _ _ _ _ hb)
  case reactive =>
    intro b hdefault
    have hne : defaultKinds net b ≠ .pv := by
      rw [hdefault]
      intro hpv
      cases hpv
    obtain ⟨hsame, hsched⟩ := (h.typed b).kept hne
    have hlt := hreactive b ((hkind b).trans (hsame.trans hdefault))
    rw [hsched] at hlt
    exact hlt
  case injections => exact ⟨rfl, rfl⟩
  case residual =>
    refine ⟨fun b => (buses b).qsched, hmismatch, fun b => ?_⟩
    simp only [hkind b]
    exact (h.typed b).scheduled

/-- Whatever the linear solver returns, an accepted power flow respects its bus types and the reactive limits.
Whether a flow is accepted at all is not said. -/
theorem accepted_power_flow_respects (f : AcPfFormulation F) (net : AcNetwork F) (start : AcStart)
    (sol : AcPfSolution F net.n) (h : acPfWithStart f net start = .ok sol) :
    Respects f net sol := by
  rw [acPfWithStart] at h
  cases hbest : bestOf f net none (starts net start) with
  | none =>
    rw [hbest] at h
    cases h
  | some best =>
    rw [hbest] at h
    simp only at h
    split at h
    case isTrue => cases h
    case isFalse haccepted =>
      obtain rfl := Except.ok.inj h
      rw [Bool.not_eq_true, Bool.or_eq_false_iff] at haccepted
      have hnumber : eq best.residual best.residual = true := by
        simpa [isNan] using haccepted.1
      have hlt := lt_of_not_le hnumber haccepted.2
      obtain ⟨first, hfirst, buses, hsettled⟩ :=
        bestOf_fromStart (fun _ hnone => by cases hnone) (fun _ hs => hs) hbest hlt
      exact hsettled.respects hlt fun s angle hs => starts_slack hs hfirst

end Accepted

/-! ### A slack and a regulated bus -/

section Witness

/-- Exact arithmetic of rationals, where every angle is zero. A number above every mismatch that is
accepted stands for the infinity. -/
@[reducible] local instance flatRationals : Libm ℚ where
  toBinary64 := Binary64.exact fun _ => ""
  infinity := 1
  sqrt a := a
  hypot a b := a + b
  powf a _ := a
  cos _ := 1
  sin _ := 0
  atan2 _ _ := 0
  displayExp _ := ""

local instance noSolver : LinearSolver ℚ where
  solveSparse _ _ _ := .error "singular"

theorem flatRationals_lawful : LawfulNewton ℚ where
  self_of_lt _ := decide_eq_true rfl
  not_le_of_lt h := decide_eq_false (not_le.mpr (of_decide_eq_true h))
  lt_of_not_le _ h := decide_eq_true (not_le.mp (of_decide_eq_false h))
  not_infinity_lt := by decide +kernel
  self_zero := decide_eq_true rfl
  self_abs _ := decide_eq_true rfl
  self_max _ _ := decide_eq_true rfl
  lt_of_max_lt {a b c} _ _ h := by
    have hmax : (if a < b then b else a) < c := of_decide_eq_true h
    split at hmax
    case isTrue hab => exact ⟨decide_eq_true (hab.trans hmax), decide_eq_true hmax⟩
    case isFalse hba =>
      exact ⟨decide_eq_true hmax, decide_eq_true ((not_lt.mp hba).trans_lt hmax)⟩
  finite_zero := rfl
  self_of_finite _ := decide_eq_true rfl
  sub_self {a} _ := by simp
  not_finite_sub_zero h := by cases h
  add_zero {a} _ := decide_eq_true (by simp)

/-- A slack and a generator bus that nothing joins. -/
def twoBuses : AcNetwork ℚ where
  n := 2
  m := 0
  brFrom := Fin.elim0
  brTo := Fin.elim0
  g := Fin.elim0
  b := Fin.elim0
  gFr := Fin.elim0
  bFr := Fin.elim0
  gTo := Fin.elim0
  bTo := Fin.elim0
  tap := Fin.elim0
  shift := Fin.elim0
  rateA := Fin.elim0
  angmin := Fin.elim0
  angmax := Fin.elim0
  sw := Fin.elim0
  gs _ := 0
  bs _ := 1
  pd _ := 0
  qd _ := 0
  pg _ := 0
  qg _ := 0
  k := 1
  genBus _ := 1
  pmin _ := 0
  pmax _ := 0
  qmin _ := -1
  qmax _ := 1
  cq _ := 0
  cl _ := 0
  cc _ := 0
  piecewiseCosts _ := none
  vmMin _ := 1
  vmMax _ := 1
  vmSet _ := 1
  slacks := [0]
  vaSlacks := [0]
  vmCase _ := 1
  vaCase _ := 0
  pfPv bus := decide (bus = 1)
  voltageBoundActive _ := false
  generatorCapabilityActive _ := false
  thermalLimitActive := Fin.elim0
  angleBoundActive := Fin.elim0
  distinctCosts _ h := by cases h
  separate := List.pairwise_singleton _ _
  anglesStated := rfl
  anglesFinite := by decide

theorem accepted_power_flow_respects_twoBuses :
    ∃ sol, acPfWithStart acPolar twoBuses .flat = .ok sol ∧
      Respects acPolar twoBuses sol ∧ sol.kinds (1 : Fin 2) = .pv := by
  have _ := flatRationals_lawful
  obtain ⟨sol, hsol, hkind⟩ : ∃ sol, acPfWithStart acPolar twoBuses .flat = .ok sol ∧
      sol.kinds (1 : Fin 2) = .pv := Outcome.exists_ok_of (by decide +kernel)
  exact ⟨sol, hsol, accepted_power_flow_respects acPolar twoBuses .flat sol hsol, hkind⟩

end Witness

end Tellegen.Ac
