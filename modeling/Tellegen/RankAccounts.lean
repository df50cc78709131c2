import Tellegen.Lib.Guarantee
import Tellegen.RankAudit

/-!
The accounts of a rank audit, whatever the coefficients are. The live count is that of the coefficients in the
rows and in the pivot in use, a row is listed under exactly its columns, and neither the work nor the
coefficients go beyond their limits.
-/

set_option linter.unusedSectionVars false

open Binary64 hiding max min
open Guarantee

namespace Tellegen.McOpf

variable {F : Type} [Libm F]

namespace SparseRow

@[simp] theorem len_empty : (empty : SparseRow F).len = 0 := rfl

@[simp] theorem len_divide (row : SparseRow F) (x : F) : (row.divide x).len = row.len := rfl

theorem len_insert_of_mem {row : SparseRow F} {c : ℕ} (h : c ∈ row.columns) (v : F) :
    (row.insert c v).len = row.len := by
  rw [len, insert, Finset.insert_eq_of_mem h, len]

theorem len_insert_of_notMem {row : SparseRow F} {c : ℕ} (h : c ∉ row.columns) (v : F) :
    (row.insert c v).len = row.len + 1 := Finset.card_insert_of_notMem h

theorem len_remove {row : SparseRow F} {c : ℕ} (h : c ∈ row.columns) :
    (row.remove c).len + 1 = row.len := Finset.card_erase_add_one h

end SparseRow

namespace RankState

/-- The coefficients of the rows. -/
def stored (m : ℕ) (rows : ℕ → SparseRow F) : ℕ := ∑ i ∈ Finset.range m, (rows i).len

theorem stored_update {m : ℕ} (rows : ℕ → SparseRow F) {i : ℕ} (hi : i < m) (row : SparseRow F) :
    stored m (Function.update rows i row) + (rows i).len = stored m rows + row.len := by
  have hmem : i ∈ Finset.range m := Finset.mem_range.mpr hi
  have hrest : ∑ j ∈ (Finset.range m).erase i, (Function.update rows i row j).len =
      ∑ j ∈ (Finset.range m).erase i, (rows j).len := by
    apply Finset.sum_congr rfl
    intro j hj
    rw [Function.update_of_ne (Finset.ne_of_mem_erase hj)]
  rw [stored, stored, ← Finset.add_sum_erase _ _ hmem, ← Finset.add_sum_erase _ _ hmem, hrest,
    Function.update_self]
  omega

/-- The limits of an audit of `m` rows, and which of these are listed under their columns. -/
structure Terms where
  m : ℕ
  nonzeroLimit : ℕ
  workLimit : ℕ
  listed : ℕ → Prop

/-- `held` is the number of coefficients of the pivot in use. -/
structure Accounts (t : Terms) (held : ℕ) (s : RankState F) : Prop where
  live : s.live = stored t.m s.rows + held
  beyond : ∀ i, t.m ≤ i → (s.rows i).columns = ∅
  incidence : ∀ c i, i ∈ s.incidence c ↔ c ∈ (s.rows i).columns ∧ t.listed i
  livePeak : s.live ≤ s.d.peakNonzeros
  peak : s.d.peakNonzeros ≤ t.nonzeroLimit
  work : s.d.work ≤ t.workLimit
  nonzeroLimit : s.d.nonzeroLimit = t.nonzeroLimit
  workLimit : s.d.workLimit = t.workLimit

/-- A refusal within the limits, and no count below zero. -/
def Refuses (t : Terms) : RankStop F → Prop
  | .refused _ d => d.work ≤ t.workLimit ∧ d.peakNonzeros ≤ t.nonzeroLimit
  | .underflow => False

variable {t : Terms} {held : ℕ} {s : RankState F}

theorem Accounts.lt_of_mem (h : Accounts t held s) {c i : ℕ} (hc : c ∈ (s.rows i).columns) : i < t.m := by
  by_contra hi
  rw [h.beyond i (not_lt.mp hi)] at hc
  exact absurd hc (Finset.notMem_empty c)

theorem Accounts.refuses (h : Accounts t held s) (outcome : McOpfRankOutcome) :
    Refuses t (.refused outcome s.d) := ⟨h.work, h.peak⟩

theorem Accounts.queued (h : Accounts t held s) (queue : RankQueue F) (sparsity : Finset (ℕ ×ₗ ℕ)) :
    Accounts t held { s with queue, sparsity } :=
  ⟨h.live, h.beyond, h.incidence, h.livePeak, h.peak, h.work, h.nonzeroLimit, h.workLimit⟩

theorem Accounts.normed (h : Accounts t held s) (norms : ℕ → F) : Accounts t held { s with norms } :=
  ⟨h.live, h.beyond, h.incidence, h.livePeak, h.peak, h.work, h.nonzeroLimit, h.workLimit⟩

theorem Accounts.enqueue (h : Accounts t held s) (preferSparse : Bool) (i : ℕ) :
    Accounts t held (s.enqueue preferSparse i) := h.queued _ _

theorem Accounts.dequeue (h : Accounts t held s) (preferSparse : Bool) (i : ℕ) :
    Accounts t held (s.dequeue preferSparse i) := h.queued _ _

/-- A charge changes the work alone. -/
def Charged (s s' : RankState F) : Prop := ∃ work, s' = { s with d := { s.d with work } }

theorem Charged.refl (s : RankState F) : Charged s s := ⟨s.d.work, rfl⟩

theorem Charged.trans {s s' s'' : RankState F} (h : Charged s s') (h' : Charged s' s'') : Charged s s'' := by
  obtain ⟨work, rfl⟩ := h
  obtain ⟨work', rfl⟩ := h'
  exact ⟨work', rfl⟩

theorem charge_charged {work : ℕ} {s' : RankState F} (h : s.charge work = .ok s') : Charged s s' := by
  rw [charge] at h
  split at h
  · exact nomatch h
  · exact ⟨_, (Except.ok.inj h).symm⟩

theorem Accounts.charge (h : Accounts t held s) (work : ℕ) :
    Guarantees (fun s' => Accounts t held s' ∧ Charged s s') (Refuses t) (s.charge work) := by
  rw [RankState.charge]
  split
  case isTrue => exact h.refuses .workLimit
  case isFalse hwork =>
    have hlimit := h.workLimit
    have hused := h.work
    refine ⟨⟨h.live, h.beyond, h.incidence, h.livePeak, h.peak, ?_, h.nonzeroLimit, h.workLimit⟩, _, rfl⟩
    change s.d.work + work ≤ t.workLimit
    omega

/-! ### Rows -/

theorem Accounts.place (h : Accounts t held s) {i c : ℕ} (hlisted : t.listed i) {row : SparseRow F}
    {others : Finset ℕ} (hcolumns : ∀ k, k ≠ c → (k ∈ row.columns ↔ k ∈ (s.rows i).columns))
    (hself : i ∈ others ↔ c ∈ row.columns) (hothers : ∀ j, j ≠ i → (j ∈ others ↔ j ∈ s.incidence c)) (k j : ℕ) :
    j ∈ Function.update s.incidence c others k ↔
      k ∈ (Function.update s.rows i row j).columns ∧ t.listed j := by
  by_cases hj : j = i
  · subst hj
    rw [Function.update_self]
    by_cases hk : k = c
    · subst hk
      rw [Function.update_self, hself]
      tauto
    · rw [Function.update_of_ne hk, h.incidence, hcolumns k hk]
  · rw [Function.update_of_ne hj]
    by_cases hk : k = c
    · subst hk
      rw [Function.update_self, hothers j hj, h.incidence]
    · rw [Function.update_of_ne hk, h.incidence]

theorem Accounts.beyond_update (h : Accounts t held s) {i : ℕ} (hi : i < t.m) (row : SparseRow F) (j : ℕ)
    (hj : t.m ≤ j) : (Function.update s.rows i row j).columns = ∅ := by
  rw [Function.update_of_ne (by omega), h.beyond j hj]

theorem Accounts.removeAt (h : Accounts t held s) {i c : ℕ} (hi : i < t.m) (hlisted : t.listed i)
    (hmem : c ∈ (s.rows i).columns) :
    Guarantees (Accounts t held) (Refuses t)
      (RankState.release { s.setRow i ((s.rows i).remove c) with
        incidence := Function.update s.incidence c ((s.incidence c).erase i) } 1) := by
  have hlive := h.live
  have hpeak := h.livePeak
  have hstored := stored_update s.rows hi ((s.rows i).remove c)
  have hlen := SparseRow.len_remove hmem
  rw [RankState.release]
  split
  case isTrue hunder =>
    change s.live < 1 at hunder
    omega
  case isFalse hunder =>
    constructor
    case live =>
      change s.live - 1 = stored t.m (Function.update s.rows i ((s.rows i).remove c)) + held
      omega
    case beyond => exact h.beyond_update hi _
    case incidence =>
      apply h.place hlisted
      · intro k hk
        rw [SparseRow.remove, Finset.mem_erase]
        tauto
      · rw [SparseRow.remove]
        simp
      · intro j hj
        rw [Finset.mem_erase]
        tauto
    case livePeak =>
      change s.live - 1 ≤ s.d.peakNonzeros
      omega
    case peak => exact h.peak
    case work => exact h.work
    case nonzeroLimit => exact h.nonzeroLimit
    case workLimit => exact h.workLimit

theorem Accounts.overwriteAt (h : Accounts t held s) {i c : ℕ} (hi : i < t.m) (hlisted : t.listed i)
    (hmem : c ∈ (s.rows i).columns) (value : F) :
    Accounts t held (s.setRow i ((s.rows i).insert c value)) := by
  have hlive := h.live
  have hstored := stored_update s.rows hi ((s.rows i).insert c value)
  rw [SparseRow.len_insert_of_mem hmem] at hstored
  constructor
  case live =>
    change s.live = stored t.m (Function.update s.rows i ((s.rows i).insert c value)) + held
    omega
  case beyond => exact h.beyond_update hi _
  case incidence =>
    intro k j
    have hplace : j ∈ Function.update s.incidence c (s.incidence c) k ↔
        k ∈ (Function.update s.rows i ((s.rows i).insert c value) j).columns ∧ t.listed j := by
      apply h.place hlisted
      · intro k hk
        rw [SparseRow.insert, Finset.mem_insert]
        tauto
      · rw [SparseRow.insert, h.incidence]
        simp [hmem, hlisted]
      · exact fun j _ => Iff.rfl
    rwa [Function.update_eq_self] at hplace
  case livePeak => exact h.livePeak
  case peak => exact h.peak
  case work => exact h.work
  case nonzeroLimit => exact h.nonzeroLimit
  case workLimit => exact h.workLimit

theorem Accounts.fillAt (h : Accounts t held s) {i c : ℕ} (hi : i < t.m) (hlisted : t.listed i)
    (hmem : c ∉ (s.rows i).columns) (hroom : s.live < t.nonzeroLimit) (value : F) :
    Accounts t held { s.setRow i ((s.rows i).insert c value) with
      live := s.live + 1
      d := { s.d with peakNonzeros := Nat.max s.d.peakNonzeros (s.live + 1) }
      incidence := Function.update s.incidence c (insert i (s.incidence c)) } := by
  have hlive := h.live
  have hpeak := h.peak
  have hstored := stored_update s.rows hi ((s.rows i).insert c value)
  rw [SparseRow.len_insert_of_notMem hmem] at hstored
  constructor
  case live =>
    change s.live + 1 = stored t.m (Function.update s.rows i ((s.rows i).insert c value)) + held
    omega
  case beyond => exact h.beyond_update hi _
  case incidence =>
    apply h.place hlisted
    · intro k hk
      rw [SparseRow.insert, Finset.mem_insert]
      tauto
    · rw [SparseRow.insert]
      simp
    · intro j hj
      rw [Finset.mem_insert]
      tauto
  case livePeak => exact Nat.le_max_right _ _
  case peak => exact Nat.max_le.mpr ⟨hpeak, hroom⟩
  case work => exact h.work
  case nonzeroLimit => exact h.nonzeroLimit
  case workLimit => exact h.workLimit

/-- One coefficient changes, and with it the count and the row's place under the column. -/
theorem Accounts.subtractAt (h : Accounts t held s) {basis : SparseRow F} {i : ℕ} (hi : i < t.m)
    (hlisted : t.listed i) (dot : F) (c : ℕ) :
    Guarantees (Accounts t held) (Refuses t) (s.subtractAt basis i dot c) := by
  rw [RankState.subtractAt]
  split
  · exact h.refuses .nonfinite
  · split
    · split
      case isTrue hmem => exact h.removeAt hi hlisted hmem
      case isFalse => exact h
    · split
      case isTrue hmem => exact h.overwriteAt hi hlisted hmem _
      case isFalse hmem =>
        split
        case isTrue => exact h.refuses .fillLimit
        case isFalse hroom =>
          rw [h.nonzeroLimit, not_le] at hroom
          exact h.fillAt hi hlisted hmem hroom _

theorem Accounts.beginPass (h : Accounts t held s) (basis : SparseRow F) (i : ℕ) :
    Guarantees (fun result => Accounts t held result.2 ∧ Charged s result.2) (Refuses t)
      (RankState.beginPass basis i s) := by
  apply (h.charge _).bind
  rintro first ⟨hfirst, hcharged⟩
  dsimp only
  split
  · exact hfirst.refuses .nonfinite
  · split
    · exact ⟨hfirst, hcharged⟩
    · apply (hfirst.charge _).bind
      rintro second ⟨hsecond, hcharged'⟩
      exact ⟨hsecond, hcharged.trans hcharged'⟩

theorem Accounts.columns (h : Accounts t held s) (basis : SparseRow F) {i : ℕ} (hi : i < t.m)
    (hlisted : t.listed i) (dot : F) (columns : List ℕ) :
    Guarantees (Accounts t held) (Refuses t) (columns.foldlM (RankState.subtractAt basis i dot) s) :=
  Guarantees.foldlM_keep (fun c _ _ hs => hs.subtractAt hi hlisted dot c) h

theorem Accounts.pass (h : Accounts t held s) (basis : SparseRow F) {i : ℕ} (hi : i < t.m)
    (hlisted : t.listed i) : Guarantees (Accounts t held) (Refuses t) (RankState.pass basis i s) := by
  apply (h.beginPass basis i).bind
  rintro ⟨dot, next⟩ ⟨hnext, -⟩
  cases dot with
  | none => exact hnext
  | some dot => exact hnext.columns basis hi hlisted dot _

theorem Accounts.applyRow (h : Accounts t held s) (preferSparse : Bool) (basis : SparseRow F) {i : ℕ}
    (hi : i < t.m) (hlisted : t.listed i) :
    Guarantees (Accounts t held) (Refuses t) (RankState.applyRow preferSparse basis s i) := by
  apply ((h.dequeue preferSparse i).pass basis hi hlisted).bind
  intro first hfirst
  apply (hfirst.pass basis hi hlisted).bind
  intro second hsecond
  apply (hsecond.charge _).bind
  rintro third ⟨hthird, -⟩
  dsimp only
  split
  · exact (hthird.normed _).refuses .nonfinite
  · exact (hthird.normed _).enqueue preferSparse i

/-! ### Pivots -/

theorem Accounts.chooseSparse {first : RankState F} (h : Accounts t held first) (hcharged : Charged s first)
    (largestNorm : F) (candidates : List (ℕ ×ₗ ℕ)) :
    Guarantees (fun result => Accounts t held result.2 ∧ Charged s result.2 ∧ ∀ i, result.1 = some i →
        (∃ length, toLex (length, i) ∈ candidates) ∧ lt s.d.tolerance (s.norms i) = true)
      (Refuses t) (RankState.chooseSparse largestNorm candidates first) := by
  induction candidates generalizing first with
  | nil => exact ⟨h, hcharged, fun _ hi => nomatch hi⟩
  | cons candidate rest ih =>
    apply (h.charge 1).bind
    rintro next ⟨hnext, hcharged'⟩
    have hcharged'' := hcharged.trans hcharged'
    split
    case isTrue hgood =>
      refine ⟨hnext, hcharged'', ?_⟩
      rintro i ⟨⟩
      obtain ⟨work, rfl⟩ := hcharged''
      exact ⟨⟨(ofLex candidate).1, List.mem_cons_self⟩, (Bool.and_eq_true_iff.mp hgood).2⟩
    case isFalse =>
      apply (ih hnext hcharged'').mono
      · rintro result ⟨haccounts, hcharged, hfound⟩
        refine ⟨haccounts, hcharged, ?_⟩
        intro i hi
        obtain ⟨⟨length, hmem⟩, hlt⟩ := hfound i hi
        exact ⟨⟨length, List.mem_cons_of_mem _ hmem⟩, hlt⟩
      · exact fun stop hstop => hstop

/-- The accounts while a pivot leaves its columns, those of `left` already. -/
structure Leaving (t : Terms) (pivot : ℕ) (basis : SparseRow F) (left : List ℕ) (affected : Finset ℕ)
    (s : RankState F) : Prop where
  live : s.live = stored t.m s.rows + basis.len
  beyond : ∀ i, t.m ≤ i → (s.rows i).columns = ∅
  incidence : ∀ c i, i ∈ s.incidence c ↔ t.listed i ∧
    (c ∈ (s.rows i).columns ∨ i = pivot ∧ c ∈ basis.columns ∧ c ∉ left)
  livePeak : s.live ≤ s.d.peakNonzeros
  peak : s.d.peakNonzeros ≤ t.nonzeroLimit
  work : s.d.work ≤ t.workLimit
  nonzeroLimit : s.d.nonzeroLimit = t.nonzeroLimit
  workLimit : s.d.workLimit = t.workLimit
  out : (s.rows pivot).columns = ∅
  affected : ∀ i, i ∈ affected ↔ t.listed i ∧ ∃ c ∈ left, c ∈ (s.rows i).columns

theorem Accounts.takeOut (h : Accounts t 0 s) (preferSparse : Bool) (pivot : ℕ) :
    Leaving t pivot (s.rows pivot) [] ∅ ((s.dequeue preferSparse pivot).setRow pivot .empty) := by
  have hlive := h.live
  constructor
  case live =>
    change s.live = stored t.m (Function.update s.rows pivot .empty) + (s.rows pivot).len
    by_cases hpivot : pivot < t.m
    · have hstored := stored_update s.rows hpivot .empty
      rw [SparseRow.len_empty] at hstored
      omega
    · have hnone : (s.rows pivot).len = 0 := by
        rw [SparseRow.len, h.beyond pivot (not_lt.mp hpivot), Finset.card_empty]
      have hsame : stored t.m (Function.update s.rows pivot .empty) = stored t.m s.rows := by
        apply Finset.sum_congr rfl
        intro i hi
        have hi := Finset.mem_range.mp hi
        rw [Function.update_of_ne (by omega)]
      omega
  case beyond =>
    intro i hi
    change (Function.update s.rows pivot .empty i).columns = ∅
    by_cases heq : i = pivot
    · rw [heq, Function.update_self]
      rfl
    · rw [Function.update_of_ne heq, h.beyond i hi]
  case incidence =>
    intro c i
    change i ∈ s.incidence c ↔ t.listed i ∧
      (c ∈ (Function.update s.rows pivot .empty i).columns ∨ _)
    rw [h.incidence]
    by_cases heq : i = pivot
    · subst heq
      rw [Function.update_self]
      simp [SparseRow.empty, and_comm]
    · rw [Function.update_of_ne heq]
      simp [heq, and_comm]
  case livePeak => exact h.livePeak
  case peak => exact h.peak
  case work => exact h.work
  case nonzeroLimit => exact h.nonzeroLimit
  case workLimit => exact h.workLimit
  case out =>
    change (Function.update s.rows pivot .empty pivot).columns = ∅
    rw [Function.update_self]
    rfl
  case affected =>
    intro i
    simp

theorem Leaving.charge {pivot : ℕ} {basis : SparseRow F} {left : List ℕ} {affected : Finset ℕ}
    (h : Leaving t pivot basis left affected s) (work : ℕ) :
    Guarantees (fun s' => Leaving t pivot basis left affected s' ∧ Charged s s') (Refuses t)
      (s.charge work) := by
  rw [RankState.charge]
  split
  case isTrue => exact ⟨h.work, h.peak⟩
  case isFalse hwork =>
    have hlimit := h.workLimit
    have hused := h.work
    refine ⟨⟨h.live, h.beyond, h.incidence, h.livePeak, h.peak, ?_, h.nonzeroLimit, h.workLimit,
      h.out, h.affected⟩, _, rfl⟩
    change s.d.work + work ≤ t.workLimit
    omega

/-- Leaving columns changes the work and the incidence alone. -/
def Left (s s' : RankState F) : Prop :=
  ∃ work incidence, s' = { s with d := { s.d with work }, incidence }

theorem Leaving.leaveColumn {first : RankState F} {pivot : ℕ} {basis : SparseRow F} {left : List ℕ}
    {affected : Finset ℕ} (h : Leaving t pivot basis left affected s) (hleft : Left first s) (c : ℕ) :
    Guarantees (fun acc => Leaving t pivot basis (left ++ [c]) acc.1 acc.2 ∧ Left first acc.2)
      (Refuses t) (RankState.leaveColumn pivot (affected, s) c) := by
  set others := (s.incidence c).erase pivot with hothers
  have hplace : ∀ i, i ∈ others ↔ t.listed i ∧ c ∈ (s.rows i).columns := by
    intro i
    rw [hothers, Finset.mem_erase, h.incidence]
    constructor
    · rintro ⟨hne, hlisted, hc | hc⟩
      · exact ⟨hlisted, hc⟩
      · exact absurd hc.1 hne
    · rintro ⟨hlisted, hc⟩
      refine ⟨?_, hlisted, Or.inl hc⟩
      rintro rfl
      rw [h.out] at hc
      exact absurd hc (Finset.notMem_empty c)
  have hnext : Leaving t pivot basis (left ++ [c]) (affected ∪ others)
      { s with incidence := Function.update s.incidence c others } := by
    refine ⟨h.live, h.beyond, ?_, h.livePeak, h.peak, h.work, h.nonzeroLimit, h.workLimit, h.out, ?_⟩
    · intro k i
      change i ∈ Function.update s.incidence c others k ↔ _
      by_cases hk : k = c
      · subst hk
        rw [Function.update_self, hplace]
        simp
      · rw [Function.update_of_ne hk, h.incidence]
        simp [hk]
    · intro i
      rw [Finset.mem_union, h.affected, hplace]
      simp only [List.mem_append, List.mem_singleton]
      constructor
      · rintro (⟨hlisted, k, hk, hmem⟩ | ⟨hlisted, hmem⟩)
        · exact ⟨hlisted, k, Or.inl hk, hmem⟩
        · exact ⟨hlisted, c, Or.inr rfl, hmem⟩
      · rintro ⟨hlisted, k, hk | rfl, hmem⟩
        · exact Or.inl ⟨hlisted, k, hk, hmem⟩
        · exact Or.inr ⟨hlisted, hmem⟩
  apply (hnext.charge others.card).bind
  rintro s' ⟨hs', work, rfl⟩
  obtain ⟨_, _, rfl⟩ := hleft
  exact ⟨hs', work, _, rfl⟩

/-- What taking a row out does to the state. -/
structure Taken (t : Terms) (preferSparse : Bool) (s : RankState F) (pivot : ℕ) (basis : SparseRow F)
    (affected : Finset ℕ) (s' : RankState F) : Prop where
  accounts : Accounts t basis.len s'
  affected : ∀ i, i ∈ affected ↔ t.listed i ∧ ∃ c ∈ basis.columns, c ∈ (s'.rows i).columns
  unit : basis = (s.rows pivot).divide (s.norms pivot)
  rows : s'.rows = Function.update s.rows pivot .empty
  norms : s'.norms = s.norms
  queue : s'.queue = s.queue.remove (s.norms pivot) pivot
  sparsity : s'.sparsity =
    if preferSparse then s.sparsity.erase (toLex ((s.rows pivot).len, pivot)) else s.sparsity
  pivots : s'.pivots = s.pivots ++ [(pivot, basis)]
  accepted : s'.d.acceptedPivots = s.d.acceptedPivots + 1
  tolerance : s'.d.tolerance = s.d.tolerance

theorem Accounts.takeRow (h : Accounts t 0 s) (preferSparse : Bool) (pivot : ℕ) :
    Guarantees (fun taken => Taken t preferSparse s pivot taken.1 taken.2.1 taken.2.2) (Refuses t)
      (RankState.takeRow preferSparse pivot s) := by
  set out := (s.dequeue preferSparse pivot).setRow pivot .empty with hout
  apply ((h.takeOut preferSparse pivot).charge (s.rows pivot).len).bind
  rintro first ⟨hfirst, hcharged⟩
  have hleft : Left out first := by
    obtain ⟨work, rfl⟩ := hcharged
    exact ⟨work, _, rfl⟩
  have hloop : Guarantees
      (fun acc => Leaving t pivot (s.rows pivot) (s.rows pivot).columns.sort acc.1 acc.2 ∧ Left out acc.2)
      (Refuses t) ((s.rows pivot).columns.sort.foldlM (RankState.leaveColumn pivot) (∅, first)) := by
    apply Guarantees.foldlM fun left (acc : Finset ℕ × RankState F) =>
      Leaving t pivot (s.rows pivot) left acc.1 acc.2 ∧ Left out acc.2
    · rintro left c rest ⟨affected, state⟩ - ⟨hleaving, hleft⟩
      exact hleaving.leaveColumn hleft c
    · exact ⟨hfirst, hleft⟩
  apply hloop.bind
  rintro ⟨affected, last⟩ ⟨hlast, work, incidence, rfl⟩
  constructor
  case accounts =>
    refine ⟨hlast.live, hlast.beyond, ?_, hlast.livePeak, hlast.peak, hlast.work, hlast.nonzeroLimit,
      hlast.workLimit⟩
    intro c i
    change i ∈ incidence c ↔ _
    have hincidence := hlast.incidence c i
    rw [Finset.mem_sort] at hincidence
    rw [show i ∈ incidence c ↔ _ from hincidence]
    tauto
  case affected =>
    intro i
    have haffected := hlast.affected i
    simp only [Finset.mem_sort] at haffected
    exact haffected
  case unit => rfl
  case rows => rfl
  case norms => rfl
  case queue => rfl
  case sparsity => rfl
  case pivots => rfl
  case accepted => rfl
  case tolerance => rfl

theorem Accounts.choosePivot (h : Accounts t 0 s) (preferSparse : Bool) (largest : F × ℕ) :
    Guarantees (fun choice => Accounts t 0 choice.2 ∧ Charged s choice.2 ∧
        (choice.1 = largest.2 ∨ preferSparse = true ∧ (∃ length, toLex (length, choice.1) ∈ s.sparsity) ∧
          lt s.d.tolerance (s.norms choice.1) = true))
      (Refuses t) (RankState.choosePivot preferSparse largest s) := by
  rw [RankState.choosePivot]
  split
  case isTrue hprefer =>
    apply (h.chooseSparse (Charged.refl s) largest.1 _).bind
    rintro ⟨chosen, next⟩ ⟨hnext, hcharged, hfound⟩
    refine ⟨hnext, hcharged, ?_⟩
    cases chosen with
    | none => exact Or.inl rfl
    | some i =>
      obtain ⟨⟨length, hmem⟩, hlt⟩ := hfound i rfl
      exact Or.inr ⟨hprefer, ⟨length, (Finset.mem_sort _).mp hmem⟩, hlt⟩
  case isFalse => exact ⟨h, Charged.refl s, Or.inl rfl⟩

/-- A pivot is the row of the greatest norm, or another with a norm above the tolerance. -/
def Picked (preferSparse : Bool) (s : RankState F) (pivot : ℕ) : Prop :=
  ∃ largest, s.queue.last = some largest ∧ le largest.1 s.d.tolerance = false ∧
    (pivot = largest.2 ∨ preferSparse = true ∧ (∃ length, toLex (length, pivot) ∈ s.sparsity) ∧
      lt s.d.tolerance (s.norms pivot) = true)

/-- A step ends the audit where no norm is above the tolerance, and takes a pivot otherwise. -/
theorem Accounts.takePivot (h : Accounts t 0 s) (preferSparse : Bool) :
    Guarantees (fun result => match result with
        | none => ∀ largest, s.queue.last = some largest → le largest.1 s.d.tolerance = true
        | some (basis, affected, s') => ∃ pivot, Picked preferSparse s pivot ∧
            Taken t preferSparse s pivot basis affected s')
      (Refuses t) (RankState.takePivot preferSparse s) := by
  unfold RankState.takePivot
  cases hlast : s.queue.last with
  | none => exact fun _ hlargest => nomatch hlargest
  | some largest =>
    dsimp only
    split
    case isTrue hle =>
      rintro _ ⟨⟩
      exact hle
    case isFalse hle =>
      apply (h.choosePivot preferSparse largest).bind
      rintro ⟨pivot, next⟩ ⟨hnext, ⟨work, rfl⟩, hpicked⟩
      apply (hnext.takeRow preferSparse pivot).bind
      rintro ⟨basis, affected, s'⟩ htaken
      refine ⟨pivot, ⟨largest, hlast, Bool.eq_false_iff.mpr hle, hpicked⟩, ?_⟩
      exact ⟨htaken.accounts, htaken.affected, htaken.unit, htaken.rows, htaken.norms, htaken.queue,
        htaken.sparsity, htaken.pivots, htaken.accepted, htaken.tolerance⟩

theorem Taken.mem_affected {preferSparse : Bool} {pivot : ℕ} {basis : SparseRow F} {affected : Finset ℕ}
    {s' : RankState F} (h : Taken t preferSparse s pivot basis affected s') {i : ℕ} (hi : i ∈ affected) :
    i < t.m ∧ t.listed i := by
  obtain ⟨hlisted, c, -, hc⟩ := (h.affected i).mp hi
  exact ⟨h.accounts.lt_of_mem hc, hlisted⟩

theorem Accounts.applyRows (h : Accounts t held s) (preferSparse : Bool) (basis : SparseRow F) {rows : List ℕ}
    (hrows : ∀ i ∈ rows, i < t.m ∧ t.listed i) :
    Guarantees (Accounts t held) (Refuses t) (rows.foldlM (RankState.applyRow preferSparse basis) s) :=
  Guarantees.foldlM_keep (fun i hi _ hs => hs.applyRow preferSparse basis (hrows i hi).1 (hrows i hi).2) h

theorem Accounts.release (h : Accounts t held s) :
    Guarantees (fun s' => Accounts t 0 s' ∧ s' = { s with live := s.live - held }) (Refuses t)
      (s.release held) := by
  have hlive := h.live
  have hpeak := h.livePeak
  rw [RankState.release]
  split
  case isTrue hunder => omega
  case isFalse hunder =>
    refine ⟨⟨?_, h.beyond, h.incidence, ?_, h.peak, h.work, h.nonzeroLimit, h.workLimit⟩, rfl⟩
    · change s.live - held = stored t.m s.rows + 0
      omega
    · change s.live - held ≤ s.d.peakNonzeros
      omega

theorem Accounts.pivotStep (h : Accounts t 0 s) (preferSparse : Bool) :
    Guarantees (fun result => ∀ s', result = some s' → Accounts t 0 s') (Refuses t)
      (RankState.pivotStep preferSparse s) := by
  apply (h.takePivot preferSparse).bind
  intro result hresult
  cases result with
  | none => exact fun _ hs' => nomatch hs'
  | some taken =>
    obtain ⟨basis, affected, next⟩ := taken
    obtain ⟨pivot, -, htaken⟩ := hresult
    have hrows : ∀ i ∈ affected.sort (fun a b => a ≤ b), i < t.m ∧ t.listed i :=
      fun i hi => htaken.mem_affected ((Finset.mem_sort _).mp hi)
    apply (htaken.accounts.applyRows preferSparse basis hrows).bind
    intro applied happlied
    apply happlied.release.bind
    rintro last ⟨hlast, -⟩
    rintro _ ⟨⟩
    exact hlast

theorem Accounts.pivotLoop {preferSparse : Bool} {fuel : ℕ} {result : Audited F (RankState F)}
    (h : Accounts t 0 s) (hresult : RankState.pivotLoop preferSparse fuel s = some result) :
    Guarantees (Accounts t 0) (Refuses t) result := by
  induction fuel generalizing s with
  | zero => exact nomatch hresult
  | succ fuel ih =>
    have hstep := h.pivotStep preferSparse
    rw [RankState.pivotLoop] at hresult
    split at hresult
    case h_1 stop herror =>
      obtain rfl := Option.some.inj hresult
      exact hstep.of_error herror
    case h_2 hnone =>
      obtain rfl := Option.some.inj hresult
      exact h
    case h_3 next hnext => exact ih (hstep.of_ok hnext next rfl) hresult

/-! ### Reading the rows -/

/-- The rows that are listed: those with a norm above zero. -/
def isListed (rows : List (SparseRow F)) (i : ℕ) : Prop := lt 0 (rows.getD i .empty).norm = true

def terms (rows : List (SparseRow F)) (nonzeroLimit workLimit : ℕ) : Terms :=
  ⟨rows.length, nonzeroLimit, workLimit, isListed rows⟩

/-- The accounts when the first rows have been read, and the others are as they were. -/
structure Entered (rows : List (SparseRow F)) (nonzeroLimit workLimit count : ℕ) (s : RankState F) :
    Prop where
  accounts : Accounts { terms rows nonzeroLimit workLimit with listed := fun i => i < count ∧ isListed rows i }
    0 s
  rest : ∀ i, count ≤ i → s.rows i = rows.getD i .empty

variable {rows : List (SparseRow F)} {nonzeroLimit workLimit : ℕ}

theorem stored_initial (rows : List (SparseRow F)) :
    stored rows.length (fun i => rows.getD i .empty) = (rows.map SparseRow.len).sum := by
  induction rows with
  | nil => rfl
  | cons row rows ih =>
    rw [stored, List.length_cons, Finset.sum_range_succ', List.map_cons, List.sum_cons, ← ih, stored]
    simp only [List.getD_cons_succ, List.getD_cons_zero]
    omega

theorem entered_initial (hlimit : (rows.map SparseRow.len).sum ≤ nonzeroLimit) (tolerance : F) :
    Entered rows nonzeroLimit workLimit 0 (initial rows nonzeroLimit workLimit tolerance) := by
  constructor
  case rest => exact fun _ _ => rfl
  case accounts =>
    constructor
    case live => exact (stored_initial rows).symm
    case beyond =>
      intro i hi
      change (rows.getD i .empty).columns = ∅
      rw [List.getD_eq_getElem?_getD, List.getElem?_eq_none hi]
      rfl
    case incidence =>
      intro c i
      change i ∈ ∅ ↔ _ ∧ i < 0 ∧ _
      simp
    case livePeak => exact le_refl _
    case peak => exact hlimit
    case work => exact Nat.zero_le _
    case nonzeroLimit => rfl
    case workLimit => rfl

/-- A row that is not zero is scaled, which keeps its columns, and listed under each of them. -/
theorem Entered.list {i : ℕ} (h : Entered rows nonzeroLimit workLimit i s) (hi : i < rows.length)
    (hlisted : isListed rows i) (x : F) (norms : ℕ → F) :
    Entered rows nonzeroLimit workLimit (i + 1)
      { s.setRow i ((s.rows i).divide x) with
        incidence := s.addIncidence i (s.rows i).columns, norms } := by
  have hlive := h.accounts.live
  have hstored : stored rows.length (Function.update s.rows i ((s.rows i).divide x)) + (s.rows i).len =
      stored rows.length s.rows + ((s.rows i).divide x).len := stored_update s.rows hi _
  rw [SparseRow.len_divide] at hstored
  constructor
  case rest =>
    intro j hj
    change Function.update s.rows i ((s.rows i).divide x) j = _
    rw [Function.update_of_ne (by omega), h.rest j (by omega)]
  case accounts =>
    constructor
    case live =>
      change s.live = stored rows.length (Function.update s.rows i ((s.rows i).divide x)) + 0
      change s.live = stored rows.length s.rows + 0 at hlive
      omega
    case beyond => exact h.accounts.beyond_update hi _
    case incidence =>
      intro c j
      have hincidence : j ∈ s.incidence c ↔ c ∈ (s.rows j).columns ∧ j < i ∧ isListed rows j :=
        h.accounts.incidence c j
      change j ∈ s.addIncidence i (s.rows i).columns c ↔
        c ∈ (Function.update s.rows i ((s.rows i).divide x) j).columns ∧ j < i + 1 ∧ isListed rows j
      rw [addIncidence]
      by_cases hj : j = i
      · subst hj
        rw [Function.update_self, SparseRow.divide]
        split
        case isTrue hc => simp [hc, hlisted]
        case isFalse hc =>
          rw [hincidence]
          simp [hc]
      · have hlt : j < i + 1 ↔ j < i := by omega
        rw [Function.update_of_ne hj, hlt]
        split
        case isTrue hc => rw [Finset.mem_insert, or_iff_right hj, hincidence]
        case isFalse hc => exact hincidence
    case livePeak => exact h.accounts.livePeak
    case peak => exact h.accounts.peak
    case work => exact h.accounts.work
    case nonzeroLimit => exact h.accounts.nonzeroLimit
    case workLimit => exact h.accounts.workLimit

theorem Entered.skip {i : ℕ} (h : Entered rows nonzeroLimit workLimit i s) (hlisted : ¬ isListed rows i) :
    Entered rows nonzeroLimit workLimit (i + 1) s := by
  constructor
  case rest => exact fun j hj => h.rest j (by omega)
  case accounts =>
    refine ⟨h.accounts.live, h.accounts.beyond, ?_, h.accounts.livePeak, h.accounts.peak, h.accounts.work,
      h.accounts.nonzeroLimit, h.accounts.workLimit⟩
    intro c j
    have hincidence : j ∈ s.incidence c ↔ c ∈ (s.rows j).columns ∧ j < i ∧ isListed rows j :=
      h.accounts.incidence c j
    change _ ↔ c ∈ (s.rows j).columns ∧ j < i + 1 ∧ isListed rows j
    rw [hincidence]
    constructor
    · exact fun ⟨hc, hlt, hj⟩ => ⟨hc, by omega, hj⟩
    · rintro ⟨hc, hlt, hj⟩
      refine ⟨hc, ?_, hj⟩
      by_contra hle
      obtain rfl : j = i := by omega
      exact hlisted hj

theorem Entered.enqueue {i count : ℕ} (h : Entered rows nonzeroLimit workLimit count s)
    (preferSparse : Bool) : Entered rows nonzeroLimit workLimit count (s.enqueue preferSparse i) :=
  ⟨h.accounts.enqueue preferSparse i, h.rest⟩

theorem Entered.enterRow {i : ℕ} (h : Entered rows nonzeroLimit workLimit i s) (hi : i < rows.length) (n : ℕ)
    (preferSparse : Bool) :
    Guarantees (Entered rows nonzeroLimit workLimit (i + 1)) (Refuses (terms rows nonzeroLimit workLimit))
      (RankState.enterRow n preferSparse s i) := by
  have hcharge : Guarantees (fun s' => Accounts _ 0 s' ∧ Charged s s')
      (Refuses (terms rows nonzeroLimit workLimit)) (s.charge (s.rows i).len) := h.accounts.charge _
  apply hcharge.bind
  rintro next ⟨hnext, work, rfl⟩
  have hentered : Entered rows nonzeroLimit workLimit i { s with d := { s.d with work } } := ⟨hnext, h.rest⟩
  dsimp only
  split
  · exact hnext.refuses .nonfinite
  · have hrow := h.rest i (le_refl i)
    split
    case isTrue hpositive =>
      apply Entered.enqueue
      apply hentered.list hi
      rw [isListed, ← hrow]
      exact hpositive
    case isFalse hzero =>
      apply Entered.enqueue
      apply hentered.skip
      rw [isListed, ← hrow]
      exact hzero

theorem Entered.done (h : Entered rows nonzeroLimit workLimit rows.length s) :
    Accounts (terms rows nonzeroLimit workLimit) 0 s := by
  refine ⟨h.accounts.live, h.accounts.beyond, ?_, h.accounts.livePeak, h.accounts.peak, h.accounts.work,
    h.accounts.nonzeroLimit, h.accounts.workLimit⟩
  intro c i
  have hincidence : i ∈ s.incidence c ↔ c ∈ (s.rows i).columns ∧ i < rows.length ∧ isListed rows i :=
    h.accounts.incidence c i
  rw [hincidence]
  constructor
  · exact fun ⟨hc, _, hlisted⟩ => ⟨hc, hlisted⟩
  · exact fun ⟨hc, hlisted⟩ => ⟨hc, h.accounts.lt_of_mem hc, hlisted⟩

/-- Where an audit has not been refused for its size, all its rows are accounted for. -/
theorem setup_accounts (rows : List (SparseRow F)) (n nonzeroLimit workLimit : ℕ) (preferSparse : Bool)
    (tolerance : F) (hlimit : (rows.map SparseRow.len).sum ≤ nonzeroLimit) :
    Guarantees (Accounts (terms rows nonzeroLimit workLimit) 0) (Refuses (terms rows nonzeroLimit workLimit))
      (setup rows n nonzeroLimit workLimit preferSparse tolerance) := by
  rw [setup]
  split
  case isTrue hfill => exact absurd hlimit (not_le.mpr hfill)
  case isFalse =>
    have hloop := Guarantees.foldlM_range (Entered rows nonzeroLimit workLimit)
      (fun i hi _ hs => hs.enterRow hi n preferSparse) (entered_initial hlimit tolerance)
    exact hloop.mono (fun _ hs => hs.done) fun _ hstop => hstop

/-! ### Every state -/

/-- The states of an audit, with the pivot in use: between pivots, when one has been taken, after each row that
it has been applied to, and after each coefficient. -/
inductive Reached (rows : List (SparseRow F)) (n nonzeroLimit workLimit : ℕ) (preferSparse : Bool)
    (tolerance : F) : Option (SparseRow F) → RankState F → Prop where
  | start {s : RankState F} (h : setup rows n nonzeroLimit workLimit preferSparse tolerance = .ok s) :
      Reached rows n nonzeroLimit workLimit preferSparse tolerance none s
  | next {s s' : RankState F} (h : Reached rows n nonzeroLimit workLimit preferSparse tolerance none s)
      (hstep : pivotStep preferSparse s = .ok (some s')) :
      Reached rows n nonzeroLimit workLimit preferSparse tolerance none s'
  | row {s taken s' : RankState F} {basis : SparseRow F} {affected : Finset ℕ} {done : List ℕ}
      (h : Reached rows n nonzeroLimit workLimit preferSparse tolerance none s)
      (htaken : takePivot preferSparse s = .ok (some (basis, affected, taken)))
      (hdone : done <+: affected.sort) (hrows : done.foldlM (applyRow preferSparse basis) taken = .ok s') :
      Reached rows n nonzeroLimit workLimit preferSparse tolerance (some basis) s'
  | first {s taken s' begun s'' : RankState F} {basis : SparseRow F} {affected : Finset ℕ} {done : List ℕ}
      {i : ℕ} {dot : F} {columns : List ℕ}
      (h : Reached rows n nonzeroLimit workLimit preferSparse tolerance none s)
      (htaken : takePivot preferSparse s = .ok (some (basis, affected, taken)))
      (hdone : done ++ [i] <+: affected.sort)
      (hrows : done.foldlM (applyRow preferSparse basis) taken = .ok s')
      (hbegun : beginPass basis i (s'.dequeue preferSparse i) = .ok (some dot, begun))
      (hcolumns : columns <+: basis.columns.sort)
      (hvisited : columns.foldlM (subtractAt basis i dot) begun = .ok s'') :
      Reached rows n nonzeroLimit workLimit preferSparse tolerance (some basis) s''
  | second {s taken s' passed begun s'' : RankState F} {basis : SparseRow F} {affected : Finset ℕ}
      {done : List ℕ} {i : ℕ} {dot : F} {columns : List ℕ}
      (h : Reached rows n nonzeroLimit workLimit preferSparse tolerance none s)
      (htaken : takePivot preferSparse s = .ok (some (basis, affected, taken)))
      (hdone : done ++ [i] <+: affected.sort)
      (hrows : done.foldlM (applyRow preferSparse basis) taken = .ok s')
      (hpassed : pass basis i (s'.dequeue preferSparse i) = .ok passed)
      (hbegun : beginPass basis i passed = .ok (some dot, begun))
      (hcolumns : columns <+: basis.columns.sort)
      (hvisited : columns.foldlM (subtractAt basis i dot) begun = .ok s'') :
      Reached rows n nonzeroLimit workLimit preferSparse tolerance (some basis) s''

def heldBy (held : Option (SparseRow F)) : ℕ := held.elim 0 SparseRow.len

variable {n : ℕ} {preferSparse : Bool} {tolerance : F}

theorem setup_limit (h : setup rows n nonzeroLimit workLimit preferSparse tolerance = .ok s) :
    (rows.map SparseRow.len).sum ≤ nonzeroLimit := by
  rw [setup] at h
  split at h
  case isTrue => exact nomatch h
  case isFalse hlimit => exact not_lt.mp hlimit

theorem Taken.applied {pivot : ℕ} {basis : SparseRow F} {affected : Finset ℕ} {s' s'' : RankState F}
    (h : Taken t preferSparse s pivot basis affected s') {done : List ℕ} (hdone : ∀ i ∈ done, i ∈ affected)
    (hrows : done.foldlM (RankState.applyRow preferSparse basis) s' = .ok s'') :
    Accounts t basis.len s'' :=
  (h.accounts.applyRows preferSparse basis fun i hi => h.mem_affected (hdone i hi)).of_ok hrows

theorem Reached.accounts {held : Option (SparseRow F)}
    (h : Reached rows n nonzeroLimit workLimit preferSparse tolerance held s) :
    Accounts (terms rows nonzeroLimit workLimit) (heldBy held) s := by
  induction h with
  | start h => exact (setup_accounts rows n nonzeroLimit workLimit preferSparse tolerance (setup_limit h)).of_ok h
  | next h hstep ih => exact (Accounts.pivotStep ih preferSparse).of_ok hstep _ rfl
  | row h htaken hdone hrows ih =>
    obtain ⟨pivot, -, htaken⟩ := (Accounts.takePivot ih preferSparse).of_ok htaken
    exact htaken.applied (fun i hi => (Finset.mem_sort _).mp (hdone.subset hi)) hrows
  | first h htaken hdone hrows hbegun hcolumns hvisited ih =>
    obtain ⟨pivot, -, htaken⟩ := (Accounts.takePivot ih preferSparse).of_ok htaken
    have hmem := fun i hi => (Finset.mem_sort _).mp (hdone.subset (a := i) hi)
    have hlisted := htaken.mem_affected (hmem _ (List.mem_append_right _ List.mem_cons_self))
    have happlied := htaken.applied (fun i hi => hmem i (List.mem_append_left _ hi)) hrows
    have hbegan := ((happlied.dequeue preferSparse _).beginPass _ _).of_ok hbegun
    exact (hbegan.1.columns _ hlisted.1 hlisted.2 _ _).of_ok hvisited
  | second h htaken hdone hrows hpassed hbegun hcolumns hvisited ih =>
    obtain ⟨pivot, -, htaken⟩ := (Accounts.takePivot ih preferSparse).of_ok htaken
    have hmem := fun i hi => (Finset.mem_sort _).mp (hdone.subset (a := i) hi)
    have hlisted := htaken.mem_affected (hmem _ (List.mem_append_right _ List.mem_cons_self))
    have happlied := htaken.applied (fun i hi => hmem i (List.mem_append_left _ hi)) hrows
    have hpassed := ((happlied.dequeue preferSparse _).pass _ hlisted.1 hlisted.2).of_ok hpassed
    have hbegan := (hpassed.beginPass _ _).of_ok hbegun
    exact (hbegan.1.columns _ hlisted.1 hlisted.2 _ _).of_ok hvisited

/-- However an audit ends, no count has gone below zero, and the limits are kept: but for the coefficients it
was given, which are counted before they are compared with the limit. -/
theorem auditWithLimits_within {fuel : ℕ} {result : AuditEnd F}
    (h : auditWithLimits fuel rows n nonzeroLimit workLimit preferSparse tolerance = some result) :
    ∃ rank d, result = .ended rank d ∧ d.work ≤ workLimit ∧
      d.peakNonzeros ≤ Nat.max nonzeroLimit (rows.map SparseRow.len).sum := by
  have hends : ∀ last : Audited F (RankState F),
      Guarantees (Accounts (terms rows nonzeroLimit workLimit) 0) (Refuses (terms rows nonzeroLimit workLimit))
        last → ∃ rank d, endOf last = .ended rank d ∧ d.work ≤ workLimit ∧
          d.peakNonzeros ≤ Nat.max nonzeroLimit (rows.map SparseRow.len).sum := by
    intro last hlast
    match last with
    | .ok s => exact ⟨_, _, rfl, hlast.work, le_max_of_le_left hlast.peak⟩
    | .error (.refused outcome d) => exact ⟨_, _, rfl, hlast.1, le_max_of_le_left hlast.2⟩
    | .error .underflow => exact hlast.elim
  rw [auditWithLimits] at h
  split at h
  case h_1 stop herror =>
    obtain rfl := Option.some.inj h
    by_cases hlimit : (rows.map SparseRow.len).sum ≤ nonzeroLimit
    · have hsetup := setup_accounts rows n nonzeroLimit workLimit preferSparse tolerance hlimit
      rw [herror] at hsetup
      exact hends _ hsetup
    · rw [setup] at herror
      have hfill : nonzeroLimit < (initial rows nonzeroLimit workLimit tolerance).live := not_le.mp hlimit
      rw [if_pos hfill] at herror
      obtain rfl := Except.error.inj herror
      exact ⟨_, _, rfl, Nat.zero_le _, Nat.le_max_right _ _⟩
  case h_2 s hsetup =>
    obtain ⟨last, hlast, rfl⟩ := Option.map_eq_some_iff.mp h
    have haccounts :=
      (setup_accounts rows n nonzeroLimit workLimit preferSparse tolerance (setup_limit hsetup)).of_ok hsetup
    exact hends _ (Accounts.pivotLoop haccounts hlast)

end RankState

end Tellegen.McOpf
