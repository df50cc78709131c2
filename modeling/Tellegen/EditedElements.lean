import Tellegen.EditPreview

/-!
The elements that edits address. A key names a row of the source table; on the axis of a committed
solution every key of one row stands for the same position, so that the two spellings of an element
meet there. Validation reads the keys alone, and a validated key names a row.
-/

set_option linter.unusedSectionVars false

open Binary64 Std KeyedSums Grouping Lookup

namespace Tellegen

/-! ### Keys of one element -/

def sourceTable {F T : Type} (network : BalancedNetwork F T) : EditKind → SourceTable
  | .demand => busTable network
  | .lineLimit => branchTable network

/-- The row that a key names. -/
def SourceTable.row (table : SourceTable) : ElementKey → Option ℕ
  | .id value => (toUsize value).bind fun number => table.numbers.findIdx? (· = number)
  | .uid uid => table.uids.findIdx? (· = some uid)

structure SourceTable.Distinct (table : SourceTable) : Prop where
  numbers : table.numbers.Nodup
  uids : ∀ (i j : ℕ) (uid : String), table.uids[i]? = some (some uid) →
    table.uids[j]? = some (some uid) → i = j

/-- A key that names a source row stands for the last position of that row on the axis. -/
theorem get_of_row {table : SourceTable} {keys : AxisKeys} {rows : List (Option ℕ)}
    (haxis : AxisOver table keys rows) (hdistinct : table.Distinct)
    {key : ElementKey} {row : ℕ} (hrow : table.row key = some row) :
    keys.get key = lastIndex (· = some row) rows := by
  cases key with
  | id value =>
    rw [SourceTable.row] at hrow
    obtain ⟨number, hnumber, hfind⟩ := Option.bind_eq_some_iff.mp hrow
    rw [AxisKeys.get, hnumber, Option.bind_some]
    apply lastIndex_congr
    rw [List.forall₂_iff_get]
    refine ⟨haxis.length_ids, ?_⟩
    intro i hi hi'
    rw [decide_eq_decide]
    have hat : rows[i]? = some (rows.get ⟨i, hi'⟩) := List.getElem?_eq_getElem hi'
    have hid : keys.ids[i]? = some (keys.ids.get ⟨i, hi⟩) := List.getElem?_eq_getElem hi
    obtain ⟨hlt, hself, _⟩ := List.findIdx?_eq_some_iff_getElem.mp hfind
    cases hsource : rows.get ⟨i, hi'⟩ with
    | none =>
      rw [hsource] at hat
      obtain ⟨_, other, hother, hnot⟩ := haxis.star i hat
      rw [hid] at hother
      cases hother
      constructor
      · intro heq
        rw [heq] at hnot
        rw [← of_decide_eq_true hself] at hnot
        exact absurd (List.getElem_mem hlt) hnot
      · intro heq
        cases heq
    | some other =>
      rw [hsource] at hat
      obtain ⟨n, _, hn, _, hsame, _⟩ := haxis.source i other hat
      rw [hid] at hsame
      cases hsame
      obtain ⟨hltn, hgetn⟩ := List.getElem?_eq_some_iff.mp hn
      rw [Option.some.injEq, ← hgetn, ← of_decide_eq_true hself]
      exact hdistinct.numbers.getElem_inj_iff
  | uid uid =>
    rw [SourceTable.row] at hrow
    rw [AxisKeys.get]
    apply lastIndex_congr
    rw [List.forall₂_iff_get]
    refine ⟨haxis.length_uids, ?_⟩
    intro i hi hi'
    rw [decide_eq_decide]
    have hat : rows[i]? = some (rows.get ⟨i, hi'⟩) := List.getElem?_eq_getElem hi'
    have huid : keys.uids[i]? = some (keys.uids.get ⟨i, hi⟩) := List.getElem?_eq_getElem hi
    obtain ⟨hlt, hself, _⟩ := List.findIdx?_eq_some_iff_getElem.mp hrow
    have hself : table.uids[row]? = some (some uid) := by
      rw [List.getElem?_eq_getElem hlt, of_decide_eq_true hself]
    cases hsource : rows.get ⟨i, hi'⟩ with
    | none =>
      rw [hsource] at hat
      have hnone := (haxis.star i hat).1
      rw [huid] at hnone
      rw [Option.some.inj hnone]
      simp
    | some other =>
      rw [hsource] at hat
      obtain ⟨_, found, _, hfound, _, hsame⟩ := haxis.source i other hat
      rw [huid] at hsame
      rw [Option.some.inj hsame, Option.some.injEq]
      constructor
      · intro heq
        rw [heq] at hfound
        exact hdistinct.uids other row uid hfound hself
      · rintro rfl
        rw [hfound] at hself
        exact Option.some.inj hself

/-! ### Validated keys -/

theorem unique_of_validateUniqueUids {family : String} {seen : List String}
    {uids : List (Option String × Option ℕ)} (h : validateUniqueUids family seen uids = .ok ()) :
    (∀ (i : ℕ) (uid : String), (uids.map Prod.fst)[i]? = some (some uid) → uid ∉ seen) ∧
      ∀ (i j : ℕ) (uid : String), (uids.map Prod.fst)[i]? = some (some uid) →
        (uids.map Prod.fst)[j]? = some (some uid) → i = j := by
  induction uids generalizing seen with
  | nil =>
    constructor
    · intro i uid hi
      cases hi
    · intro i j uid hi
      cases hi
  | cons head rest ih =>
    obtain ⟨first, own⟩ := head
    cases first with
    | none =>
      rw [validateUniqueUids] at h
      obtain ⟨hseen, hunique⟩ := ih h
      constructor
      · intro i uid hi
        cases i with
        | zero => cases hi
        | succ i => exact hseen i uid hi
      · intro i j uid hi hj
        cases i with
        | zero => cases hi
        | succ i =>
          cases j with
          | zero => cases hj
          | succ j => exact congrArg Nat.succ (hunique i j uid hi hj)
    | some first =>
      rw [validateUniqueUids_some, Outcome.ite_error_eq_ok, Outcome.ite_error_eq_ok] at h
      obtain ⟨_, hnew, hrest⟩ := h
      obtain ⟨hseen, hunique⟩ := ih hrest
      have hfirst : ∀ (i : ℕ), (rest.map Prod.fst)[i]? ≠ some (some first) :=
        fun i hi => hseen i first hi List.mem_cons_self
      constructor
      · intro i uid hi
        cases i with
        | zero =>
          cases hi
          exact hnew
        | succ i => exact fun hmem => hseen i uid hi (List.mem_cons_of_mem _ hmem)
      · intro i j uid hi hj
        cases i with
        | zero =>
          cases hi
          cases j with
          | zero => rfl
          | succ j => exact absurd hj (hfirst j)
        | succ i =>
          cases j with
          | zero =>
            cases hj
            exact absurd hi (hfirst i)
          | succ j => exact congrArg Nat.succ (hunique i j uid hi hj)

section

variable {F T : Type} {network : BalancedNetwork F T}

theorem distinct_of_validate (hvalid : validateCanonicalIdentity network = .ok ())
    (hids : (network.buses.map (·.id)).Nodup) (kind : EditKind) :
    (sourceTable network kind).Distinct := by
  rw [validateCanonicalIdentity, Outcome.bind_eq_ok] at hvalid
  obtain ⟨_, hbuses, hbranches⟩ := hvalid
  cases kind with
  | demand =>
    have hunique := (unique_of_validateUniqueUids hbuses).2
    rw [List.map_map] at hunique
    exact ⟨hids, hunique⟩
  | lineLimit =>
    have hunique := (unique_of_validateUniqueUids hbranches).2
    rw [List.map_map] at hunique
    exact ⟨List.nodup_range.map fun a b h => Nat.succ.inj h, hunique⟩

theorem exists_findIdx? {α : Type} {p : α → Bool} {l : List α} {a : α} (ha : a ∈ l) (hp : p a) :
    ∃ i, l.findIdx? p = some i := by
  rw [← Option.isSome_iff_exists, List.findIdx?_isSome, List.any_eq_true]
  exact ⟨a, ha, hp⟩

theorem exists_findIdx?_of_find? {α β : Type} (f : α → β) {p : β → Bool} {l : List α} {a : α}
    (h : l.find? (fun a => p (f a)) = some a) : ∃ i, (l.map f).findIdx? p = some i := by
  have hp := List.find?_some h
  exact exists_findIdx? (List.mem_map_of_mem (List.mem_of_find?_eq_some h)) hp

theorem row_of_canonicalBus {key : ElementKey} {bus : Bus} (h : canonicalBus network key = some bus) :
    ∃ row, (sourceTable network .demand).row key = some row := by
  cases key with
  | id value =>
    obtain ⟨number, hnumber, hbus⟩ := Option.bind_eq_some_iff.mp h
    rw [SourceTable.row, hnumber, Option.bind_some]
    exact exists_findIdx?_of_find? Bus.id (p := fun n => decide (n = number)) hbus
  | uid uid => exact exists_findIdx?_of_find? Bus.uid (p := fun u => decide (u = some uid)) h

theorem row_of_canonicalBranch {key : ElementKey} {branch : Branch F}
    (h : canonicalBranch network key = some branch) :
    ∃ row, (sourceTable network .lineLimit).row key = some row := by
  cases key with
  | id value =>
    obtain ⟨position, hposition, hbranch⟩ := Option.bind_eq_some_iff.mp h
    split at hbranch
    case isTrue => cases hbranch
    case isFalse hne =>
      obtain ⟨hlt, _⟩ := List.getElem?_eq_some_iff.mp hbranch
      rw [SourceTable.row, hposition, Option.bind_some]
      apply exists_findIdx? (a := position)
      · rw [sourceTable, branchTable, List.mem_map]
        exact ⟨position - 1, List.mem_range.mpr hlt, by omega⟩
      · exact decide_eq_true rfl
  | uid uid => exact exists_findIdx?_of_find? Branch.uid (p := fun u => decide (u = some uid)) h

end

section

variable {F T : Type} [Binary64 F] {network : BalancedNetwork F T}

theorem canonicalBus_of_validate {entry : ElementKey × F}
    (h : validateDemandDelta network entry = .ok ()) : ∃ bus, canonicalBus network entry.1 = some bus := by
  have htarget : ∀ key, validateDemandDelta.target network key = .ok () →
      ∃ bus, canonicalBus network key = some bus := by
    intro key hkey
    rw [validateDemandDelta.target] at hkey
    cases hbus : canonicalBus network key with
    | none =>
      rw [hbus] at hkey
      cases hkey
    | some bus => exact ⟨bus, rfl⟩
  obtain ⟨key, mw⟩ := entry
  simp only [validateDemandDelta, Outcome.ite_error_eq_ok] at h
  cases key with
  | id value =>
    simp only [Outcome.ite_error_eq_ok] at h
    exact htarget _ h.2.2
  | uid uid => exact htarget _ h.2

theorem canonicalBranch_of_validate {entry : ElementKey × F}
    (h : validateRatingDelta network entry = .ok ()) :
    ∃ branch, canonicalBranch network entry.1 = some branch := by
  have htarget : ∀ key, validateRatingDelta.target network key = .ok () →
      ∃ branch, canonicalBranch network key = some branch := by
    intro key hkey
    rw [validateRatingDelta.target] at hkey
    cases hbranch : canonicalBranch network key with
    | none =>
      rw [hbranch] at hkey
      cases hkey
    | some branch => exact ⟨branch, rfl⟩
  obtain ⟨key, mw⟩ := entry
  simp only [validateRatingDelta, Outcome.ite_error_eq_ok] at h
  cases key with
  | id value =>
    simp only [Outcome.ite_error_eq_ok] at h
    exact htarget _ h.2.2
  | uid uid => exact htarget _ h.2

end

/-! ### Nets -/

section Exact

variable [DecimalText ℝ] {T : Type} {network : BalancedNetwork ℝ T}

theorem mem_fold (kind : EditKind) (key : ElementKey) (edits : List (NetworkEdit ℝ)) :
    key ∈ (fold edits).of kind ↔ ∃ edit ∈ edits, edit.kind = kind ∧ edit.elementKey = key := by
  have hempty : key ∉ (Edits.empty : Edits ℝ).of kind := by
    cases kind <;> exact ExtTreeMap.not_mem_empty
  rw [fold, of_foldl_add, mem_foldl]
  constructor
  · rintro (h | ⟨entry, hentry, rfl⟩)
    · exact absurd h hempty
    · obtain ⟨edit, hedit, rfl⟩ := List.mem_map.mp hentry
      obtain ⟨hmem, hkind⟩ := List.mem_filter.mp hedit
      exact ⟨edit, hmem, of_decide_eq_true hkind, rfl⟩
  · rintro ⟨edit, hedit, hkind, rfl⟩
    refine .inr ⟨(edit.elementKey, edit.magnitudeMw), ?_, rfl⟩
    exact List.mem_map.mpr ⟨edit, List.mem_filter.mpr ⟨hedit, decide_eq_true hkind⟩, rfl⟩

theorem netMw_congr {kind : EditKind} {p q : ElementKey → Bool} {edits : List (NetworkEdit ℝ)}
    (h : ∀ edit ∈ edits, edit.kind = kind → p edit.elementKey = q edit.elementKey) :
    netMw kind p edits = netMw kind q edits := by
  apply listTotal_congr
  intro entry hentry
  obtain ⟨edit, hedit, rfl⟩ := List.mem_map.mp hentry
  obtain ⟨hmem, hkind⟩ := List.mem_filter.mp hedit
  exact h edit hmem (of_decide_eq_true hkind)

theorem netMw_eq_zero {kind : EditKind} {p : ElementKey → Bool} {edits : List (NetworkEdit ℝ)}
    (h : ∀ edit ∈ edits, edit.kind = kind → p edit.elementKey = false) : netMw kind p edits = 0 := by
  apply listTotal_eq_zero
  intro entry hentry
  obtain ⟨edit, hedit, rfl⟩ := List.mem_map.mp hentry
  obtain ⟨hmem, hkind⟩ := List.mem_filter.mp hedit
  exact h edit hmem (of_decide_eq_true hkind)

/-- An edit of an element: one of the kind, under a key that names its row. -/
def Addressed (network : BalancedNetwork ℝ T) (kind : EditKind) (row : ℕ)
    (edits : List (NetworkEdit ℝ)) : Prop :=
  ∃ edit ∈ edits, edit.kind = kind ∧ (sourceTable network kind).row edit.elementKey = some row

/-- The net change of an element, under all of its keys. -/
noncomputable def elementNet (network : BalancedNetwork ℝ T) (kind : EditKind) (row : ℕ)
    (edits : List (NetworkEdit ℝ)) : ℝ :=
  netMw kind (fun key => decide ((sourceTable network kind).row key = some row)) edits

/-- The lists address the same elements, with the same net change of each. -/
structure SameNets (network : BalancedNetwork ℝ T) (edits others : List (NetworkEdit ℝ)) : Prop where
  addressed : ∀ kind row, Addressed network kind row edits ↔ Addressed network kind row others
  net : ∀ kind row, elementNet network kind row edits = elementNet network kind row others

/-! ### Validation -/

theorem row_of_validate {edits : List (NetworkEdit ℝ)}
    (hvalid : validateNetworkEdits network edits = .ok ()) {edit : NetworkEdit ℝ}
    (hedit : edit ∈ edits) :
    ∃ row, (sourceTable network edit.kind).row edit.elementKey = some row := by
  simp only [validateNetworkEdits, validateCanonicalEdits, Outcome.bind_eq_ok,
    Outcome.forM_eq_ok] at hvalid
  obtain ⟨_, _, _, hdemands, hratings⟩ := hvalid
  have hmem : edit.elementKey ∈ (fold edits).of edit.kind :=
    (mem_fold _ _ _).mpr ⟨edit, hedit, rfl, rfl⟩
  obtain ⟨mw, hmw⟩ := Option.isSome_iff_exists.mp (ExtTreeMap.isSome_getElem?_iff_mem.mpr hmem)
  have hentry := ExtTreeMap.mem_toList_iff_getElem?_eq_some.mpr hmw
  cases hkind : edit.kind with
  | demand =>
    rw [hkind] at hentry
    obtain ⟨bus, hbus⟩ := canonicalBus_of_validate (hdemands _ hentry)
    exact row_of_canonicalBus hbus
  | lineLimit =>
    rw [hkind] at hentry
    obtain ⟨branch, hbranch⟩ := canonicalBranch_of_validate (hratings _ hentry)
    exact row_of_canonicalBranch hbranch

theorem forM_keys {v : ElementKey × ℝ → Except String Unit}
    (h : ∀ entry, v entry = v (entry.1, 0)) (map : DeltaMap ℝ) :
    map.toList.forM v = map.keys.forM fun key => v (key, 0) := by
  rw [← ExtTreeMap.map_fst_toList_eq_keys]
  induction map.toList with
  | nil => rfl
  | cons entry rest ih =>
    have hcons : (entry :: rest).forM v = (v entry >>= fun _ => rest.forM v) := rfl
    rw [hcons, h entry, ih]
    rfl

theorem validate_congr {edits others : List (NetworkEdit ℝ)}
    (hkeys : ∀ kind key, (∃ edit ∈ edits, edit.kind = kind ∧ edit.elementKey = key) ↔
      ∃ edit ∈ others, edit.kind = kind ∧ edit.elementKey = key) :
    validateNetworkEdits network edits = validateNetworkEdits network others := by
  have hfold : ∀ kind, ((fold edits).of kind).keys = ((fold others).of kind).keys := by
    intro kind
    apply keys_congr
    intro key
    rw [mem_fold, mem_fold, hkeys]
  have hdeltas : (fold edits).deltas.keys = (fold others).deltas.keys := hfold .demand
  have hrates : (fold edits).rates.keys = (fold others).rates.keys := hfold .lineLimit
  rw [validateNetworkEdits, validateNetworkEdits, validateCanonicalEdits, validateCanonicalEdits,
    forM_keys (v := validateDemandDelta network) fun _ => rfl,
    forM_keys (v := validateDemandDelta network) fun _ => rfl,
    forM_keys (v := validateRatingDelta network) fun _ => rfl,
    forM_keys (v := validateRatingDelta network) fun _ => rfl, hdeltas, hrates]

end Exact

end Tellegen
