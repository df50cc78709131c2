import Tellegen.EditedElements

/-!
A preview and the nets of its edits. In exact arithmetic the dense columns of an edit list are the
net changes of the elements it addresses, whichever keys name them and however they are split. The
list itself only decides which kind of change comes first, and so which of two errors is reported.
-/

set_option linter.unusedSectionVars false

open Binary64 Std KeyedSums Grouping Lookup

namespace Tellegen.Sens

section

variable [DecimalText ℝ] {T : Type} {network : BalancedNetwork ℝ T}

/-! ### Dense columns -/

theorem denseCols_eq (axis : AxisKeys) (magnitudes : DeltaMap ℝ) :
    denseCols axis magnitudes =
      (magnitudes.toList.filterMap fun entry => (axis.get entry.1).map fun i => (i, entry.2)).foldl
        (fun map entry => map.insert entry.1 (map.getD entry.1 0 + entry.2)) ∅ := by
  rw [denseCols, List.foldl_filterMap]
  congr 1
  funext dense entry
  cases axis.get entry.1 with
  | none => rfl
  | some i => rfl

theorem getD_denseCols (axis : AxisKeys) (kind : EditKind) (edits : List (NetworkEdit ℝ)) (i : ℕ) :
    (denseCols axis ((fold edits).of kind)).getD i 0 =
      netMw kind (fun key => (axis.get key).any (· = i)) edits := by
  rw [← total_key, denseCols_eq, total_foldl, total_empty, zero_add, listTotal_filterMap, ← total_fold]
  rfl

theorem mem_denseCols (axis : AxisKeys) (kind : EditKind) (edits : List (NetworkEdit ℝ)) (i : ℕ) :
    i ∈ denseCols axis ((fold edits).of kind) ↔
      ∃ edit ∈ edits, edit.kind = kind ∧ axis.get edit.elementKey = some i := by
  rw [denseCols_eq, mem_foldl]
  constructor
  · rintro (h | ⟨entry, hentry, rfl⟩)
    · exact absurd h ExtTreeMap.not_mem_empty
    · obtain ⟨⟨key, mw⟩, hmem, hget⟩ := List.mem_filterMap.mp hentry
      obtain ⟨i, hi, rfl⟩ := Option.map_eq_some_iff.mp hget
      have hkey : key ∈ (fold edits).of kind := by
        rw [← ExtTreeMap.isSome_getElem?_iff_mem,
          ExtTreeMap.mem_toList_iff_getElem?_eq_some.mp hmem]
        rfl
      obtain ⟨edit, hedit, hkind, rfl⟩ := (mem_fold kind key edits).mp hkey
      exact ⟨edit, hedit, hkind, hi⟩
  · rintro ⟨edit, hedit, hkind, hget⟩
    have hkey := (mem_fold kind edit.elementKey edits).mpr ⟨edit, hedit, hkind, rfl⟩
    rw [← ExtTreeMap.isSome_getElem?_iff_mem, Option.isSome_iff_exists] at hkey
    obtain ⟨mw, hmw⟩ := hkey
    refine .inr ⟨(i, mw), ?_, rfl⟩
    rw [List.mem_filterMap]
    exact ⟨(edit.elementKey, mw), ExtTreeMap.mem_toList_iff_getElem?_eq_some.mpr hmw,
      congrArg (Option.map _) hget⟩

/-- What an axis of the solution keeps of the elements of one kind. -/
structure AxisOf (network : BalancedNetwork ℝ T) (kind : EditKind) (keys : AxisKeys)
    (rows : List (Option ℕ)) : Prop where
  aligned : AxisOver (sourceTable network kind) keys rows
  distinct : (sourceTable network kind).Distinct

section

variable {kind : EditKind} {keys : AxisKeys} {rows : List (Option ℕ)}
  (haxis : AxisOf network kind keys rows)

include haxis

theorem mem_denseCols_of_validate {edits : List (NetworkEdit ℝ)}
    (hvalid : validateNetworkEdits network edits = .ok ()) (i : ℕ) :
    i ∈ denseCols keys ((fold edits).of kind) ↔
      ∃ row, Addressed network kind row edits ∧ lastIndex (· = some row) rows = some i := by
  rw [mem_denseCols]
  constructor
  · rintro ⟨edit, hedit, rfl, hget⟩
    obtain ⟨row, hrow⟩ := row_of_validate hvalid hedit
    rw [get_of_row haxis.aligned haxis.distinct hrow] at hget
    exact ⟨row, ⟨edit, hedit, rfl, hrow⟩, hget⟩
  · rintro ⟨row, ⟨edit, hedit, hkind, hrow⟩, hlast⟩
    refine ⟨edit, hedit, hkind, ?_⟩
    rw [get_of_row haxis.aligned haxis.distinct hrow]
    exact hlast

theorem getD_denseCols_of_last {edits : List (NetworkEdit ℝ)}
    (hvalid : validateNetworkEdits network edits = .ok ()) {i row : ℕ}
    (hlast : lastIndex (· = some row) rows = some i) :
    (denseCols keys ((fold edits).of kind)).getD i 0 = elementNet network kind row edits := by
  rw [getD_denseCols]
  apply netMw_congr
  rintro edit hedit rfl
  obtain ⟨other, hother⟩ := row_of_validate hvalid hedit
  rw [get_of_row haxis.aligned haxis.distinct hother, hother]
  by_cases hsame : other = row
  · rw [hsame, hlast, decide_eq_true rfl]
    exact decide_eq_true rfl
  · rw [decide_eq_false fun h => hsame (Option.some.inj h)]
    cases hget : lastIndex (fun entry => decide (entry = some other)) rows with
    | none => rfl
    | some j =>
      rw [Option.any_some]
      apply decide_eq_false
      rintro rfl
      obtain ⟨⟨a, ha, hasame⟩, _⟩ := of_lastIndex_eq_some hget
      obtain ⟨⟨b, hb, hbsame⟩, _⟩ := of_lastIndex_eq_some hlast
      rw [ha] at hb
      cases hb
      rw [of_decide_eq_true hasame] at hbsame
      exact hsame (Option.some.inj (of_decide_eq_true hbsame))

theorem getD_denseCols_of_not_last {edits : List (NetworkEdit ℝ)}
    (hvalid : validateNetworkEdits network edits = .ok ()) {i : ℕ}
    (hnone : ∀ row, lastIndex (· = some row) rows ≠ some i) :
    (denseCols keys ((fold edits).of kind)).getD i 0 = 0 := by
  rw [getD_denseCols]
  apply netMw_eq_zero
  rintro edit hedit rfl
  obtain ⟨row, hrow⟩ := row_of_validate hvalid hedit
  rw [get_of_row haxis.aligned haxis.distinct hrow]
  cases hget : lastIndex (fun entry => decide (entry = some row)) rows with
  | none => rfl
  | some j =>
    rw [Option.any_some]
    apply decide_eq_false
    rintro rfl
    exact hnone row hget

theorem denseCols_congr {edits others : List (NetworkEdit ℝ)}
    (hedits : validateNetworkEdits network edits = .ok ())
    (hothers : validateNetworkEdits network others = .ok ()) (hnets : SameNets network edits others) :
    denseCols keys ((fold edits).of kind) = denseCols keys ((fold others).of kind) := by
  apply ext_getD
  · intro i
    rw [mem_denseCols_of_validate haxis hedits, mem_denseCols_of_validate haxis hothers]
    simp only [hnets.addressed]
  · intro i
    by_cases hlast : ∃ row, lastIndex (· = some row) rows = some i
    · obtain ⟨row, hrow⟩ := hlast
      rw [getD_denseCols_of_last haxis hedits hrow, getD_denseCols_of_last haxis hothers hrow]
      exact hnets.net kind row
    · have hnone : ∀ row, lastIndex (· = some row) rows ≠ some i := fun row h => hlast ⟨row, h⟩
      rw [getD_denseCols_of_not_last haxis hedits hnone,
        getD_denseCols_of_not_last haxis hothers hnone]

end

/-! ### Groups -/

theorem editGroups_eq (edits : List (NetworkEdit ℝ)) :
    editGroups edits =
      (firstKeys (edits.map NetworkEdit.kind)).map fun kind => (kind, (fold edits).of kind) := by
  rw [editGroups, grouped_eq]
  apply List.map_congr_left
  intro kind _
  have hempty : (Edits.empty : Edits ℝ).of kind = ∅ := by
    cases kind <;> rfl
  rw [fold, of_foldl_add, hempty, changes, List.foldl_map]
  rfl

/-- A committed point whose axes are those of its network, in which no two buses share a number. -/
structure AlignedPoint (point : CommittedPoint ℝ T) (rows : EditKind → List (Option ℕ)) : Prop where
  axis : ∀ kind, AxisOver (sourceTable point.base kind) (point.axis kind) (rows kind)
  numbers : (point.base.buses.map (·.id)).Nodup

variable {point : CommittedPoint ℝ T} {rows : EditKind → List (Option ℕ)}

theorem axisOf_of_validate (hpoint : AlignedPoint point rows) {edits : List (NetworkEdit ℝ)}
    (hvalid : validateNetworkEdits point.base edits = .ok ()) (kind : EditKind) :
    AxisOf point.base kind (point.axis kind) (rows kind) where
  aligned := hpoint.axis kind
  distinct := by
    rw [validateNetworkEdits, validateCanonicalEdits, Outcome.bind_eq_ok] at hvalid
    obtain ⟨_, hidentity, _⟩ := hvalid
    exact distinct_of_validate hidentity hpoint.numbers kind

noncomputable def CommittedPoint.columnsOf (point : CommittedPoint ℝ T) (edits : List (NetworkEdit ℝ))
    (kind : EditKind) : EditKind × List (ℕ × ℝ) :=
  (kind, (denseCols (point.axis kind) ((fold edits).of kind)).toList)

theorem resolved_eq (edits : List (NetworkEdit ℝ)) :
    point.resolved edits =
      if edits = [] then [(.demand, (denseCols (point.axis .demand) ∅).toList)]
      else (firstKeys (edits.map NetworkEdit.kind)).map (point.columnsOf edits) := by
  rw [CommittedPoint.resolved, previewGroups, editGroups_eq]
  cases edits with
  | nil => rfl
  | cons edit rest =>
    have hmem : edit.kind ∈ firstKeys ((edit :: rest).map NetworkEdit.kind) :=
      mem_firstKeys.mpr List.mem_cons_self
    rw [if_neg, if_neg (List.cons_ne_nil _ _), List.map_map]
    · rfl
    · rw [List.map_eq_nil_iff]
      exact List.ne_nil_of_mem hmem

section

variable (hpoint : AlignedPoint point rows) {edits others : List (NetworkEdit ℝ)}
  (hedits : validateNetworkEdits point.base edits = .ok ())
  (hothers : validateNetworkEdits point.base others = .ok ())
  (hnets : SameNets point.base edits others)

include hpoint hedits hothers hnets

theorem columnsOf_congr : point.columnsOf edits = point.columnsOf others := by
  funext kind
  rw [CommittedPoint.columnsOf, CommittedPoint.columnsOf,
    denseCols_congr (axisOf_of_validate hpoint hedits kind) hedits hothers hnets]

theorem resolved_congr
    (hkinds : firstKeys (edits.map NetworkEdit.kind) = firstKeys (others.map NetworkEdit.kind)) :
    point.resolved edits = point.resolved others := by
  have hnil : edits = [] ↔ others = [] := by
    have hkind : ∀ list : List (NetworkEdit ℝ),
        list = [] ↔ firstKeys (list.map NetworkEdit.kind) = [] := by
      intro list
      cases list with
      | nil => exact ⟨fun _ => rfl, fun _ => rfl⟩
      | cons edit rest =>
        have hmem : edit.kind ∈ firstKeys ((edit :: rest).map NetworkEdit.kind) :=
          mem_firstKeys.mpr List.mem_cons_self
        constructor
        · exact fun h => (nomatch h)
        · exact fun h => absurd h (List.ne_nil_of_mem hmem)
    rw [hkind edits, hkind others, hkinds]
  rw [resolved_eq, resolved_eq, columnsOf_congr hpoint hedits hothers hnets, hkinds]
  simp only [hnil]

omit hpoint in
theorem mem_kinds_congr (kind : EditKind) :
    kind ∈ firstKeys (edits.map NetworkEdit.kind) ↔ kind ∈ firstKeys (others.map NetworkEdit.kind) := by
  have hmem : ∀ list : List (NetworkEdit ℝ), validateNetworkEdits point.base list = .ok () →
      (kind ∈ list.map NetworkEdit.kind ↔ ∃ row, Addressed point.base kind row list) := by
    intro list hlist
    rw [List.mem_map]
    constructor
    · rintro ⟨edit, hedit, rfl⟩
      obtain ⟨row, hrow⟩ := row_of_validate hlist hedit
      exact ⟨row, edit, hedit, rfl, hrow⟩
    · rintro ⟨_, edit, hedit, hkind, _⟩
      exact ⟨edit, hedit, hkind⟩
  rw [mem_firstKeys, mem_firstKeys, hmem edits hedits, hmem others hothers]
  simp only [hnets.addressed]

end

theorem eq_or_swapped {l m : List EditKind} (hl : l.Nodup) (hm : m.Nodup)
    (hmem : ∀ kind, kind ∈ l ↔ kind ∈ m) : l = m ∨ ∃ a b, l = [a, b] ∧ m = [b, a] := by
  have hperm : l.Perm m := (List.perm_ext_iff_of_nodup hl hm).mpr hmem
  rcases l with _ | ⟨a, _ | ⟨b, _ | ⟨c, rest⟩⟩⟩
  · exact .inl (List.nil_perm.mp hperm).symm
  · exact .inl (List.singleton_perm.mp hperm)
  · rcases List.perm_pair.mp hperm.symm with h | h
    · exact .inl h.symm
    · exact .inr ⟨a, b, rfl, h⟩
  · exfalso
    simp only [List.nodup_cons, List.mem_cons, not_or] at hl
    obtain ⟨⟨hab, hac, _⟩, ⟨hbc, _⟩, _⟩ := hl
    cases a <;> cases b <;> cases c <;> contradiction

end

end Tellegen.Sens
