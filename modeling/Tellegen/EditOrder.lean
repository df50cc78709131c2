import Tellegen.CaseEdits
import Tellegen.Lib.Outcome

/-!
When the order of a request's edits matters. A list of edits is applied to each
element on its own, so what it leaves is known from the sublists of the edits of one
element. A key fixes these sublists only where the ids of one element are tied.
-/

open Binary64 JsString

set_option linter.unusedSectionVars false

namespace Tellegen.CaseEdits

variable {F ρ : Type} [Binary64 F]

/-! ### One element at a time -/

def Editor.names (editor : Editor F ρ) (id : JsString) : Option ℕ :=
  (editor.resolve id).toOption.map editor.slot

def Editor.accepts (editor : Editor F ρ) (id : JsString) (value : F) : Bool :=
  (editor.validate id value).toOption.isSome

/-- The edits of one element, from the entry that it has. -/
def runSlot (editor : Editor F ρ) (mode : EditMode) : Option F → List (Edit F) → Option (Option F)
  | current, [] => some current
  | current, edit :: rest =>
    let next := nextAmount mode current edit.deltaMw
    if editor.accepts edit.id next then runSlot editor mode (entry next) rest else none

/-- The edits of the element with entry `slot`. -/
def Editor.ofSlot (editor : Editor F ρ) (slot : ℕ) (edits : List (Edit F)) : List (Edit F) :=
  edits.filter fun edit => editor.names edit.id = some slot

theorem ofSlot_cons (editor : Editor F ρ) (slot : ℕ) (edit : Edit F) (rest : List (Edit F)) :
    editor.ofSlot slot (edit :: rest) =
      if editor.names edit.id = some slot then edit :: editor.ofSlot slot rest
      else editor.ofSlot slot rest := by
  simp only [Editor.ofSlot, List.filter_cons, decide_eq_true_eq]

theorem runSlot_cons {editor : Editor F ρ} {mode : EditMode} {current : Option F} {edit : Edit F}
    {rest : List (Edit F)} (h : editor.accepts edit.id (nextAmount mode current edit.deltaMw)) :
    runSlot editor mode current (edit :: rest) =
      runSlot editor mode (entry (nextAmount mode current edit.deltaMw)) rest := by
  rw [runSlot]
  exact if_pos h

theorem runSlot_refused {editor : Editor F ρ} {mode : EditMode} {current : Option F}
    {edit : Edit F} {rest : List (Edit F)}
    (h : ¬ editor.accepts edit.id (nextAmount mode current edit.deltaMw)) :
    runSlot editor mode current (edit :: rest) = none := by
  rw [runSlot]
  exact if_neg h

theorem names_eq_of_resolve {editor : Editor F ρ} {id : JsString} {element : ρ}
    (h : editor.resolve id = .ok element) : editor.names id = some (editor.slot element) := by
  rw [Editor.names, h]
  rfl

theorem exists_of_names_isSome {editor : Editor F ρ} {id : JsString}
    (h : (editor.names id).isSome) : ∃ element, editor.resolve id = .ok element := by
  cases hresolve : editor.resolve id with
  | error thrown =>
    rw [Editor.names, hresolve] at h
    cases h
  | ok element => exact ⟨element, rfl⟩

theorem accepts_iff {editor : Editor F ρ} {id : JsString} {value : F} :
    editor.accepts id value ↔ ∃ element, editor.validate id value = .ok element := by
  rw [Editor.accepts]
  cases editor.validate id value with
  | error thrown => simp [Except.toOption]
  | ok element => simp [Except.toOption]

theorem runSlot_step {editor : Editor F ρ} {mode : EditMode} {edit : Edit F} {rest : List (Edit F)}
    {record : Deltas F} {element : ρ} (hresolve : editor.resolve edit.id = .ok element)
    (haccepts : editor.accepts edit.id
      (nextAmount mode (record (editor.slot element)) edit.deltaMw)) (slot : ℕ) :
    runSlot editor mode (record slot) (editor.ofSlot slot (edit :: rest)) =
      runSlot editor mode (setEdit record (editor.slot element)
        (nextAmount mode (record (editor.slot element)) edit.deltaMw) slot)
        (editor.ofSlot slot rest) := by
  rw [ofSlot_cons, names_eq_of_resolve hresolve, setEdit]
  by_cases hslot : editor.slot element = slot
  · subst hslot
    rw [if_pos rfl, runSlot_cons haccepts, Function.update_self]
  · have hne : slot ≠ editor.slot element := fun heq => hslot heq.symm
    rw [if_neg (by rw [Option.some.injEq]; exact hslot), Function.update_of_ne hne]

/-- A list of edits is accepted when those of each element are, and leaves what these leave. -/
theorem applyEdits_eq_ok {editor : Editor F ρ} {mode : EditMode} {edits : List (Edit F)}
    {record out : Deltas F} :
    applyEdits editor mode edits record = .ok out ↔
      (∀ edit ∈ edits, (editor.names edit.id).isSome) ∧
        ∀ slot, runSlot editor mode (record slot) (editor.ofSlot slot edits) = some (out slot) := by
  induction edits generalizing record with
  | nil =>
    simp only [applyEdits, Except.ok.injEq, Editor.ofSlot, List.filter_nil, runSlot,
      Option.some.injEq]
    constructor
    · intro h
      exact ⟨fun edit hedit => absurd hedit List.not_mem_nil, fun slot => congrFun h slot⟩
    · intro h
      exact funext h.2
  | cons edit rest ih =>
    simp only [applyEdits, Outcome.bind_eq_ok, ih, List.forall_mem_cons]
    constructor
    · intro h
      obtain ⟨element, hresolve, checked, hvalidate, hrest, hslots⟩ := h
      have haccepts := accepts_iff.mpr ⟨checked, hvalidate⟩
      refine ⟨⟨?_, hrest⟩, ?_⟩
      · rw [names_eq_of_resolve hresolve]
        rfl
      · intro slot
        rw [runSlot_step hresolve haccepts]
        exact hslots slot
    · intro h
      obtain ⟨⟨hsome, hrest⟩, hslots⟩ := h
      obtain ⟨element, hresolve⟩ := exists_of_names_isSome hsome
      have haccepts : editor.accepts edit.id
          (nextAmount mode (record (editor.slot element)) edit.deltaMw) := by
        by_contra hrefused
        have hown := hslots (editor.slot element)
        rw [ofSlot_cons, if_pos (names_eq_of_resolve hresolve), runSlot_refused hrefused] at hown
        cases hown
      obtain ⟨checked, hvalidate⟩ := accepts_iff.mp haccepts
      refine ⟨element, hresolve, checked, hvalidate, hrest, ?_⟩
      intro slot
      rw [← runSlot_step hresolve haccepts]
      exact hslots slot

theorem toOption_eq_some {α : Type} {x : Except Thrown α} {a : α} :
    x.toOption = some a ↔ x = .ok a := by
  cases x with
  | error thrown => simp [Except.toOption]
  | ok b => simp [Except.toOption]

/-! ### Ids of one element that are tied -/

/-- Any two of the ids that name one element are tied. -/
def TiedIds (collation : Collation JsString) (editor : Editor F ρ) (ids : List JsString) : Prop :=
  ∀ a ∈ ids, ∀ b ∈ ids, ∀ slot, editor.names a = some slot → editor.names b = some slot →
    collation.tied a b

theorem ofSlot_eq_filter {collation : Collation JsString} {editor : Editor F ρ} {edits : List (Edit F)}
    (htied : TiedIds collation editor (edits.map Edit.id)) {first : Edit F} (hfirst : first ∈ edits)
    {slot : ℕ} (hslot : editor.names first.id = some slot) :
    editor.ofSlot slot edits =
      editor.ofSlot slot (edits.filter ((collation.on Edit.id).tied first)) := by
  rw [Editor.ofSlot, Editor.ofSlot, List.filter_filter]
  apply List.filter_congr
  intro edit hedit
  by_cases hnames : editor.names edit.id = some slot
  · have hboth : (collation.on Edit.id).tied first edit = true :=
      htied _ (List.mem_map_of_mem hfirst) _ (List.mem_map_of_mem hedit) slot hslot hnames
    rw [hboth, Bool.and_true]
  · rw [decide_eq_false hnames, Bool.false_and]

/-- Where ids of one element are tied, two lists with one sorted form leave the same. -/
theorem applyEdits_congr {collation : Collation JsString} {editor : Editor F ρ} {mode : EditMode}
    {edits edits' : List (Edit F)} {record : Deltas F}
    (hsort : (collation.on Edit.id).sort edits = (collation.on Edit.id).sort edits')
    (htied : TiedIds collation editor (edits.map Edit.id)) :
    (applyEdits editor mode edits record).toOption =
      (applyEdits editor mode edits' record).toOption := by
  have hperm : edits.Perm edits' := by
    have hleft := (collation.on Edit.id).sort_perm edits
    rw [hsort] at hleft
    exact hleft.symm.trans ((collation.on Edit.id).sort_perm edits')
  have htied' : TiedIds collation editor (edits'.map Edit.id) := by
    intro a ha b hb
    exact htied a ((hperm.map Edit.id).mem_iff.mpr ha) b ((hperm.map Edit.id).mem_iff.mpr hb)
  have hslots : ∀ slot, editor.ofSlot slot edits = editor.ofSlot slot edits' := by
    intro slot
    cases hown : editor.ofSlot slot edits with
    | nil =>
      have hempty := ((hperm.filter fun edit => editor.names edit.id = some slot).length_eq)
      change (editor.ofSlot slot edits).length = (editor.ofSlot slot edits').length at hempty
      rw [hown, List.length_nil] at hempty
      exact (List.length_eq_zero_iff.mp hempty.symm).symm
    | cons first others =>
      have hmem : first ∈ editor.ofSlot slot edits := by
        rw [hown]
        exact List.mem_cons_self
      obtain ⟨hfirst, hnames⟩ := List.mem_filter.mp hmem
      have hslot := of_decide_eq_true hnames
      rw [← hown, ofSlot_eq_filter htied hfirst hslot,
        ofSlot_eq_filter htied' (hperm.mem_iff.mp hfirst) hslot,
        Collation.sort_eq_iff.mp hsort first]
  ext out
  rw [toOption_eq_some, toOption_eq_some, applyEdits_eq_ok, applyEdits_eq_ok]
  simp only [hslots, hperm.mem_iff]

/-! ### Orders that differ -/

/-- An amount that every element of an editor accepts if it accepts any, in an arithmetic in which
zero and the amount add up. -/
structure Anchored (editor : Editor F ρ) (anchor : F) : Prop where
  finite : ∀ value : F, isFinite value
  entry_anchor : entry anchor = some anchor
  entry_zero : entry (0 : F) = none
  zero_add : 0 + anchor = anchor
  add_zero : anchor + 0 = anchor
  zero_add_zero : (0 : F) + 0 = 0
  accepts : ∀ {id : JsString} {value : F}, editor.accepts id value → editor.accepts id anchor
  names : ∀ {id : JsString} {value : F}, editor.accepts id value → (editor.names id).isSome

/-- The delta that keeps an entry at the anchor. -/
def steady (mode : EditMode) (anchor : F) : F :=
  match mode with
  | .set => anchor
  | .increment => 0

theorem mem_of_mem_ofSlot {editor : Editor F ρ} {slot : ℕ} {edits : List (Edit F)} {edit : Edit F}
    (h : edit ∈ editor.ofSlot slot edits) : edit ∈ edits ∧ editor.names edit.id = some slot := by
  rw [Editor.ofSlot, List.mem_filter, decide_eq_true_eq] at h
  exact h

theorem runSlot_set {editor : Editor F ρ} {edits : List (Edit F)} (current : Option F)
    (h : ∀ edit ∈ edits, editor.accepts edit.id edit.deltaMw) :
    runSlot editor .set current edits =
      some ((edits.getLast?.map fun edit => entry edit.deltaMw).getD current) := by
  induction edits generalizing current with
  | nil => rfl
  | cons edit rest ih =>
    rw [List.forall_mem_cons] at h
    rw [runSlot_cons h.1, ih _ h.2]
    cases rest with
    | nil => rfl
    | cons second others =>
      rw [List.getLast?_cons_cons]
      have hsome := List.getLast?_eq_some_getLast (List.cons_ne_nil second others)
      rw [hsome]
      rfl

theorem runSlot_steady {editor : Editor F ρ} {anchor : F} (ha : Anchored editor anchor)
    {mode : EditMode} {edits : List (Edit F)} (h : ∀ edit ∈ edits, editor.accepts edit.id anchor ∧
      edit.deltaMw = steady mode anchor) :
    runSlot editor mode (some anchor) edits = some (some anchor) := by
  induction edits with
  | nil => rfl
  | cons edit rest ih =>
    rw [List.forall_mem_cons] at h
    have hnext : nextAmount mode (some anchor) edit.deltaMw = anchor := by
      rw [h.1.2]
      cases mode with
      | set => rfl
      | increment => exact ha.add_zero
    rw [runSlot_cons (by rw [hnext]; exact h.1.1), hnext, ha.entry_anchor]
    exact ih h.2

theorem applyEdits_steady {editor : Editor F ρ} {anchor : F} (ha : Anchored editor anchor)
    (mode : EditMode) {ids : List JsString} (h : ∀ id ∈ ids, ∃ value, editor.accepts id value) :
    applyEdits editor mode (ids.map fun id => ⟨id, steady mode anchor⟩) (fun _ => some anchor) =
      .ok fun _ => some anchor := by
  rw [applyEdits_eq_ok]
  constructor
  · intro edit hedit
    obtain ⟨id, hid, rfl⟩ := List.mem_map.mp hedit
    obtain ⟨value, hvalue⟩ := h id hid
    exact ha.names hvalue
  · intro slot
    apply runSlot_steady ha
    intro edit hedit
    obtain ⟨id, hid, rfl⟩ := List.mem_map.mp (mem_of_mem_ofSlot hedit).1
    obtain ⟨value, hvalue⟩ := h id hid
    exact ⟨ha.accepts hvalue, rfl⟩

theorem exists_set_order {editor : Editor F ρ} {anchor : F} (ha : Anchored editor anchor)
    {collation : Collation JsString} {ids : List JsString}
    (haccepts : ∀ id ∈ ids, ∃ value, editor.accepts id value) {slot : ℕ} {a b : JsString}
    (haids : a ∈ ids) (hbids : b ∈ ids) (haslot : editor.names a = some slot)
    (hbslot : editor.names b = some slot) (hties : ¬ collation.tied b a) {other : F}
    (hother : editor.accepts b other) (hdiffers : entry other ≠ some anchor) :
    ∃ (edits edits' : List (Edit F)) (record : Deltas F), (edits.map Edit.id).Perm ids ∧
      (edits'.map Edit.id).Perm ids ∧
      (collation.on Edit.id).sort edits = (collation.on Edit.id).sort edits' ∧
      (applyEdits editor .set edits record).toOption ≠ (applyEdits editor .set edits' record).toOption := by
  let last : Edit F := ⟨b, other⟩
  let edits : List (Edit F) := (ids.erase b).map (fun id => ⟨id, anchor⟩) ++ [last]
  let front : Edit F → Bool := (collation.on Edit.id).tied last
  let edits' : List (Edit F) := edits.filter front ++ edits.filter fun edit => !front edit
  have hperm : edits'.Perm edits := List.filter_append_perm front edits
  have hids : (edits.map Edit.id).Perm ids := by
    have hmap : edits.map Edit.id = ids.erase b ++ [b] := by
      simp only [edits, List.map_append, List.map_map, List.map_cons, List.map_nil, last]
      congr 1
      exact List.map_id' _
    rw [hmap]
    exact (List.perm_append_comm).trans (List.perm_cons_erase hbids).symm
  have hsort : (collation.on Edit.id).sort edits' = (collation.on Edit.id).sort edits := by
    apply Collation.sort_front
    intro c d hcd
    exact Collation.tied_congr hcd last
  have hown : ∀ edit ∈ edits, editor.accepts edit.id edit.deltaMw := by
    intro edit hedit
    rcases List.mem_append.mp hedit with hmem | hmem
    · obtain ⟨id, hid, rfl⟩ := List.mem_map.mp hmem
      obtain ⟨value, hvalue⟩ := haccepts id (List.mem_of_mem_erase hid)
      exact ha.accepts hvalue
    · rw [List.mem_singleton.mp hmem]
      exact hother
  have hnamed : ∀ edit ∈ edits, (editor.names edit.id).isSome :=
    fun edit hedit => ha.names (hown edit hedit)
  -- the first order ends with `b`
  have hlast : (editor.ofSlot slot edits).getLast? = some last := by
    have hb : editor.ofSlot slot [last] = [last] := by
      rw [ofSlot_cons, if_pos hbslot]
      rfl
    have hsplit : editor.ofSlot slot edits =
        editor.ofSlot slot ((ids.erase b).map fun id => ⟨id, anchor⟩) ++ [last] := by
      rw [← hb]
      exact List.filter_append _ _
    rw [hsplit, List.getLast?_concat]
  -- the second ends with an id that is not tied with `b`
  have hback : ∃ edit, (editor.ofSlot slot edits').getLast? = some edit ∧ edit.deltaMw = anchor := by
    have hsplit : editor.ofSlot slot edits' = editor.ofSlot slot (edits.filter front) ++
        editor.ofSlot slot (edits.filter fun edit => !front edit) := List.filter_append _ _
    have hne : a ≠ b := by
      intro heq
      rw [heq] at hties
      exact hties (collation.tied_refl b)
    have hmem : (⟨a, anchor⟩ : Edit F) ∈
        editor.ofSlot slot (edits.filter fun edit => !front edit) := by
      rw [Editor.ofSlot, List.mem_filter, decide_eq_true_eq, List.mem_filter]
      refine ⟨⟨?_, ?_⟩, haslot⟩
      · apply List.mem_append_left
        exact List.mem_map.mpr ⟨a, (List.mem_erase_of_ne hne).mpr haids, rfl⟩
      · rw [Bool.not_eq_true', Bool.eq_false_iff]
        exact hties
    have hnonempty : editor.ofSlot slot (edits.filter fun edit => !front edit) ≠ [] :=
      List.ne_nil_of_mem hmem
    refine ⟨(editor.ofSlot slot (edits.filter fun edit => !front edit)).getLast hnonempty, ?_, ?_⟩
    · rw [hsplit, List.getLast?_append_of_ne_nil _ hnonempty,
        List.getLast?_eq_some_getLast hnonempty]
    · obtain ⟨hin, _⟩ := mem_of_mem_ofSlot (List.getLast_mem hnonempty)
      obtain ⟨hedits, hfront⟩ := List.mem_filter.mp hin
      rcases List.mem_append.mp hedits with hmem | hmem
      · obtain ⟨id, _, hid⟩ := List.mem_map.mp hmem
        rw [← hid]
      · rw [List.mem_singleton.mp hmem, Bool.not_eq_true', Bool.eq_false_iff] at hfront
        exact absurd ((collation.on Edit.id).tied_refl last) hfront
  have hrun : applyEdits editor .set edits (fun _ => none) = .ok fun other =>
      ((editor.ofSlot other edits).getLast?.map fun edit => entry edit.deltaMw).getD none := by
    rw [applyEdits_eq_ok]
    refine ⟨hnamed, ?_⟩
    intro other
    exact runSlot_set none fun edit hedit => hown edit (mem_of_mem_ofSlot hedit).1
  refine ⟨edits, edits', fun _ => none, hids, (hperm.map Edit.id).trans hids, hsort.symm, ?_⟩
  intro hsame
  rw [hrun] at hsame
  have hrun' := applyEdits_eq_ok.mp (toOption_eq_some.mp hsame.symm)
  have hslot := hrun'.2 slot
  rw [runSlot_set none fun edit hedit => hown edit (hperm.mem_iff.mp (mem_of_mem_ofSlot hedit).1)]
    at hslot
  obtain ⟨edit, hedit, hdelta⟩ := hback
  rw [hlast, hedit, Option.map_some, Option.map_some, Option.getD_some, Option.getD_some, hdelta,
    ha.entry_anchor] at hslot
  exact hdiffers (Option.some.inj hslot).symm

/-- An element that accepts one amount only refuses an increment by zero before the amount. -/
theorem exists_increment_order {editor : Editor F ρ} {anchor : F} (ha : Anchored editor anchor)
    {collation : Collation JsString} {ids : List JsString}
    (haccepts : ∀ id ∈ ids, ∃ value, editor.accepts id value) {slot : ℕ} {a b : JsString}
    (haids : a ∈ ids) (hbids : b ∈ ids) (haslot : editor.names a = some slot)
    (hbslot : editor.names b = some slot) (hties : ¬ collation.tied a b)
    (hone : ∀ id ∈ ids, editor.names id = some slot → ¬ editor.accepts id 0) :
    ∃ (edits edits' : List (Edit F)) (record : Deltas F), (edits.map Edit.id).Perm ids ∧
      (edits'.map Edit.id).Perm ids ∧
      (collation.on Edit.id).sort edits = (collation.on Edit.id).sort edits' ∧
      (applyEdits editor .increment edits record).toOption ≠
        (applyEdits editor .increment edits' record).toOption := by
  let first : Edit F := ⟨a, anchor⟩
  let rest : List (Edit F) := (ids.erase a).map fun id => ⟨id, 0⟩
  let edits : List (Edit F) := first :: rest
  let front : Edit F → Bool := fun edit => !(collation.on Edit.id).tied first edit
  let edits' : List (Edit F) := edits.filter front ++ edits.filter fun edit => !front edit
  let record : Deltas F := fun other => if other = slot then none else some anchor
  have hperm : edits'.Perm edits := List.filter_append_perm front edits
  have hids : (edits.map Edit.id).Perm ids := by
    have hmap : edits.map Edit.id = a :: ids.erase a := by
      simp only [edits, rest, first, List.map_map, List.map_cons]
      congr 1
      exact List.map_id' _
    rw [hmap]
    exact (List.perm_cons_erase haids).symm
  have hsort : (collation.on Edit.id).sort edits' = (collation.on Edit.id).sort edits := by
    apply Collation.sort_front
    intro c d hcd
    exact congrArg not (Collation.tied_congr hcd first)
  have hanchor : ∀ id ∈ ids, editor.accepts id anchor := by
    intro id hid
    obtain ⟨value, hvalue⟩ := haccepts id hid
    exact ha.accepts hvalue
  have hrest : ∀ edit ∈ rest, editor.accepts edit.id anchor ∧
      edit.deltaMw = steady .increment anchor := by
    intro edit hedit
    obtain ⟨id, hid, rfl⟩ := List.mem_map.mp hedit
    exact ⟨hanchor id (List.mem_of_mem_erase hid), rfl⟩
  have hrun : applyEdits editor .increment edits record = .ok fun _ => some anchor := by
    rw [applyEdits_eq_ok]
    constructor
    · intro edit hedit
      have hmem : edit.id ∈ ids := hids.mem_iff.mp (List.mem_map_of_mem hedit)
      exact ha.names (hanchor edit.id hmem)
    · intro other
      have hsteady : runSlot editor .increment (some anchor) (editor.ofSlot other rest) =
          some (some anchor) :=
        runSlot_steady ha fun edit hedit => hrest edit (mem_of_mem_ofSlot hedit).1
      by_cases hother : other = slot
      · subst hother
        have hnext : nextAmount .increment (none : Option F) first.deltaMw = anchor := ha.zero_add
        have hempty : record other = none := if_pos rfl
        rw [ofSlot_cons, if_pos haslot, hempty,
          runSlot_cons (by rw [hnext]; exact hanchor a haids), hnext, ha.entry_anchor]
        exact hsteady
      · have hfull : record other = some anchor := if_neg hother
        have hskip : ¬ editor.names first.id = some other := by
          rw [haslot, Option.some.injEq]
          exact fun heq => hother heq.symm
        rw [ofSlot_cons, if_neg hskip, hfull]
        exact hsteady
  refine ⟨edits, edits', record, hids, (hperm.map Edit.id).trans hids, hsort.symm, ?_⟩
  intro hsame
  rw [hrun] at hsame
  have hslot := (applyEdits_eq_ok.mp (toOption_eq_some.mp hsame.symm)).2 slot
  have hempty : record slot = none := if_pos rfl
  -- the second order begins with an increment by zero
  have hb : (⟨b, 0⟩ : Edit F) ∈ editor.ofSlot slot (edits.filter front) := by
    have hne : b ≠ a := by
      intro heq
      rw [heq] at hties
      exact hties (collation.tied_refl a)
    rw [Editor.ofSlot, List.mem_filter, decide_eq_true_eq, List.mem_filter]
    refine ⟨⟨?_, ?_⟩, hbslot⟩
    · apply List.mem_cons_of_mem
      exact List.mem_map.mpr ⟨b, (List.mem_erase_of_ne hne).mpr hbids, rfl⟩
    · rw [Bool.not_eq_true', Bool.eq_false_iff]
      exact hties
  have hsplit : editor.ofSlot slot edits' = editor.ofSlot slot (edits.filter front) ++
      editor.ofSlot slot (edits.filter fun edit => !front edit) := List.filter_append _ _
  cases hhead : editor.ofSlot slot (edits.filter front) with
  | nil =>
    rw [hhead] at hb
    exact absurd hb List.not_mem_nil
  | cons head others =>
    have hmem : head ∈ editor.ofSlot slot (edits.filter front) := by
      rw [hhead]
      exact List.mem_cons_self
    obtain ⟨hin, hnames⟩ := mem_of_mem_ofSlot hmem
    obtain ⟨hedits, hfront⟩ := List.mem_filter.mp hin
    have hzero : head.deltaMw = 0 := by
      rcases List.mem_cons.mp hedits with heq | hmem
      · rw [heq, Bool.not_eq_true', Bool.eq_false_iff] at hfront
        exact absurd ((collation.on Edit.id).tied_refl first) hfront
      · exact (hrest head hmem).2
    have hnext : nextAmount .increment (none : Option F) head.deltaMw = 0 := by
      rw [hzero]
      exact ha.zero_add_zero
    have hmemids : head.id ∈ ids := hids.mem_iff.mp (List.mem_map_of_mem hedits)
    rw [hsplit, hhead, hempty, List.cons_append,
      runSlot_refused (by rw [hnext]; exact hone head.id hmemids hnames)] at hslot
    cases hslot

theorem exists_order {editor : Editor F ρ} {anchor : F} (ha : Anchored editor anchor)
    {collation : Collation JsString} {ids : List JsString}
    (haccepts : ∀ id ∈ ids, ∃ value, editor.accepts id value)
    (hties : ¬ TiedIds collation editor ids) :
    ∃ (mode : EditMode) (edits edits' : List (Edit F)) (record : Deltas F),
      (edits.map Edit.id).Perm ids ∧ (edits'.map Edit.id).Perm ids ∧
      (collation.on Edit.id).sort edits = (collation.on Edit.id).sort edits' ∧
      (applyEdits editor mode edits record).toOption ≠ (applyEdits editor mode edits' record).toOption := by
  rw [TiedIds] at hties
  push Not at hties
  obtain ⟨a, haids, b, hbids, slot, haslot, hbslot, hab⟩ := hties
  by_cases hone : ∀ id ∈ ids, editor.names id = some slot → ¬ editor.accepts id 0
  · exact ⟨.increment, exists_increment_order ha haccepts haids hbids haslot hbslot
      hab hone⟩
  · push Not at hone
    obtain ⟨c, hcids, hcslot, hc⟩ := hone
    have hdiffers : entry (0 : F) ≠ some anchor := by
      rw [ha.entry_zero]
      exact Option.some_ne_none anchor |>.symm
    -- one of the two ids is not tied with `c`
    by_cases hca : collation.tied c a
    · have hcb : ¬ collation.tied c b := by
        intro hcb
        exact hab (Collation.tied_trans (Collation.tied_symm hca) hcb)
      exact ⟨.set, exists_set_order ha haccepts hbids hcids hbslot hcslot hcb hc hdiffers⟩
    · exact ⟨.set, exists_set_order ha haccepts haids hcids haslot hcslot hca hc hdiffers⟩

end Tellegen.CaseEdits
