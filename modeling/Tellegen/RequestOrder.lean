import Tellegen.EditOrder

/-!
Requests with one key. They do the same whatever the amounts are when no two ids of
a list name one element, or when an id is refused anyway. Otherwise there are amounts,
and changes of the case, for which they do not.
-/

open Binary64 JsString

set_option linter.unusedSectionVars false

namespace Tellegen.CaseEdits

variable {F ρ : Type} [Binary64 F]

/-! ### Requests with one key -/

/-- The ids of a list that the validation of a request lets pass. -/
def ValidIds (ids : List JsString) : Prop :=
  ids.length ≤ maxEdits ∧ ids.Nodup ∧ ∀ id ∈ ids, id ≠ [] ∧ id.length ≤ maxIdLength

instance (ids : List JsString) : Decidable (ValidIds ids) := by
  unfold ValidIds
  infer_instance

theorem idText_eq_ok {id label out : JsString} :
    idText id label = .ok out ↔ (id ≠ [] ∧ id.length ≤ maxIdLength) ∧ id = out := by
  rw [idText]
  split
  case isTrue h =>
    constructor
    · intro hok
      cases hok
    · intro hok
      rcases h with hempty | hlong
      · exact absurd hempty hok.1.1
      · exact absurd hok.1.2 (by omega)
  case isFalse h =>
    rw [not_or, not_lt] at h
    rw [Except.ok.injEq]
    exact (and_iff_right h).symm

theorem number_eq_ok {value out : F} {label : JsString} :
    number value label = .ok out ↔ isFinite value ∧ value = out := by
  rw [number]
  split
  case isTrue h =>
    rw [Except.ok.injEq]
    exact (and_iff_right h).symm
  case isFalse h =>
    constructor
    · intro hok
      cases hok
    · intro hok
      exact absurd hok.1 h

theorem editRows_eq_ok {label idKey : JsString} {index : ℕ} {seen : List JsString}
    {edits : List (Edit F)} :
    editRows label idKey index seen (edits.map fun edit => (edit.id, edit.deltaMw)) = .ok edits ↔
      (∀ edit ∈ edits, (edit.id ≠ [] ∧ edit.id.length ≤ maxIdLength) ∧ edit.id ∉ seen ∧
        isFinite edit.deltaMw) ∧ (edits.map Edit.id).Nodup := by
  induction edits generalizing index seen with
  | nil => simp [editRows]
  | cons edit rest ih =>
    simp only [List.map_cons, editRows, Outcome.bind_eq_ok, idText_eq_ok, List.forall_mem_cons,
      List.nodup_cons]
    constructor
    · rintro ⟨id, ⟨hid, rfl⟩, h⟩
      split at h
      case isTrue => cases h
      case isFalse hfresh =>
        simp only [Outcome.bind_eq_ok, number_eq_ok, Outcome.pure_eq_ok] at h
        obtain ⟨delta, ⟨hfinite, rfl⟩, others, hothers, hsame⟩ := h
        obtain ⟨_, rfl⟩ := List.cons.inj hsame
        obtain ⟨hall, hnodup⟩ := ih.mp hothers
        refine ⟨⟨⟨hid, hfresh, hfinite⟩, ?_⟩, ?_, hnodup⟩
        · intro other hother
          obtain ⟨hvalid, hseen, hnumber⟩ := hall other hother
          exact ⟨hvalid, fun hmem => hseen (List.mem_cons_of_mem _ hmem), hnumber⟩
        · intro hmem
          obtain ⟨other, hother, hsameId⟩ := List.mem_map.mp hmem
          obtain ⟨_, hseen, _⟩ := hall other hother
          exact hseen (by rw [hsameId]; exact List.mem_cons_self)
    · rintro ⟨⟨⟨hid, hfresh, hfinite⟩, hall⟩, hnew, hnodup⟩
      refine ⟨edit.id, ⟨hid, rfl⟩, ?_⟩
      rw [if_neg hfresh]
      simp only [Outcome.bind_eq_ok, number_eq_ok, Outcome.pure_eq_ok]
      refine ⟨edit.deltaMw, ⟨hfinite, rfl⟩, rest, ih.mpr ⟨?_, hnodup⟩, rfl⟩
      intro other hother
      obtain ⟨hvalid, hseen, hnumber⟩ := hall other hother
      refine ⟨hvalid, ?_, hnumber⟩
      intro hmem
      rcases List.mem_cons.mp hmem with heq | hold
      · exact hnew (by rw [← heq]; exact List.mem_map_of_mem hother)
      · exact hseen hold

/-- The rows of a request that its validation takes over. -/
def Passes (label idKey : JsString) (edits : List (Edit F)) : Prop :=
  editArray label idKey (edits.map fun edit => (edit.id, edit.deltaMw)) = .ok edits

theorem passes_iff {label idKey : JsString} {edits : List (Edit F)} :
    Passes label idKey edits ↔
      ValidIds (edits.map Edit.id) ∧ ∀ edit ∈ edits, isFinite edit.deltaMw := by
  rw [Passes, editArray, ValidIds, List.length_map, List.length_map, List.forall_mem_map]
  split
  case isTrue hlong =>
    constructor
    · intro hok
      cases hok
    · intro hok
      exact absurd hok.1.1 (by omega)
  case isFalse hshort =>
    rw [editRows_eq_ok]
    constructor
    · rintro ⟨hall, hnodup⟩
      exact ⟨⟨by omega, hnodup, fun edit hedit => (hall edit hedit).1⟩,
        fun edit hedit => (hall edit hedit).2.2⟩
    · rintro ⟨⟨_, hnodup, hvalid⟩, hfinite⟩
      exact ⟨fun edit hedit => ⟨hvalid edit hedit, List.not_mem_nil, hfinite edit hedit⟩, hnodup⟩

structure Request.Accepted (input : Request F) : Prop where
  demand : Passes (js "demand") (js "bus_id") input.demand
  ratings : Passes (js "ratings") (js "branch_id") input.ratings

/-- Two requests that name these ids and have one key do the same, whatever the case's own changes
are: they leave the same changes, or both fail. -/
def OrderFree (collation : Collation JsString) (network : Option (Network F))
    (demandIds ratingIds : List JsString) : Prop :=
  ∀ (deltas ratings : Deltas F) (input other : Request F), input.Accepted → other.Accepted →
    (input.demand.map Edit.id).Perm demandIds → (input.ratings.map Edit.id).Perm ratingIds →
    editKey collation input = editKey collation other →
    (proposedEdits network deltas ratings input).toOption =
      (proposedEdits network deltas ratings other).toOption

theorem proposedEdits_eq_ok {network : Option (Network F)} {deltas ratings : Deltas F}
    {input : Request F} {out : Proposed F} :
    proposedEdits network deltas ratings input = .ok out ↔
      applyEdits (demandEditor network) input.mode input.demand deltas = .ok out.demand ∧
      applyEdits (ratingEditor network) input.mode input.ratings ratings = .ok out.ratings := by
  obtain ⟨demand, rates⟩ := out
  simp only [proposedEdits, Outcome.bind_eq_ok, Outcome.pure_eq_ok, Proposed.mk.injEq]
  constructor
  · rintro ⟨demand, hdemand, rates, hrates, rfl, rfl⟩
    exact ⟨hdemand, hrates⟩
  · rintro ⟨hdemand, hrates⟩
    exact ⟨demand, hdemand, rates, hrates, rfl, rfl⟩

theorem proposedEdits_congr {network : Option (Network F)} {deltas ratings : Deltas F}
    {input other : Request F}
    (hdemand : (applyEdits (demandEditor network) input.mode input.demand deltas).toOption =
      (applyEdits (demandEditor network) other.mode other.demand deltas).toOption)
    (hratings : (applyEdits (ratingEditor network) input.mode input.ratings ratings).toOption =
      (applyEdits (ratingEditor network) other.mode other.ratings ratings).toOption) :
    (proposedEdits network deltas ratings input).toOption =
      (proposedEdits network deltas ratings other).toOption := by
  ext out
  rw [toOption_eq_some, toOption_eq_some, proposedEdits_eq_ok, proposedEdits_eq_ok,
    ← toOption_eq_some, ← toOption_eq_some, hdemand, hratings, toOption_eq_some, toOption_eq_some]

theorem orderFree_of_tied {collation : Collation JsString} {network : Option (Network F)}
    {demandIds ratingIds : List JsString} (hdemand : TiedIds collation (demandEditor network) demandIds)
    (hratings : TiedIds collation (ratingEditor network) ratingIds) :
    OrderFree collation network demandIds ratingIds := by
  intro deltas ratings input other _ _ hdemandIds hratingIds hkey
  have hmode : input.mode = other.mode := congrArg EditKey.mode hkey
  have htied : TiedIds collation (demandEditor network) (input.demand.map Edit.id) := by
    intro a ha b hb
    exact hdemand a (hdemandIds.mem_iff.mp ha) b (hdemandIds.mem_iff.mp hb)
  have htied' : TiedIds collation (ratingEditor network) (input.ratings.map Edit.id) := by
    intro a ha b hb
    exact hratings a (hratingIds.mem_iff.mp ha) b (hratingIds.mem_iff.mp hb)
  apply proposedEdits_congr
  · rw [← hmode]
    exact applyEdits_congr (congrArg EditKey.demand hkey) htied
  · rw [← hmode]
    exact applyEdits_congr (congrArg EditKey.ratings hkey) htied'

/-- One of the ids names no element that takes any amount. -/
def Refused (editor : Editor F ρ) (ids : List JsString) : Prop :=
  ∃ id ∈ ids, ∀ value, ¬ editor.accepts id value

theorem accepts_of_applyEdits {editor : Editor F ρ} {mode : EditMode} {edits : List (Edit F)}
    {record out : Deltas F} (h : applyEdits editor mode edits record = .ok out) :
    ∀ edit ∈ edits, ∃ value, editor.accepts edit.id value := by
  induction edits generalizing record with
  | nil => exact fun edit hedit => absurd hedit List.not_mem_nil
  | cons edit rest ih =>
    simp only [applyEdits, Outcome.bind_eq_ok] at h
    obtain ⟨element, _, checked, hvalidate, hrest⟩ := h
    rw [List.forall_mem_cons]
    exact ⟨⟨_, accepts_iff.mpr ⟨checked, hvalidate⟩⟩, ih hrest⟩

theorem not_applyEdits_of_refused {editor : Editor F ρ} {mode : EditMode} {edits : List (Edit F)}
    {record out : Deltas F} {ids : List JsString} (hids : (edits.map Edit.id).Perm ids)
    (h : Refused editor ids) : applyEdits editor mode edits record ≠ .ok out := by
  intro hok
  obtain ⟨id, hid, hrefuses⟩ := h
  obtain ⟨edit, hedit, rfl⟩ := List.mem_map.mp (hids.mem_iff.mpr hid)
  obtain ⟨value, hvalue⟩ := accepts_of_applyEdits hok edit hedit
  exact hrefuses value hvalue

theorem perm_of_editKey {collation : Collation JsString} {input other : Request F}
    (h : editKey collation input = editKey collation other) :
    input.demand.Perm other.demand ∧ input.ratings.Perm other.ratings := by
  have hdemand := congrArg EditKey.demand h
  have hratings := congrArg EditKey.ratings h
  constructor
  · have hleft := (collation.on Edit.id).sort_perm input.demand
    change (collation.on Edit.id).sort input.demand = (collation.on Edit.id).sort other.demand at hdemand
    rw [hdemand] at hleft
    exact hleft.symm.trans ((collation.on Edit.id).sort_perm other.demand)
  · have hleft := (collation.on Edit.id).sort_perm input.ratings
    change (collation.on Edit.id).sort input.ratings =
      (collation.on Edit.id).sort other.ratings at hratings
    rw [hratings] at hleft
    exact hleft.symm.trans ((collation.on Edit.id).sort_perm other.ratings)

theorem orderFree_of_refused {collation : Collation JsString} {network : Option (Network F)}
    {demandIds ratingIds : List JsString} (h : Refused (demandEditor network) demandIds ∨
      Refused (ratingEditor network) ratingIds) :
    OrderFree collation network demandIds ratingIds := by
  intro deltas ratings input other _ _ hdemandIds hratingIds hkey
  obtain ⟨hdemand, hratings⟩ := perm_of_editKey hkey
  have hdemandIds' := (hdemand.map Edit.id).symm.trans hdemandIds
  have hratingIds' := (hratings.map Edit.id).symm.trans hratingIds
  ext out
  rw [toOption_eq_some, toOption_eq_some, proposedEdits_eq_ok, proposedEdits_eq_ok]
  rcases h with hrefused | hrefused
  · exact ⟨fun hok => absurd hok.1 (not_applyEdits_of_refused hdemandIds hrefused),
      fun hok => absurd hok.1 (not_applyEdits_of_refused hdemandIds' hrefused)⟩
  · exact ⟨fun hok => absurd hok.2 (not_applyEdits_of_refused hratingIds hrefused),
      fun hok => absurd hok.2 (not_applyEdits_of_refused hratingIds' hrefused)⟩

theorem passes_of_perm {label idKey : JsString} {edits : List (Edit F)} {ids : List JsString}
    (hfinite : ∀ value : F, isFinite value) (hids : (edits.map Edit.id).Perm ids)
    (hvalid : ValidIds ids) : Passes label idKey edits := by
  rw [passes_iff]
  refine ⟨⟨?_, ?_, ?_⟩, fun edit _ => hfinite edit.deltaMw⟩
  · rw [hids.length_eq]
    exact hvalid.1
  · exact hids.nodup_iff.mpr hvalid.2.1
  · intro id hid
    exact hvalid.2.2 id (hids.mem_iff.mp hid)

section

variable {network : Option (Network F)} {demandAnchor ratingAnchor : F}
  (hd : Anchored (demandEditor network) demandAnchor)
  (hr : Anchored (ratingEditor network) ratingAnchor)
  {collation : Collation JsString} {demandIds ratingIds : List JsString}
  (hdemand : ValidIds demandIds) (hratings : ValidIds ratingIds)

theorem map_steady_ids (ids : List JsString) (amount : F) :
    ((ids.map fun id => (⟨id, amount⟩ : Edit F)).map Edit.id).Perm ids := by
  rw [List.map_map]
  exact List.Perm.of_eq (List.map_id' ids)

include hd hr hdemand hratings

theorem tied_demand_of_orderFree (h : OrderFree collation network demandIds ratingIds)
    (hdemandIds : ¬ Refused (demandEditor network) demandIds)
    (hratingIds : ¬ Refused (ratingEditor network) ratingIds) :
    TiedIds collation (demandEditor network) demandIds := by
  rw [Refused] at hdemandIds hratingIds
  push Not at hdemandIds hratingIds
  by_contra hties
  obtain ⟨mode, edits, edits', record, hids, hids', hsort, hdiffers⟩ :=
    exists_order hd hdemandIds hties
  apply hdiffers
  let rates : List (Edit F) := ratingIds.map fun id => ⟨id, steady mode ratingAnchor⟩
  have hrates : applyEdits (ratingEditor network) mode rates (fun _ => some ratingAnchor) =
      .ok fun _ => some ratingAnchor := applyEdits_steady hr mode hratingIds
  have hpasses : Passes (js "ratings") (js "branch_id") rates :=
    passes_of_perm hr.finite (map_steady_ids _ _) hratings
  have hsame := h record (fun _ => some ratingAnchor) ⟨[], [], mode, edits, rates⟩
    ⟨[], [], mode, edits', rates⟩ ⟨passes_of_perm hd.finite hids hdemand, hpasses⟩
    ⟨passes_of_perm hd.finite hids' hdemand, hpasses⟩ hids (map_steady_ids _ _)
    (by rw [editKey, editKey, hsort])
  ext out
  have hout := congrArg (· = some (⟨out, fun _ => some ratingAnchor⟩ : Proposed F)) hsame
  simp only [toOption_eq_some, proposedEdits_eq_ok, hrates, and_true] at hout
  rw [toOption_eq_some, toOption_eq_some]
  exact iff_of_eq hout

theorem tied_ratings_of_orderFree (h : OrderFree collation network demandIds ratingIds)
    (hdemandIds : ¬ Refused (demandEditor network) demandIds)
    (hratingIds : ¬ Refused (ratingEditor network) ratingIds) :
    TiedIds collation (ratingEditor network) ratingIds := by
  rw [Refused] at hdemandIds hratingIds
  push Not at hdemandIds hratingIds
  by_contra hties
  obtain ⟨mode, edits, edits', record, hids, hids', hsort, hdiffers⟩ :=
    exists_order hr hratingIds hties
  apply hdiffers
  let demand : List (Edit F) := demandIds.map fun id => ⟨id, steady mode demandAnchor⟩
  have hrun : applyEdits (demandEditor network) mode demand (fun _ => some demandAnchor) =
      .ok fun _ => some demandAnchor := applyEdits_steady hd mode hdemandIds
  have hpasses : Passes (js "demand") (js "bus_id") demand :=
    passes_of_perm hd.finite (map_steady_ids _ _) hdemand
  have hsame := h (fun _ => some demandAnchor) record ⟨[], [], mode, demand, edits⟩
    ⟨[], [], mode, demand, edits'⟩ ⟨hpasses, passes_of_perm hr.finite hids hratings⟩
    ⟨hpasses, passes_of_perm hr.finite hids' hratings⟩ (map_steady_ids _ _) hids
    (by rw [editKey, editKey, hsort])
  ext out
  have hout := congrArg (· = some (⟨fun _ => some demandAnchor, out⟩ : Proposed F)) hsame
  simp only [toOption_eq_some, proposedEdits_eq_ok, hrun, true_and] at hout
  rw [toOption_eq_some, toOption_eq_some]
  exact iff_of_eq hout

theorem orderFree_iff : OrderFree collation network demandIds ratingIds ↔
    Refused (demandEditor network) demandIds ∨ Refused (ratingEditor network) ratingIds ∨
      TiedIds collation (demandEditor network) demandIds ∧
        TiedIds collation (ratingEditor network) ratingIds := by
  constructor
  · intro h
    by_cases hdemandIds : Refused (demandEditor network) demandIds
    · exact .inl hdemandIds
    · by_cases hratingIds : Refused (ratingEditor network) ratingIds
      · exact .inr (.inl hratingIds)
      · exact .inr (.inr ⟨tied_demand_of_orderFree hd hr hdemand hratings h hdemandIds hratingIds,
          tied_ratings_of_orderFree hd hr hdemand hratings h hdemandIds hratingIds⟩)
  · intro h
    rcases h with hrefused | hrefused | ⟨hdemandIds, hratingIds⟩
    · exact orderFree_of_refused (.inl hrefused)
    · exact orderFree_of_refused (.inr hrefused)
    · exact orderFree_of_tied hdemandIds hratingIds

end

/-! ### Exact amounts -/

section Exact

variable {K : Type} [Field K] [LinearOrder K] [IsStrictOrderedRing K] [FloorRing K]

theorem beyond_exact (text : K → String) (bounds : K × K) (value : K) :
    @beyond K (exact text) bounds value = false ↔ bounds.1 ≤ value ∧ value ≤ bounds.2 := by
  change (decide (value < bounds.1) || decide (bounds.2 < value)) = false ↔ _
  rw [Bool.or_eq_false_iff, decide_eq_false_iff_not, decide_eq_false_iff_not, not_lt, not_lt]

theorem demandBounds_exact (text : K → String) (bus : NetworkBus K) {value : K}
    (h : @beyond K (exact text) (@demandBounds K (exact text) bus) value = false) :
    @beyond K (exact text) (@demandBounds K (exact text) bus) 50 = false := by
  have hlit : (exact text).lit 50 = (50 : K) := by
    rw [exact_lit]
    norm_num
  have hupper : (@demandBounds K (exact text) bus).2 =
      if (-(⌊-bus.demandMw⌋ : K)) < 50 then 50 else -(⌊-bus.demandMw⌋ : K) := by
    rw [← hlit]
    rfl
  have hlower : (@demandBounds K (exact text) bus).1 = -(⌊bus.demandMw⌋ : K) := rfl
  rw [beyond_exact, hlower, hupper] at h ⊢
  obtain ⟨hlow, hhigh⟩ := h
  split at hhigh
  case isTrue hsmall =>
    rw [if_pos hsmall]
    exact ⟨hlow.trans hhigh, le_refl _⟩
  case isFalse hlarge =>
    rw [if_neg hlarge]
    rw [not_lt] at hlarge
    refine ⟨?_, hlarge⟩
    have hfloor : (⌊-bus.demandMw⌋ : K) ≤ -bus.demandMw := Int.floor_le _
    have hnext : bus.demandMw < ⌊bus.demandMw⌋ + 1 := Int.lt_floor_add_one _
    have hbelow : -bus.demandMw < ⌊-bus.demandMw⌋ + 1 := Int.lt_floor_add_one _
    linarith

theorem ratingDeltaBounds_exact (text : K → String) (branch : NetworkBranch K)
    (h : 0 < branch.rateMw) :
    @beyond K (exact text) (@ratingDeltaBounds K (exact text) branch) 5 = false := by
  have hfive : (exact text).lit 5 = (5 : K) := by
    rw [exact_lit]
    norm_num
  have hfifty : (exact text).lit 50 = (50 : K) := by
    rw [exact_lit]
    norm_num
  let scaled : K := (exact text).lit (1 / 5) * branch.rateMw
  have hspan : (@ratingDeltaBounds K (exact text) branch).2 =
      if (50 : K) < (if (5 : K) < scaled then scaled else 5) then 50
      else if (5 : K) < scaled then scaled else 5 := by
    rw [← hfive, ← hfifty]
    rfl
  have hlower : (@ratingDeltaBounds K (exact text) branch).1 =
      if -(branch.rateMw - 1) < -(@ratingDeltaBounds K (exact text) branch).2 then
        -(@ratingDeltaBounds K (exact text) branch).2 else -(branch.rateMw - 1) := rfl
  have hwide : (5 : K) ≤ (@ratingDeltaBounds K (exact text) branch).2 := by
    rw [hspan]
    split_ifs <;> linarith
  rw [beyond_exact, hlower]
  refine ⟨?_, hwide⟩
  split_ifs <;> linarith

theorem accepts_demand_iff (text : K → String) {network : Option (Network K)} {id : JsString}
    {value : K} :
    @Editor.accepts K _ (@demandEditor K (exact text) network) id value ↔
      ∃ bus, resolveBus network id = .ok bus ∧ bus.editable ∧
        @beyond K (exact text) (@demandBounds K (exact text) bus) value = false := by
  let _ := exact text
  rw [accepts_iff]
  change (∃ element, @validateDemand K (exact text) network id value = .ok element) ↔ _
  simp only [validateDemand, Outcome.bind_eq_ok, Outcome.ite_error_eq_ok, Except.ok.injEq]
  constructor
  · rintro ⟨element, bus, hbus, heditable, hwithin, _⟩
    exact ⟨bus, hbus, by simpa using heditable, by simpa using hwithin⟩
  · rintro ⟨bus, hbus, heditable, hwithin⟩
    exact ⟨bus, bus, hbus, by simpa using heditable, by simpa using hwithin, rfl⟩

theorem accepts_rating_iff (text : K → String) {network : Option (Network K)} {id : JsString}
    {value : K} :
    @Editor.accepts K _ (@ratingEditor K (exact text) network) id value ↔
      ∃ branch, resolveBranch network id = .ok branch ∧ branch.editable ∧ 0 < branch.rateMw ∧
        @beyond K (exact text) (@ratingDeltaBounds K (exact text) branch) value = false := by
  let _ := exact text
  rw [accepts_iff]
  change (∃ element, @validateRating K (exact text) network id value = .ok element) ↔ _
  have hle : ∀ rate : K, (exact text).le rate 0 = decide (rate ≤ 0) := fun rate => rfl
  simp only [validateRating, Outcome.bind_eq_ok, Outcome.ite_error_eq_ok, Except.ok.injEq, hle]
  constructor
  · rintro ⟨element, branch, hbranch, heditable, hwithin, _⟩
    rw [Bool.or_eq_true, not_or, decide_eq_true_eq, not_le] at heditable
    exact ⟨branch, hbranch, by simpa using heditable.1, heditable.2, by simpa using hwithin⟩
  · rintro ⟨branch, hbranch, heditable, hrate, hwithin⟩
    refine ⟨branch, branch, hbranch, ?_, by simpa using hwithin, rfl⟩
    rw [Bool.or_eq_true, not_or, decide_eq_true_eq, not_le]
    exact ⟨by simpa using heditable, hrate⟩

theorem anchored_demand (text : K → String) (network : Option (Network K)) :
    @Anchored K _ (exact text) (@demandEditor K (exact text) network) 50 := by
  refine @Anchored.mk K _ (exact text) _ _ (fun _ => rfl) ?_ ?_ (zero_add (50 : K))
    (add_zero (50 : K)) (zero_add (0 : K)) ?_ ?_
  · exact if_neg (by
      change ¬ decide ((50 : K) = 0) = true
      rw [decide_eq_true_eq]
      norm_num)
  · exact if_pos (decide_eq_true (rfl : (0 : K) = 0))
  · intro id value h
    rw [accepts_demand_iff] at h ⊢
    obtain ⟨bus, hbus, heditable, hwithin⟩ := h
    exact ⟨bus, hbus, heditable, demandBounds_exact text bus hwithin⟩
  · intro id value h
    rw [accepts_demand_iff] at h
    obtain ⟨bus, hbus, _⟩ := h
    change ((resolveBus network id).toOption.map NetworkBus.id).isSome = true
    rw [hbus]
    rfl

theorem anchored_rating (text : K → String) (network : Option (Network K)) :
    @Anchored K _ (exact text) (@ratingEditor K (exact text) network) 5 := by
  refine @Anchored.mk K _ (exact text) _ _ (fun _ => rfl) ?_ ?_ (zero_add (5 : K))
    (add_zero (5 : K)) (zero_add (0 : K)) ?_ ?_
  · exact if_neg (by
      change ¬ decide ((5 : K) = 0) = true
      rw [decide_eq_true_eq]
      norm_num)
  · exact if_pos (decide_eq_true (rfl : (0 : K) = 0))
  · intro id value h
    rw [accepts_rating_iff] at h ⊢
    obtain ⟨branch, hbranch, heditable, hrate, _⟩ := h
    exact ⟨branch, hbranch, heditable, hrate, ratingDeltaBounds_exact text branch hrate⟩
  · intro id value h
    rw [accepts_rating_iff] at h
    obtain ⟨branch, hbranch, _⟩ := h
    change ((resolveBranch network id).toOption.map NetworkBranch.id).isSome = true
    rw [hbranch]
    rfl

/-- Requests that name these ids and have one key do the same exactly when an id is refused whatever
its amount, or any two ids of a list that name one element are tied in the order of the key. -/
theorem requests_agree_iff (text : K → String) (collation : Collation JsString)
    (network : Option (Network K)) {demandIds ratingIds : List JsString}
    (hdemand : ValidIds demandIds) (hratings : ValidIds ratingIds) :
    letI := exact text
    OrderFree collation network demandIds ratingIds ↔
      Refused (demandEditor network) demandIds ∨ Refused (ratingEditor network) ratingIds ∨
        TiedIds collation (demandEditor network) demandIds ∧
          TiedIds collation (ratingEditor network) ratingIds :=
  @orderFree_iff K (exact text) network 50 5 (anchored_demand text network)
    (anchored_rating text network) collation demandIds ratingIds hdemand hratings

end Exact

/-! ### A case of one bus -/

namespace Sample

def byLength : Collation JsString :=
  Collation.on { le := fun a b => decide (a ≤ b)
                 trans := fun a b c hab hbc => by
                   rw [decide_eq_true_eq] at *
                   exact hab.trans hbc
                 total := fun a b => by
                   rw [Bool.or_eq_true, decide_eq_true_eq, decide_eq_true_eq]
                   exact Nat.le_total a b } List.length

@[reducible] def rational : Binary64 ℚ := exact fun _ => ""

def oneBus : Option (Network ℚ) :=
  some { buses := [{ id := 5, uid := none, demandMw := 100, editable := true }], branches := [] }

def setDemand (demand : List (Edit ℚ)) : Request ℚ where
  caseId := js "case"
  expectedRevision := js "r1"
  mode := .set
  demand := demand
  ratings := []

def twoBuses : Option (Network ℚ) :=
  some { buses := [{ id := 5, uid := none, demandMw := 100, editable := true },
                   { id := 60, uid := none, demandMw := 40, editable := true }]
         branches := [] }

theorem not_refused_twoBuses {ids : List JsString} (h : ids ⊆ [js "5", js "bus:5", js "60"]) :
    letI := rational
    ¬ Refused (demandEditor twoBuses) ids := by
  rintro ⟨id, hid, hrefused⟩
  have haccepts : ∀ id ∈ [js "5", js "bus:5", js "60"],
      @Editor.accepts _ _ (@demandEditor _ rational twoBuses) id 10 = true := by decide
  exact hrefused 10 (haccepts id (h hid))

/-- Edits of two buses may come in either order, edits of one bus under two of its ids may not. -/
theorem requests_agree_iff_twoIds :
    letI := rational
    ValidIds [js "5", js "60"] ∧ ValidIds [js "5", js "bus:5"] ∧ ValidIds [] ∧
      OrderFree byLength twoBuses [js "5", js "60"] [] ∧
      ¬ OrderFree byLength twoBuses [js "5", js "bus:5"] [] := by
  let _ := rational
  refine ⟨by decide, by decide, by decide, ?_, ?_⟩
  · refine (requests_agree_iff (fun _ => "") byLength twoBuses (by decide) (by decide)).mpr
      (Or.inr (Or.inr ⟨?_, ?_⟩))
    · have hnames : ∀ a ∈ [js "5", js "60"], ∀ b ∈ [js "5", js "60"],
          (demandEditor twoBuses).names a = (demandEditor twoBuses).names b → a = b := by decide
      intro a ha b hb slot hslot hother
      rw [hnames a ha b hb (hslot.trans hother.symm)]
      exact byLength.tied_refl b
    · intro a ha
      exact absurd ha List.not_mem_nil
  · intro hfree
    obtain hrefused | ⟨id, hid, _⟩ | ⟨htied, _⟩ :=
      (requests_agree_iff (fun _ => "") byLength twoBuses (by decide) (by decide)).mp hfree
    · exact not_refused_twoBuses (by decide) hrefused
    · exact List.not_mem_nil hid
    · exact absurd (htied (js "5") (by decide) (js "bus:5") (by decide) 5 (by decide) (by decide))
        (by decide)

theorem sort_twoIds (a b : Edit ℚ) (ha : a.id.length ≤ 1) (hb : ¬ b.id.length ≤ 1) :
    (byLength.on Edit.id).sort [a, b] = (byLength.on Edit.id).sort [b, a] := by
  have hfront := @Collation.sort_front _ (byLength.on Edit.id) [b, a]
    (fun edit => decide (edit.id.length ≤ 1)) (by
      intro c d hcd
      change (decide (c.id.length ≤ d.id.length) && decide (d.id.length ≤ c.id.length)) = true at hcd
      rw [Bool.and_eq_true, decide_eq_true_eq, decide_eq_true_eq] at hcd
      rw [Nat.le_antisymm hcd.1 hcd.2])
  simp only [List.filter_cons, List.filter_nil, decide_eq_true ha, decide_eq_false hb, Bool.not_true,
    Bool.not_false, if_true, Bool.false_eq_true, if_false, List.cons_append, List.nil_append] at hfront
  exact hfront

/-- Setting 10 MW as `5` and 20 MW as `bus:5` has one key in both orders, and the last one stays. -/
theorem requests_disagree :
    letI := rational
    ∃ input other : Request ℚ, input.Accepted ∧ other.Accepted ∧
      editKey byLength input = editKey byLength other ∧
      (proposedEdits oneBus (fun _ => none) (fun _ => none) input).toOption.map (fun p => p.demand 5) =
        some (some 20) ∧
      (proposedEdits oneBus (fun _ => none) (fun _ => none) other).toOption.map (fun p => p.demand 5) =
        some (some 10) := by
  let _ := rational
  refine ⟨setDemand [⟨js "5", 10⟩, ⟨js "bus:5", 20⟩], setDemand [⟨js "bus:5", 20⟩, ⟨js "5", 10⟩],
    ⟨?_, ?_⟩, ⟨?_, ?_⟩, ?_, ?_, ?_⟩
  · rw [passes_iff]
    exact ⟨by decide, fun _ _ => rfl⟩
  · rw [passes_iff]
    exact ⟨by decide, fun _ _ => rfl⟩
  · rw [passes_iff]
    exact ⟨by decide, fun _ _ => rfl⟩
  · rw [passes_iff]
    exact ⟨by decide, fun _ _ => rfl⟩
  · rw [editKey, editKey]
    congr 1
    exact sort_twoIds _ _ (by decide) (by decide)
  · rfl
  · rfl

end Sample

end Tellegen.CaseEdits
