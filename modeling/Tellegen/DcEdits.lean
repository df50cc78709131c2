import Tellegen.PreviewNets

/-!
Edits applied to a DC model. The changes of a map are added up by dense element, in key order, and then
checked and applied element by element. In exact arithmetic the outcome is a function of the elements
that are named and of their nets, so neither the spelling of an element nor the order of the edits
matters.
-/

set_option linter.unusedSectionVars false

open Binary64 KeyedSums
open Std (ExtTreeMap)

namespace Tellegen.DcEdits

/-! ### The model and its edits -/

section

variable {F : Type} [Binary64 F]

structure DcAxis (n : ℕ) where
  ids : Fin n → ℕ
  uids : Fin n → Option String

structure DcNetwork (F : Type) (n m : ℕ) where
  buses : DcAxis n
  branches : DcAxis m
  demand : Fin n → F
  fmax : Fin m → F
  allowShed : Bool
  baseMva : F

def DcNetwork.shedCap {n m : ℕ} (dc : DcNetwork F n m) (i : Fin n) : F :=
  if dc.allowShed then Binary64.max (dc.demand i) 0 else 0

variable {n m : ℕ}

/-- `KeyIndex::get`: the maps keep the last element of a number or a uid. -/
def DcAxis.get (axis : DcAxis n) : ElementKey → Option (Fin n)
  | .id value => (toUsize value).bind fun id => (List.finRange n).reverse.find? fun i => axis.ids i = id
  | .uid uid => (List.finRange n).reverse.find? fun i => axis.uids i = some uid

def nonpositive : ElementKey → Bool
  | .id value => value ≤ 0
  | .uid _ => false

/-- One change. `element` says what is edited, `delta` what the change is called. -/
def aggregateDelta (delta element : String) (axis : DcAxis n)
    (aggregated : ExtTreeMap (Fin n) (ElementKey × F) compare) (entry : ElementKey × F) :
    Except String (ExtTreeMap (Fin n) (ElementKey × F) compare) :=
  let (key, mw) := entry
  if nonpositive key then .error (delta ++ " " ++ element ++ " must be positive")
  else if !isFinite mw then
    .error (delta ++ " for " ++ element ++ " " ++ key.display ++ " must be finite")
  else match axis.get key with
    | none => .error ("unknown " ++ delta ++ " " ++ element ++ " " ++ key.display)
    | some dense =>
      let (first, sum) := aggregated.getD dense (key, 0)
      if !isFinite (sum + mw) then
        .error ("aggregate " ++ delta ++ " for " ++ element ++ " " ++ key.display ++ " must be finite")
      else .ok (aggregated.insert dense (first, sum + mw))

def aggregateDeltas (delta element : String) (axis : DcAxis n) (deltas : DeltaMap F) :
    Except String (ExtTreeMap (Fin n) (ElementKey × F) compare) :=
  deltas.toList.foldlM (aggregateDelta delta element axis) ∅

def aggregateDemandDeltas (axis : DcAxis n) (deltas : DeltaMap F) :
    Except String (ExtTreeMap (Fin n) (ElementKey × F) compare) :=
  aggregateDeltas "demand delta" "bus" axis deltas

def aggregateRatingDeltas (axis : DcAxis n) (deltas : DeltaMap F) :
    Except String (ExtTreeMap (Fin n) (ElementKey × F) compare) :=
  aggregateDeltas "rating delta" "branch" axis deltas

/-- The change of one element, unless its new value in MW is refused. -/
def applyDelta (refuses : F → Bool) (message : String → String) (base : F) (values : Fin n → F)
    (entry : Fin n × ElementKey × F) : Except String (Fin n → F) :=
  let (i, key, mw) := entry
  if refuses (values i * base + mw) then .error (message key.display)
  else .ok (Function.update values i (values i + mw / base))

def refusesDemand (mw : F) : Bool := lt mw (-lit (1 / 10 ^ 9))

def applyDemandDeltas (dc : DcNetwork F n m) (deltas : DeltaMap F) : Except String (DcNetwork F n m) := do
  let aggregated ← aggregateDemandDeltas dc.buses deltas
  let demand ← aggregated.toList.foldlM (applyDelta refusesDemand (fun bus =>
    "demand delta for bus " ++ bus ++ " would make demand negative") dc.baseMva) dc.demand
  return { dc with demand }

def refusesRating (mw : F) : Bool := le mw (lit (1 / 10 ^ 9))

def applyRatingDeltas (dc : DcNetwork F n m) (rates : DeltaMap F) : Except String (DcNetwork F n m) := do
  let aggregated ← aggregateRatingDeltas dc.branches rates
  let fmax ← aggregated.toList.foldlM (applyDelta refusesRating (fun branch =>
    "rating delta for branch " ++ branch ++ " would make the line limit non-positive") dc.baseMva) dc.fmax
  return { dc with fmax }

def applyEdits (dc : DcNetwork F n m) (edits : Edits F) : Except String (DcNetwork F n m) := do
  let dc ← applyDemandDeltas dc edits.deltas
  applyRatingDeltas dc edits.rates

end

/-! ### What is accepted -/

section Exact

variable [DecimalText ℝ] {n m : ℕ}

def accepted (axis : DcAxis n) (key : ElementKey) : Option (Fin n) :=
  if nonpositive key then none else axis.get key

/-- The nets of an aggregate, without the keys that it keeps for its messages. -/
def netsOf (aggregated : ExtTreeMap (Fin n) (ElementKey × ℝ) compare) : ExtTreeMap (Fin n) ℝ compare :=
  aggregated.map fun _ entry => entry.2

theorem netsOf_empty : netsOf (∅ : ExtTreeMap (Fin n) (ElementKey × ℝ) compare) = ∅ := by
  apply ExtTreeMap.ext_getElem?
  intro j
  rw [netsOf, ExtTreeMap.getElem?_map, ExtTreeMap.getElem?_empty, ExtTreeMap.getElem?_empty]
  rfl

theorem netsOf_insert (aggregated : ExtTreeMap (Fin n) (ElementKey × ℝ) compare) (i : Fin n)
    (key first : ElementKey) (mw : ℝ) :
    netsOf (aggregated.insert i (first, (aggregated.getD i (key, 0)).2 + mw)) =
      (netsOf aggregated).insert i ((netsOf aggregated).getD i 0 + mw) := by
  apply ExtTreeMap.ext_getElem?
  intro j
  have hsum : (netsOf aggregated).getD i 0 = (aggregated.getD i (key, 0)).2 := by
    rw [netsOf, ExtTreeMap.getD_map, ExtTreeMap.getD_eq_getD_getElem?]
    cases aggregated[i]? with
    | none => rfl
    | some entry => rfl
  rw [netsOf, ExtTreeMap.getElem?_map, ExtTreeMap.getElem?_insert, ExtTreeMap.getElem?_insert, hsum,
    netsOf, ExtTreeMap.getElem?_map]
  split
  case isTrue => rfl
  case isFalse => rfl

theorem aggregateDelta_of_accepted {delta element : String} {axis : DcAxis n} {key : ElementKey}
    {i : Fin n} (hkey : accepted axis key = some i) (mw : ℝ)
    (aggregated : ExtTreeMap (Fin n) (ElementKey × ℝ) compare) :
    aggregateDelta delta element axis aggregated (key, mw) =
      .ok (aggregated.insert i ((aggregated.getD i (key, 0)).1, (aggregated.getD i (key, 0)).2 + mw)) := by
  rw [accepted] at hkey
  split at hkey
  case isTrue => cases hkey
  case isFalse hpositive =>
    simp only [aggregateDelta, if_neg hpositive, hkey]
    rfl

theorem accepted_of_aggregateDelta {delta element : String} {axis : DcAxis n}
    {aggregated out : ExtTreeMap (Fin n) (ElementKey × ℝ) compare} {entry : ElementKey × ℝ}
    (h : aggregateDelta delta element axis aggregated entry = .ok out) :
    ∃ i, accepted axis entry.1 = some i := by
  obtain ⟨key, mw⟩ := entry
  simp only [aggregateDelta, Outcome.ite_error_eq_ok] at h
  obtain ⟨hpositive, _, h⟩ := h
  rw [accepted, if_neg hpositive]
  cases hget : axis.get key with
  | none =>
    rw [hget] at h
    cases h
  | some i => exact ⟨i, rfl⟩

def byElement (axis : DcAxis n) (entries : List (ElementKey × ℝ)) : List (Fin n × ℝ) :=
  entries.filterMap fun entry => (accepted axis entry.1).map fun i => (i, entry.2)

theorem foldlM_aggregateDelta {delta element : String} {axis : DcAxis n}
    {entries : List (ElementKey × ℝ)} {start out : ExtTreeMap (Fin n) (ElementKey × ℝ) compare}
    (h : entries.foldlM (aggregateDelta delta element axis) start = .ok out) :
    (∀ entry ∈ entries, ∃ i, accepted axis entry.1 = some i) ∧
      netsOf out = (byElement axis entries).foldl
        (fun map entry => map.insert entry.1 (map.getD entry.1 0 + entry.2)) (netsOf start) := by
  induction entries generalizing start with
  | nil =>
    cases h
    exact ⟨fun _ hentry => absurd hentry List.not_mem_nil, rfl⟩
  | cons entry rest ih =>
    rw [List.foldlM_cons, Outcome.bind_eq_ok] at h
    obtain ⟨next, hnext, hrest⟩ := h
    obtain ⟨i, hi⟩ := accepted_of_aggregateDelta hnext
    obtain ⟨haccepted, hnets⟩ := ih hrest
    rw [aggregateDelta_of_accepted hi] at hnext
    cases hnext
    constructor
    · intro other hother
      rcases List.mem_cons.mp hother with rfl | hother
      · exact ⟨i, hi⟩
      · exact haccepted other hother
    · rw [hnets, netsOf_insert, byElement, byElement, List.filterMap_cons, hi, Option.map_some,
        List.foldl_cons]

theorem exists_aggregateDeltas (delta element : String) {axis : DcAxis n} {deltas : DeltaMap ℝ}
    (h : ∀ entry ∈ deltas.toList, ∃ i, accepted axis entry.1 = some i) :
    ∃ out, aggregateDeltas delta element axis deltas = .ok out := by
  apply Outcome.exists_foldlM_ok
  intro aggregated entry hentry
  obtain ⟨i, hi⟩ := h entry hentry
  exact ⟨_, aggregateDelta_of_accepted hi entry.2 aggregated⟩

/-! ### What is applied -/

theorem foldlM_applyDelta {refuses : ℝ → Bool} {message : String → String} {base : ℝ}
    {entries : List (Fin n × ElementKey × ℝ)} (hnodup : (entries.map Prod.fst).Nodup)
    {values out : Fin n → ℝ} :
    entries.foldlM (applyDelta refuses message base) values = .ok out ↔
      (∀ entry ∈ entries, refuses (values entry.1 * base + entry.2.2) = false) ∧
        out = fun i => values i +
          listTotal (fun j => decide (j = i)) (entries.map fun entry => (entry.1, entry.2.2)) / base := by
  induction entries generalizing values with
  | nil =>
    have hvalues : (fun i => values i + listTotal (fun j => decide (j = i)) [] / base) = values := by
      funext i
      rw [listTotal_nil, zero_div, add_zero]
    rw [List.foldlM_nil, Outcome.pure_eq_ok, List.map_nil, hvalues, eq_comm (a := values)]
    exact ⟨fun h => ⟨fun _ hentry => absurd hentry List.not_mem_nil, h⟩, fun h => h.2⟩
  | cons entry rest ih =>
    obtain ⟨i, key, mw⟩ := entry
    obtain ⟨hi, hrest⟩ := List.nodup_cons.mp hnodup
    let next := Function.update values i (values i + mw / base)
    have hother : ∀ entry ∈ rest, next entry.1 = values entry.1 := by
      intro entry hentry
      apply Function.update_of_ne
      intro heq
      apply hi
      change i ∈ _
      rw [← heq]
      exact List.mem_map_of_mem hentry
    have hnext : (fun j => next j +
          listTotal (fun k => decide (k = j)) (rest.map fun entry => (entry.1, entry.2.2)) / base) =
        fun j => values j + listTotal (fun k => decide (k = j))
          ((i, mw) :: rest.map fun entry => (entry.1, entry.2.2)) / base := by
      funext j
      rw [listTotal_cons]
      by_cases hj : i = j
      · subst hj
        have hzero : listTotal (fun k => decide (k = i))
            (rest.map fun entry => (entry.1, entry.2.2)) = 0 := by
          apply listTotal_eq_zero
          intro entry hentry
          obtain ⟨old, hold, rfl⟩ := List.mem_map.mp hentry
          apply decide_eq_false
          intro heq
          apply hi
          change i ∈ _
          rw [← heq]
          exact List.mem_map_of_mem hold
        rw [hzero, if_pos (decide_eq_true rfl), zero_div, add_zero, add_zero]
        exact Function.update_self ..
      · rw [if_neg fun h => hj (of_decide_eq_true h), zero_add]
        congr 1
        exact Function.update_of_ne (fun h => hj h.symm) ..
    rw [List.foldlM_cons, applyDelta, Outcome.bind_eq_ok]
    simp only [Outcome.ite_error_eq_ok, Except.ok.injEq]
    constructor
    · rintro ⟨_, ⟨haccepts, rfl⟩, hout⟩
      obtain ⟨hall, hout⟩ := (ih hrest).mp hout
      refine ⟨?_, hout.trans hnext⟩
      intro entry hentry
      rcases List.mem_cons.mp hentry with rfl | hentry
      · exact Bool.eq_false_iff.mpr haccepts
      · rw [← hother entry hentry]
        exact hall entry hentry
    · rintro ⟨hall, hout⟩
      refine ⟨next, ⟨Bool.eq_false_iff.mp (hall (i, key, mw) List.mem_cons_self), rfl⟩, ?_⟩
      rw [ih hrest]
      refine ⟨?_, hout.trans hnext.symm⟩
      intro entry hentry
      rw [hother entry hentry]
      exact hall entry (List.mem_cons_of_mem _ hentry)

/-! ### Edits of one kind -/

/-- An edit of one kind, under a key that is accepted for the element. -/
def Names (axis : DcAxis n) (kind : EditKind) (i : Fin n) (edits : List (NetworkEdit ℝ)) : Prop :=
  ∃ edit ∈ edits, edit.kind = kind ∧ accepted axis edit.elementKey = some i

noncomputable def acceptedNet (axis : DcAxis n) (kind : EditKind) (i : Fin n)
    (edits : List (NetworkEdit ℝ)) : ℝ :=
  netMw kind (fun key => (accepted axis key).any fun j => decide (j = i)) edits

theorem forall_mem_fold (p : ElementKey → Prop) {kind : EditKind} {edits : List (NetworkEdit ℝ)} :
    (∀ entry ∈ ((fold edits).of kind).toList, p entry.1) ↔
      ∀ edit ∈ edits, edit.kind = kind → p edit.elementKey := by
  constructor
  · intro h edit hedit hkind
    have hmem := (mem_fold kind edit.elementKey edits).mpr ⟨edit, hedit, hkind, rfl⟩
    rw [← ExtTreeMap.isSome_getElem?_iff_mem, Option.isSome_iff_exists] at hmem
    obtain ⟨mw, hmw⟩ := hmem
    exact h (edit.elementKey, mw) (ExtTreeMap.mem_toList_iff_getElem?_eq_some.mpr hmw)
  · rintro h ⟨key, mw⟩ hentry
    have hmem : key ∈ (fold edits).of kind := by
      rw [← ExtTreeMap.isSome_getElem?_iff_mem, ExtTreeMap.mem_toList_iff_getElem?_eq_some.mp hentry]
      rfl
    obtain ⟨edit, hedit, hkind, rfl⟩ := (mem_fold kind key edits).mp hmem
    exact h edit hedit hkind

theorem mem_aggregate {delta element : String} {axis : DcAxis n} {kind : EditKind}
    {edits : List (NetworkEdit ℝ)} {aggregated : ExtTreeMap (Fin n) (ElementKey × ℝ) compare}
    (h : aggregateDeltas delta element axis ((fold edits).of kind) = .ok aggregated) (i : Fin n) :
    i ∈ netsOf aggregated ↔ Names axis kind i edits := by
  obtain ⟨_, hnets⟩ := foldlM_aggregateDelta h
  rw [hnets, netsOf_empty, mem_foldl]
  constructor
  · rintro (h | ⟨entry, hentry, rfl⟩)
    · exact absurd h ExtTreeMap.not_mem_empty
    · obtain ⟨⟨key, mw⟩, hmem, hkey⟩ := List.mem_filterMap.mp hentry
      obtain ⟨i, hi, rfl⟩ := Option.map_eq_some_iff.mp hkey
      by_contra hnot
      refine (forall_mem_fold fun key => accepted axis key ≠ some i).mpr ?_ (key, mw) hmem hi
      intro edit hedit hkind haccepted
      exact hnot ⟨edit, hedit, hkind, haccepted⟩
  · rintro ⟨edit, hedit, hkind, hkey⟩
    have hmem := (mem_fold kind edit.elementKey edits).mpr ⟨edit, hedit, hkind, rfl⟩
    rw [← ExtTreeMap.isSome_getElem?_iff_mem, Option.isSome_iff_exists] at hmem
    obtain ⟨mw, hmw⟩ := hmem
    refine .inr ⟨(i, mw), ?_, rfl⟩
    exact List.mem_filterMap.mpr ⟨(edit.elementKey, mw),
      ExtTreeMap.mem_toList_iff_getElem?_eq_some.mpr hmw, congrArg (Option.map _) hkey⟩

theorem getD_aggregate {delta element : String} {axis : DcAxis n} {kind : EditKind}
    {edits : List (NetworkEdit ℝ)} {aggregated : ExtTreeMap (Fin n) (ElementKey × ℝ) compare}
    (h : aggregateDeltas delta element axis ((fold edits).of kind) = .ok aggregated) (i : Fin n) :
    (netsOf aggregated).getD i 0 = acceptedNet axis kind i edits := by
  obtain ⟨_, hnets⟩ := foldlM_aggregateDelta h
  rw [← total_key, hnets, total_foldl, netsOf_empty, total_empty, zero_add, byElement, listTotal_filterMap, acceptedNet,
    ← total_fold]
  rfl

theorem nodup_aggregate (aggregated : ExtTreeMap (Fin n) (ElementKey × ℝ) compare) :
    (aggregated.toList.map Prod.fst).Nodup := by
  rw [List.Nodup, List.pairwise_map]
  refine List.Pairwise.imp ?_ ExtTreeMap.distinct_keys_toList
  intro a b hab heq
  apply hab
  rw [heq]
  exact Std.ReflCmp.compare_self

/-- The edits of one kind are applied exactly when every key is accepted and no named element refuses its
net, and then every element has moved by its net. -/
theorem apply_iff {delta element : String} {refuses : ℝ → Bool} {message : String → String} {base : ℝ}
    {axis : DcAxis n} {kind : EditKind} {edits : List (NetworkEdit ℝ)} {values out : Fin n → ℝ} :
    (aggregateDeltas delta element axis ((fold edits).of kind) >>= fun aggregated =>
      aggregated.toList.foldlM (applyDelta refuses message base) values) = .ok out ↔
      (∀ edit ∈ edits, edit.kind = kind → ∃ i, accepted axis edit.elementKey = some i) ∧
        (∀ i, Names axis kind i edits →
          refuses (values i * base + acceptedNet axis kind i edits) = false) ∧
        out = fun i => values i + acceptedNet axis kind i edits / base := by
  have hspec : ∀ aggregated,
      aggregateDeltas delta element axis ((fold edits).of kind) = .ok aggregated →
      (aggregated.toList.foldlM (applyDelta refuses message base) values = .ok out ↔
        (∀ i, Names axis kind i edits →
          refuses (values i * base + acceptedNet axis kind i edits) = false) ∧
        out = fun i => values i + acceptedNet axis kind i edits / base) := by
    intro aggregated haggregated
    have hnet : ∀ i, listTotal (fun j => decide (j = i))
        (aggregated.toList.map fun entry => (entry.1, entry.2.2)) = acceptedNet axis kind i edits := by
      intro i
      rw [← getD_aggregate haggregated, ← total_key, total, netsOf, ExtTreeMap.toList_map]
      rfl
    have hentry : ∀ entry ∈ aggregated.toList, entry.2.2 = acceptedNet axis kind entry.1 edits := by
      rintro ⟨i, key, mw⟩ hmem
      rw [ExtTreeMap.mem_toList_iff_getElem?_eq_some] at hmem
      rw [← getD_aggregate haggregated, netsOf, ExtTreeMap.getD_map, hmem]
      rfl
    rw [foldlM_applyDelta (nodup_aggregate aggregated)]
    simp only [hnet]
    apply and_congr_left'
    constructor
    · intro h i hnames
      rw [← mem_aggregate haggregated, ← ExtTreeMap.isSome_getElem?_iff_mem, netsOf,
        ExtTreeMap.getElem?_map, Option.isSome_map, Option.isSome_iff_exists] at hnames
      obtain ⟨entry, hat⟩ := hnames
      have hmem := ExtTreeMap.mem_toList_iff_getElem?_eq_some.mpr hat
      have haccepts := h (i, entry) hmem
      rw [hentry (i, entry) hmem] at haccepts
      exact haccepts
    · intro h entry hmem
      rw [hentry entry hmem]
      apply h
      rw [← mem_aggregate haggregated, ← ExtTreeMap.isSome_getElem?_iff_mem, netsOf,
        ExtTreeMap.getElem?_map, ExtTreeMap.mem_toList_iff_getElem?_eq_some.mp hmem]
      rfl
  rw [Outcome.bind_eq_ok]
  constructor
  · rintro ⟨aggregated, haggregated, hout⟩
    exact ⟨(forall_mem_fold fun key => ∃ i, accepted axis key = some i).mp (foldlM_aggregateDelta haggregated).1,
      (hspec aggregated haggregated).mp hout⟩
  · rintro ⟨haccepted, hout⟩
    obtain ⟨aggregated, haggregated⟩ := exists_aggregateDeltas delta element
      ((forall_mem_fold fun key => ∃ i, accepted axis key = some i).mpr haccepted)
    exact ⟨aggregated, haggregated, (hspec aggregated haggregated).mpr hout⟩

/-! ### Edit lists -/

def size (n m : ℕ) : EditKind → ℕ
  | .demand => n
  | .lineLimit => m

def DcNetwork.axis (dc : DcNetwork ℝ n m) : (kind : EditKind) → DcAxis (size n m kind)
  | .demand => dc.buses
  | .lineLimit => dc.branches

def DcNetwork.value (dc : DcNetwork ℝ n m) : (kind : EditKind) → Fin (size n m kind) → ℝ
  | .demand => dc.demand
  | .lineLimit => dc.fmax

noncomputable def refuses : EditKind → ℝ → Bool
  | .demand => refusesDemand
  | .lineLimit => refusesRating

/-- Every element moved by its net. -/
noncomputable def moved (dc : DcNetwork ℝ n m) (edits : List (NetworkEdit ℝ)) : DcNetwork ℝ n m :=
  { dc with
    demand := fun i => dc.demand i + acceptedNet dc.buses .demand i edits / dc.baseMva
    fmax := fun e => dc.fmax e + acceptedNet dc.branches .lineLimit e edits / dc.baseMva }

theorem applyDemandDeltas_iff {dc out : DcNetwork ℝ n m} {edits : List (NetworkEdit ℝ)} :
    applyDemandDeltas dc (fold edits).deltas = .ok out ↔
      (∀ edit ∈ edits, edit.kind = .demand → ∃ i, accepted dc.buses edit.elementKey = some i) ∧
      (∀ i, Names dc.buses .demand i edits →
        refusesDemand (dc.demand i * dc.baseMva + acceptedNet dc.buses .demand i edits) = false) ∧
      out = { dc with
        demand := fun i => dc.demand i + acceptedNet dc.buses .demand i edits / dc.baseMva } := by
  have hbind : applyDemandDeltas dc (fold edits).deltas = .ok out ↔ ∃ demand,
      (aggregateDeltas "demand delta" "bus" dc.buses ((fold edits).of .demand) >>= fun aggregated =>
        aggregated.toList.foldlM (applyDelta refusesDemand (fun bus =>
          "demand delta for bus " ++ bus ++ " would make demand negative") dc.baseMva) dc.demand) =
        .ok demand ∧ { dc with demand } = out := by
    simp only [applyDemandDeltas, aggregateDemandDeltas, Outcome.bind_eq_ok, Outcome.pure_eq_ok]
    constructor
    · rintro ⟨aggregated, haggregated, demand, hdemand, hout⟩
      exact ⟨demand, ⟨aggregated, haggregated, hdemand⟩, hout⟩
    · rintro ⟨demand, ⟨aggregated, haggregated, hdemand⟩, hout⟩
      exact ⟨aggregated, haggregated, demand, hdemand, hout⟩
  rw [hbind]
  simp only [apply_iff]
  constructor
  · rintro ⟨demand, ⟨haccepted, haccepts, rfl⟩, hout⟩
    exact ⟨haccepted, haccepts, hout.symm⟩
  · rintro ⟨haccepted, haccepts, hout⟩
    exact ⟨_, ⟨haccepted, haccepts, rfl⟩, hout.symm⟩

theorem applyRatingDeltas_iff {dc out : DcNetwork ℝ n m} {edits : List (NetworkEdit ℝ)} :
    applyRatingDeltas dc (fold edits).rates = .ok out ↔
      (∀ edit ∈ edits, edit.kind = .lineLimit → ∃ e, accepted dc.branches edit.elementKey = some e) ∧
      (∀ e, Names dc.branches .lineLimit e edits →
        refusesRating (dc.fmax e * dc.baseMva + acceptedNet dc.branches .lineLimit e edits) = false) ∧
      out = { dc with
        fmax := fun e => dc.fmax e + acceptedNet dc.branches .lineLimit e edits / dc.baseMva } := by
  have hbind : applyRatingDeltas dc (fold edits).rates = .ok out ↔ ∃ fmax,
      (aggregateDeltas "rating delta" "branch" dc.branches ((fold edits).of .lineLimit) >>=
        fun aggregated => aggregated.toList.foldlM (applyDelta refusesRating (fun branch =>
          "rating delta for branch " ++ branch ++ " would make the line limit non-positive")
            dc.baseMva) dc.fmax) = .ok fmax ∧ { dc with fmax } = out := by
    simp only [applyRatingDeltas, aggregateRatingDeltas, Outcome.bind_eq_ok, Outcome.pure_eq_ok]
    constructor
    · rintro ⟨aggregated, haggregated, fmax, hfmax, hout⟩
      exact ⟨fmax, ⟨aggregated, haggregated, hfmax⟩, hout⟩
    · rintro ⟨fmax, ⟨aggregated, haggregated, hfmax⟩, hout⟩
      exact ⟨aggregated, haggregated, fmax, hfmax, hout⟩
  rw [hbind]
  simp only [apply_iff]
  constructor
  · rintro ⟨fmax, ⟨haccepted, haccepts, rfl⟩, hout⟩
    exact ⟨haccepted, haccepts, hout.symm⟩
  · rintro ⟨haccepted, haccepts, hout⟩
    exact ⟨_, ⟨haccepted, haccepts, rfl⟩, hout.symm⟩

/-- Every edit is under a key that is accepted. -/
def Accepted (dc : DcNetwork ℝ n m) (edits : List (NetworkEdit ℝ)) : Prop :=
  ∀ edit ∈ edits, ∃ i, accepted (dc.axis edit.kind) edit.elementKey = some i

theorem applyEdits_iff {dc out : DcNetwork ℝ n m} {edits : List (NetworkEdit ℝ)} :
    applyEdits dc (fold edits) = .ok out ↔ Accepted dc edits ∧
      (∀ kind i, Names (dc.axis kind) kind i edits → refuses kind
        (dc.value kind i * dc.baseMva + acceptedNet (dc.axis kind) kind i edits) = false) ∧
      out = moved dc edits := by
  rw [applyEdits, Outcome.bind_eq_ok]
  simp only [applyDemandDeltas_iff, applyRatingDeltas_iff]
  constructor
  · rintro ⟨_, ⟨hdemandKeys, hdemand, rfl⟩, hratingKeys, hrating, rfl⟩
    refine ⟨?_, ?_, rfl⟩
    · intro edit hedit
      cases hkind : edit.kind with
      | demand => exact hdemandKeys edit hedit hkind
      | lineLimit => exact hratingKeys edit hedit hkind
    · intro kind
      cases kind with
      | demand => exact hdemand
      | lineLimit => exact hrating
  · rintro ⟨hkeys, haccepts, rfl⟩
    refine ⟨_, ⟨?_, haccepts .demand, rfl⟩, ?_, haccepts .lineLimit, rfl⟩
    · intro edit hedit hkind
      have hkey := hkeys edit hedit
      rw [hkind] at hkey
      exact hkey
    · intro edit hedit hkind
      have hkey := hkeys edit hedit
      rw [hkind] at hkey
      exact hkey

/-- The net change of an element, under all of its spellings. -/
noncomputable def elementNet (dc : DcNetwork ℝ n m) (kind : EditKind) (i : Fin (size n m kind))
    (edits : List (NetworkEdit ℝ)) : ℝ :=
  netMw kind (fun key => decide ((dc.axis kind).get key = some i)) edits

/-- An edit of an element, under any of its spellings. -/
def EditsElement (dc : DcNetwork ℝ n m) (kind : EditKind) (i : Fin (size n m kind))
    (edits : List (NetworkEdit ℝ)) : Prop :=
  ∃ edit ∈ edits, edit.kind = kind ∧ (dc.axis kind).get edit.elementKey = some i

/-- The lists have the same net per element. Either both or none of them has a key that is not accepted,
and an element that only one of them names is not refused as it is. -/
structure SameNets (dc : DcNetwork ℝ n m) (edits others : List (NetworkEdit ℝ)) : Prop where
  net : ∀ kind i, elementNet dc kind i edits = elementNet dc kind i others
  accepted : Accepted dc edits ↔ Accepted dc others
  lone : ∀ kind i, ¬ (EditsElement dc kind i edits ↔ EditsElement dc kind i others) →
    refuses kind (dc.value kind i * dc.baseMva) = false

theorem SameNets.symm {dc : DcNetwork ℝ n m} {edits others : List (NetworkEdit ℝ)}
    (h : SameNets dc edits others) : SameNets dc others edits where
  net := fun kind i => (h.net kind i).symm
  accepted := h.accepted.symm
  lone := fun kind i hnot => h.lone kind i fun hiff => hnot hiff.symm

theorem get_of_accepted {axis : DcAxis n} {key : ElementKey} {i : Fin n}
    (h : accepted axis key = some i) : axis.get key = some i := by
  rw [DcEdits.accepted] at h
  split at h
  case isTrue => cases h
  case isFalse => exact h

theorem accepted_iff_get {dc : DcNetwork ℝ n m} {edits : List (NetworkEdit ℝ)} (h : Accepted dc edits)
    {edit : NetworkEdit ℝ} (hedit : edit ∈ edits) {kind : EditKind} (hkind : edit.kind = kind)
    (i : Fin (size n m kind)) :
    DcEdits.accepted (dc.axis kind) edit.elementKey = some i ↔
      (dc.axis kind).get edit.elementKey = some i := by
  subst hkind
  obtain ⟨j, hj⟩ := h edit hedit
  rw [hj, get_of_accepted hj]

theorem names_iff_editsElement {dc : DcNetwork ℝ n m} {edits : List (NetworkEdit ℝ)} (h : Accepted dc edits)
    (kind : EditKind) (i : Fin (size n m kind)) :
    Names (dc.axis kind) kind i edits ↔ EditsElement dc kind i edits := by
  constructor
  · rintro ⟨edit, hedit, hkind, hkey⟩
    exact ⟨edit, hedit, hkind, get_of_accepted hkey⟩
  · rintro ⟨edit, hedit, hkind, hkey⟩
    exact ⟨edit, hedit, hkind, (accepted_iff_get h hedit hkind i).mpr hkey⟩

theorem acceptedNet_eq {dc : DcNetwork ℝ n m} {edits : List (NetworkEdit ℝ)} (h : Accepted dc edits)
    (kind : EditKind) (i : Fin (size n m kind)) :
    acceptedNet (dc.axis kind) kind i edits = elementNet dc kind i edits := by
  apply netMw_congr
  intro edit hedit hkind
  rw [Bool.eq_iff_iff, decide_eq_true_eq, ← accepted_iff_get h hedit hkind i, Option.any_eq_true]
  simp only [decide_eq_true_eq, exists_eq_right]

theorem elementNet_eq_zero {dc : DcNetwork ℝ n m} {edits : List (NetworkEdit ℝ)} {kind : EditKind}
    {i : Fin (size n m kind)} (h : ¬ EditsElement dc kind i edits) : elementNet dc kind i edits = 0 := by
  apply netMw_eq_zero
  intro edit hedit hkind
  exact decide_eq_false fun hkey => h ⟨edit, hedit, hkind, hkey⟩

theorem moved_congr {dc : DcNetwork ℝ n m} {edits others : List (NetworkEdit ℝ)}
    (hedits : Accepted dc edits) (hothers : Accepted dc others) (h : SameNets dc edits others) :
    moved dc edits = moved dc others := by
  have hnet : ∀ kind i, acceptedNet (dc.axis kind) kind i edits =
      acceptedNet (dc.axis kind) kind i others := by
    intro kind i
    rw [acceptedNet_eq hedits, acceptedNet_eq hothers, h.net]
  have hdemand : ∀ i, acceptedNet dc.buses .demand i edits =
      acceptedNet dc.buses .demand i others := hnet .demand
  have hrating : ∀ e, acceptedNet dc.branches .lineLimit e edits =
      acceptedNet dc.branches .lineLimit e others := hnet .lineLimit
  simp only [moved, hdemand, hrating]

theorem applyEdits_of_sameNets {dc out : DcNetwork ℝ n m} {edits others : List (NetworkEdit ℝ)}
    (h : SameNets dc edits others) (hout : applyEdits dc (fold edits) = .ok out) :
    applyEdits dc (fold others) = .ok out := by
  rw [applyEdits_iff] at hout ⊢
  obtain ⟨hedits, haccepts, rfl⟩ := hout
  have hothers := h.accepted.mp hedits
  refine ⟨hothers, ?_, moved_congr hedits hothers h⟩
  intro kind i hnames
  rw [names_iff_editsElement hothers] at hnames
  rw [acceptedNet_eq hothers, ← h.net]
  by_cases hnamed : EditsElement dc kind i edits
  · rw [← acceptedNet_eq hedits]
    exact haccepts kind i ((names_iff_editsElement hedits kind i).mpr hnamed)
  · rw [elementNet_eq_zero hnamed, add_zero]
    exact h.lone kind i fun hiff => hnamed (hiff.mpr hnames)

/-- Edit lists with the same nets are applied alike: both give one model, with one demand, rating and
shedding bound of every element, or both are refused. -/
theorem edits_depend_on_nets (dc : DcNetwork ℝ n m) (edits others : List (NetworkEdit ℝ))
    (h : SameNets dc edits others) :
    (applyEdits dc (fold edits)).toOption = (applyEdits dc (fold others)).toOption := by
  apply Option.ext
  intro out
  have hsome : ∀ outcome : Except String (DcNetwork ℝ n m),
      outcome.toOption = some out ↔ outcome = .ok out := by
    intro outcome
    cases outcome with
    | error message => exact ⟨fun h => (nomatch h), fun h => (nomatch h)⟩
    | ok out' => exact ⟨fun h => congrArg Except.ok (Option.some.inj h), fun h => by rw [h]; rfl⟩
  rw [hsome, hsome]
  exact ⟨applyEdits_of_sameNets h, applyEdits_of_sameNets h.symm⟩

theorem applyEdits_nil (dc : DcNetwork ℝ n m) : applyEdits dc (fold []) = .ok dc := by
  rw [applyEdits_iff]
  refine ⟨fun _ hedit => absurd hedit List.not_mem_nil, ?_, ?_⟩
  · rintro kind i ⟨_, hedit, _⟩
    cases hedit
  · have hnone : ∀ {k : ℕ} (axis : DcAxis k) kind i, acceptedNet axis kind i [] = 0 :=
      fun _ _ _ => rfl
    simp only [moved, hnone, zero_div, add_zero]

end Exact

section Sample

@[reducible] local instance dcText : DecimalText ℝ := ⟨fun _ => ""⟩

def oneBus (id : ℕ) (demand : ℝ) : DcNetwork ℝ 1 0 where
  buses := { ids := fun _ => id, uids := fun _ => some "west" }
  branches := { ids := Fin.elim0, uids := Fin.elim0 }
  demand := fun _ => demand
  fmax := Fin.elim0
  allowShed := false
  baseMva := 1

/-- Two lists with the same nets that are applied alike. -/
def Alike (dc : DcNetwork ℝ n m) (edits others : List (NetworkEdit ℝ)) : Prop :=
  (∀ kind i, elementNet dc kind i edits = elementNet dc kind i others) →
    (applyEdits dc (fold edits)).toOption = (applyEdits dc (fold others)).toOption

theorem toOption_eq_none {α : Type} {outcome : Except String α} (h : ∀ out, outcome ≠ .ok out) :
    outcome.toOption = none := by
  cases outcome with
  | error message => rfl
  | ok out => exact absurd rfl (h out)

theorem elementNet_oneBus {id : ℕ} {demand : ℝ} {edits others : List (NetworkEdit ℝ)}
    (h : elementNet (oneBus id demand) .demand (0 : Fin 1) edits =
      elementNet (oneBus id demand) .demand (0 : Fin 1) others) (kind : EditKind) (i) :
    elementNet (oneBus id demand) kind i edits = elementNet (oneBus id demand) kind i others := by
  cases kind with
  | demand =>
    have hi : i = (0 : Fin 1) := Subsingleton.elim (α := Fin 1) i 0
    rw [hi]
    exact h
  | lineLimit => exact Fin.elim0 i

/-- A key without an element is refused, so is number 0, and so is a change of nothing where the demand
is negative. -/
theorem nets_do_not_suffice :
    ¬ Alike (oneBus 1 0) [] [.addLoad (.uid "east") 5] ∧
    ¬ Alike (oneBus 0 0) [.addLoad (.id 0) 5] [.addLoad (.uid "west") 5] ∧
    ¬ Alike (oneBus 1 (-1)) [] [.addLoad (.uid "west") 5, .addLoad (.uid "west") (-5)] := by
  refine ⟨?_, ?_, ?_⟩
  · intro halike
    have hnone : (applyEdits (oneBus 1 0) (fold [.addLoad (.uid "east") 5])).toOption = none := by
      apply toOption_eq_none
      intro out hout
      obtain ⟨i, hi⟩ := (applyEdits_iff.mp hout).1 _ List.mem_cons_self
      cases hi
    have hsame := halike (elementNet_oneBus rfl)
    rw [hnone, applyEdits_nil] at hsame
    cases hsame
  · intro halike
    have hnone : (applyEdits (oneBus 0 0) (fold [.addLoad (.id 0) 5])).toOption = none := by
      apply toOption_eq_none
      intro out hout
      obtain ⟨i, hi⟩ := (applyEdits_iff.mp hout).1 _ List.mem_cons_self
      cases hi
    have hnet : acceptedNet (oneBus 0 0).buses .demand 0 [.addLoad (.uid "west") 5] = 5 := by
      have hsum : acceptedNet (oneBus 0 0).buses .demand 0 [.addLoad (.uid "west") 5] = 5 + 0 := rfl
      rw [hsum, add_zero]
    have hsome : applyEdits (oneBus 0 0) (fold [.addLoad (.uid "west") 5]) =
        .ok (moved (oneBus 0 0) [.addLoad (.uid "west") 5]) := by
      rw [applyEdits_iff]
      refine ⟨?_, ?_, rfl⟩
      · intro edit hedit
        rw [List.mem_singleton.mp hedit]
        exact ⟨(0 : Fin 1), rfl⟩
      · intro kind i _
        cases kind with
        | demand =>
          have hi : i = (0 : Fin 1) := Subsingleton.elim (α := Fin 1) i 0
          rw [hi]
          apply decide_eq_false
          change ¬ (0 : ℝ) * 1 + acceptedNet (oneBus 0 0).buses .demand 0 [.addLoad (.uid "west") 5] <
            -((1 / 10 ^ 9 : ℚ) : ℝ)
          rw [hnet]
          norm_num
        | lineLimit => exact Fin.elim0 i
    have hsame := halike (elementNet_oneBus rfl)
    rw [hnone, hsome] at hsame
    cases hsame
  · intro halike
    have hnet : acceptedNet (oneBus 1 (-1)).buses .demand 0
        [.addLoad (.uid "west") 5, .addLoad (.uid "west") (-5)] = 0 := by
      have hsum : acceptedNet (oneBus 1 (-1)).buses .demand 0
          [.addLoad (.uid "west") 5, .addLoad (.uid "west") (-5)] = 5 + (-5 + 0) := rfl
      rw [hsum]
      norm_num
    have hnone : (applyEdits (oneBus 1 (-1))
        (fold [.addLoad (.uid "west") 5, .addLoad (.uid "west") (-5)])).toOption = none := by
      apply toOption_eq_none
      intro out hout
      have haccepts := (applyEdits_iff.mp hout).2.1 .demand (0 : Fin 1)
        ⟨.addLoad (.uid "west") 5, List.mem_cons_self, rfl, rfl⟩
      have haccepts := of_decide_eq_false haccepts
      change ¬ (-1 : ℝ) * 1 + acceptedNet (oneBus 1 (-1)).buses .demand 0
        [.addLoad (.uid "west") 5, .addLoad (.uid "west") (-5)] < -((1 / 10 ^ 9 : ℚ) : ℝ) at haccepts
      rw [hnet] at haccepts
      norm_num at haccepts
    have hzero : elementNet (oneBus 1 (-1)) .demand (0 : Fin 1) [] =
        elementNet (oneBus 1 (-1)) .demand (0 : Fin 1)
          [.addLoad (.uid "west") 5, .addLoad (.uid "west") (-5)] := by
      have hsum : elementNet (oneBus 1 (-1)) .demand (0 : Fin 1)
          [.addLoad (.uid "west") 5, .addLoad (.uid "west") (-5)] = 5 + (-5 + 0) := rfl
      rw [hsum]
      norm_num
      rfl
    have hsame := halike (elementNet_oneBus hzero)
    rw [hnone, applyEdits_nil] at hsame
    cases hsame

/-- Half the change by number and half by uid, and all of it by uid. -/
theorem edits_depend_on_nets_spelling :
    (applyEdits (oneBus 1 0) (fold [.addLoad (.id 1) 2, .addLoad (.uid "west") 3])).toOption =
      (applyEdits (oneBus 1 0) (fold [.addLoad (.uid "west") 5])).toOption := by
  refine edits_depend_on_nets (oneBus 1 0) _ _ ⟨elementNet_oneBus ?_, ?_, ?_⟩
  · have hsum : elementNet (oneBus 1 0) .demand (0 : Fin 1)
        [.addLoad (.id 1) 2, .addLoad (.uid "west") 3] = 2 + (3 + 0) := rfl
    have hwhole : elementNet (oneBus 1 0) .demand (0 : Fin 1) [.addLoad (.uid "west") 5] = 5 + 0 := rfl
    rw [hsum, hwhole]
    norm_num
  · constructor
    · intro _ edit hedit
      rw [List.mem_singleton.mp hedit]
      exact ⟨(0 : Fin 1), rfl⟩
    · intro _ edit hedit
      rcases List.mem_cons.mp hedit with rfl | hedit
      · exact ⟨(0 : Fin 1), rfl⟩
      · rw [List.mem_singleton.mp hedit]
        exact ⟨(0 : Fin 1), rfl⟩
  · intro kind i hnot
    cases kind with
    | demand =>
      have hi : i = (0 : Fin 1) := Subsingleton.elim (α := Fin 1) i 0
      refine absurd ⟨fun _ => ?_, fun _ => ?_⟩ hnot
      · exact ⟨_, List.mem_cons_self, rfl, by rw [hi]; rfl⟩
      · exact ⟨_, List.mem_cons_self, rfl, by rw [hi]; rfl⟩
    | lineLimit => exact Fin.elim0 i

end Sample

end Tellegen.DcEdits
