import Tellegen.Lib.Complex64
import Tellegen.Lib.KeyedSums
import Tellegen.NetworkEdit

/-!
The step from the committed edits to a target: per key, what the target has more.
In exact arithmetic the log and the step together have the net change of the target,
under each key and so for each element, whichever of its spellings an edit uses.
-/

set_option linter.unusedSectionVars false

open Binary64 Std KeyedSums

namespace Tellegen

section

variable {F : Type} [Binary64 F]

/-! ### Edits -/

/-- `parameter`: what kind of change an edit is. -/
inductive EditKind where
  | demand | lineLimit
  deriving DecidableEq

namespace NetworkEdit

def kind : NetworkEdit F → EditKind
  | .addLoad _ _ => .demand
  | .adjustBranchRating _ _ => .lineLimit

def elementKey : NetworkEdit F → ElementKey
  | .addLoad bus _ => bus
  | .adjustBranchRating branch _ => branch

def magnitudeMw : NetworkEdit F → F
  | .addLoad _ pMw => pMw
  | .adjustBranchRating _ deltaMw => deltaMw

end NetworkEdit

def Edits.of (edits : Edits F) : EditKind → DeltaMap F
  | .demand => edits.deltas
  | .lineLimit => edits.rates

/-! ### The step -/

def diff (current target : DeltaMap F) : DeltaMap F :=
  (current.toList.foldl (fun diff entry => diff.insert entry.1 (diff.getD entry.1 0 - entry.2))
    target).filter fun _ mw => !eq mw 0

def replacementStep (current target : List (NetworkEdit F)) : List (NetworkEdit F) :=
  let current := fold current
  let target := fold target
  (diff current.deltas target.deltas).toList.map (fun (bus, pMw) => .addLoad bus pMw) ++
    (diff current.rates target.rates).toList.map fun (branch, deltaMw) =>
      .adjustBranchRating branch deltaMw

end

/-! ### Nets -/

section Exact

variable [DecimalText ℝ]

def changes (kind : EditKind) (edits : List (NetworkEdit ℝ)) : List (ElementKey × ℝ) :=
  (edits.filter fun edit => edit.kind = kind).map fun edit => (edit.elementKey, edit.magnitudeMw)

/-- The net change of one kind under the keys that satisfy `p`. -/
noncomputable def netMw (kind : EditKind) (p : ElementKey → Bool) (edits : List (NetworkEdit ℝ)) : ℝ :=
  listTotal p (changes kind edits)

theorem changes_append (kind : EditKind) (edits more : List (NetworkEdit ℝ)) :
    changes kind (edits ++ more) = changes kind edits ++ changes kind more := by
  rw [changes, List.filter_append, List.map_append]
  rfl

theorem netMw_append (kind : EditKind) (p : ElementKey → Bool) (edits more : List (NetworkEdit ℝ)) :
    netMw kind p (edits ++ more) = netMw kind p edits + netMw kind p more := by
  rw [netMw, changes_append, listTotal_append]
  rfl

theorem of_foldl_add (kind : EditKind) (edits : List (NetworkEdit ℝ)) (start : Edits ℝ) :
    (edits.foldl Edits.add start).of kind =
      (changes kind edits).foldl (fun map entry => map.insert entry.1 (map.getD entry.1 0 + entry.2))
        (start.of kind) := by
  induction edits generalizing start with
  | nil => rfl
  | cons edit rest ih =>
    rw [List.foldl_cons, ih, changes, changes, List.filter_cons]
    cases edit with
    | addLoad bus pMw => cases kind <;> rfl
    | adjustBranchRating branch deltaMw => cases kind <;> rfl

theorem total_fold (kind : EditKind) (p : ElementKey → Bool) (edits : List (NetworkEdit ℝ)) :
    total p ((fold edits).of kind) = netMw kind p edits := by
  have hempty : total p ((Edits.empty : Edits ℝ).of kind) = 0 := by
    cases kind <;> exact total_empty p
  rw [fold, of_foldl_add, total_foldl, hempty, zero_add]
  rfl

/-! ### What the step does -/

theorem total_diff (p : ElementKey → Bool) (current target : DeltaMap ℝ) :
    total p (diff current target) = total p target - total p current := by
  let subtracted := current.toList.foldl
    (fun diff entry => diff.insert entry.1 (diff.getD entry.1 0 - entry.2)) target
  have hneg : subtracted = (current.toList.map fun entry => (entry.1, -entry.2)).foldl
      (fun map entry => map.insert entry.1 (map.getD entry.1 0 + entry.2)) target := by
    rw [List.foldl_map]
    simp only [subtracted, sub_eq_add_neg]
  have hsubtracted : total p subtracted = total p target - total p current := by
    rw [hneg, total_foldl, listTotal_neg, sub_eq_add_neg]
    rfl
  have hfilter : total p (diff current target) = total p subtracted := by
    have hlist : (diff current target).toList =
        subtracted.toList.filter fun entry => !Binary64.eq entry.2 0 := ExtTreeMap.toList_filter
    have htotal := listTotal_filter p (fun entry => !Binary64.eq entry.2 0) subtracted.toList
      (fun entry _ hzero => by
        rw [Bool.not_eq_true, Bool.not_eq_false'] at hzero
        exact of_decide_eq_true hzero)
    rw [← hlist] at htotal
    exact htotal
  rw [hfilter, hsubtracted]

theorem changes_replacementStep (kind : EditKind) (current target : List (NetworkEdit ℝ)) :
    changes kind (replacementStep current target) =
      (diff ((fold current).of kind) ((fold target).of kind)).toList := by
  have hsame : ∀ entries : List (ElementKey × ℝ),
      changes .demand (entries.map fun (bus, pMw) => NetworkEdit.addLoad bus pMw) = entries ∧
      changes .lineLimit (entries.map fun (bus, pMw) => NetworkEdit.addLoad bus pMw) = [] ∧
      changes .lineLimit (entries.map fun (branch, mw) => NetworkEdit.adjustBranchRating branch mw) =
        entries ∧
      changes .demand (entries.map fun (branch, mw) => NetworkEdit.adjustBranchRating branch mw) =
        [] := by
    intro entries
    induction entries with
    | nil => exact ⟨rfl, rfl, rfl, rfl⟩
    | cons entry rest ih =>
      obtain ⟨hdemand, hnone, hrating, hnone'⟩ := ih
      refine ⟨?_, ?_, ?_, ?_⟩
      · exact congrArg (entry :: ·) hdemand
      · exact hnone
      · exact congrArg (entry :: ·) hrating
      · exact hnone'
  rw [replacementStep]
  dsimp only
  rw [changes_append]
  cases kind with
  | demand => rw [(hsame _).1, (hsame _).2.2.2, List.append_nil, Edits.of, Edits.of]
  | lineLimit => rw [(hsame _).2.1, (hsame _).2.2.1, List.nil_append, Edits.of, Edits.of]

theorem mem_replacementStep {current target : List (NetworkEdit ℝ)} {edit : NetworkEdit ℝ}
    (h : edit ∈ replacementStep current target) : (edit.elementKey, edit.magnitudeMw) ∈
      (diff ((fold current).of edit.kind) ((fold target).of edit.kind)).toList := by
  rw [← changes_replacementStep, changes, List.mem_map]
  exact ⟨edit, List.mem_filter.mpr ⟨h, decide_eq_true rfl⟩, rfl⟩

theorem magnitude_ne_zero {current target : List (NetworkEdit ℝ)} {edit : NetworkEdit ℝ}
    (h : edit ∈ replacementStep current target) : edit.magnitudeMw ≠ 0 := by
  have hmem := mem_replacementStep h
  rw [diff, ExtTreeMap.toList_filter, List.mem_filter, Bool.not_eq_true'] at hmem
  exact of_decide_eq_false hmem.2

/-- The keys of a kind come from a map; an edit is told from one of the other kind by its kind. -/
theorem nodup_replacementStep (current target : List (NetworkEdit ℝ)) :
    ((replacementStep current target).map fun edit => (edit.kind, edit.elementKey)).Nodup := by
  have hkeys : ∀ map : DeltaMap ℝ, (map.toList.map Prod.fst).Nodup := by
    intro map
    rw [List.Nodup, List.pairwise_map]
    refine List.Pairwise.imp ?_ ExtTreeMap.distinct_keys_toList
    intro a b hab heq
    apply hab
    rw [heq]
    exact compare_self
  rw [replacementStep, List.map_append, List.map_map, List.map_map, List.nodup_append]
  refine ⟨?_, ?_, ?_⟩
  · have hmap := (hkeys (diff (fold current).deltas (fold target).deltas)).map
      (f := fun key => (EditKind.demand, key)) fun a b h => (Prod.mk.inj h).2
    rw [List.map_map] at hmap
    exact hmap
  · have hmap := (hkeys (diff (fold current).rates (fold target).rates)).map
      (f := fun key => (EditKind.lineLimit, key)) fun a b h => (Prod.mk.inj h).2
    rw [List.map_map] at hmap
    exact hmap
  · intro a ha b hb heq
    obtain ⟨entry, _, rfl⟩ := List.mem_map.mp ha
    obtain ⟨entry', _, rfl⟩ := List.mem_map.mp hb
    cases (Prod.mk.inj heq).1

theorem netMw_replacement (kind : EditKind) (p : ElementKey → Bool)
    (current target : List (NetworkEdit ℝ)) :
    netMw kind p (current ++ replacementStep current target) = netMw kind p target := by
  have hstep : netMw kind p (replacementStep current target) =
      netMw kind p target - netMw kind p current := by
    rw [netMw, changes_replacementStep]
    rw [← total_fold, ← total_fold]
    exact total_diff p _ _
  rw [netMw_append, hstep, add_sub_cancel]

theorem getD_fold (kind : EditKind) (key : ElementKey) (edits : List (NetworkEdit ℝ)) :
    ((fold edits).of kind).getD key 0 = netMw kind (fun k => decide (k = key)) edits := by
  rw [← total_key, total_fold]

end Exact

end Tellegen
