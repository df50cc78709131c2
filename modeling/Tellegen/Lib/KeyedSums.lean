import Std.Data.ExtTreeMap
import Mathlib.Algebra.BigOperators.Group.List.Basic
import Mathlib.Tactic.Abel

/-!
Sums over the entries of a map whose keys have a property. An insertion changes the
sum by the change of its own entry, so a map that was filled by adding to its entries
has for each property the sum of what was added under the keys that have it.
-/

set_option linter.unusedSectionVars false

open Std

namespace KeyedSums

variable {κ M : Type}

/-! ### Lists of entries -/

section Lists

variable [AddCommGroup M]

def listTotal (p : κ → Bool) (entries : List (κ × M)) : M :=
  ((entries.filter fun entry => p entry.1).map Prod.snd).sum

theorem listTotal_perm (p : κ → Bool) {l l' : List (κ × M)} (h : l.Perm l') :
    listTotal p l = listTotal p l' := ((h.filter _).map _).sum_eq

@[simp] theorem listTotal_nil (p : κ → Bool) : listTotal p ([] : List (κ × M)) = 0 := rfl

theorem listTotal_cons (p : κ → Bool) (k : κ) (v : M) (rest : List (κ × M)) :
    listTotal p ((k, v) :: rest) = (if p k then v else 0) + listTotal p rest := by
  rw [listTotal, List.filter_cons]
  cases hp : p k with
  | true => simp only [if_true, List.map_cons, List.sum_cons, listTotal]
  | false => simp only [Bool.false_eq_true, if_false, zero_add, listTotal]

theorem listTotal_append (p : κ → Bool) (l l' : List (κ × M)) :
    listTotal p (l ++ l') = listTotal p l + listTotal p l' := by
  rw [listTotal, List.filter_append, List.map_append, List.sum_append]
  rfl

theorem listTotal_neg (p : κ → Bool) (l : List (κ × M)) :
    listTotal p (l.map fun entry => (entry.1, -entry.2)) = -listTotal p l := by
  induction l with
  | nil => simp
  | cons entry rest ih =>
    rw [List.map_cons, listTotal_cons, listTotal_cons, ih]
    split
    · abel
    · abel

/-- Entries without a value count for nothing. -/
theorem listTotal_filter (p : κ → Bool) (q : κ × M → Bool) (l : List (κ × M))
    (hq : ∀ entry ∈ l, ¬ q entry → entry.2 = 0) : listTotal p (l.filter q) = listTotal p l := by
  induction l with
  | nil => rfl
  | cons entry rest ih =>
    have hrest := ih fun entry hentry => hq entry (List.mem_cons_of_mem _ hentry)
    rw [listTotal_cons, List.filter_cons]
    split
    case isTrue => rw [listTotal_cons, hrest]
    case isFalse hnot =>
      rw [hrest, hq entry List.mem_cons_self hnot, ite_self, zero_add]

/-- Entries whose keys are renamed, and those without a new key left out. -/
theorem listTotal_filterMap {ι : Type} (rename : κ → Option ι) (p : ι → Bool) (l : List (κ × M)) :
    listTotal p (l.filterMap fun entry => (rename entry.1).map fun key => (key, entry.2)) =
      listTotal (fun key => (rename key).any p) l := by
  induction l with
  | nil => rfl
  | cons entry rest ih =>
    obtain ⟨k, v⟩ := entry
    rw [List.filterMap_cons, listTotal_cons]
    cases hk : rename k with
    | none => rw [Option.map_none, ih, Option.any_none, if_neg Bool.false_ne_true, zero_add]
    | some key => rw [Option.map_some, listTotal_cons, ih, Option.any_some]

theorem listTotal_congr {p q : κ → Bool} {l : List (κ × M)} (h : ∀ entry ∈ l, p entry.1 = q entry.1) :
    listTotal p l = listTotal q l := by
  rw [listTotal, listTotal, List.filter_congr h]

theorem listTotal_eq_zero {p : κ → Bool} {l : List (κ × M)} (h : ∀ entry ∈ l, p entry.1 = false) :
    listTotal p l = 0 := by
  have hnil : l.filter (fun entry => p entry.1) = [] := by
    rw [List.filter_eq_nil_iff]
    intro entry hentry
    rw [h entry hentry]
    exact Bool.false_ne_true
  rw [listTotal, hnil]
  rfl

end Lists

/-! ### Maps -/

variable {cmp : κ → κ → Ordering} [TransCmp cmp] [LawfulEqCmp cmp]

theorem nodup_toList (map : ExtTreeMap κ M cmp) : map.toList.Nodup := by
  refine List.Pairwise.imp ?_ ExtTreeMap.distinct_keys_toList
  intro a b hab heq
  apply hab
  rw [heq]
  exact ReflCmp.compare_self

/-- The keys in order depend on the keys alone. -/
theorem option_eq {a b : Option M} (hsome : a.isSome ↔ b.isSome) (hget : ∀ v w, a = some v → b = some w → v = w) :
    a = b := by
  cases a with
  | none =>
    cases b with
    | none => rfl
    | some w => exact absurd (hsome.mpr rfl) Bool.false_ne_true
  | some v =>
    cases b with
    | none => exact absurd (hsome.mp rfl) Bool.false_ne_true
    | some w => rw [hget v w rfl rfl]

theorem keys_congr {map map' : ExtTreeMap κ M cmp} (h : ∀ k, k ∈ map ↔ k ∈ map') :
    map.keys = map'.keys := by
  have hunit : map.map (fun _ _ => ()) = map'.map fun _ _ => () := by
    apply ExtTreeMap.ext_getElem?
    intro k
    rw [ExtTreeMap.getElem?_map, ExtTreeMap.getElem?_map]
    apply option_eq
    · rw [Option.isSome_map, Option.isSome_map, ExtTreeMap.isSome_getElem?_iff_mem,
        ExtTreeMap.isSome_getElem?_iff_mem]
      exact h k
    · exact fun _ _ _ _ => rfl
  rw [← ExtTreeMap.keys_map (t := map) (f := fun _ _ => ()), hunit, ExtTreeMap.keys_map]

variable [DecidableEq κ]

/-- The other entries of a map stay when one is inserted. -/
theorem toList_insert_perm (map : ExtTreeMap κ M cmp) (k : κ) (v : M) :
    (map.insert k v).toList.Perm ((k, v) :: map.toList.filter fun entry => entry.1 ≠ k) := by
  have hnodup : ((k, v) :: map.toList.filter fun entry => entry.1 ≠ k).Nodup := by
    rw [List.nodup_cons, List.mem_filter]
    refine ⟨?_, (nodup_toList map).filter _⟩
    rintro ⟨_, hne⟩
    exact of_decide_eq_true hne rfl
  rw [List.perm_ext_iff_of_nodup (nodup_toList _) hnodup]
  rintro ⟨key, w⟩
  rw [ExtTreeMap.mem_toList_iff_getElem?_eq_some, ExtTreeMap.getElem?_insert, List.mem_cons,
    List.mem_filter, ExtTreeMap.mem_toList_iff_getElem?_eq_some, decide_eq_true_eq]
  by_cases hk : cmp k key = .eq
  · have heq : k = key := LawfulEqCmp.eq_of_compare hk
    rw [if_pos hk, ← heq, Option.some.injEq, Prod.mk.injEq, eq_comm (a := v)]
    constructor
    · exact fun h => .inl ⟨rfl, h⟩
    · rintro (⟨_, h⟩ | ⟨_, hne⟩)
      · exact h
      · exact absurd rfl hne
  · have hne : key ≠ k := by
      rintro rfl
      exact hk ReflCmp.compare_self
    rw [if_neg hk, Prod.mk.injEq]
    constructor
    · exact fun h => .inr ⟨h, hne⟩
    · rintro (⟨h, _⟩ | ⟨h, _⟩)
      · exact absurd h hne
      · exact h

/-- The entry of a key and the others. -/
theorem toList_perm_of_getElem? {map : ExtTreeMap κ M cmp} {k : κ} {v : M}
    (h : map[k]? = some v) :
    map.toList.Perm ((k, v) :: map.toList.filter fun entry => entry.1 ≠ k) := by
  have hsame : map.insert k v = map := by
    apply ExtTreeMap.ext_getElem?
    intro key
    rw [ExtTreeMap.getElem?_insert]
    split
    case isTrue hk =>
      rw [← LawfulEqCmp.eq_of_compare hk, h]
    case isFalse => rfl
  have hperm := toList_insert_perm map k v
  rw [hsame] at hperm
  exact hperm

theorem filter_ne_of_getElem?_none {map : ExtTreeMap κ M cmp} {k : κ} (h : map[k]? = none) :
    (map.toList.filter fun entry => entry.1 ≠ k) = map.toList := by
  rw [List.filter_eq_self]
  rintro ⟨key, v⟩ hmem
  rw [ExtTreeMap.mem_toList_iff_getElem?_eq_some] at hmem
  apply decide_eq_true
  rintro rfl
  rw [h] at hmem
  cases hmem

variable [AddCommGroup M]

/-- The sum of the entries whose keys satisfy `p`. -/
def total (p : κ → Bool) (map : ExtTreeMap κ M cmp) : M :=
  ((map.toList.filter fun entry => p entry.1).map Prod.snd).sum

/-- The sum of the entries, each under an additive map of its key. -/
def gather {N : Type} [AddCommGroup N] (f : κ → M →+ N) (map : ExtTreeMap κ M cmp) : N :=
  (map.toList.map fun entry => f entry.1 entry.2).sum

section Gather

variable {N : Type} [AddCommGroup N] (f : κ → M →+ N)

theorem toList_empty : (∅ : ExtTreeMap κ M cmp).toList = [] := by
  rw [List.eq_nil_iff_forall_not_mem]
  rintro ⟨k, v⟩ hmem
  rw [ExtTreeMap.mem_toList_iff_getElem?_eq_some, ExtTreeMap.getElem?_empty] at hmem
  cases hmem

@[simp] theorem gather_empty : gather f (∅ : ExtTreeMap κ M cmp) = 0 := by
  rw [gather, toList_empty]
  rfl

theorem gather_insert (map : ExtTreeMap κ M cmp) (k : κ) (m : M) :
    gather f (map.insert k (map.getD k 0 + m)) = gather f map + f k m := by
  let others := ((map.toList.filter fun entry => entry.1 ≠ k).map fun entry => f entry.1 entry.2).sum
  have hinsert : gather f (map.insert k (map.getD k 0 + m)) = f k (map.getD k 0 + m) + others := by
    have hperm := (toList_insert_perm map k (map.getD k 0 + m)).map fun entry : κ × M =>
      f entry.1 entry.2
    exact hperm.sum_eq
  have hmap : gather f map = f k (map.getD k 0) + others := by
    cases hk : map[k]? with
    | none =>
      have hzero : map.getD k 0 = 0 := by
        rw [ExtTreeMap.getD_eq_getD_getElem?, hk, Option.getD_none]
      have hothers : others = gather f map := by
        simp only [others]
        rw [filter_ne_of_getElem?_none hk]
        rfl
      rw [hzero, map_zero, zero_add, hothers]
    | some v =>
      have hv : map.getD k 0 = v := by
        rw [ExtTreeMap.getD_eq_getD_getElem?, hk, Option.getD_some]
      have hperm := (toList_perm_of_getElem? hk).map fun entry : κ × M => f entry.1 entry.2
      rw [hv]
      exact hperm.sum_eq
  rw [hinsert, hmap, map_add]
  abel

/-- What was added entry by entry. -/
theorem gather_foldl (entries : List (κ × M)) (map : ExtTreeMap κ M cmp) :
    gather f (entries.foldl (fun map entry => map.insert entry.1 (map.getD entry.1 0 + entry.2)) map) =
      gather f map + (entries.map fun entry => f entry.1 entry.2).sum := by
  induction entries generalizing map with
  | nil => rw [List.foldl_nil, List.map_nil, List.sum_nil, add_zero]
  | cons entry rest ih =>
    rw [List.foldl_cons, ih, gather_insert, List.map_cons, List.sum_cons, add_assoc]

end Gather

/-- A sum over some of the keys counts the others as nothing. -/
theorem total_eq_gather (p : κ → Bool) (map : ExtTreeMap κ M cmp) :
    total p map = gather (fun k => if p k then AddMonoidHom.id M else 0) map := by
  rw [total, gather]
  induction map.toList with
  | nil => rfl
  | cons entry rest ih =>
    rw [List.filter_cons, List.map_cons, List.sum_cons, ← ih]
    cases p entry.1 with
    | true => rw [if_pos rfl, if_pos rfl, List.map_cons, List.sum_cons, AddMonoidHom.id_apply]
    | false =>
      rw [if_neg Bool.false_ne_true, if_neg Bool.false_ne_true, AddMonoidHom.zero_apply, zero_add]

@[simp] theorem total_empty (p : κ → Bool) : total p (∅ : ExtTreeMap κ M cmp) = 0 := by
  rw [total_eq_gather, gather_empty]

/-- Adding to an entry adds to the sums that count its key. -/
theorem total_insert (p : κ → Bool) (map : ExtTreeMap κ M cmp) (k : κ) (m : M) :
    total p (map.insert k (map.getD k 0 + m)) = total p map + if p k then m else 0 := by
  rw [total_eq_gather, total_eq_gather, gather_insert]
  cases p k with
  | true => rw [if_pos rfl, if_pos rfl, AddMonoidHom.id_apply]
  | false => rw [if_neg Bool.false_ne_true, if_neg Bool.false_ne_true, AddMonoidHom.zero_apply]

/-- The sum of one key is its entry. -/
theorem total_key (map : ExtTreeMap κ M cmp) (k : κ) :
    total (fun key => decide (key = k)) map = map.getD k 0 := by
  rw [ExtTreeMap.getD_eq_getD_getElem?]
  have hothers : listTotal (fun key => decide (key = k))
      (map.toList.filter fun entry => entry.1 ≠ k) = 0 := by
    rw [listTotal, List.filter_filter]
    have hnil : map.toList.filter (fun entry => decide (entry.1 = k) && decide (entry.1 ≠ k)) = [] := by
      rw [List.filter_eq_nil_iff]
      intro entry _ hboth
      rw [Bool.and_eq_true, decide_eq_true_eq, decide_eq_true_eq] at hboth
      exact hboth.2 hboth.1
    rw [hnil]
    rfl
  cases hk : map[k]? with
  | none =>
    rw [filter_ne_of_getElem?_none hk] at hothers
    exact hothers
  | some v =>
    have hperm := listTotal_perm (fun key => decide (key = k)) (toList_perm_of_getElem? hk)
    rw [listTotal_cons, hothers, if_pos (decide_eq_true rfl), add_zero] at hperm
    exact hperm

/-- What was added entry by entry. -/
theorem total_foldl (p : κ → Bool) (entries : List (κ × M)) (map : ExtTreeMap κ M cmp) :
    total p (entries.foldl (fun map entry => map.insert entry.1 (map.getD entry.1 0 + entry.2)) map) =
      total p map + listTotal p entries := by
  induction entries generalizing map with
  | nil => rw [List.foldl_nil, listTotal_nil, add_zero]
  | cons entry rest ih => rw [List.foldl_cons, ih, total_insert, listTotal_cons, add_assoc]

/-- The keys under which something was added. -/
theorem mem_foldl (entries : List (κ × M)) (map : ExtTreeMap κ M cmp) (k : κ) :
    k ∈ entries.foldl (fun map entry => map.insert entry.1 (map.getD entry.1 0 + entry.2)) map ↔
      k ∈ map ∨ ∃ entry ∈ entries, entry.1 = k := by
  induction entries generalizing map with
  | nil =>
    rw [List.foldl_nil]
    constructor
    · exact .inl
    · rintro (h | ⟨entry, hentry, _⟩)
      · exact h
      · cases hentry
  | cons entry rest ih =>
    rw [List.foldl_cons, ih, ExtTreeMap.mem_insert, LawfulEqCmp.compare_eq_iff_eq]
    constructor
    · rintro ((h | h) | ⟨other, hother, h⟩)
      · exact .inr ⟨entry, List.mem_cons_self, h⟩
      · exact .inl h
      · exact .inr ⟨other, List.mem_cons_of_mem _ hother, h⟩
    · rintro (h | ⟨other, hother, h⟩)
      · exact .inl (.inr h)
      · rcases List.mem_cons.mp hother with rfl | hother
        · exact .inl (.inl h)
        · exact .inr ⟨other, hother, h⟩

/-- A map is its keys and their sums. -/
theorem ext_getD {map map' : ExtTreeMap κ M cmp} (hmem : ∀ k, k ∈ map ↔ k ∈ map')
    (hget : ∀ k, map.getD k 0 = map'.getD k 0) : map = map' := by
  apply ExtTreeMap.ext_getElem?
  intro k
  apply option_eq
  · rw [ExtTreeMap.isSome_getElem?_iff_mem, ExtTreeMap.isSome_getElem?_iff_mem]
    exact hmem k
  · intro v w hv hw
    have hk := hget k
    rwa [ExtTreeMap.getD_eq_getD_getElem?, ExtTreeMap.getD_eq_getD_getElem?, hv, hw] at hk

end KeyedSums
