import Mathlib.Data.List.Induction
import Mathlib.Data.List.Nodup

/-!
Grouping by a key that keeps the groups in the order in which their keys appear first. The group of
a key is the fold of the items that have it, whatever comes between them.
-/

namespace Grouping

variable {α κ σ : Type} [DecidableEq κ]

/-- The distinct keys, in the order of first appearance. -/
def firstKeys (keys : List κ) : List κ :=
  keys.foldl (fun found key => if key ∈ found then found else found ++ [key]) []

section

variable (key : α → κ) (start : σ) (step : σ → α → σ)

/-- One more item, for its group or for a new one at the end. -/
def addTo : List (κ × σ) → α → List (κ × σ)
  | [], item => [(key item, step start item)]
  | (k, state) :: rest, item =>
    if k = key item then (k, step state item) :: rest else (k, state) :: addTo rest item

def grouped (items : List α) : List (κ × σ) := items.foldl (addTo key start step) []

end

theorem firstKeys_append (keys : List κ) (key : κ) :
    firstKeys (keys ++ [key]) =
      if key ∈ firstKeys keys then firstKeys keys else firstKeys keys ++ [key] := by
  rw [firstKeys, List.foldl_append]
  rfl

@[simp] theorem mem_firstKeys {keys : List κ} {key : κ} : key ∈ firstKeys keys ↔ key ∈ keys := by
  induction keys using List.reverseRecOn with
  | nil => rfl
  | append_singleton keys last ih =>
    rw [firstKeys_append, List.mem_append, List.mem_singleton]
    split
    case isTrue hlast =>
      rw [ih]
      constructor
      · exact fun h => .inl h
      · rintro (h | rfl)
        · exact h
        · exact ih.mp hlast
    case isFalse => rw [List.mem_append, List.mem_singleton, ih]

theorem nodup_firstKeys (keys : List κ) : (firstKeys keys).Nodup := by
  induction keys using List.reverseRecOn with
  | nil => exact List.nodup_nil
  | append_singleton keys last ih =>
    rw [firstKeys_append]
    split
    case isTrue => exact ih
    case isFalse hlast =>
      rw [List.nodup_append]
      refine ⟨ih, List.nodup_singleton _, ?_⟩
      intro a ha b hb heq
      rw [List.mem_singleton] at hb
      rw [heq, hb] at ha
      exact hlast ha

/-- More keys leave the positions of the earlier ones. -/
theorem idxOf_firstKeys_of_mem {keys : List κ} {key : κ} (hkey : key ∈ keys) (more : List κ) :
    (firstKeys (keys ++ more)).idxOf key = (firstKeys keys).idxOf key := by
  induction more using List.reverseRecOn with
  | nil => rw [List.append_nil]
  | append_singleton more last ih =>
    rw [← List.append_assoc, firstKeys_append]
    split
    case isTrue => exact ih
    case isFalse =>
      rw [List.idxOf_append_of_mem (mem_firstKeys.mpr (List.mem_append_left _ hkey)), ih]

theorem idxOf_firstKeys_lt {keys : List κ} {a b : κ} (ha : a ∈ keys) (hb : b ∈ keys) :
    (firstKeys keys).idxOf a < (firstKeys keys).idxOf b ↔ keys.idxOf a < keys.idxOf b := by
  induction keys using List.reverseRecOn with
  | nil => cases ha
  | append_singleton keys last ih =>
    have hposition : ∀ c ∈ keys, (firstKeys (keys ++ [last])).idxOf c = (firstKeys keys).idxOf c ∧
        (keys ++ [last]).idxOf c = keys.idxOf c := by
      intro c hc
      refine ⟨?_, List.idxOf_append_of_mem hc⟩
      rw [firstKeys_append]
      split
      case isTrue => rfl
      case isFalse => exact List.idxOf_append_of_mem (mem_firstKeys.mpr hc)
    have hnew : ∀ c, c ∈ keys ++ [last] → c ∉ keys →
        (firstKeys (keys ++ [last])).idxOf c = (firstKeys keys).length ∧
          (keys ++ [last]).idxOf c = keys.length := by
      intro c hc hnot
      have hlast : c = last := by
        rcases List.mem_append.mp hc with h | h
        · exact absurd h hnot
        · exact List.mem_singleton.mp h
      subst hlast
      have hfirst : c ∉ firstKeys keys := fun h => hnot (mem_firstKeys.mp h)
      rw [firstKeys_append, if_neg hfirst, List.idxOf_append_of_notMem hfirst,
        List.idxOf_append_of_notMem hnot, List.idxOf_cons_self]
      exact ⟨rfl, rfl⟩
    have hbound : ∀ c ∈ keys, (firstKeys keys).idxOf c < (firstKeys keys).length ∧
        keys.idxOf c < keys.length := fun c hc =>
      ⟨List.idxOf_lt_length_of_mem (mem_firstKeys.mpr hc), List.idxOf_lt_length_of_mem hc⟩
    by_cases hak : a ∈ keys
    · by_cases hbk : b ∈ keys
      · rw [(hposition a hak).1, (hposition a hak).2, (hposition b hbk).1, (hposition b hbk).2]
        exact ih hak hbk
      · rw [(hposition a hak).1, (hposition a hak).2, (hnew b hb hbk).1, (hnew b hb hbk).2]
        exact ⟨fun _ => (hbound a hak).2, fun _ => (hbound a hak).1⟩
    · by_cases hbk : b ∈ keys
      · rw [(hnew a ha hak).1, (hnew a ha hak).2, (hposition b hbk).1, (hposition b hbk).2]
        have hbounds := hbound b hbk
        omega
      · rw [(hnew a ha hak).1, (hnew a ha hak).2, (hnew b hb hbk).1, (hnew b hb hbk).2]
        omega

variable {key : α → κ} {start : σ} {step : σ → α → σ}

theorem addTo_map {keys : List κ} (hnodup : keys.Nodup) (state : κ → σ) (item : α) :
    addTo key start step (keys.map fun k => (k, state k)) item =
      if key item ∈ keys then
        keys.map fun k => (k, if k = key item then step (state k) item else state k)
      else (keys.map fun k => (k, state k)) ++ [(key item, step start item)] := by
  induction keys with
  | nil => rfl
  | cons k rest ih =>
    obtain ⟨hk, hrest⟩ := List.nodup_cons.mp hnodup
    rw [List.map_cons, addTo]
    by_cases hsame : k = key item
    · have hothers : ∀ other ∈ rest, other ≠ key item := by
        intro other hother heq
        rw [hsame, ← heq] at hk
        exact hk hother
      rw [if_pos hsame, if_pos (List.mem_cons.mpr (.inl hsame.symm)), List.map_cons, if_pos hsame]
      congr 1
      apply List.map_congr_left
      intro other hother
      rw [if_neg (hothers other hother)]
    · have hmem : key item ∈ k :: rest ↔ key item ∈ rest := by
        rw [List.mem_cons]
        exact ⟨fun h => h.resolve_left fun heq => hsame heq.symm, .inr⟩
      rw [if_neg hsame, ih hrest]
      by_cases hin : key item ∈ rest
      · rw [if_pos hin, if_pos (hmem.mpr hin), List.map_cons, if_neg hsame]
      · rw [if_neg hin, if_neg fun h => hin (hmem.mp h), List.cons_append]

/-- Each group is the fold of its items. -/
theorem grouped_eq (items : List α) :
    grouped key start step items = (firstKeys (items.map key)).map fun k =>
      (k, (items.filter fun item => decide (key item = k)).foldl step start) := by
  induction items using List.reverseRecOn with
  | nil => rfl
  | append_singleton items last ih =>
    have hgroup : ∀ k, ((items ++ [last]).filter fun item => decide (key item = k)).foldl step start =
        if k = key last then
          step ((items.filter fun item => decide (key item = k)).foldl step start) last
        else (items.filter fun item => decide (key item = k)).foldl step start := by
      intro k
      rw [List.filter_append, List.foldl_append, List.filter_singleton]
      by_cases hk : k = key last
      · rw [if_pos hk, decide_eq_true hk.symm]
        rfl
      · rw [if_neg hk, decide_eq_false fun h => hk h.symm]
        rfl
    have hnew : key last ∉ firstKeys (items.map key) →
        items.filter (fun item => decide (key item = key last)) = [] := by
      intro hnot
      rw [List.filter_eq_nil_iff]
      intro item hitem hsame
      apply hnot
      rw [mem_firstKeys, ← of_decide_eq_true hsame]
      exact List.mem_map_of_mem hitem
    rw [grouped, List.foldl_append, List.foldl_cons, List.foldl_nil, ← grouped, ih,
      addTo_map (nodup_firstKeys _), List.map_append, List.map_singleton, firstKeys_append]
    simp only [hgroup]
    split
    case isTrue => rfl
    case isFalse hnot =>
      rw [List.map_append, List.map_singleton, if_pos rfl, hnew hnot]
      congr 1
      apply List.map_congr_left
      intro k hk
      rw [if_neg]
      rintro rfl
      exact hnot hk

end Grouping
