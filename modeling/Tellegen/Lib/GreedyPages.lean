import Mathlib.Data.List.Basic

/-!
Pages that are filled greedily. A page takes row after row for as long as the rows
with the next one fit; a reader follows the position after each page until it is
the end. A test of a page sees that position, which the page then carries.
-/

namespace GreedyPages

variable {α : Type} (fits : ℕ → List α → Bool)

/-- Rows are added to `selected` until one does not fit. -/
def fill (offset : ℕ) : List α → List α → List α
  | selected, [] => selected
  | selected, row :: rest =>
    if fits (offset + selected.length + 1) (selected ++ [row]) then
      fill offset (selected ++ [row]) rest
    else selected

def page (rows : List α) (offset limit : ℕ) : List α :=
  fill fits offset [] ((rows.drop offset).take limit)

/-- The position after a page, unless it is the end. -/
def next (rows : List α) (offset limit : ℕ) : Option ℕ :=
  let after := offset + (page fits rows offset limit).length
  if after < rows.length then some after else none

/-- The rows that a reader sees from `offset` on, if it reaches the end. -/
def walk (rows : List α) (limit : ℕ) : ℕ → ℕ → Option (List α)
  | 0, _ => none
  | fuel + 1, offset =>
    match next fits rows offset limit with
    | none => some (page fits rows offset limit)
    | some after =>
      match walk rows limit fuel after with
      | none => none
      | some visited => some (page fits rows offset limit ++ visited)

variable {fits}

/-- The rows that are taken are the first ones, and each of them fitted when it was added. -/
theorem fill_spec (fits : ℕ → List α → Bool) (offset : ℕ) (selected rows : List α) :
    ∃ taken rest, rows = taken ++ rest ∧ fill fits offset selected rows = selected ++ taken ∧
      ∀ k < taken.length,
        fits (offset + selected.length + k + 1) (selected ++ taken.take (k + 1)) := by
  induction rows generalizing selected with
  | nil => exact ⟨[], [], rfl, (List.append_nil selected).symm, fun k hk => absurd hk (Nat.not_lt_zero k)⟩
  | cons row rows ih =>
    rw [fill]
    split
    case isFalse =>
      exact ⟨[], row :: rows, rfl, (List.append_nil selected).symm,
        fun k hk => absurd hk (Nat.not_lt_zero k)⟩
    case isTrue hfits =>
      obtain ⟨taken, rest, hrows, hfill, htaken⟩ := ih (selected ++ [row])
      refine ⟨row :: taken, rest, by rw [hrows, List.cons_append], ?_, ?_⟩
      · rw [hfill, List.append_assoc, List.singleton_append]
      · intro k hk
        cases k with
        | zero => exact hfits
        | succ k =>
          have hlater := htaken k (by rw [List.length_cons] at hk; omega)
          rw [List.length_append, List.length_singleton, List.append_assoc,
            List.singleton_append] at hlater
          have hposition : offset + (selected.length + 1) + k + 1 =
              offset + selected.length + (k + 1) + 1 := by omega
          rw [hposition] at hlater
          exact hlater

/-- Rows that all fit when they are added are all taken. -/
theorem fill_all {offset : ℕ} {selected rows : List α} (h : ∀ k < rows.length,
    fits (offset + selected.length + k + 1) (selected ++ rows.take (k + 1))) :
    fill fits offset selected rows = selected ++ rows := by
  induction rows generalizing selected with
  | nil => rw [fill, List.append_nil]
  | cons row rows ih =>
    have hfirst : fits (offset + selected.length + 1) (selected ++ [row]) := h 0 (Nat.zero_lt_succ _)
    rw [fill, if_pos hfirst, ih, List.append_assoc, List.singleton_append]
    intro k hk
    have hlater := h (k + 1) (by rw [List.length_cons]; omega)
    have hposition : offset + selected.length + (k + 1) + 1 =
        offset + (selected.length + 1) + k + 1 := by omega
    rw [hposition] at hlater
    rw [List.length_append, List.length_singleton, List.append_assoc, List.singleton_append]
    exact hlater

theorem page_spec (fits : ℕ → List α → Bool) (rows : List α) (offset limit : ℕ) :
    ∃ rest, (rows.drop offset).take limit = page fits rows offset limit ++ rest ∧
      ∀ k < (page fits rows offset limit).length,
        fits (offset + k + 1) ((page fits rows offset limit).take (k + 1)) := by
  obtain ⟨taken, rest, hrows, hfill, htaken⟩ := fill_spec fits offset []
    ((rows.drop offset).take limit)
  rw [List.nil_append] at hfill
  rw [page, hfill]
  refine ⟨rest, hrows, ?_⟩
  intro k hk
  exact htaken k hk

/-- A page is what the rows from its position on begin with. -/
theorem page_append_drop (fits : ℕ → List α → Bool) (rows : List α) (offset limit : ℕ) :
    page fits rows offset limit ++ rows.drop (offset + (page fits rows offset limit).length) =
      rows.drop offset := by
  obtain ⟨rest, htake, _⟩ := page_spec fits rows offset limit
  have hsplit := List.take_append_drop limit (rows.drop offset)
  rw [htake, List.append_assoc] at hsplit
  have hdrop := congrArg (List.drop (page fits rows offset limit).length) hsplit
  rw [List.drop_left] at hdrop
  rw [← List.drop_drop, ← hdrop]
  exact hsplit

theorem offset_add_length_page_le {rows : List α} {offset : ℕ} (h : offset ≤ rows.length) (limit : ℕ) :
    offset + (page fits rows offset limit).length ≤ rows.length := by
  have hlength := congrArg List.length (page_append_drop fits rows offset limit)
  rw [List.length_append, List.length_drop, List.length_drop] at hlength
  omega

theorem length_page_le (rows : List α) (offset limit : ℕ) :
    (page fits rows offset limit).length ≤ limit := by
  obtain ⟨rest, htake, _⟩ := page_spec fits rows offset limit
  have hlength := congrArg List.length htake
  rw [List.length_append, List.length_take] at hlength
  omega

theorem fits_page {rows : List α} {offset limit : ℕ} (h : page fits rows offset limit ≠ []) :
    fits (offset + (page fits rows offset limit).length) (page fits rows offset limit) := by
  obtain ⟨_, _, hfits⟩ := page_spec fits rows offset limit
  have hpos := List.length_pos_iff.mpr h
  have hlast := hfits ((page fits rows offset limit).length - 1) (by omega)
  have hall : (page fits rows offset limit).length - 1 + 1 = (page fits rows offset limit).length := by
    omega
  rw [Nat.add_assoc, hall, List.take_length] at hlast
  exact hlast

theorem page_ne_nil {rows : List α} {offset limit : ℕ} {row : α} (hrow : rows[offset]? = some row)
    (hfits : fits (offset + 1) [row]) (hlimit : 0 < limit) : page fits rows offset limit ≠ [] := by
  have hdrop : rows.drop offset = row :: rows.drop (offset + 1) := by
    obtain ⟨hlt, hget⟩ := List.getElem?_eq_some_iff.mp hrow
    rw [List.drop_eq_getElem_cons hlt, hget]
  obtain ⟨more, rfl⟩ := Nat.exists_eq_add_of_lt hlimit
  have hfirst : fits (offset + ([] : List α).length + 1) ([] ++ [row]) := hfits
  rw [page, hdrop, Nat.zero_add, List.take_succ_cons, fill, if_pos hfirst]
  obtain ⟨taken, _, _, hfill, _⟩ := fill_spec fits offset ([] ++ [row])
    ((rows.drop (offset + 1)).take more)
  rw [hfill]
  exact List.cons_ne_nil _ _

/-- A reader that reaches the end has seen the rows from its position on, each once and in order. -/
theorem walk_eq_drop {rows visited : List α} {limit fuel offset : ℕ}
    (h : walk fits rows limit fuel offset = some visited) : visited = rows.drop offset := by
  induction fuel generalizing offset visited with
  | zero => cases h
  | succ fuel ih =>
    have hpage := page_append_drop fits rows offset limit
    rw [walk] at h
    cases hnext : next fits rows offset limit with
    | none =>
      rw [hnext] at h
      cases h
      rw [next] at hnext
      split at hnext
      case isTrue => cases hnext
      case isFalse hend =>
        rw [List.drop_eq_nil_of_le (by omega), List.append_nil] at hpage
        exact hpage
    | some after =>
      rw [hnext] at h
      rw [next] at hnext
      split at hnext
      case isFalse => cases hnext
      case isTrue =>
        cases hnext
        simp only at h
        split at h
        case h_1 => cases h
        case h_2 later hlater =>
          cases h
          rw [ih hlater]
          exact hpage

/-- A reader reaches the end when each row fits on a page of its own. -/
theorem exists_walk {rows : List α} {limit : ℕ} (hlimit : 0 < limit)
    (halone : ∀ (i : ℕ) (row : α), rows[i]? = some row → fits (i + 1) [row]) (fuel : ℕ) :
    ∀ offset ≤ rows.length, rows.length < offset + fuel →
      ∃ visited, walk fits rows limit fuel offset = some visited := by
  induction fuel with
  | zero =>
    intro offset hoffset hfuel
    omega
  | succ fuel ih =>
    intro offset hoffset hfuel
    rw [walk]
    cases hnext : next fits rows offset limit with
    | none => exact ⟨_, rfl⟩
    | some after =>
      rw [next] at hnext
      split at hnext
      case isFalse => cases hnext
      case isTrue hafter =>
        cases hnext
        have hlt : offset < rows.length := by omega
        have hrow := List.getElem?_eq_getElem hlt
        have hpos := List.length_pos_iff.mpr (page_ne_nil hrow (halone offset _ hrow) hlimit)
        obtain ⟨visited, hvisited⟩ := ih (offset + (page fits rows offset limit).length)
          (by omega) (by omega)
        exact ⟨page fits rows offset limit ++ visited, by simp only [hvisited]⟩

/-- And only then, where a row that fits after others fits alone. -/
theorem fits_alone_of_walk (hmono : ∀ position selected row,
      fits position (selected ++ [row]) → fits position [row])
    {rows visited : List α} {limit fuel offset : ℕ}
    (h : walk fits rows limit fuel offset = some visited) :
    ∀ (i : ℕ) (row : α), offset ≤ i → rows[i]? = some row → fits (i + 1) [row] := by
  induction fuel generalizing offset visited with
  | zero => cases h
  | succ fuel ih =>
    intro i row hi hrow
    obtain ⟨rest, htake, hfits⟩ := page_spec fits rows offset limit
    -- a row of this page fitted after the ones before it
    have hon : i < offset + (page fits rows offset limit).length → fits (i + 1) [row] := by
      intro hlt
      obtain ⟨k, rfl⟩ := Nat.exists_eq_add_of_le hi
      have hk : k < (page fits rows offset limit).length := by omega
      have hadded := hfits k hk
      have hget : (page fits rows offset limit)[k]? = some row := by
        have happend := page_append_drop fits rows offset limit
        rw [← List.getElem?_append_left hk, happend, List.getElem?_drop]
        exact hrow
      rw [List.take_add_one, hget, Option.toList_some] at hadded
      exact hmono _ _ _ hadded
    rw [walk] at h
    cases hnext : next fits rows offset limit with
    | none =>
      rw [next] at hnext
      split at hnext
      case isTrue => cases hnext
      case isFalse hend =>
        have hlt := (List.getElem?_eq_some_iff.mp hrow).1
        exact hon (by omega)
    | some after =>
      rw [hnext] at h
      simp only at h
      rw [next] at hnext
      split at hnext
      case isFalse => cases hnext
      case isTrue =>
        cases hnext
        split at h
        case h_1 => cases h
        case h_2 later hlater =>
          by_cases hlt : i < offset + (page fits rows offset limit).length
          · exact hon hlt
          · exact ih hlater i row (by omega) hrow

end GreedyPages
