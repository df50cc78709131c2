import Tellegen.CaseListing

/-!
Which case listings can be read to the end. A page fits when the rows it took were
measured as it is written, which the last page is not, and a reader gets past a row
when the row fits on a page of its own.
-/

open JsString

namespace Tellegen.CaseListing

/-! ### Lengths -/

theorem length_joinRows (row : JsString) (rest : List JsString) :
    (joinRows (row :: rest)).length + 1 = ((row :: rest).map fun r => r.length + 1).sum := by
  induction rest generalizing row with
  | nil => rw [joinRows, List.map_singleton, List.sum_singleton]
  | cons other rest ih =>
    rw [joinRows, List.length_append, List.length_append, List.map_cons, List.sum_cons, ← ih]
    have hcomma : (js ",").length = 1 := rfl
    omega

theorem length_joinRows_le_append (rows more : List JsString) :
    (joinRows rows).length ≤ (joinRows (rows ++ more)).length := by
  cases rows with
  | nil => exact Nat.zero_le _
  | cons row rest =>
    have hleft := length_joinRows row rest
    have hright := length_joinRows row (rest ++ more)
    rw [← List.cons_append, List.map_append, List.sum_append] at hright
    omega

theorem length_joinRows_singleton_le (rows : List JsString) (row : JsString) :
    (joinRows [row]).length ≤ (joinRows (rows ++ [row])).length := by
  cases rows with
  | nil => exact le_refl _
  | cons first rest =>
    have hright := length_joinRows first (rest ++ [row])
    rw [← List.cons_append, List.map_append, List.sum_append, List.map_cons, List.sum_cons,
      List.map_singleton, List.sum_singleton] at hright
    rw [joinRows]
    omega

theorem length_ofNat_mono {m n : ℕ} (h : m ≤ n) : (ofNat m).length ≤ (ofNat n).length := by
  have hpos : 0 < (ofNat n).length := by
    rw [ofNat, List.length_map]
    exact Nat.length_toDigits_pos
  have hn : n < 10 ^ (ofNat n).length := by
    rw [ofNat, List.length_map] at hpos ⊢
    exact (Nat.length_toDigits_le_iff (by decide) hpos).mp (le_refl _)
  exact length_ofNat_le hpos (h.trans_lt hn)

/-- A page fits when its rows and its next position do, beside what every page of the case has. -/
theorem fitsBudget_iff (revision : JsString) (total : ℕ) :
    ∃ frame, ∀ (cases : List Summary) (nextOffset : Option ℕ),
      fitsBudget revision total cases nextOffset ↔
        frame + (joinRows (cases.map summaryText)).length + (nextText nextOffset).length ≤
          outputBudget := by
  refine ⟨(js "\x7b\"ok\":true,\"data\":").length + (js "\x7b\"revision\":").length +
    (quote revision).length + (js ",\"total\":").length + (ofNat total).length +
    (js ",\"cases\":[").length + (js "],\"next_offset\":").length + (js "\x7d").length +
    (js "\x7d").length, ?_⟩
  intro cases nextOffset
  rw [fitsBudget, decide_eq_true_eq]
  simp only [response, ToolResponse.serialize, ResponseData.json, Option.map_some, Option.getD_some,
    List.length_append]
  omega

theorem withinBudget_eq_iff (revision : JsString) (total : ℕ) (cases : List Summary)
    (nextOffset : Option ℕ) :
    withinBudget (response revision total cases nextOffset) outputBudget =
        response revision total cases nextOffset ↔
      fitsBudget revision total cases nextOffset := by
  rw [fitsBudget, decide_eq_true_eq]
  simp only [withinBudget, response, ToolResponse.serialize, ResponseData.json, Option.map_some,
    Option.getD_some]
  split
  case isTrue hshort => exact iff_of_true rfl hshort
  case isFalse hlong => exact iff_of_false (fun h => by cases h) hlong

section

variable {app : Cases}

theorem candidateFits_alone {position : ℕ} {selected : List Summary} {row : Summary}
    (h : candidateFits app position (selected ++ [row])) : candidateFits app position [row] := by
  obtain ⟨frame, hframe⟩ := fitsBudget_iff app.revision app.rows.length
  rw [candidateFits, hframe] at *
  have hle := length_joinRows_singleton_le (selected.map summaryText) (summaryText row)
  rw [List.map_append, List.map_singleton] at h
  rw [List.map_singleton]
  omega

theorem candidateFits_of_append {position later : ℕ} {selected more : List Summary}
    (hposition : position ≤ later) (h : candidateFits app later (selected ++ more)) :
    candidateFits app position selected := by
  obtain ⟨frame, hframe⟩ := fitsBudget_iff app.revision app.rows.length
  rw [candidateFits, hframe] at *
  have hle := length_joinRows_le_append (selected.map summaryText) (more.map summaryText)
  have hdigits := length_ofNat_mono hposition
  rw [List.map_append] at h
  simp only [nextText] at *
  omega

/-! ### Reading a listing -/

theorem follow_eq_walk (limit fuel offset : ℕ) :
    follow app limit fuel offset = GreedyPages.walk (candidateFits app) app.rows limit fuel offset := by
  induction fuel generalizing offset with
  | zero => rfl
  | succ fuel ih =>
    rw [follow, GreedyPages.walk]
    simp only [listCases]
    cases GreedyPages.next (candidateFits app) app.rows offset limit with
    | none => rfl
    | some after =>
      simp only [ih]
      cases GreedyPages.walk (candidateFits app) app.rows limit fuel after <;> rfl

end

/-- Every page is handed over as it is, and the pages from the start on show every row, each once and
in order, and end. -/
structure Readable (app : Cases) (limit : ℕ) : Prop where
  fits : ∀ offset, withinBudget ((listCases app offset limit).response app) outputBudget =
    (listCases app offset limit).response app
  covers : ∃ fuel, follow app limit fuel 0 = some app.rows

/-- Every row fits on a page of its own, and the rows up to the end that fit with the position after
them also fit with `null` in its place. -/
structure FitsRows (app : Cases) (limit : ℕ) : Prop where
  alone : ∀ (i : ℕ) (row : Summary), app.rows[i]? = some row → candidateFits app (i + 1) [row]
  last : ∀ offset < app.rows.length, app.rows.length ≤ offset + limit →
    candidateFits app app.rows.length (app.rows.drop offset) →
    fitsBudget app.revision app.rows.length (app.rows.drop offset) none
  empty : fitsBudget app.revision app.rows.length [] none

theorem next_eq_none_of_end {app : Cases} {offset limit : ℕ}
    (h : app.rows.length ≤ offset + (listCases app offset limit).cases.length) :
    (listCases app offset limit).nextOffset = none := by
  simp only [listCases, GreedyPages.next] at *
  exact if_neg (by omega)

theorem cases_eq_drop_of_end {app : Cases} {offset limit : ℕ}
    (h : app.rows.length ≤ offset + (listCases app offset limit).cases.length) :
    (listCases app offset limit).cases = app.rows.drop offset := by
  have hpage := GreedyPages.page_append_drop (candidateFits app) app.rows offset limit
  simp only [listCases] at *
  rw [List.drop_eq_nil_of_le h, List.append_nil] at hpage
  exact hpage

theorem readable_of_fitsRows {app : Cases} {limit : ℕ} (hlimit : 0 < limit)
    (h : FitsRows app limit) : Readable app limit := by
  constructor
  case fits =>
    intro offset
    rw [Page.response, withinBudget_eq_iff]
    by_cases hend : app.rows.length ≤ offset + (listCases app offset limit).cases.length
    · rw [next_eq_none_of_end hend, cases_eq_drop_of_end hend]
      by_cases hoffset : offset < app.rows.length
      · have hrow := List.getElem?_eq_getElem hoffset
        have hne := GreedyPages.page_ne_nil hrow (h.alone offset _ hrow) hlimit
        have hfits := GreedyPages.fits_page hne
        have hle : offset + (GreedyPages.page (candidateFits app) app.rows offset limit).length ≤
            app.rows.length := GreedyPages.offset_add_length_page_le hoffset.le limit
        have hlimit' : (GreedyPages.page (candidateFits app) app.rows offset limit).length ≤ limit :=
          GreedyPages.length_page_le app.rows offset limit
        change app.rows.length ≤
          offset + (GreedyPages.page (candidateFits app) app.rows offset limit).length at hend
        have hall : offset + (GreedyPages.page (candidateFits app) app.rows offset limit).length =
            app.rows.length := by omega
        rw [hall] at hfits
        have hdrop : GreedyPages.page (candidateFits app) app.rows offset limit =
            app.rows.drop offset := cases_eq_drop_of_end hend
        rw [hdrop] at hfits
        exact h.last offset hoffset (by omega) hfits
      · rw [List.drop_eq_nil_of_le (by omega)]
        exact h.empty
    · have hnext : (listCases app offset limit).nextOffset =
          some (offset + (listCases app offset limit).cases.length) := if_pos (by
            change offset + (listCases app offset limit).cases.length < app.rows.length
            omega)
      rw [hnext]
      have hoffset : offset < app.rows.length := by omega
      have hrow := List.getElem?_eq_getElem hoffset
      have hfits := GreedyPages.fits_page
        (GreedyPages.page_ne_nil hrow (h.alone offset _ hrow) hlimit)
      exact hfits
  case covers =>
    obtain ⟨visited, hvisited⟩ := GreedyPages.exists_walk hlimit h.alone (app.rows.length + 1) 0
      (Nat.zero_le _) (by omega)
    refine ⟨app.rows.length + 1, ?_⟩
    rw [follow_eq_walk, hvisited, GreedyPages.walk_eq_drop hvisited, List.drop_zero]

theorem fitsRows_of_readable {app : Cases} {limit : ℕ} (h : Readable app limit) :
    FitsRows app limit := by
  constructor
  case alone =>
    obtain ⟨fuel, hfollow⟩ := h.covers
    rw [follow_eq_walk] at hfollow
    intro i row hrow
    apply GreedyPages.fits_alone_of_walk _ hfollow i row (Nat.zero_le i) hrow
    intro position selected row hfits
    exact candidateFits_alone hfits
  case last =>
    intro offset hoffset hlimit hfits
    have htake : (app.rows.drop offset).take limit = app.rows.drop offset := by
      apply List.take_of_length_le
      rw [List.length_drop]
      omega
    have hpage : (listCases app offset limit).cases = app.rows.drop offset := by
      have hall : GreedyPages.fill (candidateFits app) offset [] (app.rows.drop offset) =
          [] ++ app.rows.drop offset := by
        apply GreedyPages.fill_all
        intro k hk
        rw [List.length_drop] at hk
        have hposition : offset + ([] : List Summary).length + k + 1 ≤ app.rows.length := by
          rw [List.length_nil]
          omega
        rw [← List.take_append_drop (k + 1) (app.rows.drop offset)] at hfits
        exact candidateFits_of_append hposition hfits
      change GreedyPages.fill (candidateFits app) offset [] ((app.rows.drop offset).take limit) = _
      rw [htake, hall, List.nil_append]
    have hend : app.rows.length ≤ offset + (listCases app offset limit).cases.length := by
      rw [hpage, List.length_drop]
      omega
    have hwithin := h.fits offset
    rw [Page.response, withinBudget_eq_iff, next_eq_none_of_end hend, hpage] at hwithin
    exact hwithin
  case empty =>
    have hend : app.rows.length ≤
        app.rows.length + (listCases app app.rows.length limit).cases.length := Nat.le_add_right _ _
    have hwithin := h.fits app.rows.length
    rw [Page.response, withinBudget_eq_iff, next_eq_none_of_end hend, cases_eq_drop_of_end hend,
      List.drop_length] at hwithin
    exact hwithin

/-- A listing can be read to the end, in pages that fit, exactly when its rows fit. The pages then hold every row
once and in order. -/
theorem readable_iff {app : Cases} {limit : ℕ} (hlimit : 0 < limit) :
    Readable app limit ↔ FitsRows app limit :=
  ⟨fitsRows_of_readable, readable_of_fitsRows hlimit⟩

/-! ### One case with a long id -/

/-- A case whose id has `n` letters. -/
def oneCase (n : ℕ) : Cases where
  revision := js "view:none"
  studyView := false
  activeCaseId := none
  activeLocalId := none
  activeMultiId := none
  cases := [{ id := List.replicate n 97, name := js "long", unavailableReason := none,
              hasNetwork := true }]
  localCases := []
  multiCases := []

theorem readable_iff_oneCase : 0 < 10 ∧ (Readable (oneCase 4) 10 ↔ FitsRows (oneCase 4) 10) :=
  ⟨by decide, readable_iff (by decide)⟩

/-- An id of 1261 letters fits with the position 1 and not with `null`; one letter more fits on no page,
and the next position stays where it is. -/
theorem not_readable_longId : ¬ Readable (oneCase 1261) 10 ∧ ¬ Readable (oneCase 1262) 10 ∧
    (listCases (oneCase 1262) 0 10).nextOffset = some 0 := by
  refine ⟨?_, ?_, by decide +kernel⟩
  · intro h
    have hnull := (fitsRows_of_readable h).last 0 (by decide) (by decide) (by decide +kernel)
    revert hnull
    decide +kernel
  · intro h
    have halone := (fitsRows_of_readable h).alone 0 _ rfl
    revert halone
    decide +kernel

end Tellegen.CaseListing
