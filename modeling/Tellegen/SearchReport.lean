import Tellegen.Exploration
import Tellegen.Sample

/-!
What a search report says about its trials. `Report` is the contract of the
finished search. `Head` is what holds each time the loop comes round, and
`BeamInv` what holds between two trials of one iteration: the trials recorded
so far, none of them accepted yet, and the winner none of them beats.

The step lemma is `trial_inv`; `trials_inv`, `settle_spec` and `iterations_inv`
carry it through the two loops, over every way of answering the checkpoints.
-/

open Binary64 Outcome
open Program (Checkpoint)

namespace Tellegen

section Search

variable {F : Type} [Binary64 F] {engine : Engine F}

/-! ### The contract -/

def AcceptedAt (trials : List (SearchTrial F)) (i : ℕ) : Prop :=
  ∃ t, trials[i]? = some t ∧ t.accepted = true

/-- `parent` is the last accepted trial below position `n`, if there is one. -/
def LastAccepted (trials : List (SearchTrial F)) (n : ℕ) : Option ℕ → Prop
  | none => ∀ i < n, ¬ AcceptedAt trials i
  | some p => p < n ∧ AcceptedAt trials p ∧ ∀ i, p < i → i < n → ¬ AcceptedAt trials i

/-- The exact result that a parent reference stands for: the start when it
names no trial. -/
def incumbent (start : Option (ExactCandidate F)) (trials : List (SearchTrial F)) :
    Option ℕ → Option (ExactCandidate F)
  | none => start
  | some p => (trials[p]?).bind (·.exact)

/-- `start` is the exact result of the starting point where that is feasible. -/
structure Report (goal : SearchGoal F) (start : Option (ExactCandidate F))
    (result : SearchResult F) : Prop where
  solve_count : result.solveCount = result.trials.length
  budget : result.solveCount ≤ goal.options.maxSolves
  feasible : ∀ t ∈ result.trials, goal.space.feasible t.changes (lit 1e-7) = true
  parent_below : ∀ (i : ℕ) (t : SearchTrial F) (p : ℕ),
    result.trials[i]? = some t → t.parentTrial = some p → p < i
  chain : ∀ (i : ℕ) (t : SearchTrial F), result.trials[i]? = some t → t.accepted = true →
    LastAccepted result.trials i t.parentTrial
  accepted_exact : ∀ t ∈ result.trials, t.accepted = true →
    ∃ exact, t.exact = some exact ∧ exact.changes = t.changes
  improves : ∀ t ∈ result.trials, t.accepted = true → ∀ exact parent,
    t.exact = some exact → incumbent start result.trials t.parentTrial = some parent →
      lt exact.value (parent.value - goal.options.minImprovement) = true
  unbeaten : ∀ t ∈ result.trials, t.accepted = true → ∀ exact, t.exact = some exact →
    ∀ u ∈ result.trials, ∀ other, u.parentTrial = t.parentTrial → u.exact = some other →
      ¬ lt other.value (exact.value - goal.options.minImprovement) = true
  best : ∃ parent, LastAccepted result.trials result.trials.length parent ∧
    result.best = incumbent start result.trials parent

/-! ### Invariants -/

/-- The loop head: the search stands at the last accepted trial, and no trial
has been tried from there yet. -/
structure Head (goal : SearchGoal F) (study : Study engine) (start : Option (ExactCandidate F))
    (search : Search engine) : Prop where
  report : Report goal start search.result
  last : LastAccepted search.result.trials search.result.trials.length search.parentTrial
  best : search.result.best = incumbent start search.result.trials search.parentTrial
  value : ∀ parent, search.result.best = some parent → search.value = parent.value
  fresh : ∀ t ∈ search.result.trials, t.parentTrial ≠ search.parentTrial
  termination : search.result.termination = "iteration_limit"
  study : search.study = study

/-- A trial of the current iteration. -/
structure Tried (goal : SearchGoal F) (search : Search engine) (t : SearchTrial F) : Prop where
  parent : t.parentTrial = search.parentTrial
  pending : t.accepted = false
  feasible : goal.space.feasible t.changes (lit 1e-7) = true
  exact : ∀ exact, t.exact = some exact → exact.changes = t.changes ∧ isFinite exact.value = true

/-- The trials of this iteration so far, and that none of them beats the
winner; while there is no winner, none of them improves on the start. -/
structure BeamInv (goal : SearchGoal F) (search : Search engine) (beam : Beam engine)
    (added : List (SearchTrial F)) : Prop where
  trials : beam.result.trials = search.result.trials ++ added
  solve_count : beam.result.solveCount = beam.result.trials.length
  budget : beam.result.solveCount ≤ goal.options.maxSolves
  best : beam.result.best = search.result.best
  termination : beam.result.termination = "iteration_limit" ∨
    beam.result.termination = "cancelled" ∨ beam.result.termination = "solve_budget"
  tried : ∀ t ∈ added, Tried goal search t
  no_winner : beam.winner = none → ∀ t ∈ added, ∀ exact, t.exact = some exact →
    search.result.best.isNone = false ∧
      ¬ lt exact.value (search.value - goal.options.minImprovement) = true
  winner : ∀ w, beam.winner = some w →
    (∃ k t exact, added[k]? = some t ∧ w.index = search.result.trials.length + k ∧
      t.exact = some exact ∧ exact.value = w.value) ∧
    (search.result.best.isNone = false →
      lt w.value (search.value - goal.options.minImprovement) = true) ∧
    ∀ t ∈ added, ∀ exact, t.exact = some exact →
      ¬ lt exact.value (w.value - goal.options.minImprovement) = true

/-! ### One trial -/

theorem evaluateCandidate_ok {goal : SearchGoal F} {current tested : Study engine}
    {candidate : List F} {exact : ExactCandidate F}
    (h : evaluateCandidate goal current candidate = (.ok exact, tested)) :
    exact.changes = candidate ∧ isFinite exact.value = true := by
  unfold evaluateCandidate at h
  split at h
  · cases h
  next after _ =>
    simp only [Prod.mk.injEq] at h
    obtain ⟨hevaluated, -⟩ := h
    simp only [ExactCandidate.capture, bind_eq_ok, pure_eq_ok] at hevaluated
    obtain ⟨value, hvalue, input, -, solution, -, view, -, rfl⟩ := hevaluated
    exact ⟨rfl, Study.objectiveValue_isFinite hvalue⟩

theorem mem_append_singleton {α : Type} {added : List α} {t u : α} :
    u ∈ added ++ [t] ↔ u ∈ added ∨ u = t := by
  simp

theorem record_failed_inv {goal : SearchGoal F} {search : Search engine} {beam : Beam engine}
    {added : List (SearchTrial F)} {t : SearchTrial F}
    (htried : Tried goal search t) (hfailed : t.exact = none)
    (hbudget : beam.result.solveCount < goal.options.maxSolves)
    (h : BeamInv goal search beam added) :
    BeamInv goal search (beam.record t beam.winner) (added ++ [t]) where
  trials := by simp [Beam.record, h.trials]
  solve_count := by simp [Beam.record, h.solve_count]
  budget := hbudget
  best := h.best
  termination := h.termination
  tried := by
    intro u hu
    rcases mem_append_singleton.mp hu with hold | rfl
    · exact h.tried u hold
    · exact htried
  no_winner := by
    intro hnone u hu exact hexact
    rcases mem_append_singleton.mp hu with hold | rfl
    · exact h.no_winner hnone u hold exact hexact
    · rw [hfailed] at hexact
      cases hexact
  winner := by
    intro w hw
    obtain ⟨⟨k, u, e, hk, hindex, he, hv⟩, himproves, hunbeaten⟩ := h.winner w hw
    refine ⟨⟨k, u, e, ?_, hindex, he, hv⟩, himproves, ?_⟩
    · rw [List.getElem?_append_left (List.getElem?_eq_some_iff.mp hk).1]
      exact hk
    · intro u hu other hother
      rcases mem_append_singleton.mp hu with hold | rfl
      · exact hunbeaten u hold other hother
      · rw [hfailed] at hother
        cases hother

theorem BeamInv.terminate {goal : SearchGoal F} {search : Search engine} {beam : Beam engine}
    {added : List (SearchTrial F)} (h : BeamInv goal search beam added) {termination : String}
    (hterm : termination = "iteration_limit" ∨ termination = "cancelled" ∨
      termination = "solve_budget") :
    BeamInv goal search { beam with result := Tellegen.terminate beam.result termination } added where
  trials := h.trials
  solve_count := h.solve_count
  budget := h.budget
  best := h.best
  termination := hterm
  tried := h.tried
  no_winner := h.no_winner
  winner := h.winner

section Lawful

variable [LawfulBinary64 F]

/-- A solved trial becomes the winner when it improves on the start and on the
winner before it. The margins then line up: no earlier trial beats it. -/
theorem record_exact_inv {goal : SearchGoal F} {search : Search engine} {beam : Beam engine}
    {added : List (SearchTrial F)} {t : SearchTrial F} {tested : Study engine}
    {exact : ExactCandidate F}
    (hfinite : isFinite goal.options.minImprovement = true)
    (hnonneg : ¬ lt goal.options.minImprovement 0 = true)
    (htried : Tried goal search t) (hexact : t.exact = some exact)
    (hbudget : beam.result.solveCount < goal.options.maxSolves)
    (h : BeamInv goal search beam added) :
    BeamInv goal search (beam.record t (nextWinner goal search beam tested exact))
      (added ++ [t]) where
  trials := by simp [Beam.record, h.trials]
  solve_count := by simp [Beam.record, h.solve_count]
  budget := hbudget
  best := h.best
  termination := h.termination
  tried := by
    intro u hu
    rcases mem_append_singleton.mp hu with hold | rfl
    · exact h.tried u hold
    · exact htried
  no_winner := by
    intro hnone u hu other hother
    change nextWinner goal search beam tested exact = none at hnone
    rw [nextWinner] at hnone
    split at hnone
    · cases hnone
    next hrefused =>
      rcases mem_append_singleton.mp hu with hold | rfl
      · exact h.no_winner hnone u hold other hother
      · rw [hexact] at hother
        cases hother
        rw [improves, hnone, h.best] at hrefused
        simpa [beats, ← Option.isNone_iff_eq_none] using hrefused
  winner := by
    intro w hw
    have hvalue : isFinite exact.value = true := (htried.exact exact hexact).2
    change nextWinner goal search beam tested exact = some w at hw
    rw [nextWinner] at hw
    split at hw
    next hwins =>
      cases hw
      rw [improves, Bool.and_eq_true, Bool.or_eq_true, h.best] at hwins
      obtain ⟨himproves, hbeats⟩ := hwins
      refine ⟨⟨added.length, t, exact, by simp, ?_, hexact, rfl⟩, ?_, ?_⟩
      · rw [h.trials, List.length_append]
      · intro hsome
        rcases himproves with hnone | hlt
        · rw [hsome] at hnone
          cases hnone
        · exact hlt
      · intro u hu other hother
        rcases mem_append_singleton.mp hu with hold | rfl
        · cases hwinner : beam.winner with
          | none =>
            obtain ⟨hsome, hnot⟩ := h.no_winner hwinner u hold other hother
            rcases himproves with hnone | hlt
            · rw [hsome] at hnone
              cases hnone
            · exact not_lt_sub_of_lt hvalue hfinite hnonneg hlt hnot
          | some previous =>
            obtain ⟨-, -, hunbeaten⟩ := h.winner previous hwinner
            rw [hwinner] at hbeats
            exact not_lt_sub_of_lt hvalue hfinite hnonneg hbeats
              (hunbeaten u hold other hother)
        · rw [hexact] at hother
          cases hother
          exact not_lt_sub_self hvalue hfinite hnonneg
    next hrefused =>
      obtain ⟨⟨k, first, e, hk, hindex, he, hv⟩, himproves, hunbeaten⟩ := h.winner w hw
      refine ⟨⟨k, first, e, ?_, hindex, he, hv⟩, himproves, ?_⟩
      · rw [List.getElem?_append_left (List.getElem?_eq_some_iff.mp hk).1]
        exact hk
      · intro u hu other hother
        rcases mem_append_singleton.mp hu with hold | rfl
        · exact hunbeaten u hold other hother
        · rw [hexact] at hother
          cases hother
          rw [improves, hw, h.best, Bool.and_eq_true, Bool.or_eq_true, not_and_or, not_or] at hrefused
          rcases hrefused with ⟨hsome, hnot⟩ | hnot
          · -- The refused trial is not even better than the start.
            have hw_finite : isFinite w.value = true := by
              rw [← hv]
              exact ((h.tried first (List.mem_of_getElem? hk)).exact e he).2
            exact not_lt_sub_of_lt hw_finite hfinite hnonneg
              (himproves (Bool.eq_false_iff.mpr hsome)) hnot
          · exact hnot

theorem trial_inv {goal : SearchGoal F} {search : Search engine} {beam : Beam engine}
    {added : List (SearchTrial F)} {candidate : List F} (iteration : ℕ) (gradient : List F)
    (hfinite : isFinite goal.options.minImprovement = true)
    (hnonneg : ¬ lt goal.options.minImprovement 0 = true)
    (hfeasible : goal.space.feasible candidate (lit 1e-7) = true)
    (hbudget : beam.result.solveCount < goal.options.maxSolves)
    (h : BeamInv goal search beam added) :
    ∃ t, BeamInv goal search (trial goal search iteration gradient beam candidate)
      (added ++ [t]) := by
  unfold trial
  rcases hrun : evaluateCandidate goal search.current candidate with ⟨message | exact, tested⟩
  · have htried : Tried goal search
        { blankTrial search iteration gradient candidate with failure := some message } :=
      ⟨rfl, rfl, hfeasible, by simp [blankTrial]⟩
    exact ⟨_, record_failed_inv htried rfl hbudget h⟩
  · have htried : Tried goal search
        (exactTrial search (blankTrial search iteration gradient candidate) tested exact) := by
      refine ⟨rfl, rfl, hfeasible, ?_⟩
      rintro other hother
      cases hother
      exact evaluateCandidate_ok hrun
    exact ⟨_, record_exact_inv hfinite hnonneg htried rfl hbudget h⟩

theorem trials_inv {goal : SearchGoal F} {search : Search engine} {iteration : ℕ}
    {gradient : List F}
    (hfinite : isFinite goal.options.minImprovement = true)
    (hnonneg : ¬ lt goal.options.minImprovement 0 = true)
    (candidates : List (List F))
    (hfeasible : ∀ c ∈ candidates, goal.space.feasible c (lit 1e-7) = true)
    (beam : Beam engine) (added : List (SearchTrial F)) (h : BeamInv goal search beam added) :
    (trials goal search iteration gradient candidates beam).All
      fun beam => ∃ added, BeamInv goal search beam added := by
  induction candidates generalizing beam added with
  | nil => exact ⟨added, h⟩
  | cons candidate rest ih =>
    rw [trials, Checkpoint.all_bind, Checkpoint.all_cancelled]
    rintro (_ | _)
    · by_cases hspent : beam.result.solveCount ≥ goal.options.maxSolves
      · simp only [hspent, if_true]
        exact ⟨added, h.terminate (.inr (.inr rfl))⟩
      · simp only [hspent, if_false]
        obtain ⟨t, ht⟩ := trial_inv iteration gradient hfinite hnonneg
          (hfeasible candidate (by simp)) (Nat.lt_of_not_ge hspent) h
        exact ih (fun c hc => hfeasible c (by simp [hc])) _ _ ht
    · exact ⟨added, h.terminate (.inr (.inl rfl))⟩

end Lawful

/-! ### One iteration -/

omit [Binary64 F] in
theorem acceptedAt_append_left {old added : List (SearchTrial F)} {i : ℕ} (h : i < old.length) :
    AcceptedAt (old ++ added) i ↔ AcceptedAt old i := by
  unfold AcceptedAt
  rw [List.getElem?_append_left h]

omit [Binary64 F] in
theorem lastAccepted_append_left {old added : List (SearchTrial F)} {n : ℕ} {parent : Option ℕ}
    (hn : n ≤ old.length) (h : LastAccepted old n parent) :
    LastAccepted (old ++ added) n parent := by
  cases parent with
  | none =>
    intro i hi
    rw [acceptedAt_append_left (by omega)]
    exact h i hi
  | some p =>
    obtain ⟨hp, haccepted, hnone⟩ := h
    refine ⟨hp, (acceptedAt_append_left (by omega)).mpr haccepted, ?_⟩
    intro i hpi hi
    rw [acceptedAt_append_left (by omega)]
    exact hnone i hpi hi

omit [Binary64 F] in
theorem lastAccepted_extend {trials : List (SearchTrial F)} {m n : ℕ} {parent : Option ℕ}
    (hmn : m ≤ n) (h : LastAccepted trials m parent)
    (hnone : ∀ i, m ≤ i → i < n → ¬ AcceptedAt trials i) : LastAccepted trials n parent := by
  cases parent with
  | none =>
    intro i hi
    by_cases him : i < m
    · exact h i him
    · exact hnone i (by omega) hi
  | some p =>
    obtain ⟨hp, haccepted, hbetween⟩ := h
    refine ⟨by omega, haccepted, fun i hpi hi => ?_⟩
    by_cases him : i < m
    · exact hbetween i hpi him
    · exact hnone i (by omega) hi

omit [Binary64 F] in
theorem incumbent_append {start : Option (ExactCandidate F)} {old added : List (SearchTrial F)}
    {parent : Option ℕ} (h : ∀ p, parent = some p → p < old.length) :
    incumbent start (old ++ added) parent = incumbent start old parent := by
  cases parent with
  | none => rfl
  | some p => rw [incumbent, incumbent, List.getElem?_append_left (h p rfl)]

/-- The trials one iteration leaves behind, with at most one of them, at
`chosen`, accepted. -/
structure Step (goal : SearchGoal F) (search : Search engine) (added : List (SearchTrial F))
    (chosen : Option ℕ) : Prop where
  parent : ∀ t ∈ added, t.parentTrial = search.parentTrial
  feasible : ∀ t ∈ added, goal.space.feasible t.changes (lit 1e-7) = true
  accepted : ∀ (k : ℕ) (t : SearchTrial F),
    added[k]? = some t → t.accepted = true → chosen = some k
  chosen : ∀ k, chosen = some k → ∃ t exact, added[k]? = some t ∧ t.accepted = true ∧
    t.exact = some exact ∧ exact.changes = t.changes ∧
    (∀ best, search.result.best = some best →
      lt exact.value (best.value - goal.options.minImprovement) = true) ∧
    ∀ u ∈ added, ∀ other, u.exact = some other →
      ¬ lt other.value (exact.value - goal.options.minImprovement) = true

/-- Where the search stands after the step. -/
def Step.next (search : Search engine) : Option ℕ → Option ℕ
  | none => search.parentTrial
  | some k => some (search.result.trials.length + k)

section Step

variable {goal : SearchGoal F} {study : Study engine} {start : Option (ExactCandidate F)}
  {search : Search engine} {added : List (SearchTrial F)} {chosen : Option ℕ}

theorem Step.of_accepted (h : Step goal search added chosen) {k : ℕ} {t : SearchTrial F}
    (hk : added[k]? = some t) (haccepted : t.accepted = true) :
    ∃ exact, t.exact = some exact ∧ exact.changes = t.changes ∧
      (∀ best, search.result.best = some best →
        lt exact.value (best.value - goal.options.minImprovement) = true) ∧
      ∀ u ∈ added, ∀ other, u.exact = some other →
        ¬ lt other.value (exact.value - goal.options.minImprovement) = true := by
  obtain ⟨u, exact, hu, -, hexact, hchanges, himproves, hunbeaten⟩ :=
    h.chosen k (h.accepted k t hk haccepted)
  rw [hk] at hu
  cases hu
  exact ⟨exact, hexact, hchanges, himproves, hunbeaten⟩

theorem Step.last (hhead : Head goal study start search) (h : Step goal search added chosen) :
    LastAccepted (search.result.trials ++ added) (search.result.trials ++ added).length
      (Step.next search chosen) := by
  rw [List.length_append]
  have hnone (i : ℕ) (hi : search.result.trials.length ≤ i)
      (haccepted : AcceptedAt (search.result.trials ++ added) i) :
      chosen = some (i - search.result.trials.length) := by
    obtain ⟨t, ht, htrue⟩ := haccepted
    rw [List.getElem?_append_right hi] at ht
    exact h.accepted _ t ht htrue
  cases chosen with
  | none =>
    refine lastAccepted_extend (Nat.le_add_right _ _)
      (lastAccepted_append_left (Nat.le_refl _) hhead.last) ?_
    intro i hi _ haccepted
    exact absurd (hnone i hi haccepted) (by simp)
  | some k =>
    obtain ⟨t, exact, ht, htrue, -⟩ := h.chosen k rfl
    have hk : k < added.length := (List.getElem?_eq_some_iff.mp ht).1
    refine ⟨Nat.add_lt_add_left hk _, ⟨t, ?_, htrue⟩, ?_⟩
    · rw [List.getElem?_append_right (by omega), Nat.add_sub_cancel_left]
      exact ht
    · intro i hki _ haccepted
      have heq := hnone i (by omega) haccepted
      simp only [Option.some.injEq] at heq
      omega

/-- One iteration keeps the contract: the new trials hang from the last
accepted one, and the margins are against its exact value. -/
theorem Step.report (hhead : Head goal study start search)
    (h : Step goal search added chosen) {result : SearchResult F}
    (htrials : result.trials = search.result.trials ++ added)
    (hcount : result.solveCount = result.trials.length)
    (hbudget : result.solveCount ≤ goal.options.maxSolves)
    (hbest : result.best = incumbent start result.trials (Step.next search chosen)) :
    Report goal start result := by
  have hreport := hhead.report
  have hstands (p : ℕ) (hp : search.parentTrial = some p) : p < search.result.trials.length := by
    have hlast := hhead.last
    rw [hp] at hlast
    exact hlast.1
  have hsplit (i : ℕ) (t : SearchTrial F) (ht : result.trials[i]? = some t) :
      search.result.trials[i]? = some t ∧ i < search.result.trials.length ∨
        ∃ k, i = search.result.trials.length + k ∧ added[k]? = some t := by
    rw [htrials] at ht
    by_cases hi : i < search.result.trials.length
    · rw [List.getElem?_append_left hi] at ht
      exact .inl ⟨ht, hi⟩
    · rw [List.getElem?_append_right (by omega)] at ht
      exact .inr ⟨_, by omega, ht⟩
  have hmem (t : SearchTrial F) (ht : t ∈ result.trials) :
      t ∈ search.result.trials ∨ ∃ k : ℕ, added[k]? = some t := by
    rw [htrials] at ht
    rcases List.mem_append.mp ht with hold | hnew
    · exact .inl hold
    · exact .inr (List.mem_iff_getElem?.mp hnew)
  have hincumbent : incumbent start result.trials search.parentTrial = search.result.best := by
    rw [htrials, incumbent_append hstands, hhead.best]
  constructor
  case solve_count => exact hcount
  case budget => exact hbudget
  case feasible =>
    intro t ht
    rcases hmem t ht with hold | ⟨k, hnew⟩
    · exact hreport.feasible t hold
    · exact h.feasible t (List.mem_of_getElem? hnew)
  case parent_below =>
    intro i t p ht hp
    rcases hsplit i t ht with ⟨hold, -⟩ | ⟨k, rfl, hnew⟩
    · exact hreport.parent_below i t p hold hp
    · rw [h.parent t (List.mem_of_getElem? hnew)] at hp
      have := hstands p hp
      omega
  case chain =>
    intro i t ht haccepted
    rcases hsplit i t ht with ⟨hold, hi⟩ | ⟨k, rfl, hnew⟩
    · rw [htrials]
      exact lastAccepted_append_left (Nat.le_of_lt hi) (hreport.chain i t hold haccepted)
    · rw [htrials, h.parent t (List.mem_of_getElem? hnew)]
      refine lastAccepted_extend (Nat.le_add_right _ k)
        (lastAccepted_append_left (Nat.le_refl _) hhead.last) ?_
      rintro i hi hik ⟨u, hu, hutrue⟩
      rw [List.getElem?_append_right hi] at hu
      have hchosen := h.accepted k t hnew haccepted
      rw [h.accepted _ u hu hutrue, Option.some.injEq] at hchosen
      omega
  case accepted_exact =>
    intro t ht haccepted
    rcases hmem t ht with hold | ⟨k, hnew⟩
    · exact hreport.accepted_exact t hold haccepted
    · obtain ⟨exact, hexact, hchanges, -⟩ := h.of_accepted hnew haccepted
      exact ⟨exact, hexact, hchanges⟩
  case improves =>
    intro t ht haccepted exact parent hexact hparent
    rcases hmem t ht with hold | ⟨k, hnew⟩
    · obtain ⟨i, hi⟩ := List.mem_iff_getElem?.mp hold
      rw [htrials, incumbent_append] at hparent
      · exact hreport.improves t hold haccepted exact parent hexact hparent
      · intro p hp
        have := hreport.parent_below i t p hi hp
        have := (List.getElem?_eq_some_iff.mp hi).1
        omega
    · obtain ⟨other, hother, -, himproves, -⟩ := h.of_accepted hnew haccepted
      rw [hexact] at hother
      cases hother
      rw [h.parent t (List.mem_of_getElem? hnew), hincumbent] at hparent
      exact himproves parent hparent
  case unbeaten =>
    intro t ht haccepted exact hexact u hu other hsame hother
    rcases hmem t ht with hold | ⟨k, hnew⟩
    · rcases hmem u hu with huold | ⟨m, hunew⟩
      · exact hreport.unbeaten t hold haccepted exact hexact u huold other hsame hother
      · rw [h.parent u (List.mem_of_getElem? hunew)] at hsame
        exact absurd hsame.symm (hhead.fresh t hold)
    · rcases hmem u hu with huold | ⟨m, hunew⟩
      · rw [h.parent t (List.mem_of_getElem? hnew)] at hsame
        exact absurd hsame (hhead.fresh u huold)
      · obtain ⟨own, hown, -, -, hunbeaten⟩ := h.of_accepted hnew haccepted
        rw [hexact] at hown
        cases hown
        exact hunbeaten u (List.mem_of_getElem? hunew) other hother
  case best =>
    refine ⟨Step.next search chosen, ?_, hbest⟩
    rw [htrials]
    exact Step.last hhead h

/-- What an iteration leaves behind is a report, and a loop head where the
loop goes on. -/
theorem settle_spec (hhead : Head goal study start search) {beam : Beam engine}
    (hbeam : BeamInv goal search beam added) :
    Report goal start (settle search beam).1.result ∧ (settle search beam).1.study = study ∧
      ((settle search beam).2 = true → Head goal study start (settle search beam).1) := by
  cases hwinner : beam.winner with
  | none =>
    have hstep : Step goal search added none := by
      refine ⟨fun t ht => (hbeam.tried t ht).parent, fun t ht => (hbeam.tried t ht).feasible,
        ?_, by simp⟩
      intro k t hk haccepted
      rw [(hbeam.tried t (List.mem_of_getElem? hk)).pending] at haccepted
      cases haccepted
    have hreport (termination : String) :
        Report goal start (terminate beam.result termination) := by
      refine Step.report hhead hstep hbeam.trials hbeam.solve_count hbeam.budget ?_
      change beam.result.best = incumbent start beam.result.trials search.parentTrial
      rw [hbeam.best, hhead.best, hbeam.trials, incumbent_append]
      intro p hp
      have hlast := hhead.last
      rw [hp] at hlast
      exact hlast.1
    unfold settle
    rw [hwinner]
    by_cases hlimit : beam.result.termination = "iteration_limit"
    · simp only [hlimit, if_true]
      exact ⟨hreport _, hhead.study, by simp⟩
    · simp only [hlimit, if_false]
      refine ⟨hreport beam.result.termination, hhead.study, ?_⟩
      rcases hbeam.termination with h | h | h
      · exact absurd h hlimit
      · simp [h]
      · simp [h]
  | some w =>
    obtain ⟨⟨k, t, exact, hk, hindex, hexact, hvalue⟩, himproves, hunbeaten⟩ :=
      hbeam.winner w hwinner
    have hmodified : beam.result.trials.modify w.index (fun t => { t with accepted := true }) =
        search.result.trials ++ added.modify k (fun t => { t with accepted := true }) := by
      rw [hbeam.trials, hindex]
      exact List.modifyTailIdx_add _ k search.result.trials added
    have hentry : (added.modify k fun t => { t with accepted := true })[k]? =
        some { t with accepted := true } := by
      simp [hk]
    have hpreserved (u : SearchTrial F)
        (hu : u ∈ added.modify k fun t => { t with accepted := true }) :
        ∃ original ∈ added, u = original ∨ u = { original with accepted := true } := by
      obtain ⟨j, hj⟩ := List.mem_iff_getElem?.mp hu
      rw [List.getElem?_modify, Option.map_eq_map, Option.map_eq_some_iff] at hj
      obtain ⟨original, horiginal, rfl⟩ := hj
      refine ⟨original, List.mem_of_getElem? horiginal, ?_⟩
      split
      · exact .inr rfl
      · exact .inl rfl
    have hstep : Step goal search (added.modify k fun t => { t with accepted := true })
        (some k) := by
      constructor
      case parent =>
        intro u hu
        obtain ⟨original, horiginal, h | h⟩ := hpreserved u hu <;>
        · rw [h]
          exact (hbeam.tried original horiginal).parent
      case feasible =>
        intro u hu
        obtain ⟨original, horiginal, h | h⟩ := hpreserved u hu <;>
        · rw [h]
          exact (hbeam.tried original horiginal).feasible
      case accepted =>
        intro j u hj haccepted
        rw [List.getElem?_modify, Option.map_eq_map, Option.map_eq_some_iff] at hj
        obtain ⟨original, horiginal, rfl⟩ := hj
        by_cases hkj : k = j
        · rw [hkj]
        · simp only [hkj, if_false] at haccepted
          rw [(hbeam.tried original (List.mem_of_getElem? horiginal)).pending] at haccepted
          cases haccepted
      case chosen =>
        rintro j hj
        cases hj
        refine ⟨_, exact, hentry, rfl, hexact, ?_, ?_, ?_⟩
        · exact ((hbeam.tried t (List.mem_of_getElem? hk)).exact exact hexact).1
        · intro best hbest
          rw [hvalue, ← hhead.value best hbest]
          exact himproves (by rw [hbest]; rfl)
        · intro u hu other hother
          obtain ⟨original, horiginal, h | h⟩ := hpreserved u hu <;>
          · rw [h] at hother
            rw [hvalue]
            exact hunbeaten original horiginal other hother
    have hresult : (accept search beam w).result.trials =
        search.result.trials ++ added.modify k (fun t => { t with accepted := true }) := hmodified
    have hbest : (accept search beam w).result.best =
        incumbent start (accept search beam w).result.trials (Step.next search (some k)) := by
      rw [Step.next, ← hindex]
      rfl
    have hlast := Step.last hhead hstep
    rw [← hresult] at hlast
    have hreport : Report goal start (accept search beam w).result := by
      refine Step.report hhead hstep hresult ?_ hbeam.budget hbest
      change beam.result.solveCount = (beam.result.trials.modify w.index _).length
      rw [List.length_modify]
      exact hbeam.solve_count
    unfold settle
    rw [hwinner]
    refine ⟨hreport, hhead.study, fun hcontinues => ?_⟩
    have hparent : (accept search beam w).parentTrial = Step.next search (some k) := by
      rw [Step.next, ← hindex]
      rfl
    constructor
    case report => exact hreport
    case last =>
      rw [hparent]
      exact hlast
    case best =>
      rw [hparent]
      exact hbest
    case value =>
      intro parent hfound
      change w.value = parent.value
      rw [hbest, hresult, Step.next, incumbent, List.getElem?_append_right (by omega),
        Nat.add_sub_cancel_left, hentry] at hfound
      simp only [Option.bind_some] at hfound
      rw [hexact] at hfound
      cases hfound
      exact hvalue.symm
    case fresh =>
      intro u hu
      rw [hparent, Step.next]
      intro hsame
      obtain ⟨i, hi⟩ := List.mem_iff_getElem?.mp hu
      rw [hresult] at hu
      rcases List.mem_append.mp hu with hold | hnew
      · obtain ⟨j, hj⟩ := List.mem_iff_getElem?.mp hold
        have := hhead.report.parent_below j u _ hj hsame
        have := (List.getElem?_eq_some_iff.mp hj).1
        omega
      · rw [hstep.parent u hnew] at hsame
        have hstands := hhead.last
        rw [hsame] at hstands
        have := hstands.1
        omega
    case termination =>
      change beam.result.termination = "iteration_limit"
      change (beam.result.termination ≠ "cancelled" &&
        beam.result.termination ≠ "solve_budget" : Bool) = true at hcontinues
      rcases hbeam.termination with h | h | h
      · exact h
      · simp [h] at hcontinues
      · simp [h] at hcontinues
    case study => exact hhead.study

end Step

/-! ### The whole search -/

theorem candidateMoves_feasible [DecidableEq F] {goal : SearchGoal F} {search : Search engine}
    {gradient c : List F} (h : c ∈ candidateMoves goal search gradient) :
    goal.space.feasible c (lit 1e-7) = true := by
  unfold candidateMoves sortBy at h
  have hperm := List.perm_insertionSort (fun a b =>
    ((totalCmp (prediction search.value gradient search.changes a)
      (prediction search.value gradient search.changes b)).then
        ((partialCmpList a b).getD .eq)).isLE = true)
    ((feasibleMoves goal.space search.changes gradient search.result.best.isNone).filter
      fun x => changeKey x ∉ search.visited)
  have hmem := (List.mem_filter.mp (hperm.mem_iff.mp h)).1
  exact (List.mem_filter.mp hmem).2

theorem Head.stop {goal : SearchGoal F} {study : Study engine}
    {start : Option (ExactCandidate F)} {search : Search engine}
    (h : Head goal study start search) (termination : String) :
    Report goal start (Tellegen.stop search termination).result ∧
      (Tellegen.stop search termination).study = study :=
  ⟨{ solve_count := h.report.solve_count
     budget := h.report.budget
     feasible := h.report.feasible
     parent_below := h.report.parent_below
     chain := h.report.chain
     accepted_exact := h.report.accepted_exact
     improves := h.report.improves
     unbeaten := h.report.unbeaten
     best := h.report.best }, h.study⟩

theorem Head.withDirection {goal : SearchGoal F} {study : Study engine}
    {start : Option (ExactCandidate F)} {search : Search engine}
    (h : Head goal study start search) (direction : ObjectiveResult F) :
    Head goal study start { search with result :=
      { search.result with directions := search.result.directions ++ [direction] } } where
  report :=
    { solve_count := h.report.solve_count
      budget := h.report.budget
      feasible := h.report.feasible
      parent_below := h.report.parent_below
      chain := h.report.chain
      accepted_exact := h.report.accepted_exact
      improves := h.report.improves
      unbeaten := h.report.unbeaten
      best := h.report.best }
  last := h.last
  best := h.best
  value := h.value
  fresh := h.fresh
  termination := h.termination
  study := h.study

theorem Head.blank {goal : SearchGoal F} {study : Study engine}
    {start : Option (ExactCandidate F)} {search : Search engine}
    (h : Head goal study start search) :
    BeamInv goal search
      { result := search.result, visited := search.visited, winner := none } [] where
  trials := (List.append_nil _).symm
  solve_count := h.report.solve_count
  budget := h.report.budget
  best := rfl
  termination := .inl h.termination
  tried := by simp
  no_winner := by simp
  winner := by simp

theorem iterations_inv [LawfulBinary64 F] [DecidableEq F] {goal : SearchGoal F}
    {study : Study engine} {start : Option (ExactCandidate F)}
    (hfinite : isFinite goal.options.minImprovement = true)
    (hnonneg : ¬ lt goal.options.minImprovement 0 = true)
    (remaining : ℕ) (search : Search engine) (h : Head goal study start search) :
    (iterations goal remaining search).All
      fun search => Report goal start search.result ∧ search.study = study := by
  induction remaining generalizing search with
  | zero => exact ⟨h.report, h.study⟩
  | succ remaining ih =>
    rw [iterations, Checkpoint.all_bind, Checkpoint.all_cancelled]
    rintro (_ | _)
    · by_cases hspent : search.result.solveCount ≥ goal.options.maxSolves
      · simp only [hspent, if_true]
        exact h.stop _
      simp only [hspent, if_false]
      cases hdirection : search.current.objectiveGradient goal.objective goal.space
          search.changes with
      | error message => exact h.stop _
      | ok direction =>
        have hnext := h.withDirection direction
        simp only [Bool.false_eq_true, if_false]
        split
        · exact hnext.stop _
        · rw [Checkpoint.all_bind]
          refine (trials_inv hfinite hnonneg _ ?_ _ [] hnext.blank).mono ?_
          · intro c hc
            exact candidateMoves_feasible (List.mem_of_mem_take hc)
          · rintro beam ⟨added, hbeam⟩
            obtain ⟨hreport, hstudy, hhead⟩ := settle_spec hnext hbeam
            split
            next hcontinues => exact ih _ (hhead hcontinues)
            next => exact ⟨hreport, hstudy⟩
    · exact h.stop _

/-- What the search starts from: the objective at the starting point, and its
exact result when the starting changes are feasible. -/
structure Starts (study : Study engine) (goal : SearchGoal F) (startChanges : List F)
    (baseline : F) (start : Option (ExactCandidate F)) : Prop where
  value : study.objectiveValue goal.objective goal.space startChanges = .ok baseline
  feasible : goal.space.feasible startChanges (lit 1e-7) = true →
    ∃ exact, start = some exact ∧ exact.value = baseline ∧
      ExactCandidate.capture study startChanges baseline = .ok exact
  infeasible : goal.space.feasible startChanges (lit 1e-7) = false → start = none

theorem ExactCandidate.capture_value {study : Study engine} {changes : List F} {value : F}
    {exact : ExactCandidate F} (h : ExactCandidate.capture study changes value = .ok exact) :
    exact.value = value := by
  unfold ExactCandidate.capture at h
  simp only [bind_eq_ok, pure_eq_ok] at h
  obtain ⟨_, -, _, -, _, -, rfl⟩ := h
  rfl

theorem startCandidate_spec {study : Study engine} {goal : SearchGoal F} {startChanges : List F}
    {baseline : F} {start : Option (ExactCandidate F)}
    (hvalue : study.objectiveValue goal.objective goal.space startChanges = .ok baseline)
    (h : startCandidate study goal startChanges baseline = .ok start) :
    Starts study goal startChanges baseline start := by
  unfold startCandidate at h
  by_cases hfeasible : goal.space.feasible startChanges (lit 1e-7) = true
  · rw [if_pos hfeasible] at h
    cases hcapture : ExactCandidate.capture study.fork startChanges baseline with
    | error message => simp [hcapture, Functor.map, Except.map] at h
    | ok exact =>
      simp only [hcapture, Functor.map, Except.map, Except.ok.injEq] at h
      refine ⟨hvalue, fun _ => ?_, fun hnot => ?_⟩
      · exact ⟨exact, h.symm, ExactCandidate.capture_value hcapture, hcapture⟩
      · rw [hfeasible] at hnot
        cases hnot
  · rw [if_neg hfeasible] at h
    cases h
    exact ⟨hvalue, fun h => absurd h hfeasible, fun _ => rfl⟩

theorem SearchOptions.validate_ok {options : SearchOptions F} (h : options.validate = .ok ()) :
    isFinite options.minImprovement = true ∧ ¬ lt options.minImprovement 0 = true := by
  unfold validate at h
  split at h
  · cases h
  next hbad =>
    simp only [not_or, Bool.not_eq_true', Bool.not_eq_false] at hbad
    exact ⟨hbad.2.2.2.2.1, hbad.2.2.2.2.2⟩

theorem openSearch_head [DecidableEq F] {study : Study engine} {goal : SearchGoal F}
    {startChanges : List F} {search : Search engine}
    (h : openSearch study goal startChanges = .ok search) :
    isFinite goal.options.minImprovement = true ∧ ¬ lt goal.options.minImprovement 0 = true ∧
      ∃ baseline start, Starts study goal startChanges baseline start ∧
        Head goal study start search := by
  unfold openSearch at h
  simp only [bind_eq_ok, error_bind, ite_error_eq_ok, pure_eq_ok] at h
  obtain ⟨_, -, _, -, _, hoptions, -, _, -, baseline, hbaseline, start, hstart, rfl⟩ := h
  obtain ⟨hfinite, hnonneg⟩ := SearchOptions.validate_ok hoptions
  have hstarts := startCandidate_spec hbaseline hstart
  refine ⟨hfinite, hnonneg, baseline, start, hstarts, ?_⟩
  constructor
  case report =>
    exact
      { solve_count := rfl
        budget := Nat.zero_le _
        feasible := by simp
        parent_below := by simp
        chain := by simp
        accepted_exact := by simp
        improves := by simp
        unbeaten := by simp
        best := ⟨none, by simp [LastAccepted], rfl⟩ }
  case last => simp [LastAccepted]
  case best => rfl
  case value =>
    intro parent hparent
    change start = some parent at hparent
    cases hfeasible : goal.space.feasible startChanges (lit 1e-7) with
    | true =>
      obtain ⟨exact, hexact, hvalue, -⟩ := hstarts.feasible hfeasible
      rw [hexact] at hparent
      cases hparent
      exact hvalue.symm
    | false =>
      rw [hstarts.infeasible hfeasible] at hparent
      cases hparent
  case fresh => simp
  case termination => rfl
  case study => rfl

/-- What a search returns and the session it leaves. -/
def Reports [DecidableEq F] (goal : SearchGoal F) (startChanges : List F) (study : Study engine) :
    Result (SearchResult F) × Study engine → Prop
  | (.ok report, left) => left = study ∧
      ∃ baseline start, Starts study goal startChanges baseline start ∧ Report goal start report
  | (.error failure, left) => left = study ∧
      ∃ message, failure = .error message ∧ openSearch study goal startChanges = .error message

/-- Every way of answering the checkpoints gives a report that keeps the
contract, unless a check of the request refused it; the session searched from
is unchanged either way. -/
theorem exploreAsync_report [LawfulBinary64 F] [DecidableEq F] (goal : SearchGoal F)
    (startChanges : List F) (study : Study engine) (answers : ℕ → Bool) :
    Reports goal startChanges study ((exploreAsync goal startChanges study).run answers) := by
  have hall : (exploreAsync goal startChanges study).All (Reports goal startChanges study) := by
    unfold exploreAsync
    cases hopen : openSearch study goal startChanges with
    | error message => exact ⟨rfl, message, rfl, hopen⟩
    | ok search =>
      obtain ⟨hfinite, hnonneg, baseline, start, hstarts, hhead⟩ := openSearch_head hopen
      rw [Checkpoint.all_bind]
      refine (iterations_inv hfinite hnonneg _ search hhead).mono ?_
      rintro last ⟨hreport, hstudy⟩
      exact ⟨hstudy, baseline, start, hstarts, hreport⟩
  exact hall.run answers

end Search

/-! ### On the sample engine -/

namespace Sample

/-- Place 5 MW on the only bus; its price is the objective. -/
def placement : SearchGoal ℚ :=
  { objective := .weightedObservable (.price .active) [{ element := .id 1, weight := 1 }]
    space :=
      { vars := [{ id := "d1", element := .id 1, intervention := .activeDemand, lower := 0
                   upper := 10, increment := 1, budgetWeight := 1 }]
        totalBudget := 10, maxChangedElements := 1, demand := some (.placement 5) }
    options := { maxSolves := 4, beamWidth := 2, maxIterations := 2, minImprovement := 0 } }

def explored : Except String (SearchResult ℚ) :=
  match Study.new engine (caseText (oneBus 1 10)) .dcOpf with
  | .error message => .error message
  | .ok study =>
    match ((exploreAsync placement [0] study).run fun _ => false).1 with
    | .ok report => .ok report
    | .error _ => .error "refused"

/-- A trial accepted from the start that does not improve on it. -/
def worsens (report : SearchResult ℚ) (t : SearchTrial ℚ) : Bool :=
  t.accepted && t.parentTrial.isNone &&
    t.exact.any fun exact => !lt exact.value (report.baselineValue - placement.options.minImprovement)

/-- The start leaves the placement unmet, so the first exact result is
accepted although it is worse than the start. -/
theorem placement_accepts_worse_than_start :
    ∃ (study : Study engine) (report : SearchResult ℚ) (t : SearchTrial ℚ),
      Study.new engine (caseText (oneBus 1 10)) .dcOpf = .ok study ∧
        ((exploreAsync placement [0] study).run fun _ => false).1 = .ok report ∧
        t ∈ report.trials ∧ t.accepted = true ∧ t.parentTrial = none ∧
        ∃ exact, t.exact = some exact ∧
          ¬ lt exact.value (report.baselineValue - placement.options.minImprovement) = true := by
  have hrun : (match explored with
      | .ok report => report.trials.any (worsens report)
      | .error _ => false) = true := by decide +kernel
  unfold explored at hrun
  cases hstudy : Study.new engine (caseText (oneBus 1 10)) .dcOpf with
  | error message => simp [hstudy] at hrun
  | ok study =>
    rw [hstudy] at hrun
    cases hreport : ((exploreAsync placement [0] study).run fun _ => false).1 with
    | error failure => simp [hreport] at hrun
    | ok report =>
      simp only [hreport, List.any_eq_true, worsens, Bool.and_eq_true,
        Option.isNone_iff_eq_none, Option.any_eq_true, Bool.not_eq_true'] at hrun
      obtain ⟨t, ht, ⟨haccepted, hparent⟩, exact, hexact, hworse⟩ := hrun
      exact ⟨study, report, t, rfl, hreport, ht, haccepted, hparent, exact, hexact,
        by simp [hworse]⟩

theorem exploreAsync_report_oneBus :
    ∃ study : Study engine, Study.new engine (caseText (oneBus 1 10)) .dcOpf = .ok study ∧
      Reports placement [0] study ((exploreAsync placement [0] study).run fun _ => false) := by
  obtain ⟨study, hstudy⟩ := exists_ok
    (x := Study.new engine (caseText (oneBus 1 10)) .dcOpf) (by decide +kernel)
  exact ⟨study, hstudy, exploreAsync_report placement [0] study fun _ => false⟩

end Sample

end Tellegen
