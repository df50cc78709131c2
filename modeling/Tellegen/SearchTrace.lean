import Tellegen.SearchReport

/-!
Which session each trial of a search was solved from, and what the best result
beats. `StandsAt` follows the parent references of the trials back to the
starting session. `Leads` compares the best exact value with every exact value
found, up to the improvement the search was asked for.

Both are carried through the loops beside the report of the search, over every
way of answering the checkpoints.
-/

open Binary64 Outcome
open Program (Checkpoint)

namespace Tellegen

section Trace

variable {F : Type} [Binary64 F] {engine : Engine F}

/-- What a trial tried, without the verdict on it. -/
structure Attempt (F : Type) where
  parent : Option ℕ
  changes : List F
  exact : Option (ExactCandidate F)

def SearchTrial.attempt (t : SearchTrial F) : Attempt F :=
  { parent := t.parentTrial, changes := t.changes, exact := t.exact }

def attempts (trials : List (SearchTrial F)) : List (Attempt F) := trials.map (·.attempt)

omit [Binary64 F] in
@[simp] theorem attempts_append (old added : List (SearchTrial F)) :
    attempts (old ++ added) = attempts old ++ attempts added := List.map_append

omit [Binary64 F] in
@[simp] theorem length_attempts (trials : List (SearchTrial F)) :
    (attempts trials).length = trials.length := List.length_map ..

omit [Binary64 F] in
@[simp] theorem attempts_accept (trials : List (SearchTrial F)) (i : ℕ) :
    attempts (trials.modify i fun t => { t with accepted := true }) = attempts trials := by
  induction trials generalizing i with
  | nil => cases i <;> rfl
  | cons t rest ih =>
    cases i with
    | zero => rfl
    | succ i => exact congrArg (t.attempt :: ·) (ih i)

/-- The exact result is what the changes evaluate to on a fork of `origin`. -/
def Attempt.SolvedFrom (goal : SearchGoal F) (origin : Study engine) (a : Attempt F) : Prop :=
  (evaluateCandidate goal origin a.changes).1.toOption = a.exact

/-- The session behind a parent reference: the start, or the one that the
solved trial of that number left. -/
inductive StandsAt (goal : SearchGoal F) (start : Study engine) (tried : List (Attempt F)) :
    Option ℕ → Study engine → Prop
  | start : StandsAt goal start tried none start
  | trial {p a exact origin left} (hentry : tried[p]? = some a) (hexact : a.exact = some exact)
      (horigin : StandsAt goal start tried a.parent origin)
      (hsolved : evaluateCandidate goal origin a.changes = (.ok exact, left)) :
      StandsAt goal start tried (some p) left

theorem StandsAt.append {goal : SearchGoal F} {start session : Study engine}
    {tried : List (Attempt F)} {parent : Option ℕ} (h : StandsAt goal start tried parent session)
    (added : List (Attempt F)) : StandsAt goal start (tried ++ added) parent session := by
  induction h with
  | start => exact .start
  | trial hentry hexact _ hsolved ih =>
    refine .trial ?_ hexact ih hsolved
    rw [List.getElem?_append_left (List.getElem?_eq_some_iff.mp hentry).1]
    exact hentry

/-- Every attempt was solved from the session its parent reference stands for. -/
def Traced (goal : SearchGoal F) (start : Study engine) (tried : List (Attempt F)) : Prop :=
  ∀ a ∈ tried, ∃ origin, StandsAt goal start tried a.parent origin ∧ a.SolvedFrom goal origin

theorem Traced.append {goal : SearchGoal F} {start current : Study engine}
    {tried added : List (Attempt F)} {parent : Option ℕ} (h : Traced goal start tried)
    (hcurrent : StandsAt goal start tried parent current)
    (hadded : ∀ a ∈ added, a.parent = parent ∧ a.SolvedFrom goal current) :
    Traced goal start (tried ++ added) := by
  intro a ha
  rcases List.mem_append.mp ha with hold | hnew
  · obtain ⟨origin, hstands, hsolved⟩ := h a hold
    exact ⟨origin, hstands.append added, hsolved⟩
  · obtain ⟨hparent, hsolved⟩ := hadded a hnew
    rw [hparent]
    exact ⟨current, hcurrent.append added, hsolved⟩

/-- An exact result of the search: that of the start, or of a trial. -/
def Found (start : Option (ExactCandidate F)) (tried : List (Attempt F))
    (exact : ExactCandidate F) : Prop :=
  start = some exact ∨ ∃ a ∈ tried, a.exact = some exact

omit [Binary64 F] in
theorem found_append {start : Option (ExactCandidate F)} {tried added : List (Attempt F)}
    {exact : ExactCandidate F} :
    Found start (tried ++ added) exact ↔
      Found start tried exact ∨ ∃ a ∈ added, a.exact = some exact := by
  simp only [Found, List.mem_append, or_and_right, exists_or, or_assoc]

/-- The best result is one of those found, and none of them is better by more
than the improvement asked for. Without a best result nothing was found. -/
structure Leads (goal : SearchGoal F) (start : Option (ExactCandidate F))
    (tried : List (Attempt F)) (best : Option (ExactCandidate F)) : Prop where
  finite : ∀ exact, Found start tried exact → isFinite exact.value = true
  found : ∀ exact, best = some exact → Found start tried exact
  unbeaten : ∀ exact, best = some exact → ∀ other, Found start tried other →
    ¬ lt other.value (exact.value - goal.options.minImprovement) = true
  none : best = none → ∀ exact, ¬ Found start tried exact

/-! ### One iteration -/

/-- What the trials of one iteration tried, and the session of the winner. -/
structure BeamTraced (goal : SearchGoal F) (search : Search engine) (beam : Beam engine)
    (added : List (Attempt F)) : Prop where
  tried : attempts beam.result.trials = attempts search.result.trials ++ added
  solved : ∀ a ∈ added, a.parent = search.parentTrial ∧ a.SolvedFrom goal search.current
  winner : ∀ w, beam.winner = some w → ∃ a exact,
    (attempts beam.result.trials)[w.index]? = some a ∧ a.parent = search.parentTrial ∧
      a.exact = some exact ∧ evaluateCandidate goal search.current a.changes = (.ok exact, w.study)

theorem BeamTraced.record {goal : SearchGoal F} {search : Search engine} {beam : Beam engine}
    {added : List (Attempt F)} {t : SearchTrial F} {winner : Option (Winner engine)}
    (h : BeamTraced goal search beam added) (hparent : t.parentTrial = search.parentTrial)
    (hsolved : t.attempt.SolvedFrom goal search.current)
    (hwinner : ∀ w, winner = some w → beam.winner = some w ∨
      w.index = beam.result.trials.length ∧ ∃ exact, t.exact = some exact ∧
        evaluateCandidate goal search.current t.changes = (.ok exact, w.study)) :
    BeamTraced goal search (beam.record t winner) (added ++ [t.attempt]) where
  tried := by
    change attempts (beam.result.trials ++ [t]) = _
    rw [attempts_append, h.tried, List.append_assoc]
    rfl
  solved := by
    intro a ha
    rcases List.mem_append.mp ha with hold | hnew
    · exact h.solved a hold
    · rw [List.mem_singleton.mp hnew]
      exact ⟨hparent, hsolved⟩
  winner := by
    intro w hw
    change ∃ a exact, (attempts (beam.result.trials ++ [t]))[w.index]? = some a ∧ _
    rw [attempts_append]
    rcases hwinner w hw with hold | ⟨hindex, exact, hexact, hleft⟩
    · obtain ⟨a, exact, hentry, hrest⟩ := h.winner w hold
      refine ⟨a, exact, ?_, hrest⟩
      rw [List.getElem?_append_left (List.getElem?_eq_some_iff.mp hentry).1]
      exact hentry
    · refine ⟨t.attempt, exact, ?_, hparent, hexact, hleft⟩
      rw [hindex, List.getElem?_append_right (by simp), length_attempts, Nat.sub_self]
      rfl

theorem trial_traced {goal : SearchGoal F} {search : Search engine} {beam : Beam engine}
    {added : List (Attempt F)} (iteration : ℕ) (gradient candidate : List F)
    (h : BeamTraced goal search beam added) :
    ∃ a, BeamTraced goal search (trial goal search iteration gradient beam candidate)
      (added ++ [a]) := by
  unfold trial
  rcases hrun : evaluateCandidate goal search.current candidate with ⟨message | exact, tested⟩
  · refine ⟨_, h.record rfl ?_ fun w hw => .inl hw⟩
    change (evaluateCandidate goal search.current candidate).1.toOption = none
    rw [hrun]
    rfl
  · refine ⟨_, h.record rfl ?_ ?_⟩
    · change (evaluateCandidate goal search.current candidate).1.toOption = some exact
      rw [hrun]
      rfl
    · intro w hw
      rw [nextWinner] at hw
      split at hw
      · cases hw
        exact .inr ⟨rfl, exact, rfl, hrun⟩
      · exact .inl hw

theorem trials_traced {goal : SearchGoal F} {search : Search engine} {iteration : ℕ}
    {gradient : List F} (candidates : List (List F)) (beam : Beam engine)
    (added : List (Attempt F)) (h : BeamTraced goal search beam added) :
    (trials goal search iteration gradient candidates beam).All
      fun beam => ∃ added, BeamTraced goal search beam added := by
  induction candidates generalizing beam added with
  | nil => exact ⟨added, h⟩
  | cons candidate rest ih =>
    rw [trials, Checkpoint.all_bind, Checkpoint.all_cancelled]
    rintro (_ | _)
    · by_cases hspent : beam.result.solveCount ≥ goal.options.maxSolves
      · simp only [hspent, if_true]
        exact ⟨added, h.tried, h.solved, h.winner⟩
      · simp only [hspent, if_false]
        obtain ⟨a, ha⟩ := trial_traced iteration gradient candidate h
        exact ih _ _ ha
    · exact ⟨added, h.tried, h.solved, h.winner⟩

/-- The loop head: the current session is that of the parent reference. -/
structure Standing (goal : SearchGoal F) (start : Study engine) (search : Search engine) :
    Prop where
  traced : Traced goal start (attempts search.result.trials)
  current : StandsAt goal start (attempts search.result.trials) search.parentTrial search.current

theorem Standing.withDirection {goal : SearchGoal F} {start : Study engine}
    {search : Search engine} (h : Standing goal start search) (direction : ObjectiveResult F) :
    Standing goal start { search with result :=
      { search.result with directions := search.result.directions ++ [direction] } } :=
  ⟨h.traced, h.current⟩

theorem settle_standing {goal : SearchGoal F} {start : Study engine} {search : Search engine}
    {beam : Beam engine} {added : List (Attempt F)} (hstanding : Standing goal start search)
    (hbeam : BeamTraced goal search beam added) :
    Standing goal start (settle search beam).1 := by
  have htraced : Traced goal start (attempts beam.result.trials) := by
    rw [hbeam.tried]
    exact hstanding.traced.append hstanding.current hbeam.solved
  have hcurrent : StandsAt goal start (attempts beam.result.trials) search.parentTrial
      search.current := by
    rw [hbeam.tried]
    exact hstanding.current.append added
  unfold settle
  cases hwinner : beam.winner with
  | none =>
    simp only
    split <;> exact ⟨htraced, hcurrent⟩
  | some w =>
    obtain ⟨a, exact, hentry, hparent, hexact, hsolved⟩ := hbeam.winner w hwinner
    have htried : attempts (accept search beam w).result.trials = attempts beam.result.trials :=
      attempts_accept _ _
    refine ⟨?_, ?_⟩
    · rw [htried]
      exact htraced
    · rw [htried]
      refine .trial hentry hexact ?_ hsolved
      rw [hparent]
      exact hcurrent

section Lawful

variable [LawfulBinary64 F]

/-- The winner of an iteration leads it, and so does the best result before it
when there is no winner. -/
theorem settle_leads {goal : SearchGoal F} {study : Study engine}
    {start : Option (ExactCandidate F)} {search : Search engine} {beam : Beam engine}
    {added : List (SearchTrial F)}
    (hfinite : isFinite goal.options.minImprovement = true)
    (hnonneg : ¬ lt goal.options.minImprovement 0 = true)
    (hhead : Head goal study start search) (hbeam : BeamInv goal search beam added)
    (hleads : Leads goal start (attempts search.result.trials) search.result.best) :
    Leads goal start (attempts (settle search beam).1.result.trials)
      (settle search beam).1.result.best := by
  have hfound {exact : ExactCandidate F} :
      Found start (attempts beam.result.trials) exact ↔
        Found start (attempts search.result.trials) exact ∨
          ∃ t ∈ added, t.exact = some exact := by
    rw [hbeam.trials, attempts_append, found_append]
    simp [attempts, SearchTrial.attempt]
  have hfinites (exact : ExactCandidate F)
      (h : Found start (attempts beam.result.trials) exact) : isFinite exact.value = true := by
    rcases hfound.mp h with hold | ⟨t, ht, hexact⟩
    · exact hleads.finite exact hold
    · exact ((hbeam.tried t ht).exact exact hexact).2
  cases hwinner : beam.winner with
  | none =>
    have hbest := hbeam.best
    have hkept : Leads goal start (attempts beam.result.trials) beam.result.best := by
      refine ⟨hfinites, ?_, ?_, ?_⟩
      · intro exact hexact
        exact hfound.mpr (.inl (hleads.found exact (hbest ▸ hexact)))
      · intro exact hexact other hother
        rw [hbest] at hexact
        rcases hfound.mp hother with hold | ⟨t, ht, hsolved⟩
        · exact hleads.unbeaten exact hexact other hold
        · rw [← hhead.value exact hexact]
          exact (hbeam.no_winner hwinner t ht other hsolved).2
      · intro hnone exact hexact
        rw [hbest] at hnone
        rcases hfound.mp hexact with hold | ⟨t, ht, hsolved⟩
        · exact hleads.none hnone exact hold
        · have hsome := (hbeam.no_winner hwinner t ht exact hsolved).1
          rw [hnone] at hsome
          cases hsome
    unfold settle
    rw [hwinner]
    simp only
    split <;> exact hkept
  | some w =>
    obtain ⟨⟨k, t, exact, hk, hindex, hexact, hvalue⟩, himproves, hunbeaten⟩ :=
      hbeam.winner w hwinner
    have hbest : (accept search beam w).result.best = some exact := by
      change ((beam.result.trials.modify w.index _)[w.index]?).bind _ = _
      rw [List.getElem?_modify, hbeam.trials, hindex, List.getElem?_append_right (by omega),
        Nat.add_sub_cancel_left, hk]
      simpa using hexact
    have htried : attempts (accept search beam w).result.trials = attempts beam.result.trials :=
      attempts_accept _ _
    have hwfound : Found start (attempts beam.result.trials) exact :=
      hfound.mpr (.inr ⟨t, List.mem_of_getElem? hk, hexact⟩)
    unfold settle
    rw [hwinner]
    simp only
    rw [htried, hbest]
    refine ⟨hfinites, ?_, ?_, nofun⟩
    · rintro _ ⟨⟩
      exact hwfound
    · rintro _ ⟨⟩ other hother
      rw [hvalue]
      rcases hfound.mp hother with hold | ⟨u, hu, hsolved⟩
      · -- What was found before is no better than the best result before.
        cases hbefore : search.result.best with
        | none => exact absurd hold (hleads.none hbefore other)
        | some best =>
          have hlt := himproves (by rw [hbefore]; rfl)
          rw [hhead.value best hbefore] at hlt
          refine not_lt_sub_of_lt ?_ hfinite hnonneg hlt (hleads.unbeaten best hbefore other hold)
          rw [← hvalue]
          exact hfinites exact hwfound
      · exact hunbeaten u hu other hsolved

/-! ### The whole search -/

/-- What a search says, which sessions its trials were solved from, and what
its best result beats. -/
structure Account (goal : SearchGoal F) (study : Study engine)
    (start : Option (ExactCandidate F)) (result : SearchResult F) : Prop where
  report : Report goal start result
  traced : Traced goal study.fork (attempts result.trials)
  leads : Leads goal start (attempts result.trials) result.best

theorem iterations_account [DecidableEq F] {goal : SearchGoal F} {study : Study engine}
    {start : Option (ExactCandidate F)}
    (hfinite : isFinite goal.options.minImprovement = true)
    (hnonneg : ¬ lt goal.options.minImprovement 0 = true)
    (remaining : ℕ) (search : Search engine) (hhead : Head goal study start search)
    (hstanding : Standing goal study.fork search)
    (hleads : Leads goal start (attempts search.result.trials) search.result.best) :
    (iterations goal remaining search).All fun search => Account goal study start search.result := by
  induction remaining generalizing search with
  | zero => exact ⟨hhead.report, hstanding.traced, hleads⟩
  | succ remaining ih =>
    have hstop (termination : String) :
        Account goal study start (stop search termination).result :=
      ⟨(hhead.stop termination).1, hstanding.traced, hleads⟩
    rw [iterations, Checkpoint.all_bind, Checkpoint.all_cancelled]
    rintro (_ | _)
    · by_cases hspent : search.result.solveCount ≥ goal.options.maxSolves
      · simp only [hspent, if_true]
        exact hstop _
      simp only [hspent, if_false]
      cases hdirection : search.current.objectiveGradient goal.objective goal.space
          search.changes with
      | error message => exact hstop _
      | ok direction =>
        have hnext := hhead.withDirection direction
        simp only [Bool.false_eq_true, if_false]
        split
        · exact ⟨(hnext.stop _).1, hstanding.traced, hleads⟩
        · rw [Checkpoint.all_bind]
          refine ((trials_inv hfinite hnonneg _ ?_ _ [] hnext.blank).and
            (trials_traced _ _ [] ⟨(List.append_nil _).symm, by simp, by simp⟩)).mono ?_
          · intro c hc
            exact candidateMoves_feasible (List.mem_of_mem_take hc)
          · rintro beam ⟨⟨added, hbeam⟩, tried, htraced⟩
            obtain ⟨hreport, -, hcontinue⟩ := settle_spec hnext hbeam
            have hsettled := settle_standing (hstanding.withDirection direction) htraced
            have hbest := settle_leads hfinite hnonneg hnext hbeam hleads
            split
            next hcontinues => exact ih _ (hcontinue hcontinues) hsettled hbest
            next => exact ⟨hreport, hsettled.traced, hbest⟩
    · exact hstop _

omit [LawfulBinary64 F] in
theorem openSearch_blank [DecidableEq F] {study : Study engine} {goal : SearchGoal F}
    {startChanges : List F} {search : Search engine}
    (h : openSearch study goal startChanges = .ok search) :
    search.result.trials = [] ∧ search.parentTrial = none ∧ search.current = study.fork := by
  unfold openSearch at h
  simp only [bind_eq_ok, error_bind, ite_error_eq_ok, pure_eq_ok] at h
  obtain ⟨_, -, _, -, _, -, -, _, -, _, -, _, -, rfl⟩ := h
  exact ⟨rfl, rfl, rfl⟩

theorem Starts.leads {study : Study engine} {goal : SearchGoal F} {startChanges : List F}
    {baseline : F} {start : Option (ExactCandidate F)}
    (h : Starts study goal startChanges baseline start)
    (hfinite : isFinite goal.options.minImprovement = true)
    (hnonneg : ¬ lt goal.options.minImprovement 0 = true) : Leads goal start [] start := by
  have hfound {exact : ExactCandidate F} : Found start [] exact ↔ start = some exact := by
    simp [Found]
  have hstart (exact : ExactCandidate F) (hexact : start = some exact) :
      isFinite exact.value = true := by
    cases hfeasible : goal.space.feasible startChanges (lit 1e-7) with
    | true =>
      obtain ⟨own, hown, hvalue, -⟩ := h.feasible hfeasible
      rw [hown] at hexact
      cases hexact
      rw [hvalue]
      exact Study.objectiveValue_isFinite h.value
    | false =>
      rw [h.infeasible hfeasible] at hexact
      cases hexact
  refine ⟨fun exact hexact => hstart exact (hfound.mp hexact), fun exact => hfound.mpr, ?_, ?_⟩
  · intro exact hexact other hother
    have hsame : start = some other := hfound.mp hother
    rw [hexact] at hsame
    cases hsame
    exact not_lt_sub_self (hstart exact hexact) hfinite hnonneg
  · intro hnone exact hexact
    rw [hfound.mp hexact] at hnone
    cases hnone

/-- What a search that is not refused leaves behind. -/
def Accounts [DecidableEq F] (goal : SearchGoal F) (startChanges : List F) (study : Study engine) :
    Result (SearchResult F) → Prop
  | .ok result => ∃ baseline start, Starts study goal startChanges baseline start ∧
      Account goal study start result
  | .error failure => failure.Returned

theorem exploreAsync_account [DecidableEq F] (goal : SearchGoal F) (startChanges : List F)
    (study : Study engine) :
    (exploreAsync goal startChanges study).All fun outcome =>
      Accounts goal startChanges study outcome.1 := by
  unfold exploreAsync
  cases hopen : openSearch study goal startChanges with
  | error message => exact trivial
  | ok search =>
    obtain ⟨hfinite, hnonneg, baseline, start, hstarts, hhead⟩ := openSearch_head hopen
    obtain ⟨htrials, hparent, hcurrent⟩ := openSearch_blank hopen
    have hbest : search.result.best = start := by
      rw [hhead.best, hparent]
      rfl
    have hstanding : Standing goal study.fork search := by
      constructor
      · rw [htrials]
        simp [Traced, attempts]
      · rw [hparent, hcurrent]
        exact .start
    have hleads : Leads goal start (attempts search.result.trials) search.result.best := by
      rw [htrials, hbest]
      exact hstarts.leads hfinite hnonneg
    rw [Checkpoint.all_bind]
    refine (iterations_account hfinite hnonneg _ search hhead hstanding hleads).mono ?_
    exact fun last haccount => ⟨baseline, start, hstarts, haccount⟩

end Lawful

end Trace

end Tellegen
