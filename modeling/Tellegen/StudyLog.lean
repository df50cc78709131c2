import Tellegen.Sample

/-!
Runs of session operations. The sessions opened so far are a list that an
operation addresses by position, and a fork adds a session at its end. Each
entry also records the sensitivity cells that its last solve was asked for;
the program keeps no such record, and nothing it does depends on it.

The result kept by a session is always that of solving its base case with the
net edits of its log under its constraints. A refused operation leaves every
session as it was.
-/

open Binary64

namespace Tellegen

variable {F : Type} [Binary64 F] {engine : Engine F}

namespace Study

/-- The retained solve is the one of the base case with the folded log. -/
structure Exact (study : Study engine) (cells : List SensRequest) : Prop where
  solved : engine.solveState study.input study.base (study.request study.log cells) =
    .ok study.solved
  last : engine.assemble study.solved (study.request study.log cells) = .ok study.last

/-- What an operation may do: nothing when it fails, and an exact solve of the
same base case when it succeeds. -/
def SolvesOrRestores (operation : Operation engine) (cells : List SensRequest) : Prop :=
  ∀ study, match operation study with
    | (.error _, after) => after = study
    | (.ok response, after) =>
      after.Exact cells ∧ after.last = response ∧ after.base = study.base ∧
        after.input = study.input ∧ after.formulation = study.formulation

theorem solveLog_eq_ok {study : Study engine} {log : List (NetworkEdit F)}
    {cells : List SensRequest} {solved : engine.Solved} {last : SolveResponse F}
    (h : study.solveLog log cells = .ok (solved, last)) :
    engine.solveState study.input study.base (study.request log cells) = .ok solved ∧
      engine.assemble solved (study.request log cells) = .ok last := by
  unfold solveLog at h
  cases hsolved : engine.solveState study.input study.base (study.request log cells) with
  | error message => simp [hsolved, bind, Except.bind] at h
  | ok state =>
    cases hlast : engine.assemble state (study.request log cells) with
    | error message => simp [hsolved, hlast, bind, Except.bind] at h
    | ok response =>
      simp only [hsolved, hlast, bind, Except.bind, pure, Except.pure, Except.ok.injEq,
        Prod.mk.injEq] at h
      obtain ⟨rfl, rfl⟩ := h
      exact ⟨rfl, hlast⟩

theorem commitLog_solvesOrRestores (log : List (NetworkEdit F)) (bounds : List ℕ)
    (cells : List SensRequest) :
    SolvesOrRestores (commitLog log bounds cells : Operation engine) cells := by
  intro study
  unfold commitLog
  cases hvalid : validateNetworkEdits study.base log with
  | error message => rfl
  | ok _ =>
    cases hsolve : study.solveLog log cells with
    | error message => rfl
    | ok result =>
      obtain ⟨solved, last⟩ := result
      obtain ⟨hsolved, hlast⟩ := solveLog_eq_ok hsolve
      exact ⟨⟨hsolved, hlast⟩, rfl, rfl, rfl, rfl⟩

theorem commitWith_solvesOrRestores (edits : List (NetworkEdit F)) (cells : List SensRequest) :
    SolvesOrRestores (commitWith edits cells : Operation engine) cells :=
  fun study => commitLog_solvesOrRestores (study.log ++ edits) _ cells study

theorem replaceEditsWith_solvesOrRestores (edits : List (NetworkEdit F))
    (cells : List SensRequest) :
    SolvesOrRestores (replaceEditsWith edits cells : Operation engine) cells :=
  commitLog_solvesOrRestores edits _ cells

/-- The constraints come back by hand, so the failed branch is an equality of
records and not a discarded copy. -/
theorem setConstraints_solvesOrRestores (constraints : List (LinearConstraint F)) :
    SolvesOrRestores (setConstraints constraints : Operation engine) [] := by
  intro study
  unfold setConstraints
  cases hsolve : ({ study with constraints } : Study engine).solveLog study.log [] with
  | error message => simp only [hsolve]
  | ok result =>
    obtain ⟨solved, last⟩ := result
    obtain ⟨hsolved, hlast⟩ := solveLog_eq_ok hsolve
    simp only [hsolve, and_true]
    exact ⟨hsolved, hlast⟩

omit [Binary64 F] in
theorem fork_eq (study : Study engine) : study.fork = study := rfl

theorem new_exact {moduleJson : String} {formulation : Problem} {study : Study engine}
    (h : Study.new engine moduleJson formulation = .ok study) : study.Exact [] := by
  have hopen (base : engine.Network) (input : StudyInput engine.Instance) (json : String)
      (hstudy : fromNetworkAndModule engine base input formulation json = .ok study) :
      study.Exact [] := by
    unfold fromNetworkAndModule at hstudy
    simp only [bind, Except.bind] at hstudy
    split at hstudy
    · cases hstudy
    split at hstudy
    · cases hstudy
    next solved hsolved =>
      split at hstudy
      · cases hstudy
      next last hlast =>
        cases hstudy
        exact ⟨hsolved, hlast⟩
  unfold Study.new at h
  cases hmodule : engine.deserializeModule moduleJson with
  | error message => simp [hmodule, bind, Except.bind] at h
  | ok pioModule =>
    simp only [hmodule, bind, Except.bind, fromDynamicModule] at h
    split at h
    · cases h
    · split at h
      · exact hopen _ _ _ h
      · exact hopen _ _ _ h
      · exact hopen _ _ _ h
      · exact hopen _ _ _ h
      · cases h

end Study

/-! ### Runs -/

structure Session (engine : Engine F) where
  study : Study engine
  cells : List SensRequest

inductive Command (F : Type) where
  | commitWith (session : ℕ) (edits : List (NetworkEdit F)) (cells : List SensRequest)
  | replaceEditsWith (session : ℕ) (edits : List (NetworkEdit F)) (cells : List SensRequest)
  | setConstraints (session : ℕ) (constraints : List (LinearConstraint F))
  | fork (session : ℕ)

namespace Session

def perform (session : Session engine) (operation : Study.Operation engine)
    (cells : List SensRequest) : Except String Unit × Session engine :=
  match operation session.study with
  | (.ok _, study) => (.ok (), { study, cells })
  | (.error message, study) => (.error message, { session with study })

def update (sessions : List (Session engine)) (position : ℕ) (operation : Study.Operation engine)
    (cells : List SensRequest) : Except String Unit × List (Session engine) :=
  match sessions[position]? with
  | none => (.error "no such session", sessions)
  | some session =>
    let (result, after) := session.perform operation cells
    (result, sessions.set position after)

def step (sessions : List (Session engine)) :
    Command F → Except String Unit × List (Session engine)
  | .commitWith position edits cells => update sessions position (Study.commitWith edits cells) cells
  | .replaceEditsWith position edits cells =>
    update sessions position (Study.replaceEditsWith edits cells) cells
  | .setConstraints position constraints =>
    update sessions position (Study.setConstraints constraints) []
  | .fork position =>
    match sessions[position]? with
    | none => (.error "no such session", sessions)
    | some session => (.ok (), sessions ++ [{ session with study := session.study.fork }])

def run (sessions : List (Session engine)) (commands : List (Command F)) :
    List (Session engine) :=
  commands.foldl (fun sessions command => (step sessions command).2) sessions

/-- The session solves the base case that `opened` did, exactly. -/
structure Consistent (opened : Study engine) (session : Session engine) : Prop where
  base : session.study.base = opened.base
  input : session.study.input = opened.input
  formulation : session.study.formulation = opened.formulation
  exact : session.study.Exact session.cells

variable {opened : Study engine} {sessions : List (Session engine)}

theorem update_consistent {operation : Study.Operation engine} {cells : List SensRequest}
    (hop : Study.SolvesOrRestores operation cells)
    (h : ∀ session ∈ sessions, session.Consistent opened) (position : ℕ) :
    ∀ session ∈ (update sessions position operation cells).2, session.Consistent opened := by
  unfold update
  cases hfound : sessions[position]? with
  | none => exact h
  | some session =>
    have hsession : session.Consistent opened := h session (List.mem_of_getElem? hfound)
    have hspec := hop session.study
    have hafter : (session.perform operation cells).2.Consistent opened := by
      unfold perform
      rcases hrun : operation session.study with ⟨message | response, after⟩
      · simp only [hrun] at hspec ⊢
        subst hspec
        exact hsession
      · simp only [hrun] at hspec ⊢
        obtain ⟨hexact, -, hbase, hinput, hformulation⟩ := hspec
        exact ⟨hbase.trans hsession.base, hinput.trans hsession.input,
          hformulation.trans hsession.formulation, hexact⟩
    intro other hother
    rcases List.mem_or_eq_of_mem_set hother with hmem | rfl
    · exact h other hmem
    · exact hafter

theorem update_error {operation : Study.Operation engine} {cells : List SensRequest}
    (hop : Study.SolvesOrRestores operation cells) (position : ℕ) (message : String)
    (herror : (update sessions position operation cells).1 = .error message) :
    (update sessions position operation cells).2 = sessions := by
  unfold update at herror ⊢
  cases hfound : sessions[position]? with
  | none => rfl
  | some session =>
    have hspec := hop session.study
    simp only [hfound] at herror ⊢
    have hsame : (session.perform operation cells).2 = session := by
      unfold perform at herror ⊢
      rcases hrun : operation session.study with ⟨failure | response, after⟩
      · simp only [hrun] at hspec
        rw [hspec]
      · simp [hrun] at herror
    rw [hsame]
    exact List.ext_getElem? fun n => by
      rw [List.getElem?_set]
      split
      · next heq =>
          subst heq
          rw [hfound]
          simp [(List.getElem?_eq_some_iff.mp hfound).1]
      · rfl

theorem step_consistent (h : ∀ session ∈ sessions, session.Consistent opened)
    (command : Command F) :
    ∀ session ∈ (step sessions command).2, session.Consistent opened := by
  cases command with
  | commitWith position edits cells =>
    exact update_consistent (Study.commitWith_solvesOrRestores edits cells) h position
  | replaceEditsWith position edits cells =>
    exact update_consistent (Study.replaceEditsWith_solvesOrRestores edits cells) h position
  | setConstraints position constraints =>
    exact update_consistent (Study.setConstraints_solvesOrRestores constraints) h position
  | fork position =>
    cases hfound : sessions[position]? with
    | none => simpa only [step, hfound] using h
    | some session =>
      intro other hother
      simp only [step, hfound] at hother
      rcases List.mem_append.mp hother with hmem | hnew
      · exact h other hmem
      · rw [List.mem_singleton] at hnew
        subst hnew
        rw [Study.fork_eq]
        exact h session (List.mem_of_getElem? hfound)

theorem run_consistent (h : ∀ session ∈ sessions, session.Consistent opened)
    (commands : List (Command F)) :
    ∀ session ∈ run sessions commands, session.Consistent opened := by
  induction commands generalizing sessions with
  | nil => exact h
  | cons command rest ih => exact ih (step_consistent h command)

theorem step_error (command : Command F) (message : String)
    (herror : (step sessions command).1 = .error message) :
    (step sessions command).2 = sessions := by
  cases command with
  | commitWith position edits cells =>
    exact update_error (Study.commitWith_solvesOrRestores edits cells) position message herror
  | replaceEditsWith position edits cells =>
    exact update_error (Study.replaceEditsWith_solvesOrRestores edits cells) position message
      herror
  | setConstraints position constraints =>
    exact update_error (Study.setConstraints_solvesOrRestores constraints) position message
      herror
  | fork position =>
    cases hfound : sessions[position]? with
    | none => simp only [step, hfound]
    | some session => simp [step, hfound] at herror

end Session

/-- After any sequence of operations on the sessions grown from one opened
case, every session holds the exact solve of that case with its own net edits
and constraints, and the next operation, if refused, changes nothing. -/
theorem sessions_hold_exact_solves {moduleJson : String} {formulation : Problem}
    {opened : Study engine} (h : Study.new engine moduleJson formulation = .ok opened)
    (commands : List (Command F)) :
    let sessions := Session.run [{ study := opened, cells := [] }] commands
    (∀ session ∈ sessions, session.Consistent opened) ∧
      ∀ command message, (Session.step sessions command).1 = .error message →
        (Session.step sessions command).2 = sessions := by
  refine ⟨Session.run_consistent ?_ commands, fun command message => Session.step_error command message⟩
  intro session hsession
  rw [List.mem_singleton] at hsession
  subst hsession
  exact ⟨rfl, rfl, rfl, Study.new_exact h⟩

open Sample Outcome in
/-- A session on a one-bus case takes an edit, is refused one beyond capacity,
and is forked. -/
theorem sessions_hold_exact_solves_oneBus :
    ∃ opened : Study Sample.engine,
      Study.new Sample.engine (caseText (oneBus 1 10)) .dcOpf = .ok opened ∧
        let sessions := Session.run [{ study := opened, cells := [] }]
          [.commitWith 0 [.addLoad (.id 1) 5] [], .commitWith 0 [.addLoad (.id 1) 1000] [],
            .fork 0]
        (∀ session ∈ sessions, session.Consistent opened) ∧
          ∀ command message, (Session.step sessions command).1 = .error message →
            (Session.step sessions command).2 = sessions := by
  obtain ⟨opened, hopened⟩ := exists_ok
    (x := Study.new Sample.engine (caseText (oneBus 1 10)) .dcOpf) (by decide +kernel)
  exact ⟨opened, hopened, sessions_hold_exact_solves hopened _⟩

end Tellegen
